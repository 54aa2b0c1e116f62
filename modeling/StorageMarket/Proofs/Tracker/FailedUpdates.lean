import Mathlib.Algebra.Module.Submodule.Lattice
import Mathlib.Data.List.Permutation
import StorageMarket.Proofs.Tracker.Update

/-!
# Failed updates leave no trace

An update that fails, wherever it does, leaves a reachable tracker exactly as it was.
So a run may contain failed updates anywhere: without them it ends in the same tracker,
and everything else that is done comes out the same.

In a run, each update brings the chain it asks with it, as that chain stands then. So
an update gets the same answers whether or not another one is left out.
-/

namespace StorageMarket

/-- An update that is to be made: over which chain, as it stands, and up to when. -/
structure Attempt where
  World : Type
  source : Source World
  oracle : Oracle World
  world : World
  target : Instant

/-- What can be done with a tracker. -/
inductive Use where
  | attach (audit : Audit)
  | update (attempt : Attempt)
  | drain

inductive Effect where
  | attached
  | failed (e : UpdateError)
  | updated (outcome : Outcome)
  | drained (reports : List Report)

namespace Effect

def isFailed : Effect → Bool
  | failed _ => true
  | _ => false

/-- What there is to tell. -/
def notices : Effect → List Notice
  | updated outcome => outcome.notices
  | _ => []

def reports : Effect → List Report
  | updated outcome => outcome.reports
  | _ => []

end Effect

/-- What was done, each with what came of it. -/
abbrev Log := List (Use × Effect)

namespace Log

/-- What was done, without the updates that failed. -/
def kept (log : Log) : Log := log.filter fun entry => !entry.2.isFailed

/-- All that there was to tell. -/
def notices (log : Log) : List Notice := log.flatMap fun entry => entry.2.notices

def reports (log : Log) : List Report := log.flatMap fun entry => entry.2.reports

/-- What failed updates have none of is all there, in order, without them. -/
theorem flatMap_kept {α : Type} {f : Effect → List α} (hf : ∀ e, f (.failed e) = []) (log : Log) :
    (log.kept.flatMap fun entry => f entry.2) = log.flatMap fun entry => f entry.2 := by
  induction log with
  | nil => rfl
  | cons entry log ih =>
      obtain ⟨use, effect⟩ := entry
      rw [List.flatMap_cons, ← ih]
      cases effect with
      | failed e => rw [hf, List.nil_append, kept, List.filter_cons_of_neg (by simp [Effect.isFailed]), ← kept]
      | attached => rfl
      | updated outcome => rfl
      | drained reports => rfl

end Log

namespace Tracker

def use (tracker : Tracker) : Use → Effect × Tracker
  | .attach audit => (.attached, tracker.withAudit audit)
  | .update attempt =>
      match update attempt.source attempt.oracle attempt.target (attempt.world, tracker) with
      | .ok outcome (_, tracker) => (.updated outcome, tracker)
      | .error e (_, tracker) => (.failed e, tracker)
  | .drain => (.drained tracker.drain.1, tracker.drain.2)

def useAll (tracker : Tracker) : List Use → Log × Tracker
  | [] => ([], tracker)
  | use :: uses =>
      let first := tracker.use use
      let others := first.2.useAll uses
      ((use, first.1) :: others.1, others.2)

theorem use_update_cases (tracker : Tracker) (attempt : Attempt) :
    (∃ e state, update attempt.source attempt.oracle attempt.target (attempt.world, tracker)
          = .error e state ∧ tracker.use (.update attempt) = (.failed e, state.2)) ∨
      ∃ outcome state, update attempt.source attempt.oracle attempt.target (attempt.world, tracker)
          = .ok outcome state ∧ tracker.use (.update attempt) = (.updated outcome, state.2) := by
  rw [use]
  cases update attempt.source attempt.oracle attempt.target (attempt.world, tracker) with
  | error e state => exact .inl ⟨e, state, rfl, rfl⟩
  | ok outcome state => exact .inr ⟨outcome, state, rfl, rfl⟩

theorem Reachable.use {tracker : Tracker} (h : tracker.Reachable) (use : Use) :
    (tracker.use use).2.Reachable := by
  cases use with
  | attach audit => exact h.withAudit audit
  | update attempt =>
      have hleft := h.update attempt.source attempt.oracle attempt.target attempt.world
      rcases tracker.use_update_cases attempt with
        ⟨e, state, hresult, huse⟩ | ⟨outcome, state, hresult, huse⟩ <;>
      · rw [huse]
        rw [hresult] at hleft
        exact hleft
  | drain => exact h.drain

theorem Settled.use_failed {tracker : Tracker} (h : tracker.Settled) {use : Use}
    (hfail : (tracker.use use).1.isFailed = true) : (tracker.use use).2 = tracker := by
  cases use with
  | attach audit => exact nomatch hfail
  | update attempt =>
      rcases tracker.use_update_cases attempt with
        ⟨e, state, hresult, huse⟩ | ⟨outcome, state, _, huse⟩ <;> rw [huse] at hfail ⊢
      · have hsame : state.2 = tracker := h.update_error hresult
        exact hsame
      · exact nomatch hfail
  | drain => exact nomatch hfail

/-- Without what failed, all else comes out the same. -/
theorem Reachable.useAll_kept {tracker : Tracker} (h : tracker.Reachable) (uses : List Use) :
    tracker.useAll ((tracker.useAll uses).1.kept.map Prod.fst)
      = ((tracker.useAll uses).1.kept, (tracker.useAll uses).2) := by
  induction uses generalizing tracker with
  | nil => rfl
  | cons use uses ih =>
      have ih := ih (h.use use)
      cases hfail : (tracker.use use).1.isFailed with
      | true =>
          have hsame := h.settled.use_failed hfail
          have hkept : (tracker.useAll (use :: uses)).1.kept = (tracker.useAll uses).1.kept := by
            rw [useAll, hsame]
            exact List.filter_cons_of_neg (by simp [hfail])
          have hafter : (tracker.useAll (use :: uses)).2 = (tracker.useAll uses).2 := by
            rw [useAll, hsame]
          rw [hsame] at ih
          rw [hkept, hafter, ih]
      | false =>
          have hkept : (tracker.useAll (use :: uses)).1.kept
              = (use, (tracker.use use).1) :: ((tracker.use use).2.useAll uses).1.kept :=
            List.filter_cons_of_pos (by simp [hfail])
          rw [hkept, List.map_cons, useAll, ih]
          rfl

/-- A failed update leaves a reachable tracker as it was, whatever the chain answers. In a run,
the updates that fail can be left out: all else comes out the same, the same notices are told
and the same reports are written, and the run ends in the same tracker. -/
theorem failed_updates_leave_no_trace {tracker : Tracker} (h : tracker.Reachable) :
    (∀ {σ : Type} (source : Source σ) (oracle : Oracle σ) (target : Instant) (world : σ)
        (e : UpdateError) (state : σ × Tracker),
      update source oracle target (world, tracker) = .error e state → state.2 = tracker) ∧
    ∀ (uses : List Use) (log : Log) (last : Tracker), tracker.useAll uses = (log, last) →
      tracker.useAll (log.kept.map Prod.fst) = (log.kept, last) ∧
        log.kept.notices = log.notices ∧ log.kept.reports = log.reports := by
  constructor
  · intro σ source oracle target world e state hfail
    exact h.settled.update_error hfail
  · intro uses log last hrun
    have hkept := h.useAll_kept uses
    rw [hrun] at hkept
    exact ⟨hkept, Log.flatMap_kept (fun _ => rfl) log, Log.flatMap_kept (fun _ => rfl) log⟩

/-- A chain of two blocks that both publish the same request. -/
def sampleSource : Source Unit where
  fetch window := pure (Batch.ofEvents window
    (some ⟨⟨1, 2, by decide⟩, ⟨⟨200, 0, by decide⟩, ⟨210, 0, by decide⟩, by decide⟩⟩)
    [.published ⟨1, Ledger.sampleRequest 1 2 3600⟩, .published ⟨2, Ledger.sampleRequest 1 2 3600⟩])

/-- An update over that chain, with an oracle that is never in doubt. -/
def sampleAttempt : Attempt where
  World := Unit
  source := sampleSource
  oracle := ⟨fun _ => pure 0, fun _ _ _ _ => pure .notRequired⟩
  world := ()
  target := .latest

theorem failed_updates_leave_no_trace_sampleAttempt :
    (start .silent default).Reachable ∧
      (∃ e state, update sampleAttempt.source sampleAttempt.oracle sampleAttempt.target
          (sampleAttempt.world, start .silent default) = .error e state ∧
        state.2 = start .silent default) ∧
      ∃ log last, (start .silent default).useAll [.update sampleAttempt, .drain] = (log, last) ∧
        log.kept.length = 1 ∧
        (start .silent default).useAll (log.kept.map Prod.fst) = (log.kept, last) := by
  have hreachable : (start .silent default).Reachable := Reachable.start .silent default
  have hsame := failed_updates_leave_no_trace hreachable
  refine ⟨hreachable, ?_, _, _, rfl, by cbv, (hsame.2 [.update sampleAttempt, .drain] _ _ rfl).1⟩
  have hfails : ((start .silent default).use (.update sampleAttempt)).1.isFailed = true := by cbv
  rw [use] at hfails
  cases hresult : update sampleAttempt.source sampleAttempt.oracle sampleAttempt.target
    (sampleAttempt.world, start .silent default) with
  | error e state => exact ⟨e, state, rfl, hsame.1 _ _ _ _ e state hresult⟩
  | ok outcome state =>
      rw [hresult] at hfails
      cases hfails

end Tracker

end StorageMarket
