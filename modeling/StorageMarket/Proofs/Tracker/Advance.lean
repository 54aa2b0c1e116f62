import StorageMarket.Proofs.Archive.Telling
import StorageMarket.Proofs.Tracker.Update

/-!
# Runs of updates

One update after the other, each up to a target of its own, with a record of what was
replayed on the way. The run succeeds if all of its updates do.

Over an archive an update never fails to gather, unless its target lies before the mark.
-/

namespace StorageMarket

/-- The chronicle that an update replayed, and what came of it. -/
structure Step where
  told : Chronicle
  outcome : Outcome

namespace Tracker

variable {σ : Type}

def advance (source : Source σ) (oracle : Oracle σ) :
    List Instant → EStateM UpdateError (σ × Tracker) (List Step)
  | [] => pure []
  | target :: targets => do
      let (window, told) ← gather source target
      let outcome ← replay oracle window told
      let steps ← advance source oracle targets
      return ⟨told, outcome⟩ :: steps

theorem outcome_advance (source : Source σ) (oracle : Oracle σ) (targets : List Instant) :
    List.map Step.outcome <$> advance source oracle targets
      = targets.mapM (update source oracle) := by
  induction targets with
  | nil => rfl
  | cons target targets ih =>
      rw [List.mapM_cons, ← ih, update, advance]
      simp only [bind_assoc, map_bind, bind_map_left, map_pure, List.map_cons]

theorem advance_cons_eq_ok {source : Source σ} {oracle : Oracle σ} {target : Instant}
    {targets : List Instant} {steps : List Step} {state last : σ × Tracker} :
    advance source oracle (target :: targets) state = .ok steps last ↔
      ∃ window told outcome rest gathered replayed,
        gather source target state = .ok (window, told) gathered ∧
        replay oracle window told gathered = .ok outcome replayed ∧
        advance source oracle targets replayed = .ok rest last ∧
        steps = ⟨told, outcome⟩ :: rest := by
  rw [advance, state_bind_eq_ok]
  constructor
  · rintro ⟨⟨window, told⟩, gathered, hgather, h⟩
    obtain ⟨outcome, replayed, hreplay, h⟩ := state_bind_eq_ok.1 h
    obtain ⟨rest, final, hrest, h⟩ := state_bind_eq_ok.1 h
    cases h
    exact ⟨window, told, outcome, rest, gathered, replayed, hgather, hreplay, hrest, rfl⟩
  · rintro ⟨window, told, outcome, rest, gathered, replayed, hgather, hreplay, hrest, rfl⟩
    exact ⟨(window, told), gathered, hgather, state_bind_eq_ok.2
      ⟨outcome, replayed, hreplay, state_bind_eq_ok.2 ⟨rest, last, hrest, rfl⟩⟩⟩

theorem gather_of_eventsIn {archive : Archive} {tracker : Tracker} {target : Instant}
    (hle : tracker.mark ≤ target) {batch : Batch} {told : Chronicle}
    (hbatch : archive.eventsIn ⟨tracker.mark, target, hle⟩ = .ok batch)
    (htold : Chronicle.ofBatch batch (some tracker.mark) = .ok told) (world : σ) :
    gather (archive.source σ) target (world, tracker)
      = .ok (⟨tracker.mark, target, hle⟩, told) (world, tracker) := by
  have hfetch : (archive.source σ).fetch ⟨tracker.mark, target, hle⟩ world = .ok batch world := by
    show Archive.ask (archive.eventsIn _) world = _
    rw [hbatch]
    rfl
  rw [gather, dif_neg (Instant.not_lt.2 hle)]
  simp only [hfetch, htold]

/-- Over an archive gathering succeeds, and what is told depends on the mark and the target alone. -/
theorem gather_archive {archive : Archive} (h : archive.recording.InOrder) {mark target : Instant}
    (hle : mark ≤ target) :
    ∃ told, archive.Tells ⟨mark, target, hle⟩ told ∧
      ∀ (world : σ) (tracker : Tracker), tracker.mark = mark →
        gather (archive.source σ) target (world, tracker)
          = .ok (⟨mark, target, hle⟩, told) (world, tracker) := by
  obtain ⟨batch, told, hbatch, htold, htells⟩ :=
    Archive.tells_of_eventsIn h ⟨mark, target, hle⟩
  refine ⟨told, htells, ?_⟩
  rintro world tracker rfl
  exact gather_of_eventsIn hle hbatch htold world

/-- Gathering over an archive fails only if the target lies before the mark. -/
theorem gather_archive_eq_ok {archive : Archive} (h : archive.recording.InOrder) {target : Instant}
    {world : σ} {tracker : Tracker} {window : Window} {told : Chronicle} {state : σ × Tracker}
    (hok : gather (archive.source σ) target (world, tracker) = .ok (window, told) state) :
    window.start = tracker.mark ∧ window.stop = target ∧ archive.Tells window told ∧
      state = (world, tracker) := by
  by_cases hlt : target < tracker.mark
  · rw [gather, dif_pos hlt] at hok
    cases hok
  · obtain ⟨found, htells, hgather⟩ := gather_archive (σ := σ) h (Instant.not_lt.1 hlt)
    rw [hgather world tracker rfl] at hok
    injection hok with hfound hstate
    injection hfound with hwindow htold
    subst hwindow htold hstate
    exact ⟨rfl, rfl, htells, rfl⟩

end Tracker

end StorageMarket
