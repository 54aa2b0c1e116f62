import StorageMarket.Proofs.Tracker.Update

/-!
# How an update can fail

An update whose target does not lie before the mark fails only because of what it was
told: no events could be had, or they make no chronicle, or a request is published
twice, or the oracle is at a loss. So `notAdvancing` says just what its name does.
-/

namespace StorageMarket

namespace Replay

variable {σ α β : Type}

/-- A part of an update that can fail with such errors only. -/
def FailsWith (P : UpdateError → Prop) (part : Replay σ α) : Prop :=
  ∀ state e state', part state = .error e state' → P e

variable {P : UpdateError → Prop}

theorem FailsWith.pure (a : α) : FailsWith P (pure a : Replay σ α) := by
  intro state e state' h
  cases h

theorem FailsWith.bind {part : Replay σ α} {next : α → Replay σ β} (h : FailsWith P part)
    (h' : ∀ a, FailsWith P (next a)) : FailsWith P (part >>= next) := by
  intro state e state' hfail
  have hfail : EStateM.bind part next state = .error e state' := hfail
  rw [EStateM.bind] at hfail
  cases hpart : part state with
  | error e' left =>
      rw [hpart] at hfail
      cases hfail
      exact h state e state' hpart
  | ok a left =>
      rw [hpart] at hfail
      exact h' a left e state' hfail

theorem FailsWith.change {f : Ledger → α × Ledger} : FailsWith P (Replay.change (σ := σ) f) := by
  intro state e state' h
  cases h

/-- The errors of a replay: a request that is published twice, or an oracle at a loss. -/
def IsFault (e : UpdateError) : Prop := (∃ fault, e = .duplicate fault) ∨ ∃ error, e = .oracle error

theorem failsWith_applyEvents (time : Instant) (events : List Event) (notices : Array Notice) :
    FailsWith IsFault (applyEvents (σ := σ) time events notices) := by
  induction events generalizing notices with
  | nil => exact FailsWith.pure notices
  | cons event events ih =>
      rintro ⟨world, ledger⟩ e state' hfail
      rw [applyEvents] at hfail
      cases happly : ledger.apply event time with
      | error fault =>
          simp only [happly] at hfail
          cases hfail
          exact .inl ⟨fault, rfl⟩
      | ok result =>
          simp only [happly] at hfail
          exact ih _ _ e state' hfail

theorem failsWith_audit (oracle : Oracle σ) (audit : Option Audit) (block : Block)
    (staged : Staged) : FailsWith IsFault (Replay.audit oracle audit block staged) := by
  cases audit with
  | none => exact FailsWith.pure staged
  | some audit =>
      rintro ⟨world, ledger⟩ e state' hfail
      simp only [Replay.audit] at hfail
      cases hadvance : Audit.advance oracle audit.maxClosed staged.cursor block.number block.time
        ledger.deals world with
      | ok found world' =>
          rw [hadvance] at hfail
          cases hfail
      | error error world' =>
          rw [hadvance] at hfail
          cases hfail
          exact .inr ⟨error, rfl⟩

theorem failsWith_block (oracle : Oracle σ) (audit : Option Audit) (block : Block)
    (staged : Staged) : FailsWith IsFault (Replay.block oracle audit block staged) := by
  refine (failsWith_audit oracle audit block staged).bind fun staged => ?_
  refine FailsWith.change.bind fun early => ?_
  refine (failsWith_applyEvents block.time block.events _).bind fun notices => ?_
  exact FailsWith.change.bind fun due => FailsWith.pure _

theorem failsWith_blocks (oracle : Oracle σ) (audit : Option Audit) (blocks : List Block)
    (staged : Staged) : FailsWith IsFault (Replay.blocks oracle audit blocks staged) := by
  induction blocks generalizing staged with
  | nil => exact FailsWith.pure staged
  | cons block blocks ih =>
      rw [Replay.blocks, List.foldlM_cons]
      exact (failsWith_block oracle audit block staged).bind ih

theorem failsWith_run (oracle : Oracle σ) (audit : Option Audit) (told : Chronicle)
    (target : Instant) (latestBlock : Option BlockNumber) :
    FailsWith IsFault (run oracle audit told target latestBlock) := by
  refine (failsWith_blocks oracle audit told.blocks _).bind fun staged => ?_
  split
  · exact FailsWith.change.bind fun due => FailsWith.pure _
  · exact FailsWith.pure _

end Replay

namespace Tracker

variable {σ : Type}

theorem lt_of_gather_notAdvancing {source : Source σ} {target moment mark : Instant} {world : σ}
    {tracker : Tracker} {state : σ × Tracker}
    (h : gather source target (world, tracker) = .error (.notAdvancing moment mark) state) :
    target < tracker.mark := by
  by_cases hlt : target < tracker.mark
  · exact hlt
  · simp only [gather, dif_neg hlt] at h
    cases hfetch : source.fetch ⟨tracker.mark, target, Instant.not_lt.1 hlt⟩ world with
    | error e left =>
        rw [hfetch] at h
        cases h
    | ok batch left =>
        simp only [hfetch] at h
        cases htold : Chronicle.ofBatch batch (some tracker.mark) with
        | error fault =>
            rw [htold] at h
            cases h
        | ok told =>
            rw [htold] at h
            cases h

/-- An update fails as gathering does, or as a replay does. -/
theorem update_error {source : Source σ} {oracle : Oracle σ} {target : Instant} {world : σ}
    {tracker : Tracker} {e : UpdateError} {state : σ × Tracker}
    (h : update source oracle target (world, tracker) = .error e state) :
    (∃ world', gather source target (world, tracker) = .error e (world', tracker)) ∨
      Replay.IsFault e := by
  rcases update_cases source oracle target world tracker with
    ⟨e', world', hgather, hupdate⟩ | ⟨window, told, world', _, hupdate⟩
  · rw [hupdate] at h
    cases h
    exact .inl ⟨world', hgather⟩
  · rw [hupdate] at h
    rcases replay_cases oracle window told world' tracker with
      ⟨e', _, _, hrun, hreplay⟩ | ⟨_, _, _, _, hreplay⟩
    · rw [hreplay] at h
      cases h
      exact .inr (Replay.failsWith_run _ _ _ _ _ _ _ _ hrun)
    · rw [hreplay] at h
      cases h

theorem lt_of_update_notAdvancing {source : Source σ} {oracle : Oracle σ}
    {target moment mark : Instant} {world : σ} {tracker : Tracker} {state : σ × Tracker}
    (h : update source oracle target (world, tracker)
      = .error (.notAdvancing moment mark) state) :
    target < tracker.mark := by
  rcases update_error h with ⟨world', hgather⟩ | ⟨_, hfault⟩ | ⟨_, hfault⟩
  · exact lt_of_gather_notAdvancing hgather
  · cases hfault
  · cases hfault

end Tracker

end StorageMarket
