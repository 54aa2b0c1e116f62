import StorageMarket.Proofs.Ledger.Undo

/-!
# Transactions on reachable ledgers

A ledger is reachable if it comes from the empty one by changes and by opening,
keeping and rolling back undo logs, in any order. But for the undo log such a ledger is
made by changes alone; and if an undo log is open on it, the log leads back to a ledger
that is. So it has every property that changes keep, and every transaction on it behaves
as if the whole ledger had been copied in the beginning.
-/

namespace StorageMarket.Ledger

inductive Reachable : Ledger → Prop where
  | empty : Reachable .empty
  | change {ledger : Ledger} (h : Reachable ledger) (change : Change) :
      Reachable (ledger.change change).2
  | begin {ledger : Ledger} (h : Reachable ledger) : Reachable ledger.begin
  | commit {ledger : Ledger} (h : Reachable ledger) : Reachable ledger.commit
  | rollback {ledger : Ledger} (h : Reachable ledger) : Reachable ledger.rollback

theorem Reachable.changeAll {ledger : Ledger} (h : ledger.Reachable) (changes : List Change) :
    (ledger.changeAll changes).2.Reachable := by
  induction changes generalizing ledger with
  | nil => exact h
  | cons change changes ih => exact ih (h.change change)

theorem rollback_of_since {base ledger : Ledger} (hbase : base.Sound) (hclosed : base.undo = none)
    (hsound : ledger.Sound) (h : Since base ledger) : ledger.rollback = base := by
  obtain ⟨log, hopen, htracks⟩ := h
  have := rollback_of_tracks hbase hclosed hsound htracks (List.Perm.refl _)
  rwa [← hopen] at this

theorem since_changeAll_begin {ledger : Ledger} (hclosed : ledger.undo = none)
    (changes : List Change) : Since ledger (ledger.begin.changeAll changes).2 := by
  have := (closed_since ledger.commit).changeAll (since_begin ledger) changes
  rwa [commit_of_closed hclosed] at this

theorem rollback_changeAll_begin {ledger : Ledger} (hsound : ledger.Sound)
    (hclosed : ledger.undo = none) (changes : List Change) :
    (ledger.begin.changeAll changes).2.rollback = ledger :=
  rollback_of_since hsound hclosed (closed_sound.changeAll hsound.begin changes)
    (since_changeAll_begin hclosed changes)

theorem undo_change_of_closed {ledger : Ledger} (h : ledger.undo = none) (change : Change) :
    (ledger.change change).2.undo = none := by
  have := change_commit ledger change
  rw [commit_of_closed h] at this
  rw [this]
  rfl

theorem undo_changeAll_of_closed {ledger : Ledger} (h : ledger.undo = none)
    (changes : List Change) : (ledger.changeAll changes).2.undo = none := by
  induction changes generalizing ledger with
  | nil => exact h
  | cons change changes ih => exact ih (undo_change_of_closed h change)

def made (changes : List Change) : Ledger := (empty.changeAll changes).2

theorem undo_made (changes : List Change) : (made changes).undo = none :=
  undo_changeAll_of_closed rfl changes

theorem made_snoc (changes : List Change) (change : Change) :
    made (changes ++ [change]) = ((made changes).change change).2 := by
  rw [made, changeAll_append]
  rfl

/-- What all changes keep holds of whatever is made by changes. -/
theorem Closed.made {P : Ledger → Prop} (h : Closed P) (hempty : P .empty)
    (changes : List Change) : P (made changes) :=
  h.changeAll hempty changes

theorem sound_made (changes : List Change) : (made changes).Sound :=
  closed_sound.made Sound.empty changes

/-- But for an undo log, the ledger is made by changes alone; and if an undo log is open on it,
the log leads back to a ledger that is. -/
structure Intact (ledger : Ledger) : Prop where
  made : ∃ changes, ledger.commit = made changes
  log : ledger.undo = none ∨ ∃ changes, Since (Ledger.made changes) ledger

theorem Intact.sound {ledger : Ledger} (h : ledger.Intact) : ledger.Sound := by
  obtain ⟨changes, hmade⟩ := h.made
  exact (hmade ▸ sound_made changes : ledger.commit.Sound).congr rfl rfl

theorem Reachable.intact {ledger : Ledger} (h : ledger.Reachable) : ledger.Intact := by
  induction h with
  | empty => exact ⟨⟨[], rfl⟩, .inl rfl⟩
  | @change ledger _ change ih =>
      obtain ⟨changes, hmade⟩ := ih.made
      refine ⟨⟨changes ++ [change], ?_⟩, ?_⟩
      · rw [made_snoc, ← hmade, change_commit]
      · rcases ih.log with hclosed | ⟨changes, hsince⟩
        · exact .inl (undo_change_of_closed hclosed change)
        · exact .inr ⟨changes, (closed_since _).change hsince change⟩
  | @begin ledger _ ih =>
      obtain ⟨changes, hmade⟩ := ih.made
      exact ⟨⟨changes, hmade⟩, .inr ⟨changes, hmade ▸ since_begin ledger⟩⟩
  | commit _ ih => exact ⟨ih.made, .inl rfl⟩
  | @rollback ledger _ ih =>
      rcases ih.log with hclosed | ⟨changes, hsince⟩
      · have hsame : ledger.rollback = ledger := by rw [Ledger.rollback, hclosed]
        exact hsame.symm ▸ ih
      · rw [rollback_of_since (sound_made changes) (undo_made changes) ih.sound hsince]
        exact ⟨⟨changes, commit_of_closed (undo_made changes)⟩, .inl (undo_made changes)⟩

/-- What is done between opening an undo log and rolling back leaves no trace, in whatever order
the entries of the log are gone through; what is done between opening and keeping it is what
would have been done without; and all answers are the same with and without. -/
theorem undo_log_is_snapshot {ledger : Ledger} (h : ledger.Reachable) (hclosed : ledger.undo = none)
    (changes : List Change) :
    (∃ log, (ledger.begin.changeAll changes).2.undo = some log ∧
      ∀ kept, kept.Perm log.kept →
        { (ledger.begin.changeAll changes).2 with undo := some { log with kept } }.rollback
          = ledger) ∧
    (ledger.begin.changeAll changes).2.rollback = ledger ∧
    (ledger.begin.changeAll changes).2.commit = (ledger.changeAll changes).2 ∧
    (ledger.begin.changeAll changes).1 = (ledger.changeAll changes).1 := by
  have hsound := h.intact.sound
  have hsame : ledger.begin.commit = ledger := commit_of_closed hclosed
  have hafter : (ledger.begin.changeAll changes).2.Sound :=
    closed_sound.changeAll hsound.begin changes
  have hwithout := changeAll_commit ledger.begin changes
  rw [hsame] at hwithout
  refine ⟨?_, rollback_changeAll_begin hsound hclosed changes, ?_, ?_⟩
  · obtain ⟨log, hopen, htracks⟩ := since_changeAll_begin hclosed changes
    exact ⟨log, hopen, fun kept hperm => rollback_of_tracks hsound hclosed hafter htracks hperm⟩
  · rw [hwithout]
  · rw [hwithout]

/-! ## A small market -/

def sampleRequest (name : UInt8) (slots duration : UInt64) : Request where
  id := ⟨List.replicate 32 name, List.length_replicate⟩
  client := ⟨List.replicate 20 0, List.length_replicate⟩
  terms := ⟨slots, 0, duration, 0, 0, 0, 0⟩
  contentCid := ""
  expiry := .earliest

/-- Two requests, one of which runs; the other one has a host. -/
def sampleMarket : Ledger :=
  (Ledger.empty.changeAll [
    .create (sampleRequest 1 2 100) 100 default,
    .create (sampleRequest 2 2 3600) 100 default,
    .transition (sampleRequest 1 2 100).id .started,
    .fillSlot (sampleRequest 2 2 3600).id 0 (sampleRequest 1 2 100).client]).2

/-- A deal finishes, one loses its host and starts, and one appears and fails. -/
def sampleTraffic : List Change := [
  .finishDue .latest,
  .freeSlot (sampleRequest 2 2 3600).id 0,
  .transition (sampleRequest 2 2 3600).id .started,
  .transition (sampleRequest 3 1 60).id .started,
  .create (sampleRequest 3 1 60) 110 default,
  .transition (sampleRequest 3 1 60).id .started,
  .transition (sampleRequest 3 1 60).id .failed]

theorem undo_log_is_snapshot_sampleTraffic :
    sampleMarket.Reachable ∧ sampleMarket.undo = none ∧
      (sampleMarket.changeAll sampleTraffic).2 ≠ sampleMarket ∧
      (sampleMarket.begin.changeAll sampleTraffic).2.rollback = sampleMarket ∧
      (sampleMarket.begin.changeAll sampleTraffic).2.commit
        = (sampleMarket.changeAll sampleTraffic).2 := by
  have hreachable : sampleMarket.Reachable := Reachable.empty.changeAll _
  have hclosed : sampleMarket.undo = none := by decide
  have hchanged : (sampleMarket.changeAll sampleTraffic).2 ≠ sampleMarket := by decide +kernel
  have hsnapshot := undo_log_is_snapshot hreachable hclosed sampleTraffic
  exact ⟨hreachable, hclosed, hchanged, hsnapshot.2.1, hsnapshot.2.2.1⟩

end StorageMarket.Ledger
