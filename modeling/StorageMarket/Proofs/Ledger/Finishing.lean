import StorageMarket.Proofs.Ledger.Soundness

/-!
# Finishing in two goes

Deals that are due may be finished at once, or some of them early and the rest later:
the ledger is the same in the end, and the same deals are told in the same order.
-/

namespace StorageMarket.Ledger

theorem note_withDeadlines (ledger : Ledger) (deadlines : Deadlines) (id : RequestId) :
    ({ ledger with deadlines } : Ledger).note id = { ledger.note id with deadlines } := by
  obtain ⟨deals, own, undo⟩ := ledger
  unfold note
  cases undo with
  | none => rfl
  | some log =>
      dsimp only
      split <;> rfl

/-- Which deals are finished, and how, does not depend on the deadlines. -/
theorem finishAll_withDeadlines (ledger : Ledger) (deadlines : Deadlines) (ids : List RequestId) :
    ({ ledger with deadlines } : Ledger).finishAll ids
      = ((ledger.finishAll ids).1, { (ledger.finishAll ids).2 with deadlines }) := by
  induction ids generalizing ledger with
  | nil => rfl
  | cons id ids ih =>
      cases hf : ledger.find? id with
      | none =>
          have hf' : ({ ledger with deadlines } : Ledger).find? id = none := hf
          rw [finishAll_cons_of_none hf, finishAll_cons_of_none hf', note_withDeadlines, ih]
      | some deal =>
          have hf' : ({ ledger with deadlines } : Ledger).find? id = some deal := hf
          have hput : ({ ledger.note id with deadlines } : Ledger).put deal.finish
              = { (ledger.note id).put deal.finish with deadlines } := rfl
          rw [finishAll_cons_of_some hf, finishAll_cons_of_some hf', note_withDeadlines, hput, ih]

/-- Some of the deals that are due may be finished early. -/
theorem finishWhile_finishWhile {early due : Instant → Bool}
    (h : ∀ t, early t = true → due t = true) (ledger : Ledger) :
    ledger.finishWhile due
      = ((ledger.finishWhile early).1 ++ ((ledger.finishWhile early).2.finishWhile due).1,
        ((ledger.finishWhile early).2.finishWhile due).2) := by
  simp only [finishWhile, finishAll_withDeadlines]
  rw [Deadlines.popWhile_popWhile h, finishAll_append]

end StorageMarket.Ledger
