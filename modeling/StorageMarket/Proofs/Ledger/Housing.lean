import StorageMarket.Proofs.Ledger.Snapshot

/-!
# Slots that a request has

A deal is housed if every slot that has a host is remembered as filled, and every slot
that is remembered is one of the slots of the request. Deals are housed in all ledgers
that are reachable.
-/

namespace StorageMarket

/-- Each slot with a host is known to have been filled, and each slot so known is one of the
request's. -/
structure Deal.Housed (deal : Deal) : Prop where
  remembered : ∀ slot, deal.hosts.isFilled slot = true → deal.hosts.wasEverFilled slot = true
  inRange : ∀ slot, deal.hosts.wasEverFilled slot = true → slot < deal.request.terms.slots

namespace Deal

theorem housed_publish (request : Request) (block : BlockNumber) (time : Instant) :
    (Deal.publish request block time).Housed where
  remembered slot h := absurd h (by simp [Deal.publish, Occupancy.isFilled])
  inRange slot h := absurd h (by simp [Deal.publish])

theorem Housed.fill {deal : Deal} (h : deal.Housed) {slot : SlotIndex}
    (hslot : slot < deal.request.terms.slots) (host : Address) :
    ({ deal with hosts := deal.hosts.fill slot host } : Deal).Housed where
  remembered s hs := by
    rw [Occupancy.isFilled, Occupancy.host?_fill] at hs
    refine Occupancy.wasEverFilled_fill.2 ?_
    by_cases he : s = slot
    · exact .inl he
    · rw [if_neg he] at hs
      exact .inr (h.remembered s hs)
  inRange s hs := by
    rcases Occupancy.wasEverFilled_fill.1 hs with rfl | hs
    · exact hslot
    · exact h.inRange s hs

theorem Housed.free {deal : Deal} (h : deal.Housed) (slot : SlotIndex) :
    ({ deal with hosts := deal.hosts.free slot } : Deal).Housed where
  remembered s hs := by
    rw [Occupancy.isFilled, Occupancy.host?_free] at hs
    split at hs
    · exact nomatch hs
    · exact h.remembered s hs
  inRange s hs := h.inRange s hs

theorem Housed.moved {deal : Deal} (h : deal.Housed) (stage : Stage) :
    ({ deal with stage } : Deal).Housed :=
  ⟨h.remembered, h.inRange⟩

end Deal

namespace Ledger

theorem Rule.housed {rule : Deal → Option Deal} (h : Rule rule) {deal new : Deal}
    (hnew : rule deal = some new) (hdeal : deal.Housed) : new.Housed := by
  cases h with
  | moved stage =>
      obtain ⟨_, rfl⟩ := moved_eq_some.1 hnew
      exact hdeal.moved stage
  | filled slot host =>
      obtain ⟨hslot, rfl⟩ := filled_eq_some.1 hnew
      exact hdeal.fill hslot host
  | freed slot =>
      cases hnew
      exact hdeal.free slot

def Housed (ledger : Ledger) : Prop := ∀ deal ∈ ledger.deals, deal.Housed

theorem Housed.put {ledger : Ledger} (h : ledger.Housed) {deal : Deal} (hdeal : deal.Housed) :
    (ledger.put deal).Housed := by
  intro d hd
  obtain ⟨old, hold, rfl⟩ := List.mem_map.1 hd
  split
  · exact hdeal
  · exact h old hold

theorem Housed.note {ledger : Ledger} (h : ledger.Housed) (id : RequestId) :
    (ledger.note id).Housed := by
  rw [Housed, deals_note]
  exact h

theorem Housed.finishAll {ledger : Ledger} (h : ledger.Housed) (ids : List RequestId) :
    (ledger.finishAll ids).2.Housed := by
  induction ids generalizing ledger with
  | nil => exact h
  | cons id ids ih =>
      cases hf : ledger.find? id with
      | none =>
          rw [finishAll_cons_of_none hf]
          exact ih (h.note id)
      | some deal =>
          rw [finishAll_cons_of_some hf]
          exact ih ((h.note id).put ((h deal (mem_of_find? hf)).moved .finished))

theorem closed_housed : Closed Housed where
  publish {ledger} request block time h _ := by
    intro deal hm
    rcases List.mem_append.1 hm with hm | hm
    · exact h.note request.id deal hm
    · rw [List.mem_singleton.1 hm]
      exact Deal.housed_publish request block time
  revise {ledger} id {rule} h hrule := by
    rcases revise_cases ledger id rule with heq | ⟨deal, new, hf, hnew, heq⟩ <;> rw [heq]
    · exact h.note id
    · exact (h.note id).put (hrule.housed hnew (h deal (mem_of_find? hf)))
  finishWhile {ledger} due h := by
    have hpopped : Housed { ledger with deadlines := (ledger.deadlines.popWhile due).2 } := h
    exact hpopped.finishAll _

theorem Reachable.housed {ledger : Ledger} (h : ledger.Reachable) : ledger.Housed := by
  obtain ⟨changes, hmade⟩ := h.intact.made
  have hcommit : ledger.commit.Housed :=
    hmade ▸ closed_housed.made (fun _ h => absurd h List.not_mem_nil) changes
  exact hcommit

end Ledger

end StorageMarket
