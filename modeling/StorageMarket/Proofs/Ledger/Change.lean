import StorageMarket.Proofs.Ledger.Lookup
import StorageMarket.Notice

/-!
# Changes of a ledger

The six ways to change a ledger as data, so that whatever is done to a ledger is a
list of changes, and what it answers is a list as long.

Three of the changes look up one deal and put another into its place; they are all
`revise`, with different rules for the new deal. The two ways to finish deals differ
in the deadlines they take off and are both `finishWhile`.
-/

namespace StorageMarket

inductive Change where
  | create (request : Request) (block : BlockNumber) (time : Instant)
  | transition (request : RequestId) (stage : Stage)
  | fillSlot (request : RequestId) (slot : SlotIndex) (host : Address)
  | freeSlot (request : RequestId) (slot : SlotIndex)
  | finishDue (now : Instant)
  | finishBefore (now : Instant)
deriving DecidableEq

inductive Answer where
  | created (result : Except DuplicateRequest Deal)
  | changed (deal : Option Deal)
  | freed (result : Option (Deal × Option Address))
  | finished (deals : List Deal)

/-- The request that was published twice, if the change was refused for that. -/
def Answer.refusal? : Answer → Option DuplicateRequest
  | created (.error fault) => some fault
  | _ => none

/-- Two deals that come from the same publication. -/
structure Deal.SameOrigin (deal other : Deal) : Prop where
  request : other.request = deal.request
  createdBlock : other.createdBlock = deal.createdBlock
  createdAt : other.createdAt = deal.createdAt

theorem Deal.SameOrigin.refl (deal : Deal) : deal.SameOrigin deal := ⟨rfl, rfl, rfl⟩

theorem Deal.SameOrigin.trans {first second third : Deal} (h : first.SameOrigin second)
    (h' : second.SameOrigin third) : first.SameOrigin third where
  request := h'.request.trans h.request
  createdBlock := h'.createdBlock.trans h.createdBlock
  createdAt := h'.createdAt.trans h.createdAt

theorem Deal.SameOrigin.id {deal other : Deal} (h : deal.SameOrigin other) :
    other.id = deal.id := by
  rw [Deal.id, Deal.id, h.request]

namespace Ledger

/-- Makes a change. A request that is published twice leaves the ledger as it is. -/
def change (ledger : Ledger) : Change → Answer × Ledger
  | .create request block time =>
      match ledger.create request block time with
      | .ok (deal, after) => (.created (.ok deal), after)
      | .error fault => (.created (.error fault), ledger)
  | .transition request stage => (ledger.transition request stage).map .changed id
  | .fillSlot request slot host => (ledger.fillSlot request slot host).map .changed id
  | .freeSlot request slot => (ledger.freeSlot request slot).map .freed id
  | .finishDue now => (ledger.finishDue now).map .finished id
  | .finishBefore now => (ledger.finishBefore now).map .finished id

def changeAll (ledger : Ledger) : List Change → List Answer × Ledger
  | [] => ([], ledger)
  | change :: changes =>
      let first := ledger.change change
      let others := first.2.changeAll changes
      (first.1 :: others.1, others.2)

theorem changeAll_append (ledger : Ledger) (changes more : List Change) :
    ledger.changeAll (changes ++ more)
      = ((ledger.changeAll changes).1 ++ ((ledger.changeAll changes).2.changeAll more).1,
          ((ledger.changeAll changes).2.changeAll more).2) := by
  induction changes generalizing ledger with
  | nil => rfl
  | cons change changes ih =>
      simp only [List.cons_append, changeAll]
      rw [ih]

/-! ## Revising one deal -/

/-- The deadlines after a deal has become another one of the same request. -/
def retime (deadlines : Deadlines) (before after : Deal) : Deadlines :=
  if before.stage = after.stage then deadlines else reschedule deadlines before after.stage

/-- Puts a new deal into the place of the deal of a request, if a rule gives one. -/
def revise (ledger : Ledger) (id : RequestId) (rule : Deal → Option Deal) :
    Option Deal × Ledger :=
  let noted := ledger.note id
  match ledger.find? id with
  | none => (none, noted)
  | some deal =>
      match rule deal with
      | none => (none, noted)
      | some new => (some new, { noted.put new with deadlines := retime ledger.deadlines deal new })

/-- All that revising can do: nothing but note the request, or put a new deal in its place. -/
theorem revise_cases (ledger : Ledger) (id : RequestId) (rule : Deal → Option Deal) :
    ledger.revise id rule = (none, ledger.note id) ∨
      ∃ deal new, ledger.find? id = some deal ∧ rule deal = some new ∧
        ledger.revise id rule
          = (some new,
            { (ledger.note id).put new with deadlines := retime ledger.deadlines deal new }) := by
  rw [revise]
  cases hf : ledger.find? id with
  | none => exact .inl rfl
  | some deal =>
      cases hnew : rule deal with
      | none =>
          refine .inl ?_
          simp only [hnew]
      | some new => exact .inr ⟨deal, new, rfl, hnew, by simp only [hnew]⟩

theorem revise_of_some {ledger : Ledger} {id : RequestId} {rule : Deal → Option Deal}
    {deal new : Deal} (hf : ledger.find? id = some deal) (hnew : rule deal = some new) :
    ledger.revise id rule
      = (some new,
        { (ledger.note id).put new with deadlines := retime ledger.deadlines deal new }) := by
  simp only [revise, hf, hnew]

theorem create_cases (ledger : Ledger) (request : Request) (block : BlockNumber)
    (time : Instant) :
    (request.id ∈ ledger.ids ∧ ledger.create request block time = .error ⟨request.id⟩) ∨
      (request.id ∉ ledger.ids ∧ ledger.create request block time
        = .ok (.publish request block time,
            (ledger.note request.id).append (.publish request block time))) := by
  by_cases h : request.id ∈ ledger.ids
  · exact .inl ⟨h, if_pos (isSome_find?.2 h)⟩
  · exact .inr ⟨h, if_neg fun hs => h (isSome_find?.1 hs)⟩

def moved (stage : Stage) (deal : Deal) : Option Deal :=
  if deal.stage.canBecome stage then some { deal with stage } else none

def filled (slot : SlotIndex) (host : Address) (deal : Deal) : Option Deal :=
  if slot < deal.request.terms.slots then some { deal with hosts := deal.hosts.fill slot host }
  else none

def freed (slot : SlotIndex) (deal : Deal) : Option Deal :=
  some { deal with hosts := deal.hosts.free slot }

theorem moved_eq_some {stage : Stage} {deal new : Deal} :
    moved stage deal = some new ↔ deal.stage.canBecome stage = true ∧ { deal with stage } = new := by
  rw [moved, Option.ite_none_right_eq_some, Option.some.injEq]

theorem filled_eq_some {slot : SlotIndex} {host : Address} {deal new : Deal} :
    filled slot host deal = some new ↔
      slot < deal.request.terms.slots ∧ { deal with hosts := deal.hosts.fill slot host } = new := by
  rw [filled, Option.ite_none_right_eq_some, Option.some.injEq]

/-- A rule for a new deal that keeps where the deal comes from. -/
def KeepsOrigin (rule : Deal → Option Deal) : Prop :=
  ∀ deal new, rule deal = some new → deal.SameOrigin new

theorem keepsOrigin_moved (stage : Stage) : KeepsOrigin (moved stage) := by
  intro deal new h
  obtain ⟨_, rfl⟩ := moved_eq_some.1 h
  exact ⟨rfl, rfl, rfl⟩

theorem keepsOrigin_filled (slot : SlotIndex) (host : Address) :
    KeepsOrigin (filled slot host) := by
  intro deal new h
  obtain ⟨_, rfl⟩ := filled_eq_some.1 h
  exact ⟨rfl, rfl, rfl⟩

theorem keepsOrigin_freed (slot : SlotIndex) : KeepsOrigin (freed slot) := by
  intro deal new h
  cases h
  exact ⟨rfl, rfl, rfl⟩

/-- The rules by which changes revise a deal. -/
inductive Rule : (Deal → Option Deal) → Prop where
  | moved (stage : Stage) : Rule (moved stage)
  | filled (slot : SlotIndex) (host : Address) : Rule (filled slot host)
  | freed (slot : SlotIndex) : Rule (freed slot)

theorem Rule.keepsOrigin {rule : Deal → Option Deal} (h : Rule rule) : KeepsOrigin rule := by
  cases h with
  | moved stage => exact keepsOrigin_moved stage
  | filled slot host => exact keepsOrigin_filled slot host
  | freed slot => exact keepsOrigin_freed slot

theorem not_canBecome_self (stage : Stage) : stage.canBecome stage = false := by
  cases stage <;> rfl

theorem transition_eq_revise (ledger : Ledger) (id : RequestId) (stage : Stage) :
    ledger.transition id stage = ledger.revise id (moved stage) := by
  rw [transition, revise]
  simp only [find?_note, deadlines_note]
  cases ledger.find? id with
  | none => rfl
  | some deal =>
      by_cases h : deal.stage.canBecome stage = true
      -- no stage can become itself, so a deal that moves gets a new deadline
      · have hne : deal.stage ≠ stage := by
          rintro rfl
          rw [not_canBecome_self] at h
          exact Bool.noConfusion h
        simp only [moved, if_pos h, retime, if_neg hne]
      · simp only [moved, if_neg h]

theorem fillSlot_eq_revise (ledger : Ledger) (id : RequestId) (slot : SlotIndex)
    (host : Address) : ledger.fillSlot id slot host = ledger.revise id (filled slot host) := by
  rw [fillSlot, revise]
  simp only [find?_note]
  cases ledger.find? id with
  | none => rfl
  | some deal =>
      by_cases h : slot < deal.request.terms.slots
      · simp only [filled, if_pos h, retime, if_true]
        rw [← deadlines_note ledger id]
        rfl
      · simp only [filled, if_neg h]

theorem freeSlot_eq_revise (ledger : Ledger) (id : RequestId) (slot : SlotIndex) :
    ledger.freeSlot id slot
      = ((ledger.revise id (freed slot)).1.map fun deal =>
          (deal, (ledger.find? id).bind fun before => before.hosts.host? slot),
        (ledger.revise id (freed slot)).2) := by
  rw [freeSlot, revise]
  simp only [find?_note]
  cases ledger.find? id with
  | none => rfl
  | some deal =>
      simp only [freed, retime, if_true]
      rw [← deadlines_note ledger id]
      rfl

/-! ## Finishing deals -/

def finishWhile (ledger : Ledger) (due : Instant → Bool) : List Deal × Ledger :=
  { ledger with deadlines := (ledger.deadlines.popWhile due).2 }.finishAll
    (ledger.deadlines.popWhile due).1

theorem finishDue_eq_finishWhile (ledger : Ledger) (now : Instant) :
    ledger.finishDue now = ledger.finishWhile fun t => t ≤ now := rfl

/-! ## Properties that all changes keep -/

/-- A property of ledgers that publishing, revising and finishing keep. -/
structure Closed (P : Ledger → Prop) : Prop where
  publish : ∀ {ledger : Ledger} (request : Request) (block : BlockNumber) (time : Instant),
    P ledger → request.id ∉ ledger.ids →
      P ((ledger.note request.id).append (.publish request block time))
  revise : ∀ {ledger : Ledger} (id : RequestId) {rule : Deal → Option Deal},
    P ledger → Rule rule → P (ledger.revise id rule).2
  finishWhile : ∀ {ledger : Ledger} (due : Instant → Bool), P ledger →
    P (ledger.finishWhile due).2

theorem Closed.change {P : Ledger → Prop} (h : Closed P) {ledger : Ledger} (hP : P ledger)
    (change : Change) : P (ledger.change change).2 := by
  cases change with
  | create request block time =>
      rw [Ledger.change]
      rcases create_cases ledger request block time with ⟨_, hc⟩ | ⟨hfresh, hc⟩ <;> rw [hc]
      · exact hP
      · exact h.publish request block time hP hfresh
  | transition request stage =>
      show P (ledger.transition request stage).2
      rw [transition_eq_revise]
      exact h.revise request hP (.moved stage)
  | fillSlot request slot host =>
      show P (ledger.fillSlot request slot host).2
      rw [fillSlot_eq_revise]
      exact h.revise request hP (.filled slot host)
  | freeSlot request slot =>
      show P (ledger.freeSlot request slot).2
      rw [freeSlot_eq_revise]
      exact h.revise request hP (.freed slot)
  | finishDue now => exact h.finishWhile (fun t => t ≤ now) hP
  | finishBefore now => exact h.finishWhile (fun t => t < now) hP

theorem Closed.changeAll {P : Ledger → Prop} (h : Closed P) {ledger : Ledger} (hP : P ledger)
    (changes : List Change) : P (ledger.changeAll changes).2 := by
  induction changes generalizing ledger with
  | nil => exact hP
  | cons change changes ih => exact ih (h.change hP change)

end Ledger

/-! ## Finishing one by one -/

def Deal.finish (deal : Deal) : Deal := { deal with stage := .finished }

namespace Ledger

theorem finishAll_cons_of_none {ledger : Ledger} {id : RequestId} (h : ledger.find? id = none)
    (ids : List RequestId) : ledger.finishAll (id :: ids) = (ledger.note id).finishAll ids := by
  simp only [finishAll, find?_note, h]

theorem finishAll_cons_of_some {ledger : Ledger} {id : RequestId} {deal : Deal}
    (h : ledger.find? id = some deal) (ids : List RequestId) :
    ledger.finishAll (id :: ids)
      = (deal.finish :: (((ledger.note id).put deal.finish).finishAll ids).1,
          (((ledger.note id).put deal.finish).finishAll ids).2) := by
  simp only [finishAll, find?_note, h, Deal.finish]

theorem finishAll_append (ledger : Ledger) (ids more : List RequestId) :
    ledger.finishAll (ids ++ more)
      = ((ledger.finishAll ids).1 ++ ((ledger.finishAll ids).2.finishAll more).1,
          ((ledger.finishAll ids).2.finishAll more).2) := by
  induction ids generalizing ledger with
  | nil => rfl
  | cons id ids ih =>
      rw [List.cons_append]
      cases hf : ledger.find? id with
      | none => rw [finishAll_cons_of_none hf, finishAll_cons_of_none hf, ih]
      | some deal => rw [finishAll_cons_of_some hf, finishAll_cons_of_some hf, ih, List.cons_append]

@[simp] theorem deadlines_finishAll (ledger : Ledger) (ids : List RequestId) :
    (ledger.finishAll ids).2.deadlines = ledger.deadlines := by
  induction ids generalizing ledger with
  | nil => rfl
  | cons id ids ih =>
      cases hf : ledger.find? id with
      | none => rw [finishAll_cons_of_none hf, ih, deadlines_note]
      | some deal =>
          rw [finishAll_cons_of_some hf]
          exact (ih _).trans (deadlines_note ledger id)

@[simp] theorem ids_finishAll (ledger : Ledger) (ids : List RequestId) :
    (ledger.finishAll ids).2.ids = ledger.ids := by
  induction ids generalizing ledger with
  | nil => rfl
  | cons id ids ih =>
      cases hf : ledger.find? id with
      | none => rw [finishAll_cons_of_none hf, ih, ids_note]
      | some deal =>
          rw [finishAll_cons_of_some hf]
          exact (ih _).trans ((ids_put _ _).trans (ids_note ledger id))

theorem find?_put_finish {ledger : Ledger} {id : RequestId} {deal : Deal}
    (h : ledger.find? id = some deal) (x : RequestId) :
    ((ledger.note id).put deal.finish).find? x
      = if x = id then some deal.finish else ledger.find? x := by
  have hid : deal.finish.id = id := (id_of_find? h : deal.id = id)
  have hnoted : (ledger.note id).find? id = some deal := by rw [find?_note, h]
  rw [find?_put_of_find? hnoted hid, find?_note]

theorem find?_finishAll (ledger : Ledger) (ids : List RequestId) (x : RequestId) :
    (ledger.finishAll ids).2.find? x
      = if x ∈ ids then (ledger.find? x).map Deal.finish else ledger.find? x := by
  induction ids generalizing ledger with
  | nil => simp [finishAll]
  | cons id ids ih =>
      cases hf : ledger.find? id with
      | none =>
          rw [finishAll_cons_of_none hf, ih, find?_note]
          by_cases hx : x = id
          · subst hx
            simp [hf]
          · simp [hx]
      | some deal =>
          rw [finishAll_cons_of_some hf, ih, find?_put_finish hf]
          by_cases hx : x = id
          · subst hx
            simp [hf, Deal.finish]
          · simp [hx]

/-- The deals that are told are those that were found, in the order asked for. -/
theorem fst_finishAll (ledger : Ledger) (ids : List RequestId) :
    (ledger.finishAll ids).1 = ids.filterMap fun x => (ledger.find? x).map Deal.finish := by
  induction ids generalizing ledger with
  | nil => rfl
  | cons id ids ih =>
      cases hf : ledger.find? id with
      | none =>
          rw [finishAll_cons_of_none hf, ih, List.filterMap_cons_none (by simp [hf])]
          simp only [find?_note]
      | some deal =>
          have hsame : (fun x => (((ledger.note id).put deal.finish).find? x).map Deal.finish)
              = fun x => (ledger.find? x).map Deal.finish := by
            funext x
            rw [find?_put_finish hf]
            by_cases hx : x = id
            · subst hx
              simp [hf, Deal.finish]
            · simp [hx]
          rw [finishAll_cons_of_some hf, List.filterMap_cons_some (b := deal.finish) (by rw [hf]; rfl),
            ih, hsame]

end Ledger

end StorageMarket
