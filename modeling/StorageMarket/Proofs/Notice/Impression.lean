import StorageMarket.Proofs.Notice.Thread

/-!
# What one can make of the notices

Someone who only listens to what is said to have happened to a request, and never looks
at the deals that are shown, can still keep account of its stage and of its slots: by
plain functions on slots, which are overwritten at one slot at a time. Along a thread
this account is always that of the deal.
-/

namespace StorageMarket

/-- An account of a request: its stage, the hosts of its slots, and the slots that had one. -/
structure Impression where
  stage : Stage
  host? : SlotIndex → Option Address
  wasEverFilled : SlotIndex → Bool

namespace Impression

def blank : Impression := ⟨.new, fun _ => none, fun _ => false⟩

def take (impression : Impression) : Occurrence → Impression
  | .published => { impression with stage := .new }
  | .fulfilled => { impression with stage := .started }
  | .cancelled => { impression with stage := .cancelled }
  | .failed => { impression with stage := .failed }
  | .finished => { impression with stage := .finished }
  | .slotFilled slot host =>
      { impression with
        host? := fun s => if s = slot then some host else impression.host? s
        wasEverFilled := fun s => decide (s = slot) || impression.wasEverFilled s }
  -- who has left the slot is not asked for
  | .slotFreed slot _ =>
      { impression with host? := fun s => if s = slot then none else impression.host? s }

def takeAll (impression : Impression) (occurrences : List Occurrence) : Impression :=
  occurrences.foldl take impression

theorem take_of_stage? {occurrence : Occurrence} {stage : Stage}
    (h : occurrence.stage? = some stage) (impression : Impression) :
    impression.take occurrence = { impression with stage } := by
  cases occurrence <;> cases h <;> rfl

end Impression

def Deal.impression (deal : Deal) : Impression :=
  ⟨deal.stage, deal.hosts.host?, deal.hosts.wasEverFilled⟩

def Impression.of (deal : Option Deal) : Impression := (deal.map Deal.impression).getD .blank

theorem Notice.Follows.take {before : Option Deal} {notice : Notice} (h : notice.Follows before) :
    (Impression.of before).take notice.occurrence = notice.deal.impression := by
  cases h with
  | published request block time => rfl
  | turned deal named can => exact Impression.take_of_stage? named _
  | filled deal host has =>
      rename_i slot
      have hhost : (deal.hosts.fill slot host).host?
          = fun s => if s = slot then some host else deal.hosts.host? s :=
        funext fun _ => Occupancy.host?_fill
      have hever : (deal.hosts.fill slot host).wasEverFilled
          = fun s => decide (s = slot) || deal.hosts.wasEverFilled s := by
        funext s
        rw [Bool.eq_iff_iff, Occupancy.wasEverFilled_fill, Bool.or_eq_true, decide_eq_true_iff]
      rw [Deal.impression, hhost, hever]
      rfl
  | freed deal slot =>
      have hhost : (deal.hosts.free slot).host?
          = fun s => if s = slot then none else deal.hosts.host? s :=
        funext fun _ => Occupancy.host?_free
      rw [Deal.impression, hhost]
      rfl

/-- What is told about a request tells its deal, if it has one: the last notice shows the deal, the
account of what is said to have happened is that of the deal, and each host that is said to have
left a slot is the one that the account had there. -/
structure Accounts (notices : List Notice) (deal : Option Deal) : Prop where
  shown : notices.getLast?.map Notice.deal = deal
  account : Impression.blank.takeAll (notices.map Notice.occurrence) = Impression.of deal
  previous : ∀ earlier notice later slot previous, notices = earlier ++ notice :: later →
    notice.occurrence = .slotFreed slot previous →
    previous = (Impression.blank.takeAll (earlier.map Notice.occurrence)).host? slot

namespace Thread

/-- Whoever knows the account of a deal before a thread can tell that of the deal after it. -/
theorem takeAll {before after : Option Deal} {notices : List Notice}
    (h : Thread before notices after) :
    (Impression.of before).takeAll (notices.map Notice.occurrence) = Impression.of after := by
  induction h with
  | nil deal => rfl
  | @cons before after notice rest first others ih =>
      rw [List.map_cons, ← ih, Impression.takeAll, List.foldl_cons, first.take]
      rfl

theorem previous_eq {after : Option Deal} {earlier later : List Notice} {notice : Notice}
    (h : Thread none (earlier ++ notice :: later) after) {slot : SlotIndex}
    {previous : Option Address} (hfreed : notice.occurrence = .slotFreed slot previous) :
    previous = (Impression.blank.takeAll (earlier.map Notice.occurrence)).host? slot := by
  obtain ⟨between, hearlier, hrest⟩ := append_iff.1 h
  have htaken : Impression.blank.takeAll (earlier.map Notice.occurrence)
      = Impression.of between := hearlier.takeAll
  rw [htaken]
  cases (cons_iff.1 hrest).1 with
  | published request block time => cases hfreed
  | turned deal named can => cases hfreed; cases named
  | filled deal host has => cases hfreed
  | freed deal _ => cases hfreed; rfl

theorem accounts {notices : List Notice} {after : Option Deal} (h : Thread none notices after) :
    Accounts notices after where
  shown := by rw [h.eq_getLast?, Option.or_none]
  account := h.takeAll
  previous earlier notice later slot previous heq hfreed := by
    subst heq
    exact h.previous_eq hfreed

end Thread

end StorageMarket
