import StorageMarket.Proofs.Ledger.Housing
import StorageMarket.Proofs.Ledger.Isolation
import StorageMarket.Proofs.Replay.Telling

/-!
# Slots that are told

What is told of a slot names it by its index. A slot is filled only if the request has it,
but it is freed whatever its index is. So a notice names a slot that the request has,
unless it says that a slot was freed which had no host (`Thread.slot_lt`).

Which slots are told to be freed can be seen from the events alone: each one that an event
names, if the request is known by then (`freeings`). Nothing else that a replay does frees
a slot (`Echoes`).
-/

namespace StorageMarket

def Occurrence.slot? : Occurrence → Option SlotIndex
  | slotFilled slot _ => some slot
  | slotFreed slot _ => some slot
  | _ => none

namespace Notice

/-- If something happened to a slot, it is one that the request has. -/
def InRange (notice : Notice) : Prop :=
  ∀ slot, notice.occurrence.slot? = some slot → slot < notice.deal.request.terms.slots

def freeing? (notice : Notice) : Option (Request × SlotIndex) :=
  match notice.occurrence with
  | .slotFreed slot _ => some (notice.deal.request, slot)
  | _ => none

def publication? (notice : Notice) : Option Request :=
  match notice.occurrence with
  | .published => some notice.deal.request
  | _ => none

theorem Follows.housed {before : Option Deal} {notice : Notice} (h : notice.Follows before)
    (hbefore : ∀ deal, before = some deal → deal.Housed) : notice.deal.Housed := by
  cases h with
  | published request block time => exact Deal.housed_publish request block time
  | turned deal named can => exact (hbefore deal rfl).moved _
  | filled deal host has => exact (hbefore deal rfl).fill has host
  | freed deal slot => exact (hbefore deal rfl).free slot

/-- The request has the slot that a notice names, unless that was freed and had no host. -/
theorem Follows.slot_lt {before : Option Deal} {notice : Notice} (h : notice.Follows before)
    (hbefore : ∀ deal, before = some deal → deal.Housed) {slot : SlotIndex}
    (hslot : notice.occurrence.slot? = some slot)
    (hhost : notice.occurrence ≠ .slotFreed slot none) :
    slot < notice.deal.request.terms.slots := by
  cases h with
  | published request block time => cases hslot
  | turned deal named can =>
      rename_i occurrence stage
      cases occurrence <;> cases hslot <;> cases named
  | filled deal host has =>
      cases hslot
      exact has
  | freed deal freed =>
      cases hslot
      have hhoused := hbefore deal rfl
      apply hhoused.inRange slot
      apply hhoused.remembered slot
      cases hleft : deal.hosts.host? slot with
      | none =>
          rw [hleft] at hhost
          exact absurd rfl hhost
      | some host =>
          rw [Occupancy.isFilled, hleft]
          rfl

end Notice

theorem Thread.slot_lt {before after : Option Deal} {notices : List Notice}
    (h : Thread before notices after) (hbefore : ∀ deal, before = some deal → deal.Housed) :
    ∀ notice ∈ notices, ∀ slot, notice.occurrence.slot? = some slot →
      notice.occurrence ≠ .slotFreed slot none → slot < notice.deal.request.terms.slots := by
  induction h with
  | nil deal => exact fun notice hm => absurd hm List.not_mem_nil
  | @cons before after notice rest first others ih =>
      rw [List.forall_mem_cons]
      constructor
      · intro slot
        exact first.slot_lt hbefore
      · apply ih
        intro deal hdeal
        cases hdeal
        exact first.housed hbefore

/-! ## What events free -/

namespace Event

def publication? : Event → Option Request
  | published e => some e.request
  | _ => none

def freeing? (known : List Request) : Event → Option (Request × SlotIndex)
  | slotFreed e =>
      (known.find? fun request => request.id = e.request).map fun request => (request, e.slot)
  | _ => none

end Event

/-- The slots that events free, each with its request. Nothing is freed of a request that is neither
known before nor published by an event before. -/
def freeings (known : List Request) : List Event → List (Request × SlotIndex)
  | [] => []
  | event :: events =>
      (event.freeing? known).toList ++ freeings (known ++ event.publication?.toList) events

theorem freeings_append (known : List Request) (events more : List Event) :
    freeings known (events ++ more)
      = freeings known events ++ freeings (known ++ events.filterMap Event.publication?) more := by
  induction events generalizing known with
  | nil => rw [List.filterMap_nil, List.append_nil]; rfl
  | cons event events ih =>
      have hpublished : (event :: events).filterMap Event.publication?
          = event.publication?.toList ++ events.filterMap Event.publication? := by
        rw [List.filterMap_cons]
        cases event.publication? <;> rfl
      rw [List.cons_append, freeings, freeings, ih, hpublished, List.append_assoc,
        List.append_assoc]

/-- Nothing is freed of a request that is published only later. -/
example : freeings [] [.slotFreed ⟨1, (Ledger.sampleRequest 1 2 100).id, 0⟩,
    .published ⟨2, Ledger.sampleRequest 1 2 100⟩,
    .slotFreed ⟨2, (Ledger.sampleRequest 1 2 100).id, 7⟩]
      = [(Ledger.sampleRequest 1 2 100, 7)] := by
  decide

namespace Ledger

/-- The requests that are known are those of the ledger. -/
def Knows (ledger : Ledger) (known : List Request) : Prop :=
  ∀ id, known.find? (fun request => request.id = id) = (ledger.find? id).map Deal.request

theorem Knows.learn {ledger : Ledger} {known : List Request} (h : ledger.Knows known)
    {notice : Notice} (hfollows : notice.Follows (ledger.find? notice.deal.id)) :
    (ledger.learn notice).Knows (known ++ notice.publication?.toList) := by
  intro id
  rw [find?_learn hfollows, List.find?_append, h id]
  cases hf : ledger.find? notice.deal.id with
  | none =>
      rw [hf] at hfollows
      have hsome : notice.publication? = some notice.deal.request := by
        rw [Notice.publication?, hfollows.eq_published]
      rw [hsome, Option.toList_some]
      by_cases hid : id = notice.deal.id
      · have hown : notice.deal.request.id = notice.deal.id := rfl
        rw [if_pos hid, hid, hf, List.find?_cons_of_pos (by simpa using hown)]
        rfl
      · have hother : ¬ notice.deal.request.id = id := fun he => hid he.symm
        rw [if_neg hid, List.find?_cons_of_neg (by simpa using hother), List.find?_nil,
          Option.or_none]
  | some deal =>
      rw [hf] at hfollows
      have hnone : notice.publication? = none := by
        rw [Notice.publication?]
        split
        · next heq => exact absurd heq hfollows.ne_published
        · rfl
      have hrequest : notice.deal.request = deal.request := by
        cases hfollows <;> rfl
      rw [hnone, Option.toList_none, List.find?_nil, Option.or_none]
      split
      · next hid =>
          rw [hid, hf, Option.map_some, Option.map_some, hrequest]
      · rfl

theorem Telling.knows {before after : Ledger} {notices : List Notice} {known : List Request}
    (h : Telling before notices after) (hknows : before.Knows known) :
    after.Knows (known ++ notices.filterMap Notice.publication?) := by
  induction h generalizing known with
  | @nil before after same =>
      intro id
      rw [List.filterMap_nil, List.append_nil, hknows id, find?, find?, same]
  | @cons before after notice rest first others ih =>
      have hrest := ih (hknows.learn first)
      rw [List.append_assoc] at hrest
      rw [List.filterMap_cons]
      cases hpublished : notice.publication? <;> rw [hpublished] at hrest <;> exact hrest

/-! ## What a replay frees -/

/-- The notices of changes publish what events publish, and free what they free. -/
structure Echoes (ledger : Ledger) (changes : List Change) (known : List Request)
    (events : List Event) : Prop where
  published : (ledger.news changes).filterMap Notice.publication?
    = events.filterMap Event.publication?
  freed : (ledger.news changes).filterMap Notice.freeing? = freeings known events

theorem Echoes.append {ledger : Ledger} {changes more : List Change} {known : List Request}
    {events others : List Event} (h : ledger.Echoes changes known events)
    (h' : (ledger.changeAll changes).2.Echoes more (known ++ events.filterMap Event.publication?)
      others) : ledger.Echoes (changes ++ more) known (events ++ others) where
  published := by
    rw [news_append, List.filterMap_append, h.published, h'.published, List.filterMap_append]
  freed := by rw [news_append, List.filterMap_append, h.freed, h'.freed, freeings_append]

theorem echoes_nil (ledger : Ledger) (known : List Request) : ledger.Echoes [] known [] :=
  ⟨rfl, rfl⟩

/-- A change whose notices neither publish nor free echoes events that do neither. -/
theorem echoes_of_notices {ledger : Ledger} {change : Change} {occurrence : Occurrence}
    {deals : List Deal}
    (htold : change.notices (ledger.change change).1 = deals.map fun deal => ⟨occurrence, deal⟩)
    (hother : ∀ deal, Notice.publication? ⟨occurrence, deal⟩ = none ∧
      Notice.freeing? ⟨occurrence, deal⟩ = none)
    {known : List Request} {events : List Event}
    (hevents : events.filterMap Event.publication? = [] ∧ freeings known events = []) :
    ledger.Echoes [change] known events := by
  have hnews : ledger.news [change] = deals.map fun deal => ⟨occurrence, deal⟩ := by
    rw [news, htold, news, List.append_nil]
  constructor
  · rw [hnews, hevents.1, List.filterMap_map, List.filterMap_eq_nil_iff]
    exact fun deal _ => (hother deal).1
  · rw [hnews, hevents.2, List.filterMap_map, List.filterMap_eq_nil_iff]
    exact fun deal _ => (hother deal).2

theorem echoes_finishDue (ledger : Ledger) (now : Instant) (known : List Request) :
    ledger.Echoes [.finishDue now] known [] :=
  echoes_of_notices rfl (fun _ => ⟨rfl, rfl⟩) ⟨rfl, rfl⟩

theorem echoes_finishBefore (ledger : Ledger) (now : Instant) (known : List Request) :
    ledger.Echoes [.finishBefore now] known [] :=
  echoes_of_notices rfl (fun _ => ⟨rfl, rfl⟩) ⟨rfl, rfl⟩

theorem Knows.echoes_event {ledger : Ledger} {known : List Request} (h : ledger.Knows known)
    {event : Event} {time : Instant}
    (haccepted : (ledger.change (event.change time)).1.refusal? = none) :
    ledger.Echoes [event.change time] known [event] := by
  cases event with
  | published e =>
      rw [Event.change, change] at haccepted
      have hnews : ledger.news [.create e.request e.block time]
          = [⟨.published, .publish e.request e.block time⟩] := by
        rw [news, news, List.append_nil, change]
        rcases create_cases ledger e.request e.block time with ⟨_, hc⟩ | ⟨_, hc⟩
        · rw [hc] at haccepted
          cases haccepted
        · rw [hc]
          rfl
      exact ⟨congrArg _ hnews, congrArg _ hnews⟩
  | fulfilled e =>
      exact echoes_of_notices (Change.notices_transition e.request .started _)
        (fun _ => ⟨rfl, rfl⟩) ⟨rfl, rfl⟩
  | cancelled e =>
      exact echoes_of_notices (Change.notices_transition e.request .cancelled _)
        (fun _ => ⟨rfl, rfl⟩) ⟨rfl, rfl⟩
  | failed e =>
      exact echoes_of_notices (Change.notices_transition e.request .failed _)
        (fun _ => ⟨rfl, rfl⟩) ⟨rfl, rfl⟩
  | slotFilled e =>
      exact echoes_of_notices (Change.notices_fillSlot e.request e.slot e.host _)
        (fun _ => ⟨rfl, rfl⟩) ⟨rfl, rfl⟩
  | slotFreed e =>
      have hnews : ledger.news [.freeSlot e.request e.slot]
          = Change.notices (.freeSlot e.request e.slot)
              (.freed (ledger.freeSlot e.request e.slot).1) := List.append_nil _
      rw [freeSlot_eq_revise, Change.notices_freeSlot, fst_revise] at hnews
      constructor
      · show (ledger.news [.freeSlot e.request e.slot]).filterMap _ = []
        rw [hnews]
        cases ledger.find? e.request <;> rfl
      · show (ledger.news [.freeSlot e.request e.slot]).filterMap _
          = Option.toList (Option.map _ (known.find? fun request => request.id = e.request)) ++ []
        rw [hnews, h e.request]
        cases ledger.find? e.request <;> rfl

section

variable {ledger : Ledger} (h : ledger.Sound) {known : List Request}
include h

theorem Sound.knows_changeAll (hknows : ledger.Knows known) {changes : List Change}
    {events : List Event} (hechoes : ledger.Echoes changes known events) :
    (ledger.changeAll changes).2.Knows (known ++ events.filterMap Event.publication?) := by
  rw [← hechoes.published]
  exact (h.telling_news changes).knows hknows

theorem Sound.echoes_events (hknows : ledger.Knows known) {time : Instant} {events : List Event}
    (haccepts : ledger.Accepts (events.map (Event.change time))) :
    ledger.Echoes (events.map (Event.change time)) known events := by
  induction events generalizing ledger known with
  | nil => exact echoes_nil ledger known
  | cons event events ih =>
      obtain ⟨hfirst, hrest⟩ := accepts_cons.1 haccepts
      have hevent := hknows.echoes_event hfirst
      exact hevent.append (ih (closed_sound.change h _) (h.knows_changeAll hknows hevent) hrest)

/-- A block echoes its events: the deals that finish before and after them change nothing. -/
theorem Sound.echoes_block (hknows : ledger.Knows known) {block : Block}
    (haccepts : ledger.Accepts block.changes) :
    ledger.Echoes block.changes known block.events := by
  obtain ⟨_, haccepts⟩ := accepts_cons.1 haccepts
  have hbefore := ledger.echoes_finishBefore block.time known
  have hknows' := h.knows_changeAll hknows hbefore
  have hevents := (closed_sound.change h (.finishBefore block.time)).echoes_events hknows'
    (accepts_append.1 haccepts).1
  have hall := hbefore.append (hevents.append (echoes_finishDue _ block.time _))
  rwa [List.append_nil, List.nil_append] at hall

theorem Sound.echoes_blocks (hknows : ledger.Knows known) {blocks : List Block}
    (haccepts : ledger.Accepts (blocks.flatMap Block.changes)) :
    ledger.Echoes (blocks.flatMap Block.changes) known (blocks.flatMap Block.events) := by
  induction blocks generalizing ledger known with
  | nil => exact echoes_nil ledger known
  | cons block blocks ih =>
      obtain ⟨hfirst, hrest⟩ := accepts_append.1 haccepts
      have hblock := h.echoes_block hknows hfirst
      exact hblock.append (ih (closed_sound.changeAll h _) (h.knows_changeAll hknows hblock) hrest)

theorem Sound.echoes_changesUpTo (hknows : ledger.Knows known) {target : Instant}
    {latestBlock : Option BlockNumber} {blocks : List Block}
    (haccepts : ledger.Accepts (Replay.changesUpTo target latestBlock blocks)) :
    ledger.Echoes (Replay.changesUpTo target latestBlock blocks) known
      (blocks.flatMap Block.events) := by
  have hblocks := h.echoes_blocks hknows (accepts_append.1 haccepts).1
  have hclosing : (ledger.changeAll (blocks.flatMap Block.changes)).2.Echoes
      (Replay.closing target latestBlock)
      (known ++ (blocks.flatMap Block.events).filterMap Event.publication?) [] := by
    rw [Replay.closing]
    split
    · exact echoes_finishDue _ target _
    · exact echoes_nil _ _
  have hall := hblocks.append hclosing
  rwa [List.append_nil] at hall

end

end Ledger

end StorageMarket
