import StorageMarket.Proofs.Ledger.Due

/-!
# The fate of a deal

All that a single change of a sound ledger can do to the deal of a request: nothing, if
there is one or not; publish it; or put another deal of the same publication in its
place, which is at the same stage, or at one that the change brings it to (`Sound.fate`).

So a deal that has come to an end stays there, whatever is done (`Sound.find?_of_isOver`).
-/

namespace StorageMarket

inductive Deal.Turns (deal : Deal) : Change → Stage → Prop where
  | move {id : RequestId} {stage : Stage} (own : deal.id = id)
      (can : deal.stage.canBecome stage = true) : deal.Turns (.transition id stage) stage
  | due {now : Instant} (running : deal.stage = .started) (due : deal.finishTime ≤ now) :
      deal.Turns (.finishDue now) .finished
  | overdue {now : Instant} (running : deal.stage = .started) (due : deal.finishTime < now) :
      deal.Turns (.finishBefore now) .finished

/-- What a change can make of the deal of a request, if there is one. -/
inductive Fate (change : Change) : Option Deal → Option Deal → Prop where
  | kept (deal : Option Deal) : Fate change deal deal
  | published (request : Request) (block : BlockNumber) (time : Instant) :
      Fate change none (some (.publish request block time))
  | revised {deal new : Deal} (origin : deal.SameOrigin new)
      (stage : new.stage = deal.stage ∨ deal.Turns change new.stage) :
      Fate change (some deal) (some new)

def Deal.IsOver (deal : Deal) : Prop := deal.stage ≠ .new ∧ deal.stage ≠ .started

theorem Deal.Turns.not_isOver {deal : Deal} {change : Change} {stage : Stage}
    (h : deal.Turns change stage) : ¬ deal.IsOver := by
  rintro ⟨hnew, hstarted⟩
  cases h with
  | move own can =>
      revert can hnew hstarted
      cases deal.stage <;> cases stage <;> decide
  | due running due => exact hstarted running
  | overdue running due => exact hstarted running

theorem Fate.exists_of_some {change : Change} {deal : Deal} {after : Option Deal}
    (h : Fate change (some deal) after) :
    ∃ new, after = some new ∧ deal.SameOrigin new ∧
      (new.stage = deal.stage ∨ deal.Turns change new.stage) := by
  cases h with
  | kept => exact ⟨deal, rfl, .refl deal, .inl rfl⟩
  | revised origin stage => exact ⟨_, rfl, origin, stage⟩

namespace Ledger

theorem fate_create (ledger : Ledger) (request : Request) (block : BlockNumber) (time : Instant)
    (x : RequestId) :
    Fate (.create request block time) (ledger.find? x)
      ((ledger.change (.create request block time)).2.find? x) := by
  rw [change]
  rcases create_cases ledger request block time with ⟨_, hc⟩ | ⟨hfresh, hc⟩ <;> rw [hc]
  · exact .kept _
  · show Fate _ _ (((ledger.note request.id).append (.publish request block time)).find? x)
    have hid : (Deal.publish request block time).id = request.id := rfl
    rw [find?_append, find?_note, hid]
    by_cases hx : request.id = x
    · rw [if_pos hx, ← hx, find?_eq_none.2 hfresh]
      exact .published request block time
    · rw [if_neg hx, Option.or_none]
      exact .kept _

theorem fate_revise {ledger : Ledger} {id : RequestId} {rule : Deal → Option Deal}
    (hkeeps : KeepsOrigin rule) {change : Change}
    (hstage : ∀ deal new, ledger.find? id = some deal → rule deal = some new →
      new.stage = deal.stage ∨ deal.Turns change new.stage) (x : RequestId) :
    Fate change (ledger.find? x) ((ledger.revise id rule).2.find? x) := by
  rcases revise_cases ledger id rule with heq | ⟨deal, new, hf, hnew, heq⟩ <;> rw [heq]
  · rw [find?_note]
    exact .kept _
  · have hsame := hkeeps deal new hnew
    have hid : new.id = id := hsame.id.trans (id_of_find? hf)
    have hnoted : (ledger.note id).find? id = some deal := by rw [find?_note, hf]
    show Fate _ _ (((ledger.note id).put new).find? x)
    rw [find?_put_of_find? hnoted hid, find?_note]
    split
    · next hx =>
        rw [hx, hf]
        exact .revised hsame (hstage deal new hf hnew)
    · exact .kept _

theorem fate_transition (ledger : Ledger) (id : RequestId) (stage : Stage) (x : RequestId) :
    Fate (.transition id stage) (ledger.find? x) ((ledger.transition id stage).2.find? x) := by
  rw [transition_eq_revise]
  refine fate_revise (keepsOrigin_moved stage) (fun deal new hf hnew => ?_) x
  obtain ⟨hcan, rfl⟩ := moved_eq_some.1 hnew
  exact .inr (.move (id_of_find? hf) hcan)

theorem find?_transition {ledger : Ledger} {x : RequestId} {deal : Deal} {stage : Stage}
    (hf : ledger.find? x = some deal) (hcan : deal.stage.canBecome stage = true) :
    (ledger.transition x stage).2.find? x = some { deal with stage } := by
  have hnoted : (ledger.note x).find? x = some deal := by rw [find?_note, hf]
  have hid : Deal.id { deal with stage } = x := (id_of_find? hf : deal.id = x)
  rw [transition_eq_revise, revise_of_some hf (moved_eq_some.2 ⟨hcan, rfl⟩)]
  exact (find?_put_of_find? hnoted hid x).trans (if_pos rfl)

theorem fate_fillSlot (ledger : Ledger) (id : RequestId) (slot : SlotIndex) (host : Address)
    (x : RequestId) :
    Fate (.fillSlot id slot host) (ledger.find? x) ((ledger.fillSlot id slot host).2.find? x) := by
  rw [fillSlot_eq_revise]
  refine fate_revise (keepsOrigin_filled slot host) (fun deal new _ hnew => ?_) x
  obtain ⟨_, rfl⟩ := filled_eq_some.1 hnew
  exact .inl rfl

theorem fate_freeSlot (ledger : Ledger) (id : RequestId) (slot : SlotIndex) (x : RequestId) :
    Fate (.freeSlot id slot) (ledger.find? x) ((ledger.freeSlot id slot).2.find? x) := by
  rw [freeSlot_eq_revise]
  refine fate_revise (keepsOrigin_freed slot) (fun deal new _ hnew => ?_) x
  cases hnew
  exact .inl rfl

section

variable {ledger : Ledger} (h : ledger.Sound)
include h

theorem Sound.fate_finishWhile {due : Instant → Bool}
    (hdue : ∀ t u, t < u → due u = true → due t = true) {change : Change}
    (hturns : ∀ deal : Deal, deal.stage = .started → due deal.finishTime = true →
      deal.Turns change .finished) (x : RequestId) :
    Fate change (ledger.find? x) ((ledger.finishWhile due).2.find? x) := by
  have hfind : (ledger.finishWhile due).2.find? x
      = if x ∈ (ledger.deadlines.popWhile due).1 then (ledger.find? x).map Deal.finish
        else ledger.find? x := find?_finishAll _ _ x
  rw [hfind]
  by_cases hx : x ∈ (ledger.deadlines.popWhile due).1
  · rw [if_pos hx]
    cases hf : ledger.find? x with
    | none => exact .kept _
    | some deal =>
        rw [← id_of_find? hf] at hx
        obtain ⟨hr, ht⟩ := (h.mem_due hdue (mem_of_find? hf)).1 hx
        exact .revised ⟨rfl, rfl, rfl⟩ (.inr (hturns deal hr ht))
  · rw [if_neg hx]
    exact .kept _

theorem Sound.fate (change : Change) (x : RequestId) :
    Fate change (ledger.find? x) ((ledger.change change).2.find? x) := by
  cases change with
  | create request block time => exact fate_create ledger request block time x
  | transition id stage => exact fate_transition ledger id stage x
  | fillSlot id slot host => exact fate_fillSlot ledger id slot host x
  | freeSlot id slot => exact fate_freeSlot ledger id slot x
  | finishDue now =>
      exact h.fate_finishWhile (Deadlines.le_closed now)
        (fun _ hr ht => .due hr (of_decide_eq_true ht)) x
  | finishBefore now =>
      exact h.fate_finishWhile (Deadlines.lt_closed now)
        (fun _ hr ht => .overdue hr (of_decide_eq_true ht)) x

theorem Sound.find?_of_isOver {x : RequestId} {deal : Deal} (hf : ledger.find? x = some deal)
    (hover : deal.IsOver) (changes : List Change) :
    ∃ new, (ledger.changeAll changes).2.find? x = some new ∧ deal.SameOrigin new ∧
      new.stage = deal.stage := by
  induction changes generalizing ledger deal with
  | nil => exact ⟨deal, hf, .refl deal, rfl⟩
  | cons change changes ih =>
      obtain ⟨new, hnew, hsame, hstage⟩ := (hf ▸ h.fate change x).exists_of_some
      have hstage := hstage.resolve_right fun hturns => hturns.not_isOver hover
      rw [Deal.IsOver, ← hstage] at hover
      obtain ⟨last, hlast, hsame', hstage'⟩ := ih (closed_sound.change h change) hnew hover
      exact ⟨last, hlast, hsame.trans hsame', hstage'.trans hstage⟩

end

end Ledger

end StorageMarket
