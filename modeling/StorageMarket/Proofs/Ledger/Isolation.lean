import StorageMarket.Proofs.Ledger.Due
import StorageMarket.Proofs.Replay.Changes

/-!
# What a change does to one request

A change that concerns a request looks at nothing but the deal of that request: what it
makes of the deal and what it tells about it is `Change.alone`, a function of the deal.
Any other change leaves that deal alone and tells nothing about it. Finishing concerns
all requests, and takes each of them by itself.

So two ledgers that have the same deal of a request go on to have the same one, if one
of them makes changes and the other only those that concern the request
(`Sound.isolated`).
-/

namespace StorageMarket

namespace Ledger

/-- The deal after its storage time, if it runs and its finish time is due. -/
def ended (due : Instant → Bool) (deal : Deal) : Option Deal :=
  if deal.stage = .started ∧ due deal.finishTime = true then some deal.finish else none

end Ledger

namespace Change

/-- The request that a change is about; finishing is about all of them. -/
def subject? : Change → Option RequestId
  | create request _ _ => some request.id
  | transition id _ => some id
  | fillSlot id _ _ => some id
  | freeSlot id _ => some id
  | finishDue _ => none
  | finishBefore _ => none

def concerns (x : RequestId) (change : Change) : Bool :=
  change.subject?.all fun id => id = x

/-- The deal that a change puts in the place of a deal, if it does. -/
def rule : Change → Deal → Option Deal
  | create _ _ _ => fun _ => none
  | transition _ stage => Ledger.moved stage
  | fillSlot _ slot host => Ledger.filled slot host
  | freeSlot _ slot => Ledger.freed slot
  | finishDue now => Ledger.ended fun t => t ≤ now
  | finishBefore now => Ledger.ended fun t => t < now

def occurrence : Change → Deal → Occurrence
  | create _ _ _ => fun _ => .published
  | transition _ stage => fun _ => stage.occurrence
  | fillSlot _ slot host => fun _ => .slotFilled slot host
  | freeSlot _ slot => fun deal => .slotFreed slot (deal.hosts.host? slot)
  | finishDue _ => fun _ => .finished
  | finishBefore _ => fun _ => .finished

/-- What a change that concerns a request makes of its deal, and what it tells about it. -/
def alone (change : Change) : Option Deal → Option Deal × List Notice
  | none =>
      match change with
      | create request block time =>
          (some (.publish request block time), [⟨.published, .publish request block time⟩])
      | _ => (none, [])
  | some deal =>
      match change.rule deal with
      | none => (some deal, [])
      | some new => (some new, [⟨change.occurrence deal, new⟩])

/-- A change that creates nothing replaces the deal by its rule, if there is a deal. -/
theorem alone_eq {change : Change} (hnone : change.alone none = (none, [])) (deal : Option Deal) :
    change.alone deal = (deal.map fun deal => (change.rule deal).getD deal,
      (deal.bind fun deal =>
        (change.rule deal).map fun new => (⟨change.occurrence deal, new⟩ : Notice)).toList) := by
  cases deal with
  | none => exact hnone
  | some deal =>
      rw [alone, Option.map_some, Option.bind_some]
      cases change.rule deal <;> rfl

end Change

def Notice.isAbout (x : RequestId) (notice : Notice) : Bool := notice.deal.id = x

namespace Ledger

variable {ledger : Ledger} {x : RequestId}

/-! ## Revising -/

theorem fst_revise (ledger : Ledger) (id : RequestId) (rule : Deal → Option Deal) :
    (ledger.revise id rule).1 = (ledger.find? id).bind rule := by
  rw [revise]
  cases ledger.find? id with
  | none => rfl
  | some deal => cases h : rule deal <;> simp [h]

theorem find?_revise {id : RequestId} {rule : Deal → Option Deal} (hkeeps : KeepsOrigin rule)
    (ledger : Ledger) (x : RequestId) :
    (ledger.revise id rule).2.find? x
      = if id = x then (ledger.find? x).map fun deal => (rule deal).getD deal
        else ledger.find? x := by
  rcases revise_cases ledger id rule with heq | ⟨deal, new, hf, hnew, heq⟩
  · have hnone : (ledger.find? id).bind rule = none := by rw [← fst_revise, heq]
    rw [heq, find?_note]
    split
    · next hx =>
        rw [← hx]
        cases hf : ledger.find? id with
        | none => rfl
        | some deal =>
            rw [hf, Option.bind_some] at hnone
            rw [Option.map_some, hnone, Option.getD_none]
    · rfl
  · have hid : new.id = id := (hkeeps deal new hnew).id.trans (id_of_find? hf)
    have hnoted : (ledger.note id).find? id = some deal := by rw [find?_note, hf]
    rw [heq]
    show ((ledger.note id).put new).find? x = _
    rw [find?_put_of_find? hnoted hid, find?_note]
    by_cases hx : x = id
    · rw [if_pos hx, if_pos hx.symm, hx, hf, Option.map_some, hnew, Option.getD_some]
    · rw [if_neg hx, if_neg fun h => hx h.symm]

/-- What revising does to the deal of one request, and what it tells. -/
structure Revises (ledger : Ledger) (change : Change) (id : RequestId) : Prop where
  subject : change.subject? = some id
  after : (ledger.change change).2 = (ledger.revise id change.rule).2
  told : change.notices (ledger.change change).1
    = ((ledger.find? id).bind fun deal =>
        (change.rule deal).map fun new => (⟨change.occurrence deal, new⟩ : Notice)).toList
  keeps : KeepsOrigin change.rule
  unknown : change.alone none = (none, [])

theorem revises_transition (ledger : Ledger) (id : RequestId) (stage : Stage) :
    ledger.Revises (.transition id stage) id where
  subject := rfl
  after := congrArg Prod.snd (transition_eq_revise ledger id stage)
  told := by
    show Change.notices _ (.changed (ledger.transition id stage).1) = _
    rw [transition_eq_revise, fst_revise]
    cases ledger.find? id with
    | none => rfl
    | some deal =>
        rw [Option.bind_some, Option.bind_some, Change.rule]
        cases moved stage deal <;> rfl
  keeps := keepsOrigin_moved stage
  unknown := rfl

theorem revises_fillSlot (ledger : Ledger) (id : RequestId) (slot : SlotIndex) (host : Address) :
    ledger.Revises (.fillSlot id slot host) id where
  subject := rfl
  after := congrArg Prod.snd (fillSlot_eq_revise ledger id slot host)
  told := by
    show Change.notices _ (.changed (ledger.fillSlot id slot host).1) = _
    rw [fillSlot_eq_revise, fst_revise]
    cases ledger.find? id with
    | none => rfl
    | some deal =>
        rw [Option.bind_some, Option.bind_some, Change.rule]
        cases filled slot host deal <;> rfl
  keeps := keepsOrigin_filled slot host
  unknown := rfl

theorem revises_freeSlot (ledger : Ledger) (id : RequestId) (slot : SlotIndex) :
    ledger.Revises (.freeSlot id slot) id where
  subject := rfl
  after := congrArg Prod.snd (freeSlot_eq_revise ledger id slot)
  told := by
    show Change.notices _ (.freed (ledger.freeSlot id slot).1) = _
    rw [freeSlot_eq_revise, fst_revise]
    cases ledger.find? id <;> rfl
  keeps := keepsOrigin_freed slot
  unknown := rfl

namespace Revises

variable {change : Change} {id : RequestId} (h : ledger.Revises change id)
include h

theorem concerns_eq (x : RequestId) : change.concerns x = decide (id = x) := by
  rw [Change.concerns, h.subject, Option.all_some]

theorem id_of_told {notice : Notice} (hm : notice ∈ change.notices (ledger.change change).1) :
    notice.deal.id = id := by
  rw [h.told, Option.mem_toList, Option.bind_eq_some_iff] at hm
  obtain ⟨deal, hf, hm⟩ := hm
  obtain ⟨new, hnew, rfl⟩ := Option.map_eq_some_iff.1 hm
  exact (h.keeps deal new hnew).id.trans (id_of_find? hf)

theorem alone (hx : change.concerns x = true) :
    change.alone (ledger.find? x) = ((ledger.change change).2.find? x,
      (change.notices (ledger.change change).1).filter (Notice.isAbout x)) := by
  rw [h.concerns_eq, decide_eq_true_iff] at hx
  subst hx
  have hall : (change.notices (ledger.change change).1).filter (Notice.isAbout id)
      = change.notices (ledger.change change).1 :=
    List.filter_eq_self.2 fun notice hm => decide_eq_true (h.id_of_told hm)
  rw [Change.alone_eq h.unknown, h.after, find?_revise h.keeps, if_pos rfl, hall, h.told]

theorem apart (hx : change.concerns x = false) :
    (ledger.change change).2.find? x = ledger.find? x ∧
      (change.notices (ledger.change change).1).filter (Notice.isAbout x) = [] := by
  rw [h.concerns_eq, decide_eq_false_iff_not] at hx
  constructor
  · rw [h.after, find?_revise h.keeps, if_neg hx]
  · refine List.filter_eq_nil_iff.2 fun notice hm => ?_
    rw [Notice.isAbout, h.id_of_told hm, decide_eq_true_iff]
    exact hx

end Revises

/-! ## Publishing -/

theorem create_alone (ledger : Ledger) (request : Request) (block : BlockNumber) (time : Instant) :
    (Change.create request block time).alone (ledger.find? request.id)
      = ((ledger.change (.create request block time)).2.find? request.id,
        ((Change.create request block time).notices
          (ledger.change (.create request block time)).1).filter
            (Notice.isAbout request.id)) := by
  rw [change]
  rcases create_cases ledger request block time with ⟨hmem, hc⟩ | ⟨hfresh, hc⟩ <;> rw [hc]
  · obtain ⟨deal, hf⟩ := Option.isSome_iff_exists.1 (isSome_find?.2 hmem)
    rw [hf]
    rfl
  · have hid : (Deal.publish request block time).id = request.id := rfl
    have hafter : ((ledger.note request.id).append (.publish request block time)).find? request.id
        = some (.publish request block time) := by
      rw [find?_append, find?_note, find?_eq_none.2 hfresh, if_pos hid, Option.none_or]
    have hall : [(⟨.published, .publish request block time⟩ : Notice)].filter
        (Notice.isAbout request.id) = [⟨.published, .publish request block time⟩] :=
      List.filter_cons_of_pos (decide_eq_true hid)
    rw [find?_eq_none.2 hfresh]
    exact Prod.ext hafter.symm hall.symm

theorem create_apart (ledger : Ledger) {request : Request} (hx : request.id ≠ x)
    (block : BlockNumber) (time : Instant) :
    (ledger.change (.create request block time)).2.find? x = ledger.find? x ∧
      ((Change.create request block time).notices
        (ledger.change (.create request block time)).1).filter (Notice.isAbout x) = [] := by
  rw [change]
  have hid : (Deal.publish request block time).id ≠ x := hx
  rcases create_cases ledger request block time with ⟨_, hc⟩ | ⟨_, hc⟩ <;> rw [hc]
  · exact ⟨rfl, rfl⟩
  · constructor
    · show ((ledger.note request.id).append _).find? x = _
      rw [find?_append, find?_note, if_neg hid, Option.or_none]
    · exact List.filter_cons_of_neg fun h => hid (of_decide_eq_true h)

theorem refusal?_create (ledger : Ledger) (request : Request) (block : BlockNumber)
    (time : Instant) :
    (ledger.change (.create request block time)).1.refusal?
      = if (ledger.find? request.id).isSome then some ⟨request.id⟩ else none := by
  rw [change]
  rcases create_cases ledger request block time with ⟨hmem, hc⟩ | ⟨hfresh, hc⟩ <;> rw [hc]
  · rw [if_pos (isSome_find?.2 hmem)]
    rfl
  · rw [if_neg fun hsome => hfresh (isSome_find?.1 hsome)]
    rfl

/-! ## Finishing -/

/-- Of what is found under names that are all different, one name picks out what is under it. -/
theorem filter_filterMap_of_nodup {f : RequestId → Option Deal}
    (hf : ∀ y deal, f y = some deal → deal.id = y) {ids : List RequestId} (hn : ids.Nodup)
    (x : RequestId) :
    (ids.filterMap f).filter (fun deal => deal.id = x)
      = if x ∈ ids then (f x).toList else [] := by
  induction ids with
  | nil => rfl
  | cons y ids ih =>
      rw [List.nodup_cons] at hn
      have ih := ih hn.2
      cases hy : f y with
      | none =>
          rw [List.filterMap_cons_none hy, ih]
          by_cases hx : x = y
          · subst hx
            rw [if_neg hn.1, if_pos List.mem_cons_self, hy]
            rfl
          · simp [hx]
      | some deal =>
          rw [List.filterMap_cons_some hy]
          by_cases hx : x = y
          · subst hx
            rw [List.filter_cons_of_pos (by simp [hf x deal hy]), ih, if_neg hn.1,
              if_pos List.mem_cons_self, hy]
            rfl
          · have hne : deal.id ≠ x := fun h => hx (h.symm.trans (hf y deal hy))
            rw [List.filter_cons_of_neg (by simp [hne]), ih]
            simp [hx]

section

variable (h : ledger.Sound) {due : Instant → Bool}
  (hdue : ∀ t u, t < u → due u = true → due t = true)
include h hdue

theorem Sound.find?_finishWhile (x : RequestId) :
    (ledger.finishWhile due).2.find? x
      = (ledger.find? x).map fun deal => (ended due deal).getD deal := by
  have hfind : (ledger.finishWhile due).2.find? x
      = if x ∈ (ledger.deadlines.popWhile due).1 then (ledger.find? x).map Deal.finish
        else ledger.find? x := find?_finishAll _ _ x
  rw [hfind]
  cases hf : ledger.find? x with
  | none => split <;> rfl
  | some deal =>
      have hmem := h.mem_due hdue (mem_of_find? hf)
      rw [id_of_find? hf] at hmem
      rw [Option.map_some, Option.map_some, ended]
      by_cases hended : deal.stage = .started ∧ due deal.finishTime = true
      · rw [if_pos (hmem.2 hended), if_pos hended, Option.getD_some]
      · rw [if_neg fun hin => hended (hmem.1 hin), if_neg hended, Option.getD_none]

theorem Sound.filter_finishWhile (x : RequestId) :
    (ledger.finishWhile due).1.filter (fun deal => deal.id = x)
      = ((ledger.find? x).bind (ended due)).toList := by
  have hnames : ∀ y deal, (ledger.find? y).map Deal.finish = some deal → deal.id = y := by
    intro y deal hdeal
    obtain ⟨before, hf, rfl⟩ := Option.map_eq_some_iff.1 hdeal
    exact (id_of_find? hf : before.id = y)
  have hfst : (ledger.finishWhile due).1 = (ledger.deadlines.popWhile due).1.filterMap
      fun y => (ledger.find? y).map Deal.finish := fst_finishAll _ _
  rw [hfst, filter_filterMap_of_nodup hnames h.nodup_due]
  cases hf : ledger.find? x with
  | none => split <;> rfl
  | some deal =>
      have hmem := h.mem_due hdue (mem_of_find? hf)
      rw [id_of_find? hf] at hmem
      rw [Option.map_some, Option.bind_some, ended]
      by_cases hended : deal.stage = .started ∧ due deal.finishTime = true
      · rw [if_pos (hmem.2 hended), if_pos hended]
      · rw [if_neg fun hin => hended (hmem.1 hin), if_neg hended]
        rfl

theorem Sound.finish_alone {change : Change} (hunknown : change.alone none = (none, []))
    (hrule : change.rule = ended due) (hoccurs : ∀ deal, change.occurrence deal = .finished)
    (x : RequestId) :
    change.alone (ledger.find? x) = ((ledger.finishWhile due).2.find? x,
      (finishNotices (ledger.finishWhile due).1).filter (Notice.isAbout x)) := by
  rw [Change.alone_eq hunknown, h.find?_finishWhile hdue, hrule, finishNotices, List.filter_map]
  have hpick : (Notice.isAbout x) ∘ (fun deal => (⟨.finished, deal⟩ : Notice))
      = fun deal : Deal => decide (deal.id = x) := rfl
  rw [hpick, h.filter_finishWhile hdue]
  cases ledger.find? x with
  | none => rfl
  | some deal =>
      rw [Option.bind_some, Option.bind_some, hoccurs]
      cases ended due deal <;> rfl

end

/-! ## One request -/

section

variable (h : ledger.Sound)
include h

/-- A change that concerns a request does to it what it would do if there were no other. -/
theorem Sound.change_alone {change : Change} (hx : change.concerns x = true) :
    change.alone (ledger.find? x) = ((ledger.change change).2.find? x,
      (change.notices (ledger.change change).1).filter (Notice.isAbout x)) := by
  cases change with
  | create request block time =>
      obtain rfl : request.id = x := of_decide_eq_true hx
      exact create_alone ledger request block time
  | transition id stage => exact (revises_transition ledger id stage).alone hx
  | fillSlot id slot host => exact (revises_fillSlot ledger id slot host).alone hx
  | freeSlot id slot => exact (revises_freeSlot ledger id slot).alone hx
  | finishDue now => exact h.finish_alone (Deadlines.le_closed now) rfl rfl (fun _ => rfl) x
  | finishBefore now => exact h.finish_alone (Deadlines.lt_closed now) rfl rfl (fun _ => rfl) x

omit h in
/-- Any other change does nothing to it. -/
theorem change_apart (ledger : Ledger) {change : Change} (hx : change.concerns x = false) :
    (ledger.change change).2.find? x = ledger.find? x ∧
      (change.notices (ledger.change change).1).filter (Notice.isAbout x) = [] := by
  cases change with
  | create request block time => exact create_apart ledger (of_decide_eq_false hx) block time
  | transition id stage => exact (revises_transition ledger id stage).apart hx
  | fillSlot id slot host => exact (revises_fillSlot ledger id slot host).apart hx
  | freeSlot id slot => exact (revises_freeSlot ledger id slot).apart hx
  | finishDue now => cases hx
  | finishBefore now => cases hx

omit h in
/-- Whether a change is refused depends on the deal of a request that it concerns. -/
theorem refusal?_congr {other : Ledger} (hsame : other.find? x = ledger.find? x) {change : Change}
    (hx : change.concerns x = true) :
    (other.change change).1.refusal? = (ledger.change change).1.refusal? := by
  cases change with
  | create request block time =>
      obtain rfl : request.id = x := of_decide_eq_true hx
      rw [refusal?_create, refusal?_create, hsame]
  | _ => rfl

/-- If one ledger accepts some changes, another one that has the same deal of a request accepts
those of them that concern the request; both then have the same deal of it, and have told the same
about it. -/
theorem Sound.isolated {other : Ledger} (h' : other.Sound) (hsame : other.find? x = ledger.find? x)
    {changes : List Change} (haccepts : ledger.Accepts changes) :
    other.Accepts (changes.filter (Change.concerns x)) ∧
      (other.changeAll (changes.filter (Change.concerns x))).2.find? x
        = (ledger.changeAll changes).2.find? x ∧
      (other.news (changes.filter (Change.concerns x))).filter (Notice.isAbout x)
        = (ledger.news changes).filter (Notice.isAbout x) := by
  induction changes generalizing ledger other with
  | nil => exact ⟨accepts_nil other, hsame, rfl⟩
  | cons change changes ih =>
      obtain ⟨hfirst, hrest⟩ := accepts_cons.1 haccepts
      have hnext := closed_sound.change h change
      cases hx : change.concerns x with
      | false =>
          obtain ⟨hfind, hsilent⟩ := ledger.change_apart hx
          rw [List.filter_cons_of_neg (by simp [hx]), news, List.filter_append, hsilent,
            List.nil_append]
          exact ih hnext h' (hsame.trans hfind.symm) hrest
      | true =>
          have halone := h.change_alone hx
          have halone' := h'.change_alone hx
          rw [hsame, halone, Prod.mk.injEq] at halone'
          obtain ⟨hrest', hfind, hnews⟩ :=
            ih hnext (closed_sound.change h' change) halone'.1.symm hrest
          rw [List.filter_cons_of_pos hx, news, news, List.filter_append, List.filter_append,
            halone'.2, hnews]
          exact ⟨accepts_cons.2 ⟨(refusal?_congr hsame hx).trans hfirst, hrest'⟩, hfind, rfl⟩

end

end Ledger

end StorageMarket
