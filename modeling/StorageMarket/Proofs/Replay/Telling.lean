import StorageMarket.Proofs.Ledger.Due
import StorageMarket.Proofs.Notice.Thread
import StorageMarket.Proofs.Replay.Changes

/-!
# The notices tell the deals

Someone who knows the deals of a ledger and learns of a notice knows the deals
afterwards: the deal that is shown is a new one, or takes the place of the older one. On
a sound ledger the notices of any changes, accepted or not, tell all that becomes of the
deals in this way (`Sound.telling_news`). What is told about one request is a thread.
-/

namespace StorageMarket

theorem Stage.stage?_occurrence (stage : Stage) : stage.occurrence.stage? = some stage := by
  cases stage <;> rfl

namespace Ledger

/-- Puts the deal that a notice shows where it belongs. -/
def learn (ledger : Ledger) (notice : Notice) : Ledger :=
  match notice.occurrence with
  | .published => ledger.append notice.deal
  | _ => ledger.put notice.deal

theorem learn_of_ne {notice : Notice} (h : notice.occurrence ≠ .published) (ledger : Ledger) :
    ledger.learn notice = ledger.put notice.deal := by
  rw [learn]
  split
  · next heq => exact absurd heq h
  · rfl

theorem learn_of_eq {notice : Notice} (h : notice.occurrence = .published) (ledger : Ledger) :
    ledger.learn notice = ledger.append notice.deal := by
  rw [learn, h]

theorem deals_learn_congr {ledger other : Ledger} (h : other.deals = ledger.deals)
    (notice : Notice) : (other.learn notice).deals = (ledger.learn notice).deals := by
  by_cases hp : notice.occurrence = .published
  · rw [learn_of_eq hp, learn_of_eq hp, append, append, h]
  · rw [learn_of_ne hp, learn_of_ne hp, put, put, h]

/-- What is told fits the deal of the request, and the deal that is shown is the one afterwards. -/
theorem find?_learn {ledger : Ledger} {notice : Notice}
    (h : notice.Follows (ledger.find? notice.deal.id)) (x : RequestId) :
    (ledger.learn notice).find? x
      = if x = notice.deal.id then some notice.deal else ledger.find? x := by
  cases hf : ledger.find? notice.deal.id with
  | none =>
      rw [hf] at h
      rw [learn_of_eq h.eq_published, find?_append]
      by_cases hx : x = notice.deal.id
      · rw [hx, hf, if_pos rfl]
        rfl
      · rw [if_neg hx, if_neg fun he => hx he.symm, Option.or_none]
  | some deal =>
      rw [hf] at h
      rw [learn_of_ne h.ne_published, find?_put]
      by_cases hx : x = notice.deal.id
      · rw [hx, hf, if_pos rfl, if_pos rfl]
        rfl
      · rw [if_neg hx, if_neg hx]

/-- Notices one after the other that tell what becomes of the deals of a ledger. -/
inductive Telling : Ledger → List Notice → Ledger → Prop where
  | nil {before after : Ledger} (same : after.deals = before.deals) : Telling before [] after
  | cons {before after : Ledger} {notice : Notice} {rest : List Notice}
      (first : notice.Follows (before.find? notice.deal.id))
      (others : Telling (before.learn notice) rest after) : Telling before (notice :: rest) after

namespace Telling

theorem congr {before other after : Ledger} {notices : List Notice}
    (h : Telling before notices after) (hsame : other.deals = before.deals) :
    Telling other notices after := by
  induction h generalizing other with
  | nil same => exact .nil (same.trans hsame.symm)
  | cons first others ih =>
      refine .cons ?_ (ih (deals_learn_congr hsame _))
      rw [find?, hsame]
      exact first

theorem append {before between after : Ledger} {notices more : List Notice}
    (h : Telling before notices between) (h' : Telling between more after) :
    Telling before (notices ++ more) after := by
  induction h with
  | nil same => exact h'.congr same.symm
  | cons first others ih => exact .cons first (ih h')

theorem thread {before after : Ledger} {notices : List Notice} (h : Telling before notices after)
    (id : RequestId) :
    Thread (before.find? id) (notices.filter fun notice => notice.deal.id = id)
      (after.find? id) := by
  induction h with
  | @nil before after same =>
      have hfind : after.find? id = before.find? id := by rw [find?, find?, same]
      rw [hfind]
      exact .nil _
  | @cons before after notice rest first others ih =>
      rw [find?_learn first] at ih
      by_cases hid : notice.deal.id = id
      · rw [List.filter_cons_of_pos (by simpa using hid)]
        rw [if_pos hid.symm] at ih
        rw [hid] at first
        exact .cons first ih
      · rw [List.filter_cons_of_neg (by simpa using hid)]
        rwa [if_neg fun he => hid he.symm] at ih

theorem ids_eq {before after : Ledger} {notices : List Notice} (h : Telling before notices after) :
    after.ids = before.ids
      ++ (notices.filter fun notice => notice.occurrence = .published).map fun notice =>
        notice.deal.id := by
  induction h with
  | nil same => simp [ids, same]
  | @cons before after notice rest first others ih =>
      rw [ih]
      by_cases hp : notice.occurrence = .published
      · rw [learn_of_eq hp, ids_append, List.filter_cons_of_pos (by simpa using hp),
          List.map_cons, List.append_assoc, List.singleton_append]
      · rw [learn_of_ne hp, ids_put, List.filter_cons_of_neg (by simpa using hp)]

end Telling

/-! ## The notices of changes -/

/-- A revision that goes through is told by one notice that shows the new deal. -/
theorem telling_put {ledger : Ledger} {id : RequestId} {deal : Deal} {notice : Notice}
    (hf : ledger.find? id = some deal) (hid : notice.deal.id = id)
    (hfollows : notice.Follows (some deal)) (deadlines : Deadlines) :
    Telling ledger [notice] { (ledger.note id).put notice.deal with deadlines } := by
  refine .cons ?_ (.nil ?_)
  · rw [hid, hf]
    exact hfollows
  · rw [learn_of_ne hfollows.ne_published]
    show ((ledger.note id).put notice.deal).deals = (ledger.put notice.deal).deals
    rw [put, put, deals_note]

theorem telling_revise {ledger : Ledger} {id : RequestId} {rule : Deal → Option Deal}
    (hkeeps : KeepsOrigin rule) {occurrence : Occurrence}
    (hfollows : ∀ deal new, ledger.find? id = some deal → rule deal = some new →
      Notice.Follows (some deal) ⟨occurrence, new⟩) :
    Telling ledger ((ledger.revise id rule).1.toList.map fun deal => ⟨occurrence, deal⟩)
      (ledger.revise id rule).2 := by
  rcases revise_cases ledger id rule with heq | ⟨deal, new, hf, hnew, heq⟩ <;> rw [heq]
  · exact .nil (deals_note ledger id)
  · have hid : new.id = id := ((hkeeps deal new hnew).id).trans (id_of_find? hf)
    exact telling_put hf hid (hfollows deal new hf hnew) _

theorem telling_transition (ledger : Ledger) (id : RequestId) (stage : Stage) :
    Telling ledger ((Change.transition id stage).notices (ledger.change (.transition id stage)).1)
      (ledger.change (.transition id stage)).2 := by
  show Telling ledger (Change.notices _ (.changed (ledger.transition id stage).1))
    (ledger.transition id stage).2
  rw [Change.notices_transition, transition_eq_revise]
  refine telling_revise (keepsOrigin_moved stage) fun deal new _ hnew => ?_
  obtain ⟨hcan, rfl⟩ := moved_eq_some.1 hnew
  exact .turned deal (Stage.stage?_occurrence stage) hcan

theorem telling_fillSlot (ledger : Ledger) (id : RequestId) (slot : SlotIndex) (host : Address) :
    Telling ledger
      ((Change.fillSlot id slot host).notices (ledger.change (.fillSlot id slot host)).1)
      (ledger.change (.fillSlot id slot host)).2 := by
  show Telling ledger (Change.notices _ (.changed (ledger.fillSlot id slot host).1))
    (ledger.fillSlot id slot host).2
  rw [Change.notices_fillSlot, fillSlot_eq_revise]
  refine telling_revise (keepsOrigin_filled slot host) fun deal new _ hnew => ?_
  obtain ⟨has, rfl⟩ := filled_eq_some.1 hnew
  exact .filled deal host has

theorem telling_freeSlot (ledger : Ledger) (id : RequestId) (slot : SlotIndex) :
    Telling ledger ((Change.freeSlot id slot).notices (ledger.change (.freeSlot id slot)).1)
      (ledger.change (.freeSlot id slot)).2 := by
  show Telling ledger (Change.notices _ (.freed (ledger.freeSlot id slot).1))
    (ledger.freeSlot id slot).2
  rw [freeSlot_eq_revise, Change.notices_freeSlot]
  refine telling_revise (keepsOrigin_freed slot) fun deal new hf hnew => ?_
  cases hnew
  rw [hf]
  exact .freed deal slot

theorem telling_create (ledger : Ledger) (request : Request) (block : BlockNumber)
    (time : Instant) :
    Telling ledger
      ((Change.create request block time).notices (ledger.change (.create request block time)).1)
      (ledger.change (.create request block time)).2 := by
  rw [change]
  rcases create_cases ledger request block time with ⟨_, hc⟩ | ⟨hfresh, hc⟩ <;> rw [hc]
  · exact .nil rfl
  · refine .cons ?_ (.nil ?_)
    · have hnone : ledger.find? request.id = none := find?_eq_none.2 hfresh
      show Notice.Follows (ledger.find? request.id) _
      rw [hnone]
      exact .published request block time
    · show ((ledger.note request.id).append _).deals = (ledger.append _).deals
      rw [append, append, deals_note]

/-- Each deal that is finished in turn is told by a notice. -/
theorem MeetsRunning.telling {ledger : Ledger} {ids : List RequestId}
    (h : MeetsRunning ledger ids) :
    Telling ledger (finishNotices (ledger.finishAll ids).1) (ledger.finishAll ids).2 := by
  induction h with
  | nil ledger => exact .nil rfl
  | @cons ledger id ids deal found running rest ih =>
      rw [finishAll_cons_of_some found]
      have hid : deal.finish.id = id := (id_of_find? found : deal.id = id)
      have hfollows : Notice.Follows (some deal) ⟨.finished, deal.finish⟩ :=
        .turned deal rfl (by rw [running]; rfl)
      exact (telling_put found hid hfollows (ledger.note id).deadlines).append ih

section

variable {ledger : Ledger} (h : ledger.Sound)
include h

theorem Sound.telling_finishWhile (due : Instant → Bool) :
    Telling ledger (finishNotices (ledger.finishWhile due).1) (ledger.finishWhile due).2 :=
  (h.meetsRunning due).telling.congr rfl

theorem Sound.telling_change (change : Change) :
    Telling ledger (change.notices (ledger.change change).1) (ledger.change change).2 := by
  cases change with
  | create request block time => exact telling_create ledger request block time
  | transition id stage => exact telling_transition ledger id stage
  | fillSlot id slot host => exact telling_fillSlot ledger id slot host
  | freeSlot id slot => exact telling_freeSlot ledger id slot
  | finishDue now => exact h.telling_finishWhile fun t => t ≤ now
  | finishBefore now => exact h.telling_finishWhile fun t => t < now

theorem Sound.telling_news (changes : List Change) :
    Telling ledger (ledger.news changes) (ledger.changeAll changes).2 := by
  induction changes generalizing ledger with
  | nil => exact .nil rfl
  | cons change changes ih =>
      exact (h.telling_change change).append (ih (closed_sound.change h change))

end

end Ledger

end StorageMarket
