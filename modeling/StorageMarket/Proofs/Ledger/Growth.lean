import StorageMarket.Proofs.Ledger.Isolation
import StorageMarket.Proofs.Notice.Thread

/-!
# A ledger only grows

Short of being rolled back, a ledger keeps all its deals, in their places and under the
publication that they come from. A deal goes on to later stages of its life and to more slots
that are remembered, never back; new deals come after all others.

A change that names a request leaves all other deals as they are. A change that cannot be made,
for one of the reasons that `Refuses` lists, leaves all deals and all deadlines.
-/

namespace StorageMarket

namespace Stage

/-- On one of the ways that a request may go, one stage comes before another one. -/
def Before (first second : Stage) : Prop := ∃ path ∈ paths, [first, second].Sublist path

instance (first second : Stage) : Decidable (first.Before second) :=
  inferInstanceAs (Decidable (∃ path ∈ paths, [first, second].Sublist path))

theorem before_of_canBecome {first second : Stage} (h : first.canBecome second = true) :
    first.Before second := by
  revert h
  cases first <;> cases second <;> decide

theorem Before.trans {first second third : Stage} (h : first.Before second)
    (h' : second.Before third) : first.Before third := by
  revert h h'
  cases first <;> cases second <;> cases third <;> decide

theorem Before.not_back {first second : Stage} (h : first.Before second) :
    ¬ second.Before first := by
  revert h
  cases first <;> cases second <;> decide

end Stage

/-! ## One deal -/

namespace Deal

def publication (deal : Deal) : RequestId × Request × BlockNumber × Instant :=
  (deal.id, deal.request, deal.createdBlock, deal.createdAt)

theorem SameOrigin.publication {deal other : Deal} (h : deal.SameOrigin other) :
    other.publication = deal.publication := by
  rw [Deal.publication, Deal.publication, h.id, h.request, h.createdBlock, h.createdAt]

/-- A deal has become another one of the same publication, at the same stage or a later one, and
all its slots that were filled once are still remembered. -/
structure GrowsInto (deal new : Deal) : Prop where
  origin : deal.SameOrigin new
  onward : new.stage = deal.stage ∨ deal.stage.Before new.stage
  slots : ∀ slot, deal.hosts.wasEverFilled slot = true → new.hosts.wasEverFilled slot = true

theorem GrowsInto.refl (deal : Deal) : deal.GrowsInto deal :=
  ⟨.refl deal, .inl rfl, fun _ hslot => hslot⟩

theorem GrowsInto.trans {first second third : Deal} (h : first.GrowsInto second)
    (h' : second.GrowsInto third) : first.GrowsInto third where
  origin := h.origin.trans h'.origin
  onward := by
    rcases h.onward with hsame | hbefore
    · rw [← hsame]
      exact h'.onward
    · rcases h'.onward with hsame | hbefore'
      · rw [hsame]
        exact .inr hbefore
      · exact .inr (hbefore.trans hbefore')
  slots slot hslot := h'.slots slot (h.slots slot hslot)

theorem GrowsInto.not_before {deal new : Deal} (h : deal.GrowsInto new) :
    ¬ new.stage.Before deal.stage := by
  rcases h.onward with hsame | hbefore
  · rw [hsame]
    exact fun hself => hself.not_back hself
  · exact hbefore.not_back

theorem growsInto_finish {deal : Deal} (h : deal.stage = .started) :
    deal.GrowsInto deal.finish where
  origin := ⟨rfl, rfl, rfl⟩
  onward := by
    rw [h]
    exact .inr (Stage.before_of_canBecome rfl)
  slots _ hslot := hslot

end Deal

namespace Ledger

theorem Rule.growsInto {rule : Deal → Option Deal} (h : Rule rule) {deal new : Deal}
    (hnew : rule deal = some new) : deal.GrowsInto new := by
  cases h with
  | moved stage =>
      obtain ⟨hcan, rfl⟩ := moved_eq_some.1 hnew
      exact ⟨⟨rfl, rfl, rfl⟩, .inr (Stage.before_of_canBecome hcan), fun _ => id⟩
  | filled slot host =>
      obtain ⟨_, rfl⟩ := filled_eq_some.1 hnew
      exact ⟨⟨rfl, rfl, rfl⟩, .inl rfl, fun s hs => Occupancy.wasEverFilled_fill.2 (.inr hs)⟩
  | freed slot =>
      cases hnew
      exact ⟨⟨rfl, rfl, rfl⟩, .inl rfl, fun _ => id⟩

/-! ## All deals -/

/-- A later ledger has the deals of an earlier one, each at least as far, and maybe more after
them. -/
structure Extends (ledger later : Ledger) : Prop where
  publications : ledger.deals.map Deal.publication <+: later.deals.map Deal.publication
  deals : ∀ id deal, ledger.find? id = some deal →
    ∃ new, later.find? id = some new ∧ deal.GrowsInto new

theorem Extends.refl (ledger : Ledger) : ledger.Extends ledger :=
  ⟨List.prefix_rfl, fun _ deal hf => ⟨deal, hf, .refl deal⟩⟩

theorem Extends.trans {first second third : Ledger} (h : first.Extends second)
    (h' : second.Extends third) : first.Extends third where
  publications := h.publications.trans h'.publications
  deals id deal hf := by
    obtain ⟨new, hnew, hgrows⟩ := h.deals id deal hf
    obtain ⟨last, hlast, hgrows'⟩ := h'.deals id new hnew
    exact ⟨last, hlast, hgrows.trans hgrows'⟩

/-- A ledger is extended by letting each deal grow in its place and adding deals at the end. -/
theorem extends_of_deals {ledger later : Ledger} (grow : Deal → Deal) (added : List Deal)
    (hdeals : later.deals = ledger.deals.map grow ++ added)
    (hgrow : ∀ deal ∈ ledger.deals, deal.GrowsInto (grow deal)) : ledger.Extends later where
  publications := by
    rw [hdeals, List.map_append, List.map_map]
    have hsame : ledger.deals.map (Deal.publication ∘ grow) = ledger.deals.map Deal.publication :=
      List.map_congr_left fun deal hm => (hgrow deal hm).origin.publication
    rw [hsame]
    exact List.prefix_append _ _
  deals id deal hf := by
    refine ⟨grow deal, ?_, hgrow deal (mem_of_find? hf)⟩
    have hids : ∀ deal ∈ ledger.deals, (grow deal).id = deal.id :=
      fun deal hm => (hgrow deal hm).origin.id
    rw [find?] at hf ⊢
    rw [hdeals, List.find?_append, find?_map hids, hf]
    rfl

/-- Whatever extends a sound ledger still does after a change. -/
theorem closed_extends (ledger : Ledger) :
    Closed fun later => later.Sound ∧ ledger.Extends later where
  publish {later} request block time h hfresh := by
    obtain ⟨hsound, hext⟩ := h
    refine ⟨closed_sound.publish request block time hsound hfresh, hext.trans ?_⟩
    apply extends_of_deals id [.publish request block time]
    · rw [List.map_id, ← deals_note later request.id]
      rfl
    · intro deal _
      exact .refl deal
  revise {later} id {rule} h hrule := by
    obtain ⟨hsound, hext⟩ := h
    refine ⟨closed_sound.revise id hsound hrule, hext.trans ?_⟩
    rcases revise_cases later id rule with heq | ⟨deal, new, hf, hnew, heq⟩ <;> rw [heq]
    · apply extends_of_deals (fun deal => deal) []
      · rw [deals_note, List.map_id', List.append_nil]
      · intro deal _
        exact .refl deal
    · have hgrows := hrule.growsInto hnew
      apply extends_of_deals (fun d => if d.id = new.id then new else d) []
      · rw [List.append_nil, ← deals_note later id]
        rfl
      · intro d hd
        split
        · next hid =>
            -- the deal under that name is the one that was revised
            have hd := eq_of_id_eq hsound.nodup hd (mem_of_find? hf) (hid.trans hgrows.origin.id)
            rw [hd]
            exact hgrows
        · exact .refl d
  finishWhile {later} due h := by
    obtain ⟨hsound, hext⟩ := h
    refine ⟨closed_sound.finishWhile due hsound, hext.trans ?_⟩
    apply extends_of_deals _ []
    · rw [deals_finishWhile hsound.nodup, List.append_nil]
    · intro deal hm
      split
      · next hdue =>
          obtain ⟨d, hd, hid⟩ := Deadlines.mem_popWhile_fst.1 hdue
          obtain ⟨running, hf, hstage, _⟩ := hsound.running_of_taken hd
          rw [hid, find?_of_mem hsound.nodup hm] at hf
          cases hf
          exact Deal.growsInto_finish hstage
      · exact .refl deal

/-- What becomes of a ledger that is not rolled back. -/
inductive Onward (ledger : Ledger) : Ledger → Prop where
  | refl : Onward ledger ledger
  | change {later : Ledger} (h : Onward ledger later) (change : Change) :
      Onward ledger (later.change change).2
  | begin {later : Ledger} (h : Onward ledger later) : Onward ledger later.begin
  | commit {later : Ledger} (h : Onward ledger later) : Onward ledger later.commit

theorem Onward.changeAll {ledger later : Ledger} (h : ledger.Onward later)
    (changes : List Change) : ledger.Onward (later.changeAll changes).2 := by
  induction changes generalizing later with
  | nil => exact h
  | cons change changes ih => exact ih (h.change change)

theorem Sound.extends_of_onward {ledger later : Ledger} (h : ledger.Sound)
    (hon : ledger.Onward later) : later.Sound ∧ ledger.Extends later := by
  induction hon with
  | refl => exact ⟨h, .refl ledger⟩
  | change _ change ih => exact (closed_extends ledger).change ih change
  -- the deals do not depend on the undo log
  | begin _ ih => exact ⟨ih.1.begin, ih.2.publications, ih.2.deals⟩
  | commit _ ih => exact ⟨ih.1.commit, ih.2.publications, ih.2.deals⟩

end Ledger

/-! ## Changes that are refused -/

def Answer.isRefusal : Answer → Bool
  | created (.error _) => true
  | changed none => true
  | freed none => true
  | _ => false

namespace Ledger

/-- A change that cannot be made: a request that is known is published, or a request is unknown,
cannot move to the stage or does not have the slot. -/
def Refuses (ledger : Ledger) : Change → Prop
  | .create request _ _ => request.id ∈ ledger.ids
  | .transition id stage => ∀ deal, ledger.find? id = some deal → deal.stage.canBecome stage = false
  | .fillSlot id slot _ => ∀ deal, ledger.find? id = some deal → deal.request.terms.slots ≤ slot
  | .freeSlot id _ => ledger.find? id = none
  | .finishDue _ => False
  | .finishBefore _ => False

theorem moved_eq_none {stage : Stage} {deal : Deal} :
    moved stage deal = none ↔ deal.stage.canBecome stage = false := by
  rw [moved, ← Bool.not_eq_true]
  simp

theorem filled_eq_none {slot : SlotIndex} {host : Address} {deal : Deal} :
    filled slot host deal = none ↔ deal.request.terms.slots ≤ slot := by
  rw [filled, ← UInt64.not_lt]
  simp

theorem revise_of_none {ledger : Ledger} {id : RequestId} {rule : Deal → Option Deal}
    (h : (ledger.find? id).bind rule = none) : ledger.revise id rule = (none, ledger.note id) := by
  rcases revise_cases ledger id rule with heq | ⟨deal, new, hf, hnew, _⟩
  · exact heq
  · rw [hf, Option.bind_some, hnew] at h
    cases h

theorem isRefusal_changed {deal : Option Deal} :
    (Answer.changed deal).isRefusal = true ↔ deal = none := by
  cases deal <;> simp [Answer.isRefusal]

theorem isRefusal_freed {result : Option (Deal × Option Address)} :
    (Answer.freed result).isRefusal = true ↔ result = none := by
  cases result <;> simp [Answer.isRefusal]

theorem isRefusal_change (ledger : Ledger) (change : Change) :
    (ledger.change change).1.isRefusal = true ↔ ledger.Refuses change := by
  cases change with
  | create request block time =>
      rw [Ledger.change]
      rcases create_cases ledger request block time with ⟨hknown, hc⟩ | ⟨hfresh, hc⟩ <;> rw [hc]
      · exact ⟨fun _ => hknown, fun _ => rfl⟩
      · exact ⟨fun h => Bool.noConfusion h, fun hknown => absurd hknown hfresh⟩
  | transition id stage =>
      show (Answer.changed (ledger.transition id stage).1).isRefusal = true ↔ _
      rw [isRefusal_changed, transition_eq_revise, fst_revise, Option.bind_eq_none_iff]
      simp only [moved_eq_none]
      rfl
  | fillSlot id slot host =>
      show (Answer.changed (ledger.fillSlot id slot host).1).isRefusal = true ↔ _
      rw [isRefusal_changed, fillSlot_eq_revise, fst_revise, Option.bind_eq_none_iff]
      simp only [filled_eq_none]
      rfl
  | freeSlot id slot =>
      show (Answer.freed (ledger.freeSlot id slot).1).isRefusal = true ↔ ledger.find? id = none
      rw [isRefusal_freed, freeSlot_eq_revise, Option.map_eq_none_iff, fst_revise]
      cases ledger.find? id with
      | none => simp
      | some deal => simp [freed]
  | finishDue now => exact ⟨fun h => Bool.noConfusion h, False.elim⟩
  | finishBefore now => exact ⟨fun h => Bool.noConfusion h, False.elim⟩

theorem unchanged_of_refuses {ledger : Ledger} {change : Change} (h : ledger.Refuses change) :
    (ledger.change change).2.deals = ledger.deals ∧
      (ledger.change change).2.deadlines = ledger.deadlines := by
  have hnoted {id : RequestId} {rule : Deal → Option Deal}
      (hnone : (ledger.find? id).bind rule = none) :
      (ledger.revise id rule).2.deals = ledger.deals ∧
        (ledger.revise id rule).2.deadlines = ledger.deadlines := by
    rw [revise_of_none hnone]
    exact ⟨deals_note ledger id, deadlines_note ledger id⟩
  cases change with
  | create request block time =>
      rw [Ledger.change]
      rcases create_cases ledger request block time with ⟨_, hc⟩ | ⟨hfresh, _⟩
      · rw [hc]
        exact ⟨rfl, rfl⟩
      · exact absurd h hfresh
  | transition id stage =>
      rw [(revises_transition ledger id stage).after]
      exact hnoted (Option.bind_eq_none_iff.2 fun deal hf => moved_eq_none.2 (h deal hf))
  | fillSlot id slot host =>
      rw [(revises_fillSlot ledger id slot host).after]
      exact hnoted (Option.bind_eq_none_iff.2 fun deal hf => filled_eq_none.2 (h deal hf))
  | freeSlot id slot =>
      have hf : ledger.find? id = none := h
      rw [(revises_freeSlot ledger id slot).after]
      exact hnoted (by rw [hf]; rfl)
  | finishDue now => exact h.elim
  | finishBefore now => exact h.elim

/-! ## Deals of other requests -/

def others (ledger : Ledger) (id : RequestId) : List Deal :=
  ledger.deals.filter fun deal => deal.id ≠ id

theorem others_put (ledger : Ledger) (deal : Deal) :
    (ledger.put deal).others deal.id = ledger.others deal.id := by
  show (ledger.deals.map _).filter _ = ledger.deals.filter _
  induction ledger.deals with
  | nil => rfl
  | cons d deals ih =>
      rw [List.map_cons]
      by_cases hid : d.id = deal.id
      · rw [if_pos hid, List.filter_cons_of_neg (by simp), List.filter_cons_of_neg (by simp [hid]),
          ih]
      · rw [if_neg hid, List.filter_cons_of_pos (by simp [hid]),
          List.filter_cons_of_pos (by simp [hid]), ih]

theorem Revises.others_eq {ledger : Ledger} {change : Change} {id : RequestId}
    (h : ledger.Revises change id) : (ledger.change change).2.others id = ledger.others id := by
  rw [h.after]
  rcases revise_cases ledger id change.rule with heq | ⟨deal, new, hf, hnew, heq⟩ <;> rw [heq]
  · rw [others, deals_note, others]
  · have hid : new.id = id := (h.keeps deal new hnew).id.trans (id_of_find? hf)
    subst hid
    show ((ledger.note new.id).put new).others new.id = _
    rw [others_put, others, deals_note, others]

theorem others_change (ledger : Ledger) {change : Change} {id : RequestId}
    (h : change.subject? = some id) : (ledger.change change).2.others id = ledger.others id := by
  cases change with
  | create request block time =>
      cases h
      rw [Ledger.change]
      rcases create_cases ledger request block time with ⟨_, hc⟩ | ⟨_, hc⟩ <;> rw [hc]
      show ((ledger.note request.id).deals ++ [Deal.publish request block time]).filter _ = _
      have hown : (Deal.publish request block time).id = request.id := rfl
      rw [List.filter_append, deals_note, List.filter_cons_of_neg (by simp [hown]), List.filter_nil,
        List.append_nil, others]
  | transition id stage =>
      cases h
      exact (revises_transition ledger id stage).others_eq
  | fillSlot id slot host =>
      cases h
      exact (revises_fillSlot ledger id slot host).others_eq
  | freeSlot id slot =>
      cases h
      exact (revises_freeSlot ledger id slot).others_eq
  | finishDue now => cases h
  | finishBefore now => cases h

/-- Whatever is done with a ledger short of rolling it back, the deals that it has are the first
deals of what it becomes, of the same publications and in the same order; none is at an earlier
stage than before, and none has forgotten a slot. A single change that names a request leaves all
other deals as they are and in order; it is refused exactly if it cannot be made, and then it
leaves all deals and all deadlines. -/
theorem ledger_only_grows {ledger : Ledger} (h : ledger.Reachable) :
    (∀ later, ledger.Onward later → ledger.Extends later ∧
      ∀ id deal new, ledger.find? id = some deal → later.find? id = some new →
        ¬ new.stage.Before deal.stage) ∧
    ∀ change : Change,
      (∀ id, change.subject? = some id → (ledger.change change).2.others id = ledger.others id) ∧
      ((ledger.change change).1.isRefusal = true ↔ ledger.Refuses change) ∧
      ((ledger.change change).1.isRefusal = true →
        (ledger.change change).2.deals = ledger.deals ∧
          (ledger.change change).2.deadlines = ledger.deadlines) := by
  refine ⟨fun later hon => ?_, fun change => ⟨fun id hid => ledger.others_change hid,
    ledger.isRefusal_change change, fun hrefused => ?_⟩⟩
  · have hext := (h.intact.sound.extends_of_onward hon).2
    refine ⟨hext, fun id deal new hf hnew => ?_⟩
    obtain ⟨found, hfound, hgrows⟩ := hext.deals id deal hf
    cases hfound.symm.trans hnew
    exact hgrows.not_before
  · exact unchanged_of_refuses ((ledger.isRefusal_change change).1 hrefused)

/-- A host for a slot that the second request of the small market does not have. -/
def sampleIntrusion : Change :=
  .fillSlot (sampleRequest 2 2 3600).id 2 (sampleRequest 1 2 100).client

theorem ledger_only_grows_sampleBustle :
    sampleMarket.Reachable ∧ sampleMarket.Onward sampleBustle ∧
      sampleMarket.deals.length = 2 ∧ sampleBustle.deals.length = 3 ∧
      sampleMarket.deals.map Deal.publication <+: sampleBustle.deals.map Deal.publication ∧
      sampleMarket.Refuses sampleIntrusion ∧
      (sampleMarket.change sampleIntrusion).2.deals = sampleMarket.deals := by
  have hreachable : sampleMarket.Reachable := Reachable.empty.changeAll _
  have honward : sampleMarket.Onward sampleBustle := Onward.refl.begin.changeAll sampleTraffic
  obtain ⟨hgrows, hsingle⟩ := ledger_only_grows hreachable
  obtain ⟨_, hrefuses, hunchanged⟩ := hsingle sampleIntrusion
  have hrefused : (sampleMarket.change sampleIntrusion).1.isRefusal = true := by decide +kernel
  exact ⟨hreachable, honward, by decide +kernel, by decide +kernel,
    (hgrows _ honward).1.publications, hrefuses.1 hrefused, (hunchanged hrefused).1⟩

end Ledger

end StorageMarket
