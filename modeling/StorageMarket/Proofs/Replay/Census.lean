import Mathlib.Algebra.GroupWithZero.Nat
import Mathlib.Data.List.Nodup
import StorageMarket.Proofs.Replay.Telling

/-!
# Counting deals by counting notices

Each deal has a weight, and some notices count. If a notice never adds more to the weight
of its deal than it counts, a run never adds more to the weight of all deals than the
notices that count; and the same the other way round (`Telling.weight_le`,
`Telling.le_weight`).

For the deals at certain stages it is enough to look at the ways in which a stage can
follow another one.
-/

namespace StorageMarket

namespace Notice

/-- Says that the deal has come to a stage. -/
def names (stage : Stage) (notice : Notice) : Bool := notice.occurrence.stage? = some stage

def fills (notice : Notice) : Bool := notice.occurrence matches .slotFilled ..

def frees (notice : Notice) : Bool := notice.occurrence matches .slotFreed ..

end Notice

theorem Tally.addAll_eq (tally : Tally) (notices : List Notice) :
    tally.addAll notices
      = ⟨tally.published + notices.countP (Notice.names .new),
        tally.fulfilled + notices.countP (Notice.names .started),
        tally.cancelled + notices.countP (Notice.names .cancelled),
        tally.failed + notices.countP (Notice.names .failed),
        tally.finished + notices.countP (Notice.names .finished),
        tally.slotsFilled + notices.countP Notice.fills,
        tally.slotsFreed + notices.countP Notice.frees⟩ := by
  induction notices generalizing tally with
  | nil => rfl
  | cons notice notices ih =>
      show (tally.add notice).addAll notices = _
      rw [ih]
      obtain ⟨occurrence, deal⟩ := notice
      cases occurrence <;>
        simp [Tally.add, List.countP_cons, Notice.names, Notice.fills, Notice.frees,
          Occurrence.stage?, Nat.add_assoc, Nat.add_comm 1]

theorem countP_or {α : Type} {p q : α → Bool} (hpq : ∀ a, p a = true → q a = false)
    (l : List α) : (l.countP fun a => p a || q a) = l.countP p + l.countP q := by
  induction l with
  | nil => rfl
  | cons a l ih =>
      rw [List.countP_cons, List.countP_cons, List.countP_cons, ih]
      cases hp : p a with
      | true =>
          simp [hpq a hp]
          omega
      | false =>
          simp
          omega

namespace Ledger

/-- What the deals of a ledger weigh together. -/
def weight (w : Deal → Nat) (ledger : Ledger) : Nat := (ledger.deals.map w).sum

/-- What a request weighs: nothing as long as it has no deal. -/
def worth (w : Deal → Nat) (deal : Option Deal) : Nat := (deal.map w).getD 0

variable {w : Deal → Nat} {ledger : Ledger}

theorem sum_map_replace {deals : List Deal} (hids : (deals.map Deal.id).Nodup) {deal new : Deal}
    (hf : deals.find? (fun d => d.id = new.id) = some deal) :
    ((deals.map fun d => if d.id = new.id then new else d).map w).sum + w deal
      = (deals.map w).sum + w new := by
  induction deals with
  | nil => cases hf
  | cons d deals ih =>
      obtain ⟨hfresh, hids⟩ := List.nodup_cons.1 hids
      rw [List.map_cons, List.map_cons, List.map_cons, List.sum_cons, List.sum_cons]
      by_cases hid : d.id = new.id
      · rw [List.find?_cons_of_pos (by simpa using hid)] at hf
        cases hf
        have hothers : (deals.map fun d => if d.id = new.id then new else d) = deals := by
          refine (List.map_congr_left fun other hm => if_neg fun he => ?_).trans (List.map_id _)
          rw [hid, ← he] at hfresh
          exact hfresh (List.mem_map_of_mem hm)
        rw [if_pos hid, hothers]
        omega
      · rw [List.find?_cons_of_neg (by simpa using hid)] at hf
        have ih := ih hids hf
        rw [if_neg hid]
        omega

theorem weight_countP (p : Deal → Bool) (ledger : Ledger) :
    ledger.weight (fun deal => if p deal then 1 else 0) = ledger.deals.countP p := by
  rw [weight]
  induction ledger.deals with
  | nil => rfl
  | cons deal deals ih => rw [List.map_cons, List.sum_cons, ih, List.countP_cons, Nat.add_comm]

/-- Only the deal that a notice shows changes its weight. -/
theorem weight_learn (hids : ledger.ids.Nodup) {notice : Notice}
    (h : notice.Follows (ledger.find? notice.deal.id)) :
    (ledger.learn notice).weight w + worth w (ledger.find? notice.deal.id)
      = ledger.weight w + w notice.deal := by
  cases hf : ledger.find? notice.deal.id with
  | none =>
      rw [hf] at h
      rw [learn_of_eq h.eq_published, weight, append, List.map_append, List.sum_append]
      simp [worth, weight]
  | some deal =>
      rw [hf] at h
      rw [learn_of_ne h.ne_published]
      exact sum_map_replace hids hf

theorem nodup_ids_learn (hids : ledger.ids.Nodup) {notice : Notice}
    (h : notice.Follows (ledger.find? notice.deal.id)) : (ledger.learn notice).ids.Nodup := by
  cases hf : ledger.find? notice.deal.id with
  | none =>
      rw [hf] at h
      rw [learn_of_eq h.eq_published, ids_append]
      exact List.Nodup.append hids (List.nodup_singleton _)
        (List.disjoint_singleton.2 (find?_eq_none.1 hf))
  | some deal =>
      rw [hf] at h
      rwa [learn_of_ne h.ne_published, ids_put]

/-! ## Runs -/

namespace Telling

variable {counts : Notice → Bool} {before after : Ledger} {notices : List Notice}

/-- If a notice adds no more to the weight of its deal than it counts, notices add no more to the
weight of all deals than those of them that count. -/
theorem weight_le (hstep : ∀ deal notice, notice.Follows deal →
      w notice.deal ≤ worth w deal + if counts notice then 1 else 0)
    (h : Telling before notices after) (hids : before.ids.Nodup) :
    after.weight w ≤ before.weight w + notices.countP counts := by
  induction h with
  | nil same =>
      rw [weight, weight, same]
      exact Nat.le_add_right _ _
  | @cons before after notice rest first others ih =>
      have hrest := ih (nodup_ids_learn hids first)
      have hfirst := hstep _ _ first
      have hlearn := weight_learn (w := w) hids first
      rw [List.countP_cons]
      omega

/-- If a notice adds no less to the weight of its deal than it counts, notices add no less to the
weight of all deals than those of them that count. -/
theorem le_weight (hstep : ∀ deal notice, notice.Follows deal →
      (worth w deal + if counts notice then 1 else 0) ≤ w notice.deal)
    (h : Telling before notices after) (hids : before.ids.Nodup) :
    before.weight w + notices.countP counts ≤ after.weight w := by
  induction h with
  | nil same =>
      rw [weight, weight, same]
      exact Nat.le_refl _
  | @cons before after notice rest first others ih =>
      have hrest := ih (nodup_ids_learn hids first)
      have hfirst := hstep _ _ first
      have hlearn := weight_learn (w := w) hids first
      rw [List.countP_cons]
      omega

/-! ## Deals at certain stages -/

section

variable (h : Telling .empty notices after) (stages : Stage → Bool) (stage : Stage)
include h

/-- Deals come to certain stages, from others, only where notices name one of them. -/
theorem countP_stages_le (hnew : stages .new = true → stage = .new)
    (hturn : ∀ a b, a.canBecome b = true → stages b = true → stages a = true ∨ b = stage) :
    (after.deals.countP fun deal => stages deal.stage) ≤ notices.countP (Notice.names stage) := by
  rw [← weight_countP]
  refine Nat.le_trans (h.weight_le (fun deal notice hfollows => ?_) List.nodup_nil)
    (Nat.le_of_eq (Nat.zero_add _))
  cases hfollows with
  | published request block time =>
      show (if stages .new then 1 else 0)
        ≤ 0 + if decide (some Stage.new = some stage) then 1 else 0
      by_cases hstages : stages .new = true
      · simp [hstages, hnew hstages]
      · simp [hstages]
  | @turned deal occurrence next named can =>
      show (if stages next then 1 else 0) ≤ (if stages deal.stage then 1 else 0)
        + if decide (occurrence.stage? = some stage) then 1 else 0
      rw [named]
      by_cases hstages : stages next = true
      · rcases hturn deal.stage next can hstages with hbefore | hstage
        · simp [hstages, hbefore]
        · rw [if_pos hstages]
          simp [hstage]
      · simp [hstages]
  | filled deal host has => exact Nat.le_add_right _ _
  | freed deal slot => exact Nat.le_add_right _ _

/-- Where notices name a stage, deals come to certain ones from others, and they stay there. -/
theorem le_countP_stages (hnew : stage = .new → stages .new = true)
    (hturn : ∀ a b, a.canBecome b = true →
      (stages a = true → stages b = true) ∧ (b = stage → stages a = false ∧ stages b = true)) :
    notices.countP (Notice.names stage) ≤ after.deals.countP fun deal => stages deal.stage := by
  rw [← weight_countP]
  refine Nat.le_trans (Nat.le_add_left _ _)
    (h.le_weight (fun deal notice hfollows => ?_) List.nodup_nil)
  cases hfollows with
  | published request block time =>
      show (0 + if decide (some Stage.new = some stage) then 1 else 0)
        ≤ if stages .new then 1 else 0
      by_cases hstage : stage = .new
      · rw [hnew hstage]
        simp [hstage]
      · simp [Ne.symm hstage]
  | @turned deal occurrence next named can =>
      show ((if stages deal.stage then 1 else 0)
        + if decide (occurrence.stage? = some stage) then 1 else 0) ≤ if stages next then 1 else 0
      rw [named]
      obtain ⟨hstays, hcomes⟩ := hturn deal.stage next can
      by_cases hstage : next = stage
      · obtain ⟨hbefore, hafter⟩ := hcomes hstage
        rw [hbefore, hafter, hstage]
        simp
      · by_cases hbefore : stages deal.stage = true
        · simp [hbefore, hstays hbefore, hstage]
        · simp [hbefore, hstage]
  | filled deal host has => exact Nat.le_refl _
  | freed deal slot => exact Nat.le_refl _

theorem length_deals : after.deals.length = notices.countP (Notice.names .new) := by
  rw [← List.countP_true]
  refine Nat.le_antisymm ?_ ?_
  · exact h.countP_stages_le (fun _ => true) .new (fun _ => rfl) fun _ _ _ _ => .inl rfl
  · refine h.le_countP_stages (fun _ => true) .new (fun _ => rfl) fun a b => ?_
    cases a <;> cases b <;> decide

/-- The deals at a stage that is never left are as many as the notices that name it. -/
theorem countP_stage (hnew : stage ≠ .new) (hlast : ∀ next, stage.canBecome next = false) :
    (after.deals.countP fun deal => deal.stage = stage)
      = notices.countP (Notice.names stage) := by
  refine Nat.le_antisymm ?_ ?_
  · refine h.countP_stages_le (fun s => s = stage) stage (fun he => ?_) fun a b _ hb => ?_
    · exact (of_decide_eq_true he).symm
    · exact .inr (of_decide_eq_true hb)
  · refine h.le_countP_stages (fun s => s = stage) stage (fun he => absurd he hnew) ?_
    intro a b can
    have hleft : a ≠ stage := by
      rintro rfl
      rw [hlast b] at can
      cases can
    simp [hleft]

end

/-! ## Slots that were filled -/

/-- A deal has one more slot that was ever filled at most where a notice says that one was. -/
theorem everFilled_le {deal : Option Deal} {notice : Notice} (h : notice.Follows deal) :
    notice.deal.hosts.everFilled.size
      ≤ worth (fun deal => deal.hosts.everFilled.size) deal + if notice.fills then 1 else 0 := by
  cases h with
  | published request block time => exact Nat.zero_le _
  | turned deal named can => exact Nat.le_add_right _ _
  | filled deal host has => exact deal.hosts.everFilled.size_insert_le _
  | freed deal slot => exact Nat.le_add_right _ _

end Telling

end Ledger

/-! ## A tally from the beginning -/

/-- What the numbers of a tally say about deals. -/
structure Tally.Agrees (tally : Tally) (deals : List Deal) : Prop where
  published : tally.published = deals.length
  finished : tally.finished = deals.countP fun deal => deal.stage = .finished
  cancelled : tally.cancelled = deals.countP fun deal => deal.stage = .cancelled
  failed : tally.failed = deals.countP fun deal => deal.stage = .failed
  /-- Deals that have started stay started or come to an end. -/
  fulfilled_ge : (deals.countP fun deal => deal.stage = .started ∨ deal.stage = .finished)
    ≤ tally.fulfilled
  /-- Deals that have failed may have started before. -/
  fulfilled_le : tally.fulfilled
    ≤ (deals.countP fun deal => deal.stage = .started ∨ deal.stage = .finished)
      + deals.countP fun deal => deal.stage = .failed
  slotsFilled : (deals.map fun deal => deal.hosts.everFilled.size).sum ≤ tally.slotsFilled

theorem Ledger.Telling.agrees {notices : List Notice} {after : Ledger}
    (h : Telling .empty notices after) : (Tally.zero.addAll notices).Agrees after.deals := by
  rw [Tally.addAll_eq]
  simp only [Tally.zero, Nat.zero_add]
  constructor
  · exact h.length_deals.symm
  · exact (h.countP_stage .finished (by decide) fun next => by cases next <;> rfl).symm
  · exact (h.countP_stage .cancelled (by decide) fun next => by cases next <;> rfl).symm
  · exact (h.countP_stage .failed (by decide) fun next => by cases next <;> rfl).symm
  · refine h.countP_stages_le (fun s => s = .started ∨ s = .finished) .started (by decide)
      fun a b => ?_
    cases a <;> cases b <;> decide
  · have hfailed (deal : Deal) :
        decide (deal.stage = .started ∨ deal.stage = .finished) = true →
          decide (deal.stage = .failed) = false := by
      cases deal.stage <;> decide
    rw [← countP_or hfailed]
    refine h.le_countP_stages
      (fun s => decide (s = .started ∨ s = .finished) || decide (s = .failed)) .started
      (by decide) fun a b => ?_
    cases a <;> cases b <;> decide
  · exact Nat.le_trans (h.weight_le (fun _ _ => everFilled_le) List.nodup_nil)
      (Nat.le_of_eq (Nat.zero_add _))

end StorageMarket
