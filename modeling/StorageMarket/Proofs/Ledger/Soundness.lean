import StorageMarket.Proofs.Deadlines
import StorageMarket.Proofs.Ledger.Change

/-!
# Sound ledgers

A ledger is sound if every request has one deal, and the deadlines are tidy and those of
the running deals. All changes keep it sound.

While a ledger is rolled back, the deals that are still to be dropped have lost their
deadlines already. `TimedBut` is soundness of the deadlines up to such requests.
-/

namespace StorageMarket

namespace Deal

def deadline (deal : Deal) : Deadline := ⟨deal.finishTime, deal.id⟩

theorem SameOrigin.deadline {deal other : Deal} (h : deal.SameOrigin other) :
    other.deadline = deal.deadline := by
  rw [Deal.deadline, Deal.deadline, h.id, finishTime, finishTime, h.createdAt, h.request]

theorem isRunning_iff {deal : Deal} : deal.isRunning = true ↔ deal.stage = .started :=
  decide_eq_true_iff

theorem not_isRunning_finish (deal : Deal) : ¬ deal.finish.isRunning = true := by
  rw [isRunning_iff]
  exact Stage.noConfusion

end Deal

namespace Ledger

/-- The deadlines are those of the running deals, some requests left out. -/
def TimedBut (ledger : Ledger) (out : RequestId → Prop) : Prop :=
  ∀ d : Deadline, d ∈ ledger.deadlines ↔
    ∃ deal ∈ ledger.deals, deal.isRunning = true ∧ ¬ out deal.id ∧ deal.deadline = d

/-- Every request has one deal, and the deadlines are those of the running deals. -/
structure Sound (ledger : Ledger) : Prop where
  nodup : ledger.ids.Nodup
  tidy : ledger.deadlines.Tidy
  timed : ∀ d : Deadline, d ∈ ledger.deadlines ↔
    ∃ deal ∈ ledger.deals, deal.isRunning = true ∧ deal.deadline = d

theorem TimedBut.imp {ledger : Ledger} {out out' : RequestId → Prop} (h : ledger.TimedBut out)
    (hout : ∀ deal ∈ ledger.deals, out deal.id ↔ out' deal.id) : ledger.TimedBut out' := by
  intro d
  rw [h d]
  constructor
  · rintro ⟨deal, hm, hr, ho, hd⟩
    exact ⟨deal, hm, hr, fun h' => ho ((hout deal hm).2 h'), hd⟩
  · rintro ⟨deal, hm, hr, ho, hd⟩
    exact ⟨deal, hm, hr, fun h' => ho ((hout deal hm).1 h'), hd⟩

theorem timedBut_none {ledger : Ledger} : ledger.TimedBut (fun _ => False) ↔
    ∀ d : Deadline, d ∈ ledger.deadlines ↔
      ∃ deal ∈ ledger.deals, deal.isRunning = true ∧ deal.deadline = d := by
  simp only [TimedBut, not_false_eq_true, true_and]

theorem Sound.congr {ledger other : Ledger} (h : ledger.Sound)
    (hdeals : other.deals = ledger.deals) (hdeadlines : other.deadlines = ledger.deadlines) :
    other.Sound where
  nodup := by
    rw [ids, hdeals]
    exact h.nodup
  tidy := by
    rw [hdeadlines]
    exact h.tidy
  timed := by
    rw [hdeals, hdeadlines]
    exact h.timed

theorem Sound.begin {ledger : Ledger} (h : ledger.Sound) : ledger.begin.Sound := h.congr rfl rfl

theorem Sound.commit {ledger : Ledger} (h : ledger.Sound) : ledger.commit.Sound := h.congr rfl rfl

theorem Sound.empty : Ledger.empty.Sound where
  nodup := List.nodup_nil
  tidy := Deadlines.tidy_empty
  timed := by
    intro d
    constructor
    · intro h
      exact absurd h Deadlines.not_mem_empty
    · rintro ⟨deal, hm, _⟩
      exact absurd hm List.not_mem_nil

/-- A deadline tells whether the deal of its request runs. -/
theorem TimedBut.mem_deadline {ledger : Ledger} {out : RequestId → Prop} (hn : ledger.ids.Nodup)
    (ht : ledger.TimedBut out) {deal : Deal} (hm : deal ∈ ledger.deals) (ho : ¬ out deal.id) :
    deal.deadline ∈ ledger.deadlines ↔ deal.isRunning = true := by
  rw [ht]
  constructor
  · rintro ⟨other, hother, hr, _, hd⟩
    have hid : other.id = deal.id := congrArg Deadline.request hd
    rw [← eq_of_id_eq hn hother hm hid]
    exact hr
  · intro hr
    exact ⟨deal, hm, hr, ho, rfl⟩

/-- A deal takes the place of another one, and its deadline that of the other one's. -/
theorem TimedBut.put {ledger : Ledger} {out : RequestId → Prop} {old new : Deal}
    {deadlines : Deadlines} (hn : ledger.ids.Nodup) (ht : ledger.TimedBut out)
    (hf : ledger.find? new.id = some old)
    (hd : ∀ d : Deadline, d ∈ deadlines ↔
      d ∈ ledger.deadlines ∧ d ≠ old.deadline ∨ new.isRunning = true ∧ d = new.deadline) :
    { ledger.put new with deadlines }.TimedBut fun x => out x ∧ x ≠ new.id := by
  have hold : old ∈ ledger.deals := mem_of_find? hf
  have hid : old.id = new.id := id_of_find? hf
  have hmem {d : Deal} : d ∈ ({ ledger.put new with deadlines } : Ledger).deals
      ↔ d = new ∨ d ∈ ledger.deals ∧ d.id ≠ new.id :=
    mem_put (mem_ids_of_find? hf)
  intro d
  rw [hd, ht]
  constructor
  · rintro (⟨⟨deal, hm, hr, ho, rfl⟩, hne⟩ | ⟨hr, rfl⟩)
    · have hne' : deal.id ≠ new.id := by
        intro he
        rw [eq_of_id_eq hn hm hold (he.trans hid.symm)] at hne
        exact hne rfl
      exact ⟨deal, hmem.2 (.inr ⟨hm, hne'⟩), hr, fun h => ho h.1, rfl⟩
    · exact ⟨new, hmem.2 (.inl rfl), hr, fun h => h.2 rfl, rfl⟩
  · rintro ⟨deal, hm, hr, ho, rfl⟩
    rcases hmem.1 hm with rfl | ⟨hm, hne⟩
    · exact .inr ⟨hr, rfl⟩
    · refine .inl ⟨⟨deal, hm, hr, fun h => ho ⟨h, hne⟩, rfl⟩, fun he => ?_⟩
      exact hne ((congrArg Deadline.request he).trans hid)

/-! ## Changes keep a ledger sound -/

theorem mem_retime {deadlines : Deadlines} {old new : Deal} (hsame : old.SameOrigin new)
    (hin : old.deadline ∈ deadlines ↔ old.isRunning = true) {d : Deadline} :
    d ∈ retime deadlines old new ↔
      d ∈ deadlines ∧ d ≠ old.deadline ∨ new.isRunning = true ∧ d = new.deadline := by
  rw [hsame.deadline]
  rw [Deal.isRunning_iff] at hin
  rw [Deal.isRunning_iff, retime]
  -- the deadline is touched only when the stage changes, and then by what it changes to
  by_cases hstage : old.stage = new.stage
  · rw [if_pos hstage, ← hstage]
    by_cases hd : d = old.deadline
    · subst hd
      simp [hin]
    · simp [hd]
  · rw [if_neg hstage, reschedule]
    by_cases hnew : new.stage = .started
    · rw [if_pos hnew]
      show d ∈ deadlines.schedule _ _ ↔ _
      rw [Deadlines.mem_schedule]
      show d = old.deadline ∨ d ∈ deadlines ↔ _
      by_cases hd : d = old.deadline <;> simp [hd, hnew]
    · rw [if_neg hnew]
      by_cases hold : old.stage = .started
      · rw [if_pos hold, Deadlines.mem_cancel]
        show d ∈ deadlines ∧ d ≠ old.deadline ↔ _
        simp [hnew]
      · rw [if_neg hold]
        have hout : old.deadline ∉ deadlines := fun h => hold (hin.1 h)
        by_cases hd : d = old.deadline
        · subst hd
          simp [hout, hnew]
        · simp [hd, hnew]

theorem tidy_retime {deadlines : Deadlines} (h : deadlines.Tidy) (old new : Deal) :
    (retime deadlines old new).Tidy := by
  rw [retime]
  split
  · exact h
  · rw [reschedule]
    split
    · exact h.schedule _ _
    · split
      · exact h.cancel _ _
      · exact h

theorem Sound.revise {ledger : Ledger} (h : ledger.Sound) (id : RequestId)
    {rule : Deal → Option Deal} (hrule : KeepsOrigin rule) : (ledger.revise id rule).2.Sound := by
  have hnoted : (ledger.note id).Sound := h.congr (deals_note ..) (deadlines_note ..)
  rcases revise_cases ledger id rule with heq | ⟨deal, new, hf, hnew, heq⟩ <;> rw [heq]
  · exact hnoted
  · have hsame := hrule deal new hnew
    have hid : new.id = id := hsame.id.trans (id_of_find? hf)
    have hf' : (ledger.note id).find? new.id = some deal := by rw [hid, find?_note, hf]
    have ht : (ledger.note id).TimedBut fun _ => False := timedBut_none.2 hnoted.timed
    have hin := ht.mem_deadline hnoted.nodup (mem_of_find? hf') not_false
    rw [deadlines_note] at hin
    refine ⟨?_, tidy_retime h.tidy deal new, ?_⟩
    · show ((ledger.note id).put new).ids.Nodup
      rw [ids_put]
      exact hnoted.nodup
    · refine timedBut_none.1 (TimedBut.imp (ht.put hnoted.nodup hf' fun d => ?_) ?_)
      · rw [mem_retime hsame hin, deadlines_note]
      · intro _ _
        simp

theorem Sound.publish {ledger : Ledger} (h : ledger.Sound) {request : Request}
    (block : BlockNumber) (time : Instant) (hfresh : request.id ∉ ledger.ids) :
    ((ledger.note request.id).append (.publish request block time)).Sound := by
  refine ⟨?_, ?_, ?_⟩
  · rw [ids_append, ids_note]
    refine List.nodup_append.2 ⟨h.nodup, by simp, ?_⟩
    rintro x hx y hy rfl
    rw [List.mem_singleton] at hy
    rw [hy] at hx
    exact hfresh hx
  · show (ledger.note request.id).deadlines.Tidy
    rw [deadlines_note]
    exact h.tidy
  · intro d
    show d ∈ (ledger.note request.id).deadlines
      ↔ ∃ deal ∈ (ledger.note request.id).deals ++ [Deal.publish request block time], _
    rw [deadlines_note, deals_note, h.timed]
    constructor
    · rintro ⟨deal, hm, hrest⟩
      exact ⟨deal, List.mem_append_left _ hm, hrest⟩
    · rintro ⟨deal, hm, hr, hd⟩
      rcases List.mem_append.1 hm with hm | hm
      · exact ⟨deal, hm, hr, hd⟩
      · rw [List.mem_singleton] at hm
        subst hm
        -- a new deal does not run, so it needs no deadline
        exact absurd hr (by simp [Deal.isRunning, Deal.publish])

theorem deals_finishAll {ledger : Ledger} (hn : ledger.ids.Nodup) (ids : List RequestId) :
    (ledger.finishAll ids).2.deals
      = ledger.deals.map fun deal => if deal.id ∈ ids then deal.finish else deal := by
  have hids : ∀ deal ∈ ledger.deals,
      Deal.id (if deal.id ∈ ids then deal.finish else deal) = deal.id := by
    intro deal _
    split <;> rfl
  have hsame : (ledger.finishAll ids).2.deals.map Deal.id = ledger.deals.map Deal.id :=
    ids_finishAll ledger ids
  refine deals_ext (hsame ▸ hn) ?_ fun x _ => ?_
  · rw [hsame, List.map_map]
    exact (List.map_congr_left hids).symm
  · rw [find?_map hids]
    refine (find?_finishAll ledger ids x).trans ?_
    rw [← find?]
    cases hf : ledger.find? x with
    | none => simp
    | some deal =>
        rw [Option.map_some, Option.map_some, id_of_find? hf]
        split <;> rfl

theorem deals_finishWhile {ledger : Ledger} (hn : ledger.ids.Nodup) (due : Instant → Bool) :
    (ledger.finishWhile due).2.deals = ledger.deals.map fun deal =>
      if deal.id ∈ (ledger.deadlines.popWhile due).1 then deal.finish else deal := by
  have hpopped : ({ ledger with deadlines := (ledger.deadlines.popWhile due).2 } : Ledger).ids.Nodup :=
    hn
  rw [finishWhile, deals_finishAll hpopped]

theorem Sound.finishWhile {ledger : Ledger} (h : ledger.Sound) (due : Instant → Bool) :
    (ledger.finishWhile due).2.Sound := by
  have hmem {deal : Deal} : deal ∈ (ledger.finishWhile due).2.deals
      ↔ ∃ d ∈ ledger.deals, (if d.id ∈ (ledger.deadlines.popWhile due).1 then d.finish else d)
        = deal := by
    rw [deals_finishWhile h.nodup, List.mem_map]
  refine ⟨?_, ?_, ?_⟩
  · rw [Ledger.finishWhile, ids_finishAll]
    exact h.nodup
  · rw [Ledger.finishWhile, deadlines_finishAll]
    exact h.tidy.popWhile due
  · intro d
    rw [Ledger.finishWhile, deadlines_finishAll, Deadlines.mem_popWhile_snd, ← Ledger.finishWhile]
    constructor
    · rintro ⟨hd, hout⟩
      obtain ⟨deal, hm, hr, rfl⟩ := (h.timed d).1 hd
      refine ⟨deal, hmem.2 ⟨deal, hm, if_neg fun hin => ?_⟩, hr, rfl⟩
      obtain ⟨d', hd', hid⟩ := Deadlines.mem_popWhile_fst.1 hin
      -- a deadline under the same name would be the same one, which was not due
      obtain ⟨other, hother, _, rfl⟩ := (h.timed d').1 (Deadlines.mem_of_mem_taken hd')
      rw [eq_of_id_eq h.nodup hother hm hid] at hd'
      exact hout hd'
    · rintro ⟨deal, hm, hr, rfl⟩
      obtain ⟨old, hold, heq⟩ := hmem.1 hm
      by_cases hin : old.id ∈ (ledger.deadlines.popWhile due).1
      · rw [if_pos hin] at heq
        subst heq
        exact absurd hr (Deal.not_isRunning_finish old)
      · rw [if_neg hin] at heq
        subst heq
        refine ⟨(h.timed _).2 ⟨old, hold, hr, rfl⟩, fun ht => hin ?_⟩
        exact Deadlines.mem_popWhile_fst.2 ⟨_, ht, rfl⟩

theorem closed_sound : Closed Sound where
  publish _ block time h hfresh := h.publish block time hfresh
  revise id _ h hrule := h.revise id hrule.keepsOrigin
  finishWhile due h := h.finishWhile due

end Ledger

end StorageMarket
