import StorageMarket.Proofs.Audit.Alike
import StorageMarket.Proofs.Ledger.Finishing
import StorageMarket.Proofs.Replay.Success

/-!
# A tick in between

Letting the time go on to a moment finishes the deals due by then. A change that comes
later and finishes what is due by itself would have done the same: with or without the
tick in between, the ledger is the same afterwards, the same notices are told in the
same order, and the audit of the blocks that follow sees the same.
-/

namespace StorageMarket

variable {σ : Type}

/-- The change finishes, first of all, every deal that is due at a moment. -/
def Change.FinishesBy (now : Instant) : Change → Prop
  | finishBefore time => now < time
  | finishDue time => now ≤ time
  | _ => False

namespace Ledger

theorem refusal?_of_finishesBy {now : Instant} {change : Change} (h : change.FinishesBy now)
    (ledger : Ledger) : (ledger.change change).1.refusal? = none := by
  cases change with
  | finishBefore time => rfl
  | finishDue time => rfl
  | create | transition | fillSlot | freeSlot => exact h.elim

theorem finishNotices_finishWhile {early due : Instant → Bool}
    (himp : ∀ t, early t = true → due t = true) (ledger : Ledger) :
    finishNotices (ledger.finishWhile early).1
        ++ finishNotices ((ledger.finishWhile early).2.finishWhile due).1
      = finishNotices (ledger.finishWhile due).1 := by
  rw [finishWhile_finishWhile himp ledger, finishNotices, finishNotices, finishNotices,
    List.map_append]

/-- A change that finishes what is due by itself does the same with and without a tick before. -/
theorem change_finishDue {now : Instant} {change : Change} (h : change.FinishesBy now)
    (ledger : Ledger) :
    ((ledger.finishDue now).2.change change).2 = (ledger.change change).2 ∧
      finishNotices (ledger.finishDue now).1
          ++ change.notices ((ledger.finishDue now).2.change change).1
        = change.notices (ledger.change change).1 := by
  cases change with
  | finishBefore time =>
      have himp (t : Instant) (ht : decide (t ≤ now) = true) : decide (t < time) = true := by
        rw [decide_eq_true_iff] at ht ⊢
        exact Int.lt_of_le_of_lt ht h
      exact ⟨(congrArg Prod.snd (finishWhile_finishWhile himp ledger)).symm,
        finishNotices_finishWhile himp ledger⟩
  | finishDue time =>
      have himp (t : Instant) (ht : decide (t ≤ now) = true) : decide (t ≤ time) = true := by
        rw [decide_eq_true_iff] at ht ⊢
        exact Instant.le_trans ht h
      exact ⟨(congrArg Prod.snd (finishWhile_finishWhile himp ledger)).symm,
        finishNotices_finishWhile himp ledger⟩
  | create | transition | fillSlot | freeSlot => exact h.elim

/-- On a ledger, some changes come to the same as others. -/
structure Equivalent (ledger : Ledger) (changes others : List Change) : Prop where
  accepts : ledger.Accepts changes ↔ ledger.Accepts others
  after : (ledger.changeAll changes).2 = (ledger.changeAll others).2
  news : ledger.news changes = ledger.news others

theorem equivalent_refl (ledger : Ledger) (changes : List Change) :
    ledger.Equivalent changes changes := ⟨Iff.rfl, rfl, rfl⟩

theorem Equivalent.append_left {ledger : Ledger} (before : List Change)
    {changes others : List Change}
    (h : (ledger.changeAll before).2.Equivalent changes others) :
    ledger.Equivalent (before ++ changes) (before ++ others) where
  accepts := by rw [accepts_append, accepts_append, h.accepts]
  after := by rw [changeAll_append, changeAll_append, h.after]
  news := by rw [news_append, news_append, h.news]

/-- A tick just before a change that finishes what is due by itself makes no difference. -/
theorem equivalent_finishDue {now : Instant} {change : Change} (h : change.FinishesBy now)
    (ledger : Ledger) (changes : List Change) :
    ledger.Equivalent (.finishDue now :: change :: changes) (change :: changes) where
  accepts := by
    have haccepted : (ledger.change (.finishDue now)).1.refusal? = none := rfl
    have hafter : ((ledger.change (.finishDue now)).2.change change).2 = (ledger.change change).2 :=
      (change_finishDue h ledger).1
    simp only [accepts_cons, haccepted, hafter, refusal?_of_finishesBy h, true_and]
  after := congrArg (fun after => (after.changeAll changes).2) (change_finishDue h ledger).1
  news := by
    rw [news, news, news, ← (change_finishDue h ledger).2, ← (change_finishDue h ledger).1,
      List.append_assoc]
    rfl

/-! ## What the audit sees -/

theorem Sound.isRunning_of_popWhile {ledger : Ledger} (h : ledger.Sound) {due : Instant → Bool}
    {deal : Deal} (hm : deal ∈ ledger.deals) (hin : deal.id ∈ (ledger.deadlines.popWhile due).1) :
    deal.isRunning = true := by
  obtain ⟨d, hd, hid⟩ := Deadlines.mem_popWhile_fst.1 hin
  obtain ⟨other, hother, hr, rfl⟩ := (h.timed d).1 (Deadlines.mem_of_mem_taken hd)
  rw [← eq_of_id_eq h.nodup hother hm hid]
  exact hr

/-- A running deal that is finished looks the same to an audit. -/
theorem alike_finish {deal : Deal} (h : deal.isRunning = true) : deal.Alike deal.finish where
  request := rfl
  hosts := rfl
  wasRunning time := by
    have hstage := Deal.isRunning_iff.1 h
    have htime : deal.finish.finishTime = deal.finishTime := rfl
    have hfinished : deal.finish.stage = .finished := rfl
    simp only [Audit.wasRunning, htime, hfinished, hstage, or_true, true_or]

theorem Sound.watch_finishDue {ledger : Ledger} (h : ledger.Sound) (now : Instant)
    (oracle : Oracle σ) (audit : Option Audit) (cursor : Option Cursor) (block : Block) :
    Audit.watch oracle audit cursor block (ledger.finishDue now).2.deals
      = Audit.watch oracle audit cursor block ledger.deals := by
  cases audit with
  | none => rfl
  | some audit =>
      rw [finishDue_eq_finishWhile, deals_finishWhile h.nodup]
      simp only [Audit.watch]
      rw [Audit.advance_map]
      intro deal hm
      split
      · next hin => exact alike_finish (h.isRunning_of_popWhile hm hin)
      · exact ⟨rfl, rfl, fun _ => rfl⟩

theorem Sound.watchAll_finishDue {ledger : Ledger} (h : ledger.Sound) {now : Instant}
    {blocks : List Block} (hlater : ∀ block ∈ blocks, now < block.time) (oracle : Oracle σ)
    (audit : Option Audit) (cursor : Option Cursor) :
    Audit.watchAll oracle audit cursor ((ledger.finishDue now).2.sights blocks)
      = Audit.watchAll oracle audit cursor (ledger.sights blocks) := by
  cases blocks with
  | nil => rfl
  | cons block blocks =>
      have hfinishes : (Change.finishBefore block.time).FinishesBy now :=
        hlater block List.mem_cons_self
      have hafter : ((ledger.finishDue now).2.changeAll block.changes).2
          = (ledger.changeAll block.changes).2 := (equivalent_finishDue hfinishes ledger _).after
      rw [sights, sights, hafter, Audit.watchAll, Audit.watchAll, h.watch_finishDue]

/-! ## Closing in between -/

/-- The time goes on to a moment, and then blocks that come later are replayed. -/
theorem equivalent_closing {middle stop : Instant} (hstop : middle ≤ stop) {blocks : List Block}
    (hlater : ∀ block ∈ blocks, middle < block.time) {before after : Option BlockNumber}
    (hseen : before.isSome = true → after.isSome = true) (ledger : Ledger) :
    ledger.Equivalent (Replay.closing middle before ++ Replay.changesUpTo stop after blocks)
      (Replay.changesUpTo stop after blocks) := by
  cases hbefore : before.isSome with
  | false =>
      rw [Replay.closing, hbefore]
      exact equivalent_refl ledger _
  | true =>
      have hnext : ∃ change changes, Replay.changesUpTo stop after blocks = change :: changes ∧
          change.FinishesBy middle := by
        cases blocks with
        | nil =>
            refine ⟨.finishDue stop, [], ?_, hstop⟩
            rw [Replay.changesUpTo, Replay.closing, hseen hbefore]
            rfl
        | cons block blocks => exact ⟨_, _, rfl, hlater block List.mem_cons_self⟩
      obtain ⟨change, changes, heq, hfinishes⟩ := hnext
      rw [heq, Replay.closing, hbefore]
      exact equivalent_finishDue hfinishes ledger changes

theorem Sound.watchAll_closing {ledger : Ledger} (h : ledger.Sound) {middle : Instant}
    {blocks : List Block} (hlater : ∀ block ∈ blocks, middle < block.time)
    (before : Option BlockNumber) (oracle : Oracle σ) (audit : Option Audit)
    (cursor : Option Cursor) :
    Audit.watchAll oracle audit cursor
        ((ledger.changeAll (Replay.closing middle before)).2.sights blocks)
      = Audit.watchAll oracle audit cursor (ledger.sights blocks) := by
  rw [Replay.closing]
  cases before.isSome with
  | false => rfl
  | true => exact h.watchAll_finishDue hlater oracle audit cursor

end Ledger

end StorageMarket
