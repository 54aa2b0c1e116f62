import Mathlib.Data.List.Chain
import Mathlib.Data.Rat.Floor
import Mathlib.Tactic.Linarith
import StorageMarket.Command.Run
import StorageMarket.Proofs.Instant.Line

/-!
# How many strides it takes

The targets of a replay go up from its mark, and the last one is the end. There are as
many of them as strides fit into the way, rounded up. Leap seconds have to be taken care
of at both ends. A stride that sets out from inside one counts it as the second before
it, and no stride comes to an end inside one, so that an end in there is only reached
when it is over.

A way that leads off the calendar is cut short at the end like any other: the end is on
the calendar.
-/

namespace StorageMarket

namespace Instant

/-- The place on the line that a step of a second or more sets out from. -/
def departure (t : Instant) : Int := t.seconds * 1000000000 + (t.nanos % 1000000000 : Nat)

/-- The place on the line that such steps have to come to in order not to stay before an instant. -/
def arrival (t : Instant) : Int := t.seconds * 1000000000 + (min t.nanos 1000000000 : Nat)

variable {t u : Instant}

theorem departure_of_regular (h : t.Regular) : t.departure = t.line := by
  have h : t.nanos < 1000000000 := h
  rw [departure, line, Nat.mod_eq_of_lt h]

theorem arrival_of_regular (h : t.Regular) : t.arrival = t.line := by
  have h : t.nanos < 1000000000 := h
  rw [arrival, line, Nat.min_eq_left h.le]

theorem departure_lt_arrival (h : t < u) : t.departure < u.arrival := by
  have h : t.seconds * 2000000000 + t.nanos < u.seconds * 2000000000 + u.nanos := h
  have hu := u.onCalendar.2.2
  rw [departure, arrival]
  omega

theorem lt_iff_line_lt_arrival (h : t.Regular) : t < u ↔ t.line < u.arrival := by
  have h : t.nanos < 1000000000 := h
  have hu := u.onCalendar.2.2
  rw [lt_def, rank, rank, line, arrival]
  omega

/-- A step of a second or more comes to its place on the line, if that is on the calendar. -/
theorem add?_eq_some {d : Duration} (hd : 1000000000 ≤ d.nanos) (h : t.add? d = some u) :
    u.Regular ∧ u.line = t.departure + d.nanos := by
  rw [add?_of_second_le hd, ofNanos?] at h
  obtain ⟨hseconds, hnanos⟩ := of?_eq_some h
  constructor
  · show u.nanos < 1000000000
    omega
  · rw [line, departure, hseconds, hnanos]
    omega

/-- A step that leads off the calendar leads beyond all of it. -/
theorem arrival_le_of_add?_eq_none {d : Duration} (hd : 1000000000 ≤ d.nanos)
    (h : t.add? d = none) (u : Instant) : u.arrival ≤ t.departure + d.nanos := by
  rw [add?_of_second_le hd, ofNanos?, of?] at h
  split at h
  · cases h
  · next hoff =>
      have ht := t.onCalendar
      have hu := u.onCalendar
      rw [arrival, departure]
      omega

end Instant

namespace Stride

def targets (stride : Stride) (stop mark : Instant) : List Instant :=
  if _h : mark < stop then stride.next stop mark :: stride.targets stop (stride.next stop mark)
  else []
termination_by (stop.rank - mark.rank).toNat
decreasing_by
  have hfurther : mark.rank < (stride.next stop mark).rank := stride.lt_next _h
  have hbefore : mark.rank < stop.rank := _h
  omega

variable (stride : Stride) {stop mark : Instant}

theorem targets_of_lt (h : mark < stop) : stride.targets stop mark
    = stride.next stop mark :: stride.targets stop (stride.next stop mark) := by
  rw [targets, dif_pos h]

theorem targets_of_not_lt (h : ¬ mark < stop) : stride.targets stop mark = [] := by
  rw [targets, dif_neg h]

theorem isChain_targets (stop mark : Instant) :
    (mark :: stride.targets stop mark).IsChain (· < ·) := by
  induction mark using targets.induct stride stop with
  | case1 mark h ih =>
      rw [targets_of_lt stride h]
      exact List.isChain_cons_cons.2 ⟨stride.lt_next h, ih⟩
  | case2 mark h =>
      rw [targets_of_not_lt stride h]
      exact List.isChain_singleton mark

theorem le_of_mem_targets (stop mark : Instant) :
    ∀ target ∈ stride.targets stop mark, target ≤ stop := by
  induction mark using targets.induct stride stop with
  | case1 mark h ih =>
      rw [targets_of_lt stride h]
      exact List.forall_mem_cons.2 ⟨stride.next_le stop mark, ih⟩
  | case2 mark h =>
      rw [targets_of_not_lt stride h]
      exact fun _ hm => absurd hm List.not_mem_nil

theorem getLast?_targets (h : mark ≤ stop) :
    (stride.targets stop mark).getLast?.getD mark = stop := by
  induction mark using targets.induct stride stop with
  | case1 mark hlt ih =>
      rw [targets_of_lt stride hlt, List.getLast?_cons, Option.getD_some]
      exact ih (stride.next_le stop mark)
  | case2 mark hlt =>
      rw [targets_of_not_lt stride hlt]
      exact Instant.le_antisymm h (Instant.not_lt.1 hlt)

/-- A step either comes to the end, which then is no more than a stride away, or goes a stride on
and stays before the end. -/
theorem next_cases (stop mark : Instant) :
    (stride.next stop mark = stop ∧ stop.arrival ≤ mark.departure + stride.length.nanos) ∨
      stride.next stop mark < stop ∧
        (stride.next stop mark).departure = mark.departure + stride.length.nanos := by
  cases hadd : mark.add? stride.length with
  | none =>
      exact .inl ⟨next_of_none hadd,
        Instant.arrival_le_of_add?_eq_none stride.atLeastSecond hadd stop⟩
  | some target =>
      obtain ⟨hregular, hline⟩ := Instant.add?_eq_some stride.atLeastSecond hadd
      rw [next_of_some hadd, ← hline]
      by_cases hlt : target < stop
      · have hle : target ≤ stop := Int.le_of_lt hlt
        rw [if_pos hle]
        exact .inr ⟨hlt, Instant.departure_of_regular hregular⟩
      · have hreached : stop.arrival ≤ target.line :=
          Int.not_lt.1 fun h => hlt ((Instant.lt_iff_line_lt_arrival hregular).2 h)
        refine .inl ⟨?_, hreached⟩
        split
        · next hle => exact Instant.le_antisymm hle (Instant.not_lt.1 hlt)
        · rfl

/-- The strides cover the way, and one less would not. -/
theorem length_targets_bounds (h : mark < stop) :
    stop.arrival - mark.departure
        ≤ (stride.targets stop mark).length * stride.length.nanos ∧
      ((stride.targets stop mark).length - 1) * stride.length.nanos
        < stop.arrival - mark.departure := by
  induction mark using targets.induct stride stop with
  | case2 mark hlt => exact absurd h hlt
  | case1 mark hlt ih =>
      rw [targets_of_lt stride hlt, List.length_cons, Nat.cast_succ]
      rcases stride.next_cases stop mark with ⟨hend, hnear⟩ | ⟨hnext, hdeparture⟩
      · -- the last step
        have hnone : stride.targets stop (stride.next stop mark) = [] := by
          rw [hend]
          exact targets_of_not_lt stride (Int.lt_irrefl _)
        have hway := Instant.departure_lt_arrival hlt
        rw [hnone, List.length_nil]
        constructor <;> push_cast <;> linarith
      · obtain ⟨hcovers, hless⟩ := ih hnext
        rw [hdeparture] at hcovers hless
        constructor <;> linarith

/-- How many strides fit into the way from one moment to another, rounded up. -/
def count (start stop : Instant) : Nat :=
  ⌈((stop.arrival - start.departure : Int) : ℚ) / stride.length.nanos⌉₊

theorem count_of_regular {start stop : Instant} (hstart : start.Regular) (hstop : stop.Regular) :
    stride.count start stop = ⌈((stop.since start).nanos : ℚ) / stride.length.nanos⌉₊ := by
  rw [count, Instant.departure_of_regular hstart, Instant.arrival_of_regular hstop,
    Instant.since_eq_line hstart hstop]

theorem length_targets (h : mark ≤ stop) (hregular : mark = stop → stop.Regular) :
    (stride.targets stop mark).length = stride.count mark stop := by
  by_cases hlt : mark < stop
  · obtain ⟨hcovers, hless⟩ := stride.length_targets_bounds hlt
    have hpositive : (0 : ℚ) < stride.length.nanos := by
      have := stride.atLeastSecond
      exact_mod_cast (by omega : 0 < stride.length.nanos)
    have hne : (stride.targets stop mark).length ≠ 0 := by
      rw [targets_of_lt stride hlt]
      exact Nat.succ_ne_zero _
    refine ((Nat.ceil_eq_iff hne).2 ⟨?_, ?_⟩).symm
    · rw [lt_div_iff₀ hpositive, Nat.cast_pred (Nat.pos_of_ne_zero hne)]
      exact_mod_cast hless
    · rw [div_le_iff₀ hpositive]
      exact_mod_cast hcovers
  · have hend : mark = stop := Instant.le_antisymm h (Instant.not_lt.1 hlt)
    subst hend
    have hmark := hregular rfl
    rw [targets_of_not_lt stride hlt, count, Instant.departure_of_regular hmark,
      Instant.arrival_of_regular hmark, Int.sub_self]
    simp

end Stride

end StorageMarket
