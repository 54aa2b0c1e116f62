/-!
# Moments in time

An `Instant` is a moment of coordinated universal time on the proleptic Gregorian
calendar from the year -262143 to the year 262142: whole seconds since 1970 and
the nanoseconds into that second. A second may be followed by a leap second; the
clock then counts on inside the same second, so the nanoseconds reach up to twice
a thousand million.

A `Duration` is a signed number of nanoseconds. Adding one to an instant fails
when the result leaves the calendar.
-/

namespace StorageMarket

/-! ## Durations -/

/-- A signed length of time, in nanoseconds. -/
structure Duration where
  nanos : Int
deriving DecidableEq

namespace Duration

def ofSeconds (seconds : Int) : Duration := ⟨seconds * 1000000000⟩

def ofMillis (millis : Int) : Duration := ⟨millis * 1000000⟩

/-- The longest duration that is told apart: 2^63 - 1 milliseconds. -/
def longest : Duration := ofMillis 9223372036854775807

def mostSeconds : Nat := 9223372036854775

def ofSeconds? (seconds : Nat) : Option Duration :=
  if seconds ≤ mostSeconds then some (ofSeconds seconds) else none

theorem second_le_of_ofSeconds? {seconds : Nat} {d : Duration} (hzero : seconds ≠ 0)
    (h : ofSeconds? seconds = some d) : 1000000000 ≤ d.nanos := by
  rw [ofSeconds?] at h
  split at h
  · cases h
    show (1000000000 : Int) ≤ seconds * 1000000000
    omega
  · cases h

/-- Whole seconds, the rest cut off. -/
def seconds (d : Duration) : Int := d.nanos.tdiv 1000000000

def subsecond (d : Duration) : Int := d.nanos.tmod 1000000000

/-- Whole milliseconds, the rest cut off. -/
def millis (d : Duration) : Int := d.nanos.tdiv 1000000

instance : Neg Duration := ⟨fun d => ⟨-d.nanos⟩⟩

end Duration

/-! ## Instants -/

structure Instant where
  seconds : Int
  /-- Nanoseconds into the second; a thousand million or more inside a leap second. -/
  nanos : Nat
  onCalendar : -8334601228800 ≤ seconds ∧ seconds ≤ 8210266876799 ∧ nanos < 2000000000
deriving DecidableEq

namespace Instant

def earliest : Instant := ⟨-8334601228800, 0, by decide⟩

def latest : Instant := ⟨8210266876799, 999999999, by decide⟩

instance : Inhabited Instant := ⟨⟨0, 0, by decide⟩⟩

def of? (seconds : Int) (nanos : Nat) : Option Instant :=
  if h : -8334601228800 ≤ seconds ∧ seconds ≤ 8210266876799 ∧ nanos < 2000000000 then
    some ⟨seconds, nanos, h⟩
  else
    none

/-- Not inside a leap second. -/
def Regular (t : Instant) : Prop := t.nanos < 1000000000

instance (t : Instant) : Decidable t.Regular := inferInstanceAs (Decidable (_ < _))

/-! ## Order -/

/-- The place of an instant on a line that leaves room for a leap second after every second. -/
def rank (t : Instant) : Int := t.seconds * 2000000000 + t.nanos

theorem rank_injective {t u : Instant} (h : t.rank = u.rank) : t = u := by
  obtain ⟨s, n, hs⟩ := t
  obtain ⟨s', n', hs'⟩ := u
  simp only [rank] at h
  have h1 : s = s' := by omega
  have h2 : n = n' := by omega
  subst h1 h2
  rfl

instance : LE Instant := ⟨fun t u => t.rank ≤ u.rank⟩

instance : LT Instant := ⟨fun t u => t.rank < u.rank⟩

instance (t u : Instant) : Decidable (t ≤ u) := inferInstanceAs (Decidable (t.rank ≤ u.rank))

instance (t u : Instant) : Decidable (t < u) := inferInstanceAs (Decidable (t.rank < u.rank))

instance : Ord Instant := ⟨compareOn rank⟩

instance : Std.TransOrd Instant := inferInstanceAs (Std.TransCmp (compareOn rank))

instance : Std.LawfulEqOrd Instant where
  compare_self := Std.ReflOrd.compare_self
  eq_of_compare h := rank_injective (Std.LawfulEqOrd.compare_eq_iff_eq.1 h)

instance : Min Instant := ⟨fun t u => if t ≤ u then t else u⟩

theorem le_def {t u : Instant} : t ≤ u ↔ t.rank ≤ u.rank := Iff.rfl

theorem lt_def {t u : Instant} : t < u ↔ t.rank < u.rank := Iff.rfl

theorem le_refl (t : Instant) : t ≤ t := Int.le_refl _

theorem not_lt {t u : Instant} : ¬ t < u ↔ u ≤ t := Int.not_lt

theorem not_le {t u : Instant} : ¬ t ≤ u ↔ u < t := Int.not_le

theorem le_trans {t u v : Instant} (h : t ≤ u) (h' : u ≤ v) : t ≤ v := Int.le_trans h h'

theorem le_antisymm {t u : Instant} (h : t ≤ u) (h' : u ≤ t) : t = u :=
  rank_injective (Int.le_antisymm h h')

theorem compare_eq_lt {t u : Instant} : compare t u = .lt ↔ t < u :=
  Int.compare_eq_lt

/-! ## Adding and subtracting -/

/-- The instant a number of nanoseconds away from the start of 1970, on a clock without leap
seconds. -/
def ofNanos? (total : Int) : Option Instant :=
  of? (total / 1000000000) (total % 1000000000).toNat

/-- A duration later. A leap second is left forwards by counting it as if it were the second
before it, and backwards as a second of its own; a step that does neither stays inside it. -/
def add? (t : Instant) (d : Duration) : Option Instant :=
  if t.nanos < 1000000000 then
    ofNanos? (t.seconds * 1000000000 + t.nanos + d.nanos)
  -- inside a leap second from here on
  else if 2000000000 ≤ t.nanos + d.nanos then
    ofNanos? (t.seconds * 1000000000 + (t.nanos - 1000000000) + d.nanos)
  else if d.nanos ≤ -1000000000 then
    ofNanos? (t.seconds * 1000000000 + t.nanos + d.nanos)
  else
    of? t.seconds (t.nanos + d.nanos).toNat

theorem of?_eq_some {seconds : Int} {nanos : Nat} {t : Instant} (h : of? seconds nanos = some t) :
    t.seconds = seconds ∧ t.nanos = nanos := by
  rw [of?] at h
  split at h
  · cases h
    exact ⟨rfl, rfl⟩
  · cases h

/-- Adding a second or more counts a leap second as the second before it. -/
theorem add?_of_second_le {t : Instant} {d : Duration} (hd : 1000000000 ≤ d.nanos) :
    t.add? d = ofNanos? (t.seconds * 1000000000 + (t.nanos % 1000000000 : Nat) + d.nanos) := by
  rw [add?]
  split
  · next h => rw [Nat.mod_eq_of_lt h]
  · next h =>
      have hrest : t.nanos % 1000000000 = t.nanos - 1000000000 := by
        have hnanos := t.onCalendar.2.2
        omega
      rw [if_pos (by omega), hrest, Int.ofNat_sub (Nat.not_lt.1 h)]
      rfl

/-- A second or more later is later, also from inside a leap second. -/
theorem lt_of_add? {t u : Instant} {d : Duration} (hd : 1000000000 ≤ d.nanos)
    (h : t.add? d = some u) : t < u := by
  rw [add?_of_second_le hd, ofNanos?] at h
  obtain ⟨hseconds, _⟩ := of?_eq_some h
  have hnanos := t.onCalendar.2.2
  rw [lt_def, rank, rank, hseconds]
  omega

def sub? (t : Instant) (d : Duration) : Option Instant := t.add? (-d)

def secondOfDay (t : Instant) : Int := t.seconds % 86400

/-- The time from one instant to another. A leap second of the instant that comes earlier in its
day counts; one of the instant that comes later in its day has not passed yet. -/
def since (t u : Instant) : Duration :=
  let leap : Int :=
    if u.secondOfDay < t.secondOfDay then
      if 1000000000 ≤ u.nanos then 1 else 0
    else if t.secondOfDay < u.secondOfDay then
      if 1000000000 ≤ t.nanos then -1 else 0
    else 0
  ⟨(t.seconds - u.seconds + leap) * 1000000000 + (t.nanos - u.nanos)⟩

def addOrLatest (t : Instant) (d : Duration) : Instant := (t.add? d).getD latest

def subOrEarliest (t : Instant) (d : Duration) : Instant := (t.sub? d).getD earliest

end Instant

end StorageMarket
