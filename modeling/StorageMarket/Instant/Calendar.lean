/-!
# Calendar dates

The proleptic Gregorian calendar, as a count of days from the first of January
1970. Years are counted from the first of March, so that a leap day is the last
day of its year, in cycles of four hundred years of 146097 days each.
-/

namespace StorageMarket

/-- A calendar date; years before the year 1 are 0, -1, -2, ... -/
structure Date where
  year : Int
  month : Nat
  day : Nat
deriving DecidableEq

namespace Date

def isLeapYear (year : Int) : Bool :=
  year % 4 == 0 && (year % 100 != 0 || year % 400 == 0)

def monthLength (year : Int) (month : Nat) : Nat :=
  match month with
  | 1 | 3 | 5 | 7 | 8 | 10 | 12 => 31
  | 4 | 6 | 9 | 11 => 30
  | 2 => if isLeapYear year then 29 else 28
  | _ => 0

def Valid (date : Date) : Prop := 1 ≤ date.day ∧ date.day ≤ monthLength date.year date.month

instance (date : Date) : Decidable date.Valid := inferInstanceAs (Decidable (_ ∧ _))

/-- The day of the year, from 0, of the first of a month, in a year that starts in March
(month 0). -/
def monthStart (march : Nat) : Nat := (153 * march + 2) / 5

/-- Days before a year of a cycle, the cycle's first year being 0. -/
def yearStart (yearOfCycle : Nat) : Nat :=
  yearOfCycle * 365 + yearOfCycle / 4 - yearOfCycle / 100

/-- Days since the first of January 1970. -/
def toDays (date : Date) : Int :=
  let year := if date.month ≤ 2 then date.year - 1 else date.year
  let march := (date.month + 9) % 12
  year / 400 * 146097
    + (yearStart (year % 400).toNat + monthStart march + date.day : Nat) - 1 - 719468

def ofDays (days : Int) : Date :=
  let cycle := (days + 719468) / 146097
  let dayOfCycle := ((days + 719468) % 146097).toNat
  let yearOfCycle :=
    (dayOfCycle - dayOfCycle / 1460 + dayOfCycle / 36524 - dayOfCycle / 146096) / 365
  let dayOfYear := dayOfCycle - yearStart yearOfCycle
  let march := (5 * dayOfYear + 2) / 153
  let month := if march < 10 then march + 3 else march - 9
  let year := cycle * 400 + yearOfCycle
  { year := if month ≤ 2 then year + 1 else year
    month
    day := dayOfYear - monthStart march + 1 }

example : ofDays 0 = ⟨1970, 1, 1⟩ := by decide
example : toDays ⟨2000, 2, 29⟩ = 11016 := by decide
example : ofDays 11016 = ⟨2000, 2, 29⟩ := by decide
example : toDays ⟨-262143, 1, 1⟩ * 86400 = -8334601228800 := by decide
example : ofDays (-96465292) = ⟨-262143, 1, 1⟩ := by decide

end Date

end StorageMarket
