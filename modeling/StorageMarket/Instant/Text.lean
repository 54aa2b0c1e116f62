import StorageMarket.Decimal
import StorageMarket.Instant
import StorageMarket.Instant.Calendar

/-!
# Instants as text

Two written forms, which differ only in what stands between the date and the
time and at the end:

* the *exchange* form, `2024-03-01T12:30:00.250Z`;
* the *plain* form, `2024-03-01 12:30:00.250 UTC`, for messages.

A year from 0 to 9999 has four digits; any other has a sign and at least four
digits. A fraction has three, six or nine digits, the fewest that are exact, and
is left out when it is zero. A leap second is second 60.

The reader is more liberal than the writer: it takes any offset from universal
time, a small `t` or a space between date and time, blanks between the parts,
one-digit months, days, hours, minutes and seconds, and a fraction of any
length, of which the digits after the ninth are dropped. Without an offset there
is no instant.
-/

namespace StorageMarket.Instant

/-! ## Writing -/

/-- The year of a date: four digits where they suffice, else with a sign. -/
def yearText (year : Int) : List Char :=
  if 0 ≤ year ∧ year ≤ 9999 then
    Decimal.padded 4 year.toNat
  else if 0 ≤ year then
    '+' :: Decimal.padded 4 year.toNat
  else
    '-' :: Decimal.padded 4 (-year).toNat

def dateText (date : Date) : List Char :=
  yearText date.year ++ '-' :: Decimal.padded 2 date.month ++ '-' :: Decimal.padded 2 date.day

/-- The fraction of a second: none, or the fewest of three, six and nine digits that are exact. -/
def fractionText (nanos : Nat) : List Char :=
  if nanos = 0 then []
  else if nanos % 1000000 = 0 then '.' :: Decimal.padded 3 (nanos / 1000000)
  else if nanos % 1000 = 0 then '.' :: Decimal.padded 6 (nanos / 1000)
  else '.' :: Decimal.padded 9 nanos

/-- The time of a day, as `12:30:00.250`; `second` counts from midnight. -/
def timeText (second nanos : Nat) : List Char :=
  let leap := nanos / 1000000000
  Decimal.padded 2 (second / 3600) ++ ':' :: Decimal.padded 2 (second / 60 % 60)
    ++ ':' :: Decimal.padded 2 (second % 60 + leap) ++ fractionText (nanos % 1000000000)

def date (t : Instant) : Date := Date.ofDays (t.seconds / 86400)

def exchange (t : Instant) : List Char :=
  dateText t.date ++ 'T' :: timeText t.secondOfDay.toNat t.nanos ++ ['Z']

def plain (t : Instant) : List Char :=
  dateText t.date ++ ' ' :: timeText t.secondOfDay.toNat t.nanos ++ [' ', 'U', 'T', 'C']

instance : ToString Instant := ⟨fun t => String.ofList t.plain⟩

/-! ## Reading -/

def isBlank (c : Char) : Bool :=
  let n := c.toNat
  (9 ≤ n && n ≤ 13) || n == 0x20 || n == 0x85 || n == 0xa0 || n == 0x1680
    || (0x2000 ≤ n && n ≤ 0x200a) || n == 0x2028 || n == 0x2029 || n == 0x202f
    || n == 0x205f || n == 0x3000

def skipBlank (cs : List Char) : List Char := cs.dropWhile isBlank

def readNumber (most : Nat) (cs : List Char) : Option (Nat × List Char) :=
  let ds := (cs.take most).takeWhile Char.isDigit
  if ds.isEmpty then none else some (Decimal.value ds, cs.drop ds.length)

def expect (c : Char) : List Char → Option (List Char)
  | d :: rest => if d = c then some rest else none
  | [] => none

/-- A year: up to four digits, or a sign and any number of digits. -/
def readYear (cs : List Char) : Option (Int × List Char) :=
  match skipBlank cs with
  | '-' :: rest => (readNumber rest.length rest).map fun (n, rest) => (-(n : Int), rest)
  | '+' :: rest => (readNumber rest.length rest).map fun (n, rest) => ((n : Int), rest)
  | rest => (readNumber 4 rest).map fun (n, rest) => ((n : Int), rest)

def readDate (cs : List Char) : Option (Date × List Char) := do
  let (year, cs) ← readYear cs
  let cs ← expect '-' (skipBlank cs)
  let (month, cs) ← readNumber 2 (skipBlank cs)
  let cs ← expect '-' (skipBlank cs)
  let (day, cs) ← readNumber 2 (skipBlank cs)
  let date : Date := ⟨year, month, day⟩
  if date.Valid then some (date, cs) else none

def readFraction : List Char → Option (Nat × List Char)
  | '.' :: cs =>
      let ds := cs.takeWhile Char.isDigit
      if ds.isEmpty then none
      else
        let kept := ds.take 9
        let nanos := Decimal.value (kept ++ List.replicate (9 - kept.length) '0')
        some (nanos, cs.drop ds.length)
  | cs => some (0, cs)

/-- The time of a day: seconds since midnight, and nanoseconds. Second 60 is a leap second. -/
def readTime (cs : List Char) : Option ((Nat × Nat) × List Char) := do
  let (hour, cs) ← readNumber 2 (skipBlank cs)
  let cs ← expect ':' (skipBlank cs)
  let (minute, cs) ← readNumber 2 (skipBlank cs)
  let cs ← expect ':' (skipBlank cs)
  let (second, cs) ← readNumber 2 (skipBlank cs)
  let (nanos, cs) ← readFraction cs
  if hour < 24 ∧ minute < 60 ∧ second ≤ 60 then
    let ofDay := hour * 3600 + minute * 60
    if second = 60 then some ((ofDay + 59, nanos + 1000000000), cs)
    else some ((ofDay + second, nanos), cs)
  else
    none

def readHours (cs : List Char) : Option (Int × List Char) :=
  match cs with
  | a :: b :: cs =>
      if a.isDigit && b.isDigit then
        match cs.dropWhile fun c => c = ':' || isBlank c with
        | c :: d :: cs =>
            if c.isDigit && d.isDigit then
              let hours := Decimal.value [a, b]
              let minutes := Decimal.value [c, d]
              if hours < 24 ∧ minutes < 60 then
                some ((hours * 3600 + minutes * 60 : Nat), cs)
              else none
            else none
        | _ => none
      else none
  | _ => none

def readOffset : List Char → Option (Int × List Char)
  | 'Z' :: cs => some (0, cs)
  | 'z' :: cs => some (0, cs)
  | '+' :: cs => readHours cs
  | '-' :: cs => (readHours cs).map fun (s, cs) => (-s, cs)
  | '−' :: cs => (readHours cs).map fun (s, cs) => (-s, cs)
  | u :: t :: c :: cs =>
      if u.toUpper = 'U' ∧ t.toUpper = 'T' ∧ c.toUpper = 'C' then some (0, cs) else none
  | _ => none

/-- An instant from its text. The local time has to lie on the calendar, too. -/
def ofText? (cs : List Char) : Option Instant := do
  let (date, cs) ← readDate cs
  let (separator, cs) ← (match cs with
    | c :: cs => some (c, cs)
    | [] => none)
  if separator ≠ 'T' ∧ separator ≠ 't' ∧ separator ≠ ' ' then none
  let ((second, nanos), cs) ← readTime cs
  let (offset, cs) ← readOffset (skipBlank cs)
  if ¬ (skipBlank cs).isEmpty then none
  let here ← of? (date.toDays * 86400 + second) nanos
  of? (here.seconds - offset) nanos

example : (ofText? "2024-02-29T23:59:59.25+01:00".toList).map toString
    = some "2024-02-29 22:59:59.250 UTC" := by decide +kernel
example : ofText? "2023-02-29T00:00:00Z".toList = none := by decide +kernel
example : ofText? "2024-01-01T00:00:00".toList = none := by decide +kernel
example : exchange latest = "+262142-12-31T23:59:59.999999999Z".toList := by decide +kernel
example : ofText? (exchange earliest) = some earliest := by decide +kernel

end StorageMarket.Instant
