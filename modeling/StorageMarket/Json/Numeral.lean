import StorageMarket.Decimal
import StorageMarket.Json.Fault

/-!
# Numbers in a JSON text

A numeral is kept as it is written: sign, digits before and after the point, and
exponent. Two questions are asked of it: whether it is a natural number of at
most 64 bits, written plainly; and whether it is too large for a double, in which
case reading refuses it as malformed.

The second question is answered the way a quick reader of doubles would answer
it: as many leading digits as fit into 64 bits make an integer, the remaining ones
and the exponent make a power of ten, and the rounded factors are multiplied.
-/

namespace StorageMarket.Json

structure Numeral where
  negative : Bool
  whole : List Char
  fraction : Option (List Char)
  /-- Whether the exponent is negative, and its digits. -/
  exponent : Option (Bool × List Char)
deriving DecidableEq

namespace Numeral

/-! ## What a numeral stands for -/

def toUInt64? (n : Numeral) : Option UInt64 :=
  match n with
  | ⟨false, whole, none, none⟩ =>
      let value := Decimal.value whole
      if value < UInt64.size then some (UInt64.ofNat value) else none
  | _ => none

/-- Appends digits to a number as long as it stays below 2^64: the number, and the digits that
are left. -/
def gather (n : Nat) : List Char → Nat × List Char
  | [] => (n, [])
  | d :: ds =>
      let next := n * 10 + (d.toNat - '0'.toNat)
      if next < UInt64.size then gather next ds else (n, d :: ds)

/-- A number rounded to 53 binary digits, a tie to the even neighbour. -/
def round53 (n : Nat) : Nat :=
  if n < 1 <<< 53 then n
  else
    let shift := Nat.log2 n - 52
    let quotient := n >>> shift
    let rest := n - quotient <<< shift
    let half := 1 <<< (shift - 1)
    if half < rest ∨ (rest = half ∧ quotient % 2 = 1) then (quotient + 1) <<< shift
    else quotient <<< shift

def estimate (n : Numeral) : Nat × Int :=
  let (kept, dropped) := gather 0 n.whole
  let fraction := n.fraction.getD []
  let (kept, dropped') := gather kept fraction
  let shift : Int := dropped.length - (fraction.length - dropped'.length : Nat)
  let exponent : Int :=
    match n.exponent with
    | some (true, ds) => -(Decimal.value ds : Int)
    | some (false, ds) => Decimal.value ds
    | none => 0
  (kept, shift + exponent)

def isBeyondDouble (n : Numeral) : Bool :=
  let (kept, power) := n.estimate
  if kept = 0 ∨ power < 0 then false
  else if 308 < power then true
  -- from halfway between the largest double and 2^1024 on, a product rounds to infinity
  else 1 <<< 1024 - 1 <<< 970 ≤ round53 kept * round53 (Nat.pow 10 power.toNat)

/-! ## Reading -/

def digitRun (cs : List Char) : List Char × List Char :=
  (cs.takeWhile Char.isDigit, cs.dropWhile Char.isDigit)

/-- A place where at least one digit has to stand: reading tells the end of the text from another
character, skipping does not. -/
def digitMissing : List Char → Mishap
  | [] => ⟨.truncated, .malformed⟩
  | _ => .both .malformed

/-- The digits before the point: a zero alone, or digits that do not start with one. -/
def readWhole (cs : List Char) : Except Mishap (List Char × List Char) :=
  match digitRun cs with
  | ([], _) => .error (digitMissing cs)
  | (['0'], rest) => .ok (['0'], rest)
  | ('0' :: _, _) => .error (.both .malformed)
  | (ds, rest) => .ok (ds, rest)

def readFraction : List Char → Except Mishap (Option (List Char) × List Char)
  | '.' :: cs =>
      match digitRun cs with
      | ([], _) => .error (digitMissing cs)
      | (ds, rest) => .ok (some ds, rest)
  | cs => .ok (none, cs)

def readPower (negative : Bool) (cs : List Char) :
    Except Mishap (Option (Bool × List Char) × List Char) :=
  match digitRun cs with
  | ([], _) => .error (digitMissing cs)
  | (ds, rest) => .ok (some (negative, ds), rest)

def readExponent : List Char → Except Mishap (Option (Bool × List Char) × List Char)
  | c :: cs =>
      if c = 'e' ∨ c = 'E' then
        match cs with
        | '-' :: cs => readPower true cs
        | '+' :: cs => readPower false cs
        | cs => readPower false cs
      else .ok (none, c :: cs)
  | [] => .ok (none, [])

def readSign : List Char → Bool × List Char
  | '-' :: cs => (true, cs)
  | cs => (false, cs)

def read (cs : List Char) : Except Mishap (Numeral × List Char) := do
  let (negative, cs) := readSign cs
  let (whole, cs) ← readWhole cs
  let (fraction, cs) ← readFraction cs
  let (exponent, cs) ← readExponent cs
  return (⟨negative, whole, fraction, exponent⟩, cs)

example : (Numeral.mk false ['1', '8'] none none).toUInt64? = some 18 := by decide +kernel
example : (Numeral.mk false ['1'] none (some (false, ['3', '0', '9']))).isBeyondDouble = true := by
  decide +kernel
example : (Numeral.mk false ['1'] none (some (false, ['3', '0', '8']))).isBeyondDouble = false := by
  decide +kernel
example : (Numeral.mk false ['0'] none (some (false, ['9', '9', '9']))).isBeyondDouble = false := by
  decide +kernel

end Numeral

end StorageMarket.Json
