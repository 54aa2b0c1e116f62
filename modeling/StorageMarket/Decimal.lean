/-!
# Decimal digits

Natural numbers in decimal, plain and filled up with leading zeros, and the
number that a run of digits stands for. `read` takes a whole text for a number
below a bound: an optional plus sign and at least one digit, leading zeros
allowed. Of two faults it names the one that comes first in the text.
-/

namespace StorageMarket.Decimal

def digits (n : Nat) : List Char := Nat.toDigits 10 n

def padded (width n : Nat) : List Char :=
  List.replicate (width - (digits n).length) '0' ++ digits n

def value (ds : List Char) : Nat := Nat.ofDigitChars 10 ds 0

def text (n : Nat) : String := String.ofList (digits n)

inductive Fault where
  | empty
  | notADigit
  | tooLarge
deriving DecidableEq

def Fault.message : Fault → String
  | empty => "cannot parse integer from empty string"
  | notADigit => "invalid digit found in string"
  | tooLarge => "number too large to fit in target type"

def readOn {bound : Nat} (n : Fin bound) : List Char → Except Fault (Fin bound)
  | [] => .ok n
  | c :: cs =>
      if c.isDigit then
        if h : n * 10 + (c.toNat - '0'.toNat) < bound then readOn ⟨_, h⟩ cs
        else .error .tooLarge
      else .error .notADigit

def read (bound : Nat) (positive : 0 < bound) : List Char → Except Fault (Fin bound)
  | [] => .error .empty
  | ['+'] => .error .notADigit
  | '+' :: cs => readOn ⟨0, positive⟩ cs
  | cs => readOn ⟨0, positive⟩ cs

/-! ## Writing, then reading -/

@[simp] theorem value_digits (n : Nat) : value (digits n) = n :=
  Nat.ofDigitChars_toDigits (by decide) (by decide)

theorem isDigit_of_mem_digits {n : Nat} {c : Char} (h : c ∈ digits n) : c.isDigit = true :=
  Nat.isDigit_of_mem_toDigits (by decide) (by decide) h

theorem digits_ne_nil (n : Nat) : digits n ≠ [] := Nat.toDigits_ne_nil

theorem isDigit_of_mem_padded {width n : Nat} {c : Char} (h : c ∈ padded width n) :
    c.isDigit = true := by
  rcases List.mem_append.1 h with h | h
  · rw [(List.mem_replicate.1 h).2]
    rfl
  · exact isDigit_of_mem_digits h

theorem length_padded {width n : Nat} (h : (digits n).length ≤ width) :
    (padded width n).length = width := by
  simp only [padded, List.length_append, List.length_replicate]
  omega

theorem value_replicate_zero_append (k : Nat) (ds : List Char) :
    value (List.replicate k '0' ++ ds) = value ds := by
  induction k with
  | zero => rfl
  | succ k ih =>
      rw [← ih]
      simp [value, Nat.ofDigitChars, List.replicate_succ]

@[simp] theorem value_padded (width n : Nat) : value (padded width n) = n := by
  rw [padded, value_replicate_zero_append, value_digits]

example : padded 4 7 = ['0', '0', '0', '7'] := by decide
example : padded 2 123 = ['1', '2', '3'] := by decide

end StorageMarket.Decimal
