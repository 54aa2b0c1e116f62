/-!
# Identifiers

Requests and accounts are named by byte strings of fixed length, written in
hexadecimal: `0x` and two lower-case digits for each byte. The reader leaves the
mark `0x` off if it stands there once, takes digits of either case, and asks for
exactly two digits a byte. It measures the text in the bytes of its UTF-8
encoding, so the position of a character that is no digit is a byte position.
-/

namespace StorageMarket

structure Bytes (n : Nat) where
  toList : List UInt8
  length_toList : toList.length = n
deriving DecidableEq

abbrev RequestId := Bytes 32

abbrev Address := Bytes 20

inductive HexFault where
  /-- The digits are not twice as many as the bytes asked for. -/
  | wrongLength (expected actual : Nat)
  /-- A byte of the text is no hexadecimal digit; the position does not count the mark. -/
  | notADigit (byte : UInt8) (position : Nat)
deriving DecidableEq

namespace Hex

def digit (n : UInt8) : Char := Nat.digitChar n.toNat

/-- The value of a digit of either case, given as a byte. -/
def digitValue? (b : UInt8) : Option UInt8 :=
  if 48 ≤ b ∧ b ≤ 57 then some (b - 48)
  else if 97 ≤ b ∧ b ≤ 102 then some (b - 87)
  else if 65 ≤ b ∧ b ≤ 70 then some (b - 55)
  else none

def write : List UInt8 → List Char
  | [] => []
  | b :: rest => digit (b / 16) :: digit (b % 16) :: write rest

def readDigit (b : UInt8) (position : Nat) : Except HexFault UInt8 :=
  match digitValue? b with
  | some v => .ok v
  | none => .error (.notADigit b position)

def readPairs : List UInt8 → Nat → Except HexFault (List UInt8)
  | high :: low :: rest, position => do
      let h ← readDigit high position
      let l ← readDigit low (position + 1)
      let bytes ← readPairs rest (position + 2)
      return (h * 16 + l) :: bytes
  | _, _ => .ok []

theorem length_readPairs {bytes out : List UInt8} {position : Nat}
    (h : readPairs bytes position = .ok out) : out.length = bytes.length / 2 := by
  induction bytes, position using readPairs.induct generalizing out with
  | case1 high low rest position ih =>
      simp only [readPairs, bind, Except.bind] at h
      split at h
      · exact nomatch h
      · split at h
        · exact nomatch h
        · split at h
          · exact nomatch h
          · next bytes hb =>
              have hout : _ :: bytes = out := Except.ok.inj h
              subst hout
              have := ih hb
              simp only [List.length_cons]
              omega
  | case2 bytes position hne =>
      match bytes, hne with
      | [], _ =>
          have hout : [] = out := Except.ok.inj h
          subst hout
          rfl
      | [_], _ =>
          have hout : [] = out := Except.ok.inj h
          subst hout
          simp
      | a :: b :: rest, hne => exact absurd rfl (hne a b rest)

end Hex

namespace Bytes

variable {n : Nat}

theorem toList_injective {a b : Bytes n} (h : a.toList = b.toList) : a = b := by
  cases a
  cases b
  cases h
  rfl

/-- Identifiers are compared byte by byte, the first byte counting most. -/
instance : Ord (Bytes n) := ⟨compareOn toList⟩

instance : Std.TransOrd (Bytes n) := inferInstanceAs (Std.TransCmp (compareOn toList))

instance : Std.LawfulEqOrd (Bytes n) where
  compare_self := Std.ReflOrd.compare_self
  eq_of_compare h := toList_injective (Std.LawfulEqOrd.compare_eq_iff_eq.1 h)

/-- The written form: the mark and two digits for each byte. -/
def hex (bytes : Bytes n) : List Char := '0' :: 'x' :: Hex.write bytes.toList

instance : ToString (Bytes n) := ⟨fun bytes => String.ofList bytes.hex⟩

def withoutMark : List Char → List Char
  | '0' :: 'x' :: rest => rest
  | cs => cs

def ofHex (n : Nat) (cs : List Char) : Except HexFault (Bytes n) :=
  let text := (withoutMark cs).flatMap String.utf8EncodeChar
  if hlen : text.length = 2 * n then
    match h : Hex.readPairs text 0 with
    | .ok bytes => .ok ⟨bytes, by rw [Hex.length_readPairs h]; omega⟩
    | .error fault => .error fault
  else
    .error (.wrongLength n (text.length / 2))

end Bytes

namespace HexFault

/-- A byte, shown as the character of that number between single quotes; what cannot be seen is
escaped. -/
def showByte (b : UInt8) : String :=
  let c := Char.ofNat b.toNat
  let shown :=
    if b = 0 then "\\0"
    else if b = 9 then "\\t"
    else if b = 10 then "\\n"
    else if b = 13 then "\\r"
    else if b = 39 then "\\'"
    else if b = 92 then "\\\\"
    else if b < 32 ∨ (127 ≤ b ∧ b ≤ 160) ∨ b = 173 then
      "\\u\x7b" ++ String.ofList (Nat.toDigits 16 b.toNat) ++ "\x7d"
    else String.singleton c
  "'" ++ shown ++ "'"

def message : HexFault → String
  | wrongLength expected actual => s!"expected {expected} bytes, got {actual}"
  | notADigit byte position => s!"Invalid character {showByte byte} at position {position}"

end HexFault

example : Bytes.ofHex 2 ['0', 'x', '0', 'a', 'F', 'f'] = .ok ⟨[10, 255], rfl⟩ := by rfl
example : Bytes.ofHex 2 ['0', 'X', '0', 'a'] = .error (.notADigit 88 1) := by rfl
example : Bytes.ofHex 2 ['0', 'x', '0'] = .error (.wrongLength 2 0) := by rfl

end StorageMarket
