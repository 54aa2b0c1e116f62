import StorageMarket.Identity

/-!
# Written identifiers read back

The digits that are written for a byte are plain ASCII, one byte of text each, and of
the two the reader makes the byte again.
-/

namespace StorageMarket

namespace Hex

def digitByte (n : UInt8) : UInt8 := (digit n).val.toUInt8

theorem utf8EncodeChar_digit {n : UInt8} (h : n < 16) :
    String.utf8EncodeChar (digit n) = [digitByte n] := by
  have hall : ∀ k : Fin 16, String.utf8EncodeChar (digit (UInt8.ofNat k)) =
      [digitByte (UInt8.ofNat k)] := by decide
  have hk := hall ⟨n.toNat, UInt8.lt_iff_toNat_lt.1 h⟩
  rwa [UInt8.ofNat_toNat] at hk

theorem digitValue?_digitByte {n : UInt8} (h : n < 16) : digitValue? (digitByte n) = some n := by
  have hall : ∀ k : Fin 16, digitValue? (digitByte (UInt8.ofNat k)) = some (UInt8.ofNat k) := by
    decide
  have hk := hall ⟨n.toNat, UInt8.lt_iff_toNat_lt.1 h⟩
  rwa [UInt8.ofNat_toNat] at hk

theorem div_lt (b : UInt8) : b / 16 < 16 := by
  rw [UInt8.lt_iff_toNat_lt, UInt8.toNat_div]
  have := b.toNat_lt
  show b.toNat / 16 < 16
  omega

theorem mod_lt (b : UInt8) : b % 16 < 16 := by
  rw [UInt8.lt_iff_toNat_lt, UInt8.toNat_mod]
  exact Nat.mod_lt _ (by decide)

theorem halves (b : UInt8) : b / 16 * 16 + b % 16 = b := by
  refine UInt8.toNat_inj.1 ?_
  rw [UInt8.toNat_add, UInt8.toNat_mul, UInt8.toNat_div, UInt8.toNat_mod]
  have := b.toNat_lt
  show (b.toNat / 16 * 16 % 256 + b.toNat % 16) % 256 = b.toNat
  omega

def encoded : List UInt8 → List UInt8
  | [] => []
  | b :: rest => digitByte (b / 16) :: digitByte (b % 16) :: encoded rest

theorem length_encoded (bytes : List UInt8) : (encoded bytes).length = 2 * bytes.length := by
  induction bytes with
  | nil => rfl
  | cons b rest ih =>
      rw [encoded, List.length_cons, List.length_cons, ih, List.length_cons]
      omega

theorem flatMap_write (bytes : List UInt8) :
    (write bytes).flatMap String.utf8EncodeChar = encoded bytes := by
  induction bytes with
  | nil => rfl
  | cons b rest ih =>
      rw [write, List.flatMap_cons, List.flatMap_cons, ih, utf8EncodeChar_digit (div_lt b),
        utf8EncodeChar_digit (mod_lt b)]
      rfl

theorem readPairs_encoded (bytes : List UInt8) (position : Nat) :
    readPairs (encoded bytes) position = .ok bytes := by
  induction bytes generalizing position with
  | nil => rfl
  | cons b rest ih =>
      rw [encoded, readPairs, readDigit, readDigit, digitValue?_digitByte (div_lt b),
        digitValue?_digitByte (mod_lt b), ih]
      show Except.ok ((b / 16 * 16 + b % 16) :: rest) = _
      rw [halves]

end Hex

namespace Bytes

variable {n : Nat}

/-- An identifier is read if its text has the right length and stands for its bytes. -/
theorem ofHex_eq_ok {cs : List Char} {bytes : Bytes n}
    (hlength : ((withoutMark cs).flatMap String.utf8EncodeChar).length = 2 * n)
    (hpairs : Hex.readPairs ((withoutMark cs).flatMap String.utf8EncodeChar) 0
      = .ok bytes.toList) :
    ofHex n cs = .ok bytes := by
  simp only [ofHex, dif_pos hlength]
  split
  · next found hfound =>
      rw [hpairs] at hfound
      cases hfound
      rfl
  · next fault hfault =>
      rw [hpairs] at hfault
      cases hfault

theorem ofHex_hex (bytes : Bytes n) : ofHex n bytes.hex = .ok bytes := by
  have htext : (withoutMark bytes.hex).flatMap String.utf8EncodeChar
      = Hex.encoded bytes.toList := Hex.flatMap_write bytes.toList
  refine ofHex_eq_ok ?_ ?_ <;> rw [htext]
  · rw [Hex.length_encoded, bytes.length_toList]
  · exact Hex.readPairs_encoded bytes.toList 0

end Bytes

end StorageMarket
