import StorageMarket.Proofs.Identity.Hex

/-!
# The spellings of an identifier

A text is read as an identifier exactly if it consists of twice as many hexadecimal digits
as the identifier has bytes, once a mark has been left off. It may be spelled with a mark or
without one, and each digit large or small; apart from that there is one text for each
identifier.

The reader goes by the bytes of a text. A character that is no digit has a byte that is none
either, so it is found out whatever its length; the first such byte is the one that is named.
-/

namespace StorageMarket

namespace Hex

def digits : List Char :=
  ['0', '1', '2', '3', '4', '5', '6', '7', '8', '9', 'a', 'b', 'c', 'd', 'e', 'f',
    'A', 'B', 'C', 'D', 'E', 'F']

def IsDigit (c : Char) : Prop := c ∈ digits

instance (c : Char) : Decidable (IsDigit c) := inferInstanceAs (Decidable (c ∈ digits))

def charOf (b : UInt8) : Char := Char.ofNat b.toNat

/-! ## Digits as bytes -/

/-- A byte that is a digit has a value, and its value is written as the small digit; no other byte
has one. -/
theorem digitValue?_cases (b : UInt8) :
    (IsDigit (charOf b) ∧ ∃ v, digitValue? b = some v ∧ v < 16 ∧ digit v = (charOf b).toLower) ∨
      (¬ IsDigit (charOf b) ∧ digitValue? b = none) := by
  have htable : ∀ k : Fin 256,
      (digitValue? (UInt8.ofNat k)).isSome = decide (IsDigit (charOf (UInt8.ofNat k))) ∧
      (digitValue? (UInt8.ofNat k)).all (fun v =>
        v < 16 ∧ digit v = (charOf (UInt8.ofNat k)).toLower) = true := by decide +kernel
  have hb := htable ⟨b.toNat, b.toNat_lt⟩
  rw [UInt8.ofNat_toNat] at hb
  obtain ⟨hvalue, hwritten⟩ := hb
  cases hv : digitValue? b with
  | none =>
      rw [hv] at hvalue
      exact .inr ⟨of_decide_eq_false hvalue.symm, rfl⟩
  | some v =>
      rw [hv] at hvalue hwritten
      exact .inl ⟨of_decide_eq_true hvalue.symm, v, rfl, of_decide_eq_true hwritten⟩

theorem readDigit_of_isDigit {b : UInt8} (h : IsDigit (charOf b)) (position : Nat) :
    ∃ v, readDigit b position = .ok v ∧ v < 16 ∧ digit v = (charOf b).toLower := by
  rcases digitValue?_cases b with ⟨_, v, hv, hrest⟩ | ⟨hnot, _⟩
  · refine ⟨v, ?_, hrest⟩
    rw [readDigit, hv]
  · exact absurd h hnot

theorem readDigit_of_not_isDigit {b : UInt8} (h : ¬ IsDigit (charOf b)) (position : Nat) :
    readDigit b position = .error (.notADigit b position) := by
  rcases digitValue?_cases b with ⟨hdigit, _⟩ | ⟨_, hnone⟩
  · exact absurd hdigit h
  · rw [readDigit, hnone]

/-- A byte is written as the digits of the two numbers that it is made of. -/
theorem write_cons_of_lt {high low : UInt8} (hhigh : high < 16) (hlow : low < 16)
    (rest : List UInt8) :
    write ((high * 16 + low) :: rest) = digit high :: digit low :: write rest := by
  rw [UInt8.lt_iff_toNat_lt] at hhigh hlow
  have hhigh : high.toNat < 16 := hhigh
  have hlow : low.toNat < 16 := hlow
  have hdiv : (high * 16 + low) / 16 = high := by
    refine UInt8.toNat_inj.1 ?_
    rw [UInt8.toNat_div, UInt8.toNat_add, UInt8.toNat_mul]
    show (high.toNat * 16 % 256 + low.toNat) % 256 / 16 = high.toNat
    omega
  have hmod : (high * 16 + low) % 16 = low := by
    refine UInt8.toNat_inj.1 ?_
    rw [UInt8.toNat_mod, UInt8.toNat_add, UInt8.toNat_mul]
    show (high.toNat * 16 % 256 + low.toNat) % 256 % 16 = low.toNat
    omega
  rw [write, hdiv, hmod]

/-! ## Reading bytes of text -/

/-- Digits in pairs are read, and what they are read as is written with the same digits, all
small. -/
theorem readPairs_of_isDigit {text : List UInt8} (heven : text.length % 2 = 0)
    (h : ∀ b ∈ text, IsDigit (charOf b)) (position : Nat) :
    ∃ bytes, readPairs text position = .ok bytes ∧
      write bytes = text.map fun b => (charOf b).toLower := by
  induction text, position using readPairs.induct with
  | case1 high low rest position ih =>
      rw [List.forall_mem_cons, List.forall_mem_cons] at h
      obtain ⟨hhigh, hlow, hrest⟩ := h
      obtain ⟨v, hv, hvlt, hvdigit⟩ := readDigit_of_isDigit hhigh position
      obtain ⟨w, hw, hwlt, hwdigit⟩ := readDigit_of_isDigit hlow (position + 1)
      have heven' : rest.length % 2 = 0 := by
        rw [List.length_cons, List.length_cons] at heven
        omega
      obtain ⟨bytes, hbytes, hwritten⟩ := ih heven' hrest
      refine ⟨(v * 16 + w) :: bytes, ?_, ?_⟩
      · rw [readPairs, hv, hw, hbytes]
        rfl
      · rw [write_cons_of_lt hvlt hwlt, hvdigit, hwdigit, hwritten]
        rfl
  | case2 text position hpairs =>
      refine ⟨[], ?_, ?_⟩
      · rw [readPairs]
        exact hpairs
      · rcases text with _ | ⟨a, _ | ⟨b, rest⟩⟩
        · rfl
        · exact absurd heven (by simp)
        · exact absurd rfl (hpairs a b rest)

/-- The first byte that is no digit is named with its position. -/
theorem readPairs_of_not_isDigit {good rest : List UInt8} {bad : UInt8}
    (heven : (good ++ bad :: rest).length % 2 = 0) (hgood : ∀ b ∈ good, IsDigit (charOf b))
    (hbad : ¬ IsDigit (charOf bad)) (position : Nat) :
    readPairs (good ++ bad :: rest) position
      = .error (.notADigit bad (position + good.length)) := by
  match good, heven, hgood with
  -- the first digit of a pair
  | [], heven, _ =>
      cases rest with
      | nil => exact absurd heven (by simp)
      | cons low rest =>
          rw [List.nil_append, readPairs, readDigit_of_not_isDigit hbad]
          rfl
  -- the second digit of a pair
  | [high], _, hgood =>
      obtain ⟨v, hv, _⟩ := readDigit_of_isDigit (hgood high List.mem_cons_self) position
      rw [List.cons_append, List.nil_append, readPairs, hv, readDigit_of_not_isDigit hbad]
      rfl
  | high :: low :: good, heven, hgood =>
      rw [List.forall_mem_cons, List.forall_mem_cons] at hgood
      obtain ⟨hhigh, hlow, hgood⟩ := hgood
      obtain ⟨v, hv, _⟩ := readDigit_of_isDigit hhigh position
      obtain ⟨w, hw, _⟩ := readDigit_of_isDigit hlow (position + 1)
      have heven' : (good ++ bad :: rest).length % 2 = 0 := by
        rw [List.cons_append, List.cons_append, List.length_cons, List.length_cons] at heven
        omega
      have ih := readPairs_of_not_isDigit heven' hgood hbad (position + 2)
      have hposition : position + 2 + good.length = position + (good.length + 1 + 1) := by omega
      rw [List.cons_append, List.cons_append, readPairs, hv, hw, ih, List.length_cons,
        List.length_cons, hposition]
      rfl

theorem all_isDigit_or (text : List UInt8) :
    (∀ b ∈ text, IsDigit (charOf b)) ∨ ∃ good bad rest, text = good ++ bad :: rest ∧
      (∀ b ∈ good, IsDigit (charOf b)) ∧ ¬ IsDigit (charOf bad) := by
  cases hfind : text.find? fun b => !decide (IsDigit (charOf b)) with
  | none =>
      refine .inl fun b hb => ?_
      simpa using List.find?_eq_none.1 hfind b hb
  | some bad =>
      obtain ⟨hbad, good, rest, rfl, hgood⟩ := List.find?_eq_some_iff_append.1 hfind
      refine .inr ⟨good, bad, rest, rfl, fun b hb => ?_, ?_⟩
      · simpa using hgood b hb
      · simpa using hbad

/-! ## Characters and their bytes -/

theorem utf8EncodeChar_of_isDigit {c : Char} (h : IsDigit c) :
    ∃ b, String.utf8EncodeChar c = [b] ∧ charOf b = c := by
  have htable : digits.all (fun d => String.utf8EncodeChar d = [d.val.toUInt8] ∧
      charOf d.val.toUInt8 = d) = true := by decide
  exact ⟨_, of_decide_eq_true (List.all_eq_true.1 htable c h)⟩

theorem toNat_lt_of_isDigit {c : Char} (h : IsDigit c) : c.toNat < 128 := by
  have htable : digits.all (fun d => d.toNat < 128) = true := by decide
  exact of_decide_eq_true (List.all_eq_true.1 htable c h)

theorem toNat_charOf (b : UInt8) : (charOf b).toNat = b.toNat := by
  have hlt := b.toNat_lt
  have hvalid : b.toNat.isValidChar := .inl (by omega)
  rw [charOf, Char.ofNat, dif_pos hvalid]
  rfl

/-- A character that is no digit has a byte that is no digit. -/
theorem exists_not_isDigit {c : Char} (h : ¬ IsDigit c) :
    ∃ b ∈ String.utf8EncodeChar c, ¬ IsDigit (charOf b) := by
  -- the first byte of a character beyond ASCII has its highest bit set
  have hlarge (n : Nat) (hle : 128 ≤ n) (hlt : n < 256) : ¬ IsDigit (charOf (UInt8.ofNat n)) := by
    intro hdigit
    have hsmall := toNat_lt_of_isDigit hdigit
    rw [toNat_charOf, UInt8.toNat_ofNat', Nat.mod_eq_of_lt hlt] at hsmall
    omega
  unfold String.utf8EncodeChar
  dsimp only
  split
  · next hascii =>
      refine ⟨UInt8.ofNat c.val.toNat, List.mem_cons_self, ?_⟩
      have hval : (UInt8.ofNat c.val.toNat).toNat = c.toNat := by
        rw [UInt8.toNat_ofNat']
        exact Nat.mod_eq_of_lt (by omega)
      rw [charOf, hval, Char.ofNat_toNat]
      exact h
  · split
    · exact ⟨_, List.mem_cons_self, hlarge _ (by omega) (by omega)⟩
    · split
      · exact ⟨_, List.mem_cons_self, hlarge _ (by omega) (by omega)⟩
      · exact ⟨_, List.mem_cons_self, hlarge _ (by omega) (by omega)⟩

theorem forall_isDigit_iff {cs : List Char} :
    (∀ b ∈ cs.flatMap String.utf8EncodeChar, IsDigit (charOf b)) ↔ ∀ c ∈ cs, IsDigit c := by
  constructor
  · intro h c hc
    refine Decidable.byContradiction fun hnot => ?_
    obtain ⟨b, hb, hbad⟩ := exists_not_isDigit hnot
    exact hbad (h b (List.mem_flatMap.2 ⟨c, hc, hb⟩))
  · intro h b hb
    obtain ⟨c, hc, hb⟩ := List.mem_flatMap.1 hb
    obtain ⟨d, hbytes, hchar⟩ := utf8EncodeChar_of_isDigit (h c hc)
    rw [hbytes, List.mem_singleton] at hb
    rw [hb, hchar]
    exact h c hc

theorem map_charOf_flatMap {cs : List Char} (h : ∀ c ∈ cs, IsDigit c) :
    (cs.flatMap String.utf8EncodeChar).map charOf = cs := by
  induction cs with
  | nil => rfl
  | cons c cs ih =>
      rw [List.forall_mem_cons] at h
      obtain ⟨b, hbytes, hchar⟩ := utf8EncodeChar_of_isDigit h.1
      rw [List.flatMap_cons, hbytes, List.map_append, ih h.2, List.map_singleton, hchar,
        List.singleton_append]

theorem length_flatMap_of_isDigit {cs : List Char} (h : ∀ c ∈ cs, IsDigit c) :
    (cs.flatMap String.utf8EncodeChar).length = cs.length := by
  have := congrArg List.length (map_charOf_flatMap h)
  rwa [List.length_map] at this

end Hex

namespace Bytes

variable {n : Nat}

def textBytes (cs : List Char) : List UInt8 := (withoutMark cs).flatMap String.utf8EncodeChar

/-- What is left of a text once the mark is left off and all letters are small. -/
def spelling (cs : List Char) : List Char := (withoutMark cs).map Char.toLower

/-! ## What is made of a text -/

theorem ofHex_of_length_ne {cs : List Char} (h : (textBytes cs).length ≠ 2 * n) :
    ofHex n cs = .error (.wrongLength n ((textBytes cs).length / 2)) := by
  simp only [ofHex]
  exact dif_neg h

theorem ofHex_of_bad {cs : List Char} (hlength : (textBytes cs).length = 2 * n)
    {good rest : List UInt8} {bad : UInt8} (hsplit : textBytes cs = good ++ bad :: rest)
    (hgood : ∀ b ∈ good, Hex.IsDigit (Hex.charOf b)) (hbad : ¬ Hex.IsDigit (Hex.charOf bad)) :
    ofHex n cs = .error (.notADigit bad good.length) := by
  have heven : (good ++ bad :: rest).length % 2 = 0 := by
    rw [← hsplit, hlength]
    omega
  have hpairs := Hex.readPairs_of_not_isDigit heven hgood hbad 0
  rw [Nat.zero_add, ← hsplit] at hpairs
  have hlength : ((withoutMark cs).flatMap String.utf8EncodeChar).length = 2 * n := hlength
  simp only [ofHex, dif_pos hlength]
  split
  · next found hfound => cases hfound.symm.trans hpairs
  · next fault hfault =>
      cases hfault.symm.trans hpairs
      rfl

/-- A text of as many digits as it takes is read as an identifier of that spelling. -/
theorem ofHex_of_isDigit {cs : List Char} (hlength : (withoutMark cs).length = 2 * n)
    (h : ∀ c ∈ withoutMark cs, Hex.IsDigit c) :
    ∃ bytes : Bytes n, ofHex n cs = .ok bytes ∧ bytes.hex = '0' :: 'x' :: spelling cs := by
  have hbytes : (textBytes cs).length = 2 * n := by
    rw [textBytes, Hex.length_flatMap_of_isDigit h, hlength]
  have heven : (textBytes cs).length % 2 = 0 := by omega
  obtain ⟨out, hout, hwritten⟩ := Hex.readPairs_of_isDigit heven (Hex.forall_isDigit_iff.2 h) 0
  have hlen : out.length = n := by
    rw [Hex.length_readPairs hout]
    omega
  refine ⟨⟨out, hlen⟩, ofHex_eq_ok hbytes hout, ?_⟩
  have hlower : (textBytes cs).map (fun b => (Hex.charOf b).toLower)
      = ((textBytes cs).map Hex.charOf).map Char.toLower := by
    rw [List.map_map]
    rfl
  show '0' :: 'x' :: Hex.write out = _
  rw [hwritten, hlower, textBytes, Hex.map_charOf_flatMap h, spelling]

theorem ofHex_cases (n : Nat) (cs : List Char) :
    ((textBytes cs).length ≠ 2 * n ∧
        ofHex n cs = .error (.wrongLength n ((textBytes cs).length / 2))) ∨
      (∃ good bad rest, (textBytes cs).length = 2 * n ∧ textBytes cs = good ++ bad :: rest ∧
        (∀ b ∈ good, Hex.IsDigit (Hex.charOf b)) ∧ ¬ Hex.IsDigit (Hex.charOf bad) ∧
        ofHex n cs = .error (.notADigit bad good.length)) ∨
      (((withoutMark cs).length = 2 * n ∧ ∀ c ∈ withoutMark cs, Hex.IsDigit c) ∧
        ∃ bytes : Bytes n, ofHex n cs = .ok bytes ∧ bytes.hex = '0' :: 'x' :: spelling cs) := by
  by_cases hlength : (textBytes cs).length = 2 * n
  · rcases Hex.all_isDigit_or (textBytes cs) with hall | ⟨good, bad, rest, hsplit, hgood, hbad⟩
    · have hdigits := Hex.forall_isDigit_iff.1 hall
      have hlength' : (withoutMark cs).length = 2 * n := by
        rw [← Hex.length_flatMap_of_isDigit hdigits]
        exact hlength
      exact .inr (.inr ⟨⟨hlength', hdigits⟩, ofHex_of_isDigit hlength' hdigits⟩)
    · exact .inr (.inl ⟨good, bad, rest, hlength, hsplit, hgood, hbad,
        ofHex_of_bad hlength hsplit hgood hbad⟩)
  · exact .inl ⟨hlength, ofHex_of_length_ne hlength⟩

/-! ## Reading, case by case -/

theorem exists_ofHex_ok_iff {cs : List Char} :
    (∃ bytes : Bytes n, ofHex n cs = .ok bytes) ↔
      (withoutMark cs).length = 2 * n ∧ ∀ c ∈ withoutMark cs, Hex.IsDigit c := by
  constructor
  · rintro ⟨bytes, hok⟩
    rcases ofHex_cases n cs with ⟨_, h⟩ | ⟨_, _, _, _, _, _, _, h⟩ | ⟨hdigits, _⟩
    · cases h.symm.trans hok
    · cases h.symm.trans hok
    · exact hdigits
  · rintro ⟨hlength, hdigits⟩
    obtain ⟨bytes, hok, _⟩ := ofHex_of_isDigit hlength hdigits
    exact ⟨bytes, hok⟩

/-- What is written for an identifier that was read is the spelling of the text. -/
theorem hex_of_ofHex {cs : List Char} {bytes : Bytes n} (hok : ofHex n cs = .ok bytes) :
    bytes.hex = '0' :: 'x' :: spelling cs := by
  obtain ⟨hlength, hdigits⟩ := exists_ofHex_ok_iff.1 ⟨bytes, hok⟩
  obtain ⟨found, hfound, hwritten⟩ := ofHex_of_isDigit hlength hdigits
  cases hfound.symm.trans hok
  exact hwritten

theorem ofHex_eq_notADigit_iff {cs : List Char} {bad : UInt8} {position : Nat} :
    ofHex n cs = .error (.notADigit bad position) ↔
      (textBytes cs).length = 2 * n ∧ ∃ good rest,
        textBytes cs = good ++ bad :: rest ∧ good.length = position ∧
          (∀ b ∈ good, Hex.IsDigit (Hex.charOf b)) ∧ ¬ Hex.IsDigit (Hex.charOf bad) := by
  constructor
  · intro herror
    rcases ofHex_cases n cs with
      ⟨_, h⟩ | ⟨good, found, rest, hlength, hsplit, hgood, hbad, h⟩ | ⟨_, bytes, h, _⟩
    · cases h.symm.trans herror
    · cases h.symm.trans herror
      exact ⟨hlength, good, rest, hsplit, rfl, hgood, hbad⟩
    · cases h.symm.trans herror
  · rintro ⟨hlength, good, rest, hsplit, rfl, hgood, hbad⟩
    exact ofHex_of_bad hlength hsplit hgood hbad

/-- A letter that takes two bytes, in a text of four. -/
example : ofHex 2 ['é', 'a', 'b'] = .error (.notADigit 195 0) := by rfl

theorem ofHex_eq_wrongLength_iff {cs : List Char} {expected actual : Nat} :
    ofHex n cs = .error (.wrongLength expected actual) ↔
      (textBytes cs).length ≠ 2 * n ∧ expected = n ∧ actual = (textBytes cs).length / 2 := by
  constructor
  · intro herror
    rcases ofHex_cases n cs with ⟨hlength, h⟩ | ⟨_, _, _, _, _, _, _, h⟩ | ⟨_, bytes, h, _⟩
    · cases h.symm.trans herror
      exact ⟨hlength, rfl, rfl⟩
    · cases h.symm.trans herror
    · cases h.symm.trans herror
  · rintro ⟨hlength, rfl, rfl⟩
    exact ofHex_of_length_ne hlength

theorem hex_injective {a b : Bytes n} (h : a.hex = b.hex) : a = b := by
  have ha := ofHex_hex a
  rw [h, ofHex_hex] at ha
  exact (Except.ok.inj ha).symm

/-- Texts that are read are read as the same identifier exactly if they are spelled alike. -/
theorem eq_iff_spelling_eq {cs ds : List Char} {a b : Bytes n} (ha : ofHex n cs = .ok a)
    (hb : ofHex n ds = .ok b) : a = b ↔ spelling cs = spelling ds := by
  have hwritten := hex_of_ofHex ha
  have hwritten' := hex_of_ofHex hb
  constructor
  · rintro rfl
    rw [hwritten, List.cons_inj_right, List.cons_inj_right] at hwritten'
    exact hwritten'
  · intro h
    apply hex_injective
    rw [hwritten, hwritten', h]

/-- A text is read as an identifier exactly if it consists of twice as many digits as the identifier
has bytes, once a mark is left off. What is written for the identifier is then the mark and the
small digits of the text; what is written reads back; and two texts are read as the same
identifier exactly if they agree but for the mark and the case of their letters. A text of the
right length in bytes that holds any other byte is refused for the first such byte, and a text
of any other length for its length. -/
theorem text_and_bytes_determine_each_other (n : Nat) :
    (∀ bytes : Bytes n, ofHex n (toString bytes).toList = .ok bytes) ∧
    ∀ text : String,
      ((∃ bytes : Bytes n, ofHex n text.toList = .ok bytes) ↔
        (withoutMark text.toList).length = 2 * n ∧
          ∀ c ∈ withoutMark text.toList, Hex.IsDigit c) ∧
      (∀ bytes : Bytes n, ofHex n text.toList = .ok bytes →
        toString bytes = String.ofList ('0' :: 'x' :: spelling text.toList)) ∧
      (∀ (other : String) (a b : Bytes n), ofHex n text.toList = .ok a →
        ofHex n other.toList = .ok b → (a = b ↔ spelling text.toList = spelling other.toList)) ∧
      (∀ bad position, ofHex n text.toList = .error (.notADigit bad position) ↔
        (textBytes text.toList).length = 2 * n ∧ ∃ good rest,
          textBytes text.toList = good ++ bad :: rest ∧ good.length = position ∧
            (∀ b ∈ good, Hex.IsDigit (Hex.charOf b)) ∧ ¬ Hex.IsDigit (Hex.charOf bad)) ∧
      ∀ expected actual, ofHex n text.toList = .error (.wrongLength expected actual) ↔
        (textBytes text.toList).length ≠ 2 * n ∧ expected = n ∧
          actual = (textBytes text.toList).length / 2 := by
  refine ⟨fun bytes => ?_, fun text => ⟨exists_ofHex_ok_iff, fun bytes hok => ?_,
    fun other a b ha hb => eq_iff_spelling_eq ha hb, fun bad position => ofHex_eq_notADigit_iff,
    fun expected actual => ofHex_eq_wrongLength_iff⟩⟩
  · show ofHex n (String.ofList bytes.hex).toList = .ok bytes
    rw [String.toList_ofList]
    exact ofHex_hex bytes
  · rw [← hex_of_ofHex hok]
    rfl

end Bytes

end StorageMarket
