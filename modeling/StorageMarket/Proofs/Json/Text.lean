import StorageMarket.Json
import StorageMarket.Json.Outline
import StorageMarket.Proofs.Digits
import StorageMarket.Proofs.Success

/-!
# Written JSON values read back

The outline of the compact text of a value is that value again, and the reader stops
exactly behind the text. What may stand there is what may follow a value in such a
text: a comma, a closing bracket or brace, or nothing.
-/

namespace StorageMarket.Json

/-! ## Strings -/

/-- A character below the blank is told by the two last digits of its unit. -/
theorem unit?_digitChar {n : Nat} (h : n < 32) :
    unit? '0' '0' (Nat.digitChar (n / 16)) (Nat.digitChar (n % 16)) = some n := by
  have hall : ∀ k : Fin 32,
      unit? '0' '0' (Nat.digitChar (k.val / 16)) (Nat.digitChar (k.val % 16)) = some k.val := by
    decide
  exact hall ⟨n, h⟩

/-- A character is written as an escape of one letter, as a unit, or as it is. -/
theorem escape_cases (c : Char) :
    (∃ letter, escape c = ['\\', letter] ∧ letter ≠ 'u' ∧ simpleEscape? letter = some c) ∨
    (c.toNat < 32 ∧ escape c =
      ['\\', 'u', '0', '0', Nat.digitChar (c.toNat / 16), Nat.digitChar (c.toNat % 16)]) ∨
    (32 ≤ c.toNat ∧ c ≠ '"' ∧ c ≠ '\\' ∧ escape c = [c]) := by
  have hof {n : Nat} (h : c.toNat = n) : c = Char.ofNat n := by rw [← h, Char.ofNat_toNat]
  by_cases hquote : c = '"'
  · subst hquote
    exact .inl ⟨'"', rfl, by decide, rfl⟩
  by_cases hslash : c = '\\'
  · subst hslash
    exact .inl ⟨'\\', rfl, by decide, rfl⟩
  by_cases h8 : c.toNat = 8
  · exact .inl ⟨'b', by simp [escape, hquote, hslash, h8], by decide, by rw [hof h8]; rfl⟩
  by_cases h9 : c.toNat = 9
  · exact .inl ⟨'t', by simp [escape, hquote, hslash, h9], by decide, by rw [hof h9]; rfl⟩
  by_cases h10 : c.toNat = 10
  · exact .inl ⟨'n', by simp [escape, hquote, hslash, h10], by decide, by rw [hof h10]; rfl⟩
  by_cases h12 : c.toNat = 12
  · exact .inl ⟨'f', by simp [escape, hquote, hslash, h12], by decide, by rw [hof h12]; rfl⟩
  by_cases h13 : c.toNat = 13
  · exact .inl ⟨'r', by simp [escape, hquote, hslash, h13], by decide, by rw [hof h13]; rfl⟩
  by_cases hlow : c.toNat < 32
  · exact .inr (.inl ⟨hlow, by simp [escape, hquote, hslash, h8, h9, h10, h12, h13, hlow]⟩)
  · refine .inr (.inr ⟨by omega, hquote, hslash, ?_⟩)
    simp [escape, hquote, hslash, h8, h9, h10, h12, h13, hlow]

theorem skipString_escape (c : Char) (rest : List Char) :
    skipString (escape c ++ rest) = skipString rest := by
  rcases escape_cases c with ⟨letter, htext, hu, hletter⟩ | ⟨hlow, htext⟩ | ⟨hhigh, hq, hs, htext⟩
  · rw [htext]
    simp [skipString, hu, hletter]
  · rw [htext]
    simp [skipString, unit?_digitChar hlow]
  · rw [htext]
    simp [skipString, hs, Nat.not_lt.2 hhigh]

theorem readString_escape (c : Char) (rest : List Char) :
    readString (escape c ++ rest) = (readString rest).map (c :: ·) := by
  rcases escape_cases c with ⟨letter, htext, hu, hletter⟩ | ⟨hlow, htext⟩ | ⟨hhigh, hq, hs, htext⟩
  · rw [htext]
    simp [readString, hu, hletter]
  · have hlead : isLead c.toNat = false := by simp [isLead]; omega
    have htrail : isTrail c.toNat = false := by simp [isTrail]; omega
    rw [htext]
    simp [readString, unit?_digitChar hlow, hlead, htrail]
  · rw [htext]
    simp [readString, hs, Nat.not_lt.2 hhigh]

theorem scanString_escape (s : String) (rest : List Char) :
    scanString (s.toList.flatMap escape ++ '"' :: rest) = .ok (.ok s, rest) := by
  have hskip : ∀ cs : List Char, skipString (cs.flatMap escape ++ '"' :: rest) = .ok rest := by
    intro cs
    induction cs with
    | nil => rfl
    | cons c cs ih => rw [List.flatMap_cons, List.append_assoc, skipString_escape, ih]
  have hread : ∀ cs : List Char, readString (cs.flatMap escape ++ '"' :: rest) = .ok cs := by
    intro cs
    induction cs with
    | nil => rfl
    | cons c cs ih =>
        rw [List.flatMap_cons, List.append_assoc, readString_escape, ih]
        rfl
  rw [scanString, hskip, hread]
  simp [Except.map]

/-! ## Numbers -/

/-- What may follow a value in a compact text. -/
def Stops : List Char → Prop
  | [] => True
  | c :: _ => c = ',' ∨ c = ']' ∨ c = '\x7d'

def Numeral.ofNat (n : Nat) : Numeral := ⟨false, Decimal.digits n, none, none⟩

theorem Stops.ended {rest : List Char} (hrest : Stops rest) : Decimal.Ended rest := by
  rintro c cs rfl
  rcases hrest with rfl | rfl | rfl <;> rfl

namespace Numeral

theorem digitRun_append {ds rest : List Char} (hds : ∀ c ∈ ds, c.isDigit = true)
    (hrest : Decimal.Ended rest) : digitRun (ds ++ rest) = (ds, rest) := by
  rw [digitRun, Decimal.takeWhile_append hds hrest, Decimal.dropWhile_append hds hrest]

theorem readSign_digit {c : Char} (hc : c.isDigit = true) (cs : List Char) :
    readSign (c :: cs) = (false, c :: cs) := by
  simp [readSign, Decimal.ne_of_isDigit hc (rfl : '-'.isDigit = false)]

theorem readWhole_digits (n : Nat) {rest : List Char} (hrest : Decimal.Ended rest) :
    readWhole (Decimal.digits n ++ rest) = .ok (Decimal.digits n, rest) := by
  rw [readWhole, digitRun_append (fun c => Decimal.isDigit_of_mem_digits) hrest]
  obtain ⟨c, ds, hds, -⟩ := Decimal.digits_eq_cons n
  rw [hds]
  by_cases hc : c = '0'
  · subst hc
    rw [Decimal.digits_eq_zero_cons hds]
    rfl
  · simp [hc]

theorem readFraction_of_stops {rest : List Char} (hrest : Stops rest) :
    readFraction rest = .ok (none, rest) := by
  cases rest with
  | nil => rfl
  | cons c cs => rcases hrest with rfl | rfl | rfl <;> rfl

theorem readExponent_of_stops {rest : List Char} (hrest : Stops rest) :
    readExponent rest = .ok (none, rest) := by
  cases rest with
  | nil => rfl
  | cons c cs => rcases hrest with rfl | rfl | rfl <;> rfl

theorem read_digits (n : Nat) {rest : List Char} (hrest : Stops rest) :
    read (Decimal.digits n ++ rest) = .ok (ofNat n, rest) := by
  have hsign : readSign (Decimal.digits n ++ rest) = (false, Decimal.digits n ++ rest) := by
    obtain ⟨c, ds, hds, hc⟩ := Decimal.digits_eq_cons n
    rw [hds]
    exact readSign_digit hc (ds ++ rest)
  rw [read, hsign]
  simp only [readWhole_digits n hrest.ended, readFraction_of_stops hrest,
    readExponent_of_stops hrest, except_ok_bind]
  rfl

end Numeral

/-! ## Values -/

mutual

def toOutline : Json → Outline
  | .null => .null
  | .bool b => .bool b
  | .number n => .number (Numeral.ofNat n)
  | .string s => .string (.ok s)
  | .array items => .array (toItems items)
  | .object members => .object (toMembers members)

def toItems : List Json → Items
  | [] => .done
  | item :: rest => .item (toOutline item) (toItems rest)

def toMembers : List (String × Json) → Members
  | [] => .done
  | (name, value) :: rest => .member (.ok name) (toOutline value) (toMembers rest)

end

theorem skipSpace_cons {c : Char} (hc : isSpace c = false) (cs : List Char) :
    skipSpace (c :: cs) = c :: cs := by
  simp [skipSpace, hc]

theorem isSpace_of_isDigit {c : Char} (hc : c.isDigit = true) : isSpace c = false := by
  simp [isSpace, Decimal.ne_of_isDigit hc]

/-- The text of a value starts neither with a blank nor like the end of an array. -/
theorem compact_eq_cons (json : Json) :
    ∃ c cs, json.compact = c :: cs ∧ isSpace c = false ∧ c ≠ ']' := by
  cases json with
  | null => exact ⟨'n', _, rfl, rfl, by decide⟩
  | bool b => cases b <;> exact ⟨_, _, rfl, rfl, by decide⟩
  | number n =>
      obtain ⟨c, ds, hds, hc⟩ := Decimal.digits_eq_cons n
      exact ⟨c, ds, hds, isSpace_of_isDigit hc, Decimal.ne_of_isDigit hc rfl⟩
  | string s => exact ⟨'"', _, rfl, rfl, by decide⟩
  | array items => cases items <;> exact ⟨'[', _, rfl, rfl, by decide⟩
  | object members => cases members <;> exact ⟨'\x7b', _, rfl, rfl, by decide⟩

theorem outline_number (fuel n : Nat) {rest : List Char} (hrest : Stops rest) :
    outline (fuel + 1) (Decimal.digits n ++ rest) = (.number (Numeral.ofNat n), some rest) := by
  have hread := Numeral.read_digits n hrest
  obtain ⟨c, ds, hds, hc⟩ := Decimal.digits_eq_cons n
  rw [hds, List.cons_append] at hread
  have hne {d : Char} (hd : d.isDigit = false) : c ≠ d := Decimal.ne_of_isDigit hc hd
  rw [hds, List.cons_append, outline, skipSpace_cons (isSpace_of_isDigit hc)]
  simp [hc, hread, hne]

theorem stops_compactItems (items : List Json) (rest : List Char) :
    Stops (compactItems items ++ rest) := by
  cases items with
  | nil => exact .inr (.inl rfl)
  | cons item items => exact .inl rfl

theorem stops_compactMembers (members : List (String × Json)) (rest : List Char) :
    Stops (compactMembers members ++ rest) := by
  cases members with
  | nil => exact .inr (.inr rfl)
  | cons member members => exact .inl rfl

theorem literal_append (letters : List Char) (value : Outline) (rest : List Char) :
    literal letters value (letters ++ rest) = (value, some rest) := by
  induction letters with
  | nil => rw [literal, List.nil_append]
  | cons l letters ih => simp [literal, ih]

theorem quoted_append (s : String) (rest : List Char) :
    quoted s ++ rest = '"' :: (s.toList.flatMap escape ++ '"' :: rest) := by
  simp [quoted]

theorem compact_array (item : Json) (items : List Json) (rest : List Char) :
    (array (item :: items)).compact ++ rest
      = '[' :: (item.compact ++ (compactItems items ++ rest)) := by
  simp [compact]

theorem compact_object (name : String) (value : Json) (members : List (String × Json))
    (rest : List Char) :
    (object ((name, value) :: members)).compact ++ rest
      = '\x7b' :: '"' :: (name.toList.flatMap escape ++
        '"' :: ':' :: (value.compact ++ (compactMembers members ++ rest))) := by
  simp [compact, quoted]

theorem length_compact_pos (json : Json) : 0 < json.compact.length := by
  obtain ⟨c, cs, hcompact, -⟩ := compact_eq_cons json
  rw [hcompact]
  exact Nat.succ_pos _

/-- What is written is outlined up to its end, if there is fuel for two steps a character. One step
leads to the items and one to an item, so each item takes two before its own text is met; they are
paid for by the bracket or the comma in front of it. -/
structure Outlines (fuel : Nat) : Prop where
  value : ∀ (json : Json) {rest : List Char}, Stops rest → 2 * json.compact.length ≤ fuel →
    outline fuel (json.compact ++ rest) = (json.toOutline, some rest)
  items : ∀ (item : Json) (items : List Json) (rest : List Char),
    2 * (item.compact.length + (compactItems items).length) ≤ fuel →
    outlineItems fuel (item.compact ++ (compactItems items ++ rest))
      = (.item item.toOutline (toItems items), some rest)
  members : ∀ (name : String) (value : Json) (members : List (String × Json)) (rest : List Char),
    2 * (value.compact.length + (compactMembers members).length) ≤ fuel →
    outlineMembers fuel (name.toList.flatMap escape ++
        '"' :: ':' :: (value.compact ++ (compactMembers members ++ rest)))
      = (.member (.ok name) value.toOutline (toMembers members), some rest)

theorem Outlines.value_succ {fuel : Nat} (ih : Outlines fuel) (json : Json) {rest : List Char}
    (hrest : Stops rest) (hfuel : 2 * json.compact.length ≤ fuel + 1) :
    outline (fuel + 1) (json.compact ++ rest) = (json.toOutline, some rest) := by
  match json with
  | .null => exact literal_append _ _ _
  | .bool true => exact literal_append _ _ _
  | .bool false => exact literal_append _ _ _
  | .number n => exact outline_number fuel n hrest
  | .string s =>
      rw [compact, quoted_append, outline, skipSpace_cons (by decide)]
      simp only [scanString_escape]
      rfl
  | .array [] => rfl
  | .array (item :: items) =>
      simp only [compact, List.length_append, List.length_cons] at hfuel
      have hitems := ih.items item items rest (by omega)
      -- the item does not look like the end of the array
      obtain ⟨c, cs, hitem, hspace, hend⟩ := compact_eq_cons item
      rw [hitem, List.cons_append] at hitems
      rw [compact_array, hitem, List.cons_append, outline, skipSpace_cons (by decide)]
      simp [skipSpace_cons hspace, hend, hitems, toOutline, toItems]
  | .object [] => rfl
  | .object ((name, value) :: members) =>
      simp only [compact, List.length_append, List.length_cons] at hfuel
      have hmembers := ih.members name value members rest (by omega)
      rw [compact_object, outline, skipSpace_cons (by decide)]
      simp only [skipSpace_cons (by decide : isSpace '"' = false), hmembers]
      rfl

theorem Outlines.items_succ {fuel : Nat} (ih : Outlines fuel) (item : Json) (items : List Json)
    (rest : List Char)
    (hfuel : 2 * (item.compact.length + (compactItems items).length) ≤ fuel + 1) :
    outlineItems (fuel + 1) (item.compact ++ (compactItems items ++ rest))
      = (.item item.toOutline (toItems items), some rest) := by
  cases items with
  | nil =>
      simp only [compactItems, List.length_cons] at hfuel
      rw [outlineItems, ih.value item (stops_compactItems [] rest) (by omega)]
      rfl
  | cons next items =>
      simp only [compactItems, List.length_append, List.length_cons] at hfuel
      have hnext := ih.items next items rest (by omega)
      rw [outlineItems, ih.value item (stops_compactItems _ rest) (by omega)]
      simp only [compactItems, List.append_assoc, List.cons_append,
        skipSpace_cons (by decide : isSpace ',' = false), hnext]
      rfl

theorem Outlines.members_succ {fuel : Nat} (ih : Outlines fuel) (name : String) (value : Json)
    (members : List (String × Json)) (rest : List Char)
    (hfuel : 2 * (value.compact.length + (compactMembers members).length) ≤ fuel + 1) :
    outlineMembers (fuel + 1) (name.toList.flatMap escape ++
        '"' :: ':' :: (value.compact ++ (compactMembers members ++ rest)))
      = (.member (.ok name) value.toOutline (toMembers members), some rest) := by
  rw [outlineMembers, scanString_escape]
  simp only [skipSpace_cons (by decide : isSpace ':' = false)]
  match members with
  | [] =>
      simp only [compactMembers, List.length_cons] at hfuel
      rw [ih.value value (stops_compactMembers [] rest) (by omega)]
      rfl
  | (name', value') :: members =>
      simp only [compactMembers, List.length_append, List.length_cons] at hfuel
      have hnext := ih.members name' value' members rest (by omega)
      rw [ih.value value (stops_compactMembers _ rest) (by omega)]
      simp only [compactMembers, List.append_assoc, List.cons_append, quoted_append,
        skipSpace_cons (by decide : isSpace ',' = false),
        skipSpace_cons (by decide : isSpace '"' = false), hnext]
      rfl

theorem outlines (fuel : Nat) : Outlines fuel := by
  induction fuel with
  | zero =>
      constructor
      · intro json rest _ hfuel
        have := length_compact_pos json
        omega
      · intro item items rest hfuel
        have := length_compact_pos item
        omega
      · intro name value members rest hfuel
        have := length_compact_pos value
        omega
  | succ fuel ih => exact ⟨ih.value_succ, ih.items_succ, ih.members_succ⟩

/-- The outline of the text of a value is that of the value, and nothing follows it. -/
theorem ofText_compact (json : Json) : Outline.ofText json.compact = (json.toOutline, some []) := by
  have hstops : Stops [] := trivial
  have hvalue := (outlines (2 * json.compact.length + 2)).value json hstops (by omega)
  rwa [List.append_nil] at hvalue

end StorageMarket.Json
