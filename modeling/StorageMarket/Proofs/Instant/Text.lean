import StorageMarket.Instant.Text
import StorageMarket.Proofs.Digits
import StorageMarket.Proofs.Instant.Calendar

/-!
# Written instants read back

An instant outside a leap second is read back from its exchange form. Each part of the
form is read up to the mark behind it, which is neither a blank nor a digit.
-/

namespace StorageMarket.Instant

/-! ## Numbers and marks -/

theorem skipBlank_cons {c : Char} (hc : isBlank c = false) (cs : List Char) :
    skipBlank (c :: cs) = c :: cs := by
  rw [skipBlank, List.dropWhile_cons_of_neg (by simp [hc])]

theorem isBlank_of_isDigit {c : Char} (hc : c.isDigit = true) : isBlank c = false := by
  have hbounds : 48 ≤ c.toNat ∧ c.toNat ≤ 57 := Char.isDigit_iff_toNat.1 hc
  simp only [isBlank, Bool.or_eq_false_iff, Bool.and_eq_false_iff, decide_eq_false_iff_not,
    beq_eq_false_iff_ne]
  omega

theorem skipBlank_padded (width n : Nat) (rest : List Char) :
    skipBlank (Decimal.padded width n ++ rest) = Decimal.padded width n ++ rest := by
  obtain ⟨c, ds, hds, hc⟩ := Decimal.padded_eq_cons width n
  rw [hds, List.cons_append, skipBlank_cons (isBlank_of_isDigit hc)]

/-- A number is read up to the end of its digits, if there are not too many of them. -/
theorem readNumber_padded {most width n : Nat} {rest : List Char}
    (hlength : (Decimal.padded width n).length ≤ most) (hrest : Decimal.Ended rest) :
    readNumber most (Decimal.padded width n ++ rest) = some (n, rest) := by
  have hrun : ((Decimal.padded width n ++ rest).take most).takeWhile Char.isDigit
      = Decimal.padded width n := by
    rw [List.take_append, List.take_of_length_le hlength]
    exact Decimal.takeWhile_append (fun c => Decimal.isDigit_of_mem_padded) (hrest.take _)
  obtain ⟨c, ds, hds, -⟩ := Decimal.padded_eq_cons width n
  have hne : (Decimal.padded width n).isEmpty = false := by
    rw [hds]
    rfl
  rw [readNumber, hrun]
  simp [hne]

theorem length_padded_two {n : Nat} (h : n < 100) : (Decimal.padded 2 n).length ≤ 2 := by
  refine Nat.le_of_eq (Decimal.length_padded ?_)
  exact (Nat.length_toDigits_le_iff (by decide) (by decide)).2 h

/-! ## Dates -/

theorem readYear_yearText (year : Int) {rest : List Char} (hrest : Decimal.Ended rest) :
    readYear (yearText year ++ rest) = some (year, rest) := by
  by_cases hplain : 0 ≤ year ∧ year ≤ 9999
  · have hlength : (Decimal.padded 4 year.toNat).length ≤ 4 := by
      refine Nat.le_of_eq (Decimal.length_padded ?_)
      exact (Nat.length_toDigits_le_iff (by decide) (by decide)).2 (by omega)
    obtain ⟨c, ds, hds, hc⟩ := Decimal.padded_eq_cons 4 year.toNat
    have hread := readNumber_padded hlength hrest
    rw [yearText, if_pos hplain, readYear, skipBlank_padded]
    rw [hds, List.cons_append] at hread ⊢
    simp [Decimal.ne_of_isDigit hc, hread]
    omega
  · have hread (n : Nat) : readNumber (Decimal.padded 4 n ++ rest).length
        (Decimal.padded 4 n ++ rest) = some (n, rest) := by
      refine readNumber_padded ?_ hrest
      rw [List.length_append]
      omega
    rw [yearText, if_neg hplain]
    by_cases hpositive : 0 ≤ year
    · rw [if_pos hpositive, readYear, List.cons_append, skipBlank_cons (by decide)]
      simp only [hread, Option.map_some, Int.toNat_of_nonneg hpositive]
    · rw [if_neg hpositive, readYear, List.cons_append, skipBlank_cons (by decide)]
      simp only [hread, Option.map_some, Int.toNat_of_nonneg (by omega : 0 ≤ -year), Int.neg_neg]

theorem expect_cons (c : Char) (rest : List Char) : expect c (c :: rest) = some rest := by
  rw [expect, if_pos rfl]

theorem readDate_dateText {date : Date} (h : date.Valid) {rest : List Char}
    (hrest : Decimal.Ended rest) : readDate (dateText date ++ rest) = some (date, rest) := by
  obtain ⟨hmonth, hday⟩ := h.lt_hundred
  have hmark (cs : List Char) : skipBlank ('-' :: cs) = '-' :: cs := skipBlank_cons (by decide) cs
  have hended (cs : List Char) : Decimal.Ended ('-' :: cs) := Decimal.ended_cons (by decide) cs
  simp only [readDate, dateText, List.append_assoc, List.cons_append,
    readYear_yearText _ (hended _), hmark, expect_cons, skipBlank_padded,
    readNumber_padded (length_padded_two hmonth) (hended _),
    readNumber_padded (length_padded_two hday) hrest, Option.bind_eq_bind, Option.bind_some]
  exact if_pos h

/-! ## Times -/

theorem ofDigitChars_zeros (k n : Nat) :
    Nat.ofDigitChars 10 (List.replicate k '0') n = n * Nat.pow 10 k := by
  induction k generalizing n with
  | zero => exact (Nat.mul_one n).symm
  | succ k ih =>
      rw [List.replicate_succ, Nat.ofDigitChars_cons, ih, Nat.sub_self, Nat.add_zero]
      show 10 * n * Nat.pow 10 k = n * (Nat.pow 10 k * 10)
      rw [Nat.mul_comm 10 n, Nat.mul_assoc, Nat.mul_comm 10]

theorem value_append_zeros (ds : List Char) (k : Nat) :
    Decimal.value (ds ++ List.replicate k '0') = Decimal.value ds * Nat.pow 10 k := by
  rw [Decimal.value, Nat.ofDigitChars_append, ofDigitChars_zeros, ← Decimal.value]

/-- A fraction that is exact in so many digits is read back from them. -/
theorem readFraction_padded (width : Nat) {nanos : Nat} (hpos : 0 < width) (hwidth : width ≤ 9)
    (h : nanos < 1000000000) (hexact : nanos % Nat.pow 10 (9 - width) = 0) :
    readFraction ('.' :: (Decimal.padded width (nanos / Nat.pow 10 (9 - width)) ++ ['Z']))
      = some (nanos, ['Z']) := by
  have hfew : nanos / Nat.pow 10 (9 - width) < Nat.pow 10 width := by
    have hall := Nat.pow_add 10 (9 - width) width
    rw [Nat.sub_add_cancel hwidth] at hall
    exact Nat.div_lt_of_lt_mul (hall ▸ h)
  have hlength : (Decimal.padded width (nanos / Nat.pow 10 (9 - width))).length = width :=
    Decimal.length_padded ((Nat.length_toDigits_le_iff (by decide) hpos).2 hfew)
  obtain ⟨c, ds, hds, -⟩ := Decimal.padded_eq_cons width (nanos / Nat.pow 10 (9 - width))
  have hne : (Decimal.padded width (nanos / Nat.pow 10 (9 - width))).isEmpty = false := by
    rw [hds]
    rfl
  rw [readFraction, Decimal.takeWhile_append (fun c => Decimal.isDigit_of_mem_padded)
    (Decimal.ended_cons (by decide) [])]
  simp only [hne, List.take_of_length_le (Nat.le_trans (Nat.le_of_eq hlength) hwidth), hlength,
    value_append_zeros, Decimal.value_padded, Nat.div_mul_cancel (Nat.dvd_of_mod_eq_zero hexact),
    List.drop_left' hlength]
  rfl

/-- The fraction of a second is read back, whichever number of digits it is written with. -/
theorem readFraction_fractionText {nanos : Nat} (h : nanos < 1000000000) :
    readFraction (fractionText nanos ++ ['Z']) = some (nanos, ['Z']) := by
  rw [fractionText]
  by_cases hzero : nanos = 0
  · rw [if_pos hzero, hzero]
    rfl
  rw [if_neg hzero]
  by_cases hmillis : nanos % 1000000 = 0
  · rw [if_pos hmillis]
    exact readFraction_padded 3 (by decide) (by decide) h hmillis
  rw [if_neg hmillis]
  by_cases hmicros : nanos % 1000 = 0
  · rw [if_pos hmicros]
    exact readFraction_padded 6 (by decide) (by decide) h hmicros
  · have hread := readFraction_padded 9 (by decide) (by decide) h (Nat.mod_one nanos)
    rw [show nanos / Nat.pow 10 (9 - 9) = nanos from Nat.div_one nanos] at hread
    rw [if_neg hmicros]
    exact hread

/-- Behind the digits of the seconds stands a point or the mark of universal time. -/
theorem ended_fractionText (nanos : Nat) : Decimal.Ended (fractionText nanos ++ ['Z']) := by
  rw [fractionText]
  repeat' split
  all_goals exact Decimal.ended_cons (by decide) _

theorem readTime_timeText {second nanos : Nat} (hday : second < 86400)
    (hnanos : nanos < 1000000000) :
    readTime (timeText second nanos ++ ['Z']) = some ((second, nanos), ['Z']) := by
  have hleap : nanos / 1000000000 = 0 := Nat.div_eq_of_lt hnanos
  have hmark (cs : List Char) : skipBlank (':' :: cs) = ':' :: cs := skipBlank_cons (by decide) cs
  have hended (cs : List Char) : Decimal.Ended (':' :: cs) := Decimal.ended_cons (by decide) cs
  have hhour := length_padded_two (by omega : second / 3600 < 100)
  have hminute := length_padded_two (by omega : second / 60 % 60 < 100)
  have hsecond := length_padded_two (by omega : second % 60 < 100)
  simp only [readTime, timeText, List.append_assoc, List.cons_append, hleap, Nat.add_zero,
    Nat.mod_eq_of_lt hnanos, hmark, expect_cons, skipBlank_padded,
    readNumber_padded hhour (hended _), readNumber_padded hminute (hended _),
    readNumber_padded hsecond (ended_fractionText nanos), readFraction_fractionText hnanos,
    Option.bind_eq_bind, Option.bind_some]
  have hparts : second / 3600 < 24 ∧ second / 60 % 60 < 60 ∧ second % 60 ≤ 60 := by omega
  have hsum : second / 3600 * 3600 + second / 60 % 60 * 60 + second % 60 = second := by omega
  rw [if_pos hparts, if_neg (by omega), hsum]

/-! ## Instants -/

theorem of?_self (t : Instant) : of? t.seconds t.nanos = some t := by
  rw [of?, dif_pos t.onCalendar]

/-- An instant outside a leap second is read back from its exchange form. -/
theorem ofText?_exchange {t : Instant} (h : t.Regular) : ofText? t.exchange = some t := by
  have hsecond : t.secondOfDay.toNat < 86400 := by
    simp only [secondOfDay]
    omega
  have hdate := readDate_dateText (Date.valid_ofDays (t.seconds / 86400))
    (Decimal.ended_cons (by decide : 'T'.isDigit = false)
      (timeText t.secondOfDay.toNat t.nanos ++ ['Z']))
  have hoffset : readOffset (skipBlank ['Z']) = some (0, []) := by decide
  have hseconds : t.seconds / 86400 * 86400 + t.secondOfDay.toNat = t.seconds := by
    simp only [secondOfDay]
    omega
  rw [ofText?, exchange, date, List.append_assoc, List.cons_append, hdate]
  simp only [Option.bind_eq_bind, Option.bind_some, readTime_timeText hsecond h, hoffset,
    Date.toDays_ofDays, hseconds, of?_self, Int.sub_zero]
  rw [if_neg (by decide), if_neg (by decide)]

end StorageMarket.Instant
