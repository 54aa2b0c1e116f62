import StorageMarket.Decimal

/-!
# Runs of digits

What stands in front of a text that does not go on with a digit, and what a number
written there is read as.
-/

namespace StorageMarket.Decimal

theorem ne_of_isDigit {c d : Char} (hc : c.isDigit = true) (hd : d.isDigit = false) : c ≠ d := by
  rintro rfl
  rw [hc] at hd
  cases hd

/-! ## The first digit -/

theorem digits_eq_cons (n : Nat) : ∃ c ds, digits n = c :: ds ∧ c.isDigit = true := by
  cases hds : digits n with
  | nil => exact absurd hds (digits_ne_nil n)
  | cons c ds => exact ⟨c, ds, rfl, isDigit_of_mem_digits (hds ▸ List.mem_cons_self)⟩

/-- Only the number 0 is written with a leading zero. -/
theorem digits_eq_zero_cons {n : Nat} {ds : List Char} (h : digits n = '0' :: ds) : ds = [] := by
  induction n using Nat.strongRecOn generalizing ds with
  | ind n ih =>
      rw [digits, Nat.toDigits_eq_if (by decide)] at h
      by_cases hn : n < 10
      · rw [if_pos hn] at h
        exact (List.cons.inj h).2.symm
      · rw [if_neg hn] at h
        -- what is left of the number without its last digit starts with a zero, so it is 0
        obtain ⟨d, front, hfront, -⟩ := digits_eq_cons (n / 10)
        have hd : d = '0' := by
          rw [← digits, hfront] at h
          exact (List.cons.inj h).1
        subst hd
        have hzero : n / 10 = 0 := by
          rw [← value_digits (n / 10), hfront, ih (n / 10) (by omega) hfront]
          rfl
        omega

theorem padded_eq_cons (width n : Nat) : ∃ c ds, padded width n = c :: ds ∧ c.isDigit = true := by
  cases hds : padded width n with
  | nil =>
      rw [padded, List.append_eq_nil_iff] at hds
      exact absurd hds.2 (digits_ne_nil n)
  | cons c ds => exact ⟨c, ds, rfl, isDigit_of_mem_padded (hds ▸ List.mem_cons_self)⟩

/-! ## The end of a run -/

/-- The text does not go on with a digit. -/
def Ended (rest : List Char) : Prop := ∀ c cs, rest = c :: cs → c.isDigit = false

theorem ended_cons {c : Char} (hc : c.isDigit = false) (cs : List Char) : Ended (c :: cs) := by
  intro c' cs' h
  cases h
  exact hc

theorem Ended.take {rest : List Char} (h : Ended rest) (n : Nat) : Ended (rest.take n) := by
  intro c cs htake
  cases rest with
  | nil =>
      rw [List.take_nil] at htake
      cases htake
  | cons d ds =>
      cases n with
      | zero => cases htake
      | succ n =>
          cases htake
          exact h c ds rfl

theorem takeWhile_append {ds rest : List Char} (hds : ∀ c ∈ ds, c.isDigit = true)
    (hrest : Ended rest) : (ds ++ rest).takeWhile Char.isDigit = ds := by
  rw [List.takeWhile_append_of_pos hds]
  cases rest with
  | nil => exact List.append_nil ds
  | cons c cs => rw [List.takeWhile_cons_of_neg (by simp [hrest c cs rfl]), List.append_nil]

theorem dropWhile_append {ds rest : List Char} (hds : ∀ c ∈ ds, c.isDigit = true)
    (hrest : Ended rest) : (ds ++ rest).dropWhile Char.isDigit = rest := by
  rw [List.dropWhile_append_of_pos hds]
  cases rest with
  | nil => rfl
  | cons c cs => rw [List.dropWhile_cons_of_neg (by simp [hrest c cs rfl])]

/-! ## Reading whole texts -/

theorem ofDigitChars_le (ds : List Char) (n : Nat) : n ≤ Nat.ofDigitChars 10 ds n := by
  induction ds generalizing n with
  | nil => exact Nat.le_refl n
  | cons c ds ih =>
      rw [Nat.ofDigitChars_cons]
      exact Nat.le_trans (by omega) (ih _)

theorem readOn_digits {bound : Nat} {ds : List Char} (hds : ∀ c ∈ ds, c.isDigit = true)
    (n : Fin bound) (h : Nat.ofDigitChars 10 ds n < bound) :
    readOn n ds = .ok ⟨Nat.ofDigitChars 10 ds n, h⟩ := by
  induction ds generalizing n with
  | nil => rfl
  | cons c ds ih =>
      have hnext : n.val * 10 + (c.toNat - '0'.toNat) < bound := by
        rw [Nat.ofDigitChars_cons, Nat.mul_comm] at h
        exact Nat.lt_of_le_of_lt (ofDigitChars_le ds _) h
      rw [readOn, if_pos (hds c List.mem_cons_self), dif_pos hnext,
        ih (fun d hd => hds d (List.mem_cons_of_mem c hd))]
      · simp only [Nat.ofDigitChars_cons, Nat.mul_comm]
      · simpa only [Nat.ofDigitChars_cons, Nat.mul_comm] using h

theorem read_digits {bound : Nat} (positive : 0 < bound) (n : Fin bound) :
    read bound positive (digits n) = .ok n := by
  obtain ⟨c, ds, hds, hc⟩ := digits_eq_cons n
  have hvalue : Nat.ofDigitChars 10 (digits n) 0 = n := value_digits n
  have hplus : c ≠ '+' := ne_of_isDigit hc rfl
  have hread : read bound positive (digits n) = readOn ⟨0, positive⟩ (digits n) := by
    rw [hds]
    simp [read, hplus]
  have hlt : Nat.ofDigitChars 10 (digits n) 0 < bound := by rw [hvalue]; exact n.isLt
  rw [hread, readOn_digits (fun c => isDigit_of_mem_digits) ⟨0, positive⟩ hlt]
  simp only [hvalue]

end StorageMarket.Decimal
