/-!
# Parts of a list

When whatever holds of an element of a list holds of all elements before it, those of
which it holds are the front of the list. Taking them off the front is picking them out,
and what is left is the rest.

A list whose keys never decrease is known once it is known, key by key, which elements it
holds, and in which order. So sorting by a key gives the one list in order that agrees with
what is sorted at every key.

When a list is gone through and whatever meets a condition is kept in the place of what was
kept before, the last of the elements that meet it is kept in the end.
-/

namespace StorageMarket

variable {α : Type} {p : α → Bool} {l : List α}

theorem takeWhile_eq_filter (h : l.Pairwise fun a b => p b = true → p a = true) :
    l.takeWhile p = l.filter p := by
  induction l with
  | nil => rfl
  | cons a l ih =>
      rw [List.pairwise_cons] at h
      cases ha : p a with
      | true => rw [List.takeWhile_cons_of_pos ha, List.filter_cons_of_pos ha, ih h.2]
      | false =>
          have hnone : ∀ b ∈ l, ¬ p b = true := by
            intro b hb hpb
            rw [h.1 b hb hpb] at ha
            exact Bool.noConfusion ha
          rw [List.takeWhile_cons_of_neg (by simp [ha]), List.filter_cons_of_neg (by simp [ha]),
            List.filter_eq_nil_iff.2 hnone]

theorem dropWhile_eq_filter (h : l.Pairwise fun a b => p b = true → p a = true) :
    l.dropWhile p = l.filter fun a => !p a := by
  induction l with
  | nil => rfl
  | cons a l ih =>
      rw [List.pairwise_cons] at h
      cases ha : p a with
      | true =>
          rw [List.dropWhile_cons_of_pos ha, List.filter_cons_of_neg (by simp [ha]), ih h.2]
      | false =>
          have hall : ∀ b ∈ l, (!p b) = true := by
            intro b hb
            cases hpb : p b with
            | true =>
                rw [h.1 b hb hpb] at ha
                exact Bool.noConfusion ha
            | false => rfl
          rw [List.dropWhile_cons_of_neg (by simp [ha]), List.filter_cons_of_pos (by simp [ha]),
            List.filter_eq_self.2 hall]

/-- What meets a condition is taken off the front, also after a part of it was. -/
theorem takeWhile_append_takeWhile {q : α → Bool} (h : ∀ a, p a = true → q a = true) (l : List α) :
    l.takeWhile p ++ (l.dropWhile p).takeWhile q = l.takeWhile q := by
  induction l with
  | nil => rfl
  | cons a l ih =>
      cases ha : p a with
      | true =>
          rw [List.takeWhile_cons_of_pos ha, List.dropWhile_cons_of_pos ha,
            List.takeWhile_cons_of_pos (h a ha), List.cons_append, ih]
      | false =>
          rw [List.takeWhile_cons_of_neg (by simp [ha]), List.dropWhile_cons_of_neg (by simp [ha]),
            List.nil_append]

theorem dropWhile_dropWhile {q : α → Bool} (h : ∀ a, p a = true → q a = true) (l : List α) :
    (l.dropWhile p).dropWhile q = l.dropWhile q := by
  induction l with
  | nil => rfl
  | cons a l ih =>
      cases ha : p a with
      | true => rw [List.dropWhile_cons_of_pos ha, List.dropWhile_cons_of_pos (h a ha), ih]
      | false => rw [List.dropWhile_cons_of_neg (by simp [ha])]

theorem filter_filter_of_imp {q : α → Bool} (h : ∀ a, p a = true → q a = true) (l : List α) :
    (l.filter q).filter p = l.filter p := by
  rw [List.filter_filter]
  refine List.filter_congr fun a _ => ?_
  cases hp : p a with
  | false => rfl
  | true => rw [h a hp, Bool.true_and]

/-- Two lists in the order of a key are the same if they hold the same elements at every key. -/
theorem eq_of_keys (key : α → Nat) {others : List α} (h : l.Pairwise fun a b => key a ≤ key b)
    (h' : others.Pairwise fun a b => key a ≤ key b)
    (hkeys : ∀ k, l.filter (fun a => key a = k) = others.filter fun a => key a = k) :
    l = others := by
  have hmem {a : α} : a ∈ l ↔ a ∈ others := by
    have := congrArg (a ∈ ·) (hkeys (key a))
    simpa using this
  induction l generalizing others with
  | nil =>
      cases others with
      | nil => rfl
      | cons b others => exact absurd (hmem.2 List.mem_cons_self) List.not_mem_nil
  | cons a l ih =>
      cases others with
      | nil => exact absurd (hmem.1 List.mem_cons_self) List.not_mem_nil
      | cons b others =>
          rw [List.pairwise_cons] at h h'
          -- both lists hold both heads, and each head comes first in its own list
          have hab : key a ≤ key b := by
            rcases List.mem_cons.1 (hmem.2 List.mem_cons_self) with he | hm
            · exact Nat.le_of_eq (congrArg key he.symm)
            · exact h.1 b hm
          have hba : key b ≤ key a := by
            rcases List.mem_cons.1 (hmem.1 List.mem_cons_self) with he | hm
            · exact Nat.le_of_eq (congrArg key he.symm)
            · exact h'.1 a hm
          have hkey : key b = key a := Nat.le_antisymm hba hab
          -- at their key the two heads come first, so they are the same element
          have hhead := hkeys (key a)
          rw [List.filter_cons_of_pos (by simp), List.filter_cons_of_pos (by simp [hkey]),
            List.cons_eq_cons] at hhead
          obtain ⟨rfl, htail⟩ := hhead
          have hrest : ∀ k, l.filter (fun a => key a = k)
              = others.filter fun a => key a = k := by
            intro k
            by_cases hk : key a = k
            · rw [← hk]
              exact htail
            · have := hkeys k
              rwa [List.filter_cons_of_neg (by simp [hk]),
                List.filter_cons_of_neg (by simp [hk])] at this
          have hmem' {c : α} : c ∈ l ↔ c ∈ others := by
            have := congrArg (c ∈ ·) (hrest (key c))
            simpa using this
          rw [ih h.2 h'.2 hrest hmem']

section Sorting

variable {le : α → α → Bool} {key : α → Nat} (hle : ∀ a b, le a b = true ↔ key a ≤ key b)
include hle

theorem le_trans_of_key (a b c : α) (h : le a b = true) (h' : le b c = true) : le a c = true := by
  rw [hle] at h h' ⊢
  exact Nat.le_trans h h'

theorem le_total_of_key (a b : α) : (le a b || le b a) = true := by
  rw [Bool.or_eq_true, hle, hle]
  exact Nat.le_total ..

theorem pairwise_mergeSort (l : List α) : (l.mergeSort le).Pairwise fun a b => key a ≤ key b :=
  (List.pairwise_mergeSort (le_trans_of_key hle) (le_total_of_key hle) l).imp (hle _ _).1

/-- Sorting leaves elements in their order as long as no key keeps them apart. -/
theorem filter_mergeSort (hp : ∀ a b, p a = true → p b = true → key a ≤ key b) (l : List α) :
    (l.mergeSort le).filter p = l.filter p := by
  have hsorted : (l.filter p).Pairwise (le · · = true) :=
    List.pairwise_of_forall_mem_list fun a ha b hb =>
      (hle a b).2 (hp a b (List.mem_filter.1 ha).2 (List.mem_filter.1 hb).2)
  have hsub : (l.filter p).Sublist (l.mergeSort le) :=
    List.sublist_mergeSort (le_trans_of_key hle) (le_total_of_key hle) hsorted List.filter_sublist
  have hsub' := hsub.filter p
  rw [List.filter_filter] at hsub'
  simp only [Bool.and_self] at hsub'
  have hlength := ((List.mergeSort_perm l le).filter p).length_eq
  exact (hsub'.eq_of_length_le (Nat.le_of_eq hlength)).symm

theorem filter_key_mergeSort (l : List α) (k : Nat) :
    (l.mergeSort le).filter (fun a => key a = k) = l.filter fun a => key a = k :=
  filter_mergeSort hle (fun _ _ ha hb =>
    Nat.le_of_eq ((of_decide_eq_true ha).trans (of_decide_eq_true hb).symm)) l

/-- A list in the order of a key that agrees with another one at every key is the sort of that. -/
theorem eq_mergeSort {others : List α} (h : others.Pairwise fun a b => key a ≤ key b)
    (hkeys : ∀ k, others.filter (fun a => key a = k) = l.filter fun a => key a = k) :
    others = l.mergeSort le := by
  refine eq_of_keys key h (pairwise_mergeSort hle l) fun k => ?_
  rw [filter_key_mergeSort hle, hkeys]

end Sorting

theorem foldl_ite_eq_getLast? {β : Type} (q : α → Prop) [DecidablePred q] (f : α → β) (found : β)
    (l : List α) :
    l.foldl (fun found a => if q a then f a else found) found
      = ((l.filter fun a => q a).getLast?.map f).getD found := by
  induction l generalizing found with
  | nil => rfl
  | cons a l ih =>
      rw [List.foldl_cons, ih]
      by_cases ha : q a
      · rw [if_pos ha, List.filter_cons_of_pos (by simpa using ha), List.getLast?_cons,
          Option.map_some, Option.getD_some]
        cases (l.filter fun a => q a).getLast? <;> rfl
      · rw [if_neg ha, List.filter_cons_of_neg (by simpa using ha)]

end StorageMarket
