/-!
# Finite sets kept in ascending order

A finite set of keys is the list of its members, strictly ascending. Each set
has exactly one such list, so two sets with the same members are equal, and
whatever has to be done "smallest first" is done from the head of the list.

The order is the `compare` of the key type; it has to be transitive and to call
only equal keys equal.
-/

namespace StorageMarket

def Ascending {α : Type} [Ord α] (keys : List α) : Prop :=
  keys.Pairwise fun a b => compare a b = .lt

theorem Ascending.nil {α : Type} [Ord α] : Ascending ([] : List α) := List.Pairwise.nil

/-- Puts a key at its place in an ascending list; a key already there stays. -/
def insertKey {α : Type} [Ord α] (a : α) : List α → List α
  | [] => [a]
  | b :: rest =>
      match compare a b with
      | .lt => a :: b :: rest
      | .eq => b :: rest
      | .gt => b :: insertKey a rest

section Laws

variable {α : Type} [Ord α] [Std.LawfulEqOrd α]

theorem mem_insertKey {a x : α} {keys : List α} :
    x ∈ insertKey a keys ↔ x = a ∨ x ∈ keys := by
  induction keys with
  | nil => simp [insertKey]
  | cons b rest ih =>
      unfold insertKey
      split
      · simp
      · next h =>
          have hab : a = b := Std.LawfulEqOrd.compare_eq_iff_eq.1 h
          subst hab
          simp
      · simp only [List.mem_cons, ih]
        constructor
        · rintro (h | h | h)
          · exact .inr (.inl h)
          · exact .inl h
          · exact .inr (.inr h)
        · rintro (h | h | h)
          · exact .inr (.inl h)
          · exact .inl h
          · exact .inr (.inr h)

omit [Std.LawfulEqOrd α] in
theorem length_insertKey_le (a : α) (keys : List α) :
    (insertKey a keys).length ≤ keys.length + 1 := by
  induction keys with
  | nil => exact Nat.le_refl 1
  | cons b rest ih =>
      unfold insertKey
      split
      · exact Nat.le_refl _
      · exact Nat.le_succ _
      · exact Nat.succ_le_succ ih

variable [Std.TransOrd α]

theorem Ascending.insertKey {a : α} {keys : List α} (h : Ascending keys) :
    Ascending (StorageMarket.insertKey a keys) := by
  induction keys with
  | nil => simp [Ascending, StorageMarket.insertKey]
  | cons b rest ih =>
      have hb := List.pairwise_cons.1 h
      unfold StorageMarket.insertKey
      split
      · next hab =>
          refine List.pairwise_cons.2 ⟨?_, h⟩
          intro c hc
          rcases List.mem_cons.1 hc with rfl | hc
          · exact hab
          · exact Std.TransCmp.lt_trans hab (hb.1 c hc)
      · exact h
      · next hab =>
          refine List.pairwise_cons.2 ⟨?_, ih hb.2⟩
          intro c hc
          rcases mem_insertKey.1 hc with rfl | hc
          · exact Std.OrientedCmp.lt_of_gt hab
          · exact hb.1 c hc

omit [Std.LawfulEqOrd α] in
theorem Ascending.not_mem_of_forall_lt {a : α} {keys : List α}
    (h : ∀ b ∈ keys, compare a b = .lt) : a ∉ keys := by
  intro ha
  have := h a ha
  rw [Std.ReflOrd.compare_self] at this
  exact Ordering.noConfusion this

omit [Std.LawfulEqOrd α] in
/-- An ascending list is determined by its members. -/
theorem Ascending.ext {keys others : List α} (h : Ascending keys) (h' : Ascending others)
    (hmem : ∀ x, x ∈ keys ↔ x ∈ others) : keys = others := by
  induction keys generalizing others with
  | nil =>
      cases others with
      | nil => rfl
      | cons c rest => exact absurd ((hmem c).2 (List.mem_cons_self ..)) (List.not_mem_nil)
  | cons b rest ih =>
      cases others with
      | nil => exact absurd ((hmem b).1 (List.mem_cons_self ..)) (List.not_mem_nil)
      | cons c rest' =>
          have hb := List.pairwise_cons.1 h
          have hc := List.pairwise_cons.1 h'
          have hbc : b = c := by
            rcases List.mem_cons.1 ((hmem b).1 (List.mem_cons_self ..)) with hbc | hin
            · exact hbc
            · rcases List.mem_cons.1 ((hmem c).2 (List.mem_cons_self ..)) with hcb | hin'
              · exact hcb.symm
              · have h1 := hc.1 b hin
                have h2 := hb.1 c hin'
                have h3 := Std.TransCmp.lt_trans h1 h2
                rw [Std.ReflOrd.compare_self] at h3
                exact Ordering.noConfusion h3
          subst hbc
          have nb := Ascending.not_mem_of_forall_lt hb.1
          have nc := Ascending.not_mem_of_forall_lt hc.1
          have : rest = rest' := ih hb.2 hc.2 fun x => by
            have hx := hmem x
            simp only [List.mem_cons] at hx
            constructor
            · intro hin
              rcases hx.1 (.inr hin) with rfl | hin'
              · exact absurd hin nb
              · exact hin'
            · intro hin
              rcases hx.2 (.inr hin) with rfl | hin'
              · exact absurd hin nc
              · exact hin'
          rw [this]

end Laws

/-- A finite set: its members, strictly ascending. -/
structure SortedSet (α : Type) [Ord α] where
  toList : List α
  ascending : Ascending toList

namespace SortedSet

variable {α : Type} [Ord α]

instance [DecidableEq α] : DecidableEq (SortedSet α) := fun s t =>
  if h : s.toList = t.toList then
    .isTrue (by cases s; cases t; cases h; rfl)
  else
    .isFalse fun hst => h (by rw [hst])

instance : Membership α (SortedSet α) := ⟨fun s a => a ∈ s.toList⟩

def empty : SortedSet α := ⟨[], Ascending.nil⟩

instance : Inhabited (SortedSet α) := ⟨empty⟩

def size (s : SortedSet α) : Nat := s.toList.length

def isEmpty (s : SortedSet α) : Bool := s.toList.isEmpty

def contains [BEq α] (s : SortedSet α) (a : α) : Bool := s.toList.contains a

def insert [Std.TransOrd α] [Std.LawfulEqOrd α] (s : SortedSet α) (a : α) : SortedSet α :=
  ⟨insertKey a s.toList, s.ascending.insertKey⟩

def erase (s : SortedSet α) (a : α) : SortedSet α :=
  ⟨s.toList.filter fun b => compare b a != .eq, s.ascending.filter _⟩

/-! ## Members -/

@[simp] theorem not_mem_empty {x : α} : x ∉ (empty : SortedSet α) := List.not_mem_nil

theorem contains_iff [BEq α] [LawfulBEq α] {s : SortedSet α} {x : α} :
    s.contains x = true ↔ x ∈ s :=
  List.contains_iff_mem

theorem isEmpty_iff {s : SortedSet α} : s.isEmpty = true ↔ s = empty := by
  obtain ⟨keys, ascending⟩ := s
  cases keys with
  | nil => exact ⟨fun _ => rfl, fun _ => rfl⟩
  | cons a keys =>
      constructor
      · intro h
        exact nomatch h
      · intro h
        injection h with h
        exact nomatch h

/-- A set is determined by its members. -/
theorem ext [Std.TransOrd α] {s t : SortedSet α} (h : ∀ x, x ∈ s ↔ x ∈ t) : s = t := by
  cases s with
  | mk ks hs =>
      cases t with
      | mk kt ht =>
          have : ks = kt := hs.ext ht h
          subst this
          rfl

@[simp] theorem mem_insert [Std.TransOrd α] [Std.LawfulEqOrd α] {s : SortedSet α} {a x : α} :
    x ∈ s.insert a ↔ x = a ∨ x ∈ s :=
  mem_insertKey

theorem size_insert_le [Std.TransOrd α] [Std.LawfulEqOrd α] (s : SortedSet α) (a : α) :
    (s.insert a).size ≤ s.size + 1 :=
  length_insertKey_le a s.toList

@[simp] theorem mem_erase [Std.LawfulEqOrd α] {s : SortedSet α} {a x : α} :
    x ∈ s.erase a ↔ x ∈ s ∧ x ≠ a := by
  show x ∈ s.toList.filter _ ↔ _
  rw [List.mem_filter]
  refine and_congr Iff.rfl ?_
  rw [bne_iff_ne]
  exact not_congr Std.LawfulEqOrd.compare_eq_iff_eq

end SortedSet

end StorageMarket
