import StorageMarket.Sorted.Set

/-!
# Finite maps kept in key order

A finite map is the list of its entries, the keys strictly ascending. As with
`SortedSet`, a map has exactly one such list.
-/

namespace StorageMarket

/-- Puts an entry at the place of its key in an ascending list, in the place of the entry that
has the key already, if there is one. -/
def insertEntry {κ ν : Type} [Ord κ] (k : κ) (v : ν) : List (κ × ν) → List (κ × ν)
  | [] => [(k, v)]
  | (k', v') :: rest =>
      match compare k k' with
      | .lt => (k, v) :: (k', v') :: rest
      | .eq => (k, v) :: rest
      | .gt => (k', v') :: insertEntry k v rest

/-- The keys of the entries are those of a set insertion. -/
theorem map_fst_insertEntry {κ ν : Type} [Ord κ] [Std.LawfulEqOrd κ] {k : κ} {v : ν}
    {entries : List (κ × ν)} :
    (insertEntry k v entries).map Prod.fst = insertKey k (entries.map Prod.fst) := by
  induction entries with
  | nil => rfl
  | cons e rest ih =>
      obtain ⟨k', v'⟩ := e
      simp only [insertEntry, List.map_cons, insertKey]
      cases h : compare k k' with
      | lt => rfl
      | eq =>
          have : k = k' := Std.LawfulEqOrd.compare_eq_iff_eq.1 h
          simp [this]
      | gt => simp [ih]

/-- A finite map: its entries, the keys strictly ascending. -/
structure SortedMap (κ ν : Type) [Ord κ] where
  entries : List (κ × ν)
  ascending : Ascending (entries.map Prod.fst)

namespace SortedMap

variable {κ ν : Type} [Ord κ]

instance [DecidableEq κ] [DecidableEq ν] : DecidableEq (SortedMap κ ν) := fun s t =>
  if h : s.entries = t.entries then
    .isTrue (by cases s; cases t; cases h; rfl)
  else
    .isFalse fun hst => h (by rw [hst])

def empty : SortedMap κ ν where
  entries := []
  ascending := Ascending.nil

instance : Inhabited (SortedMap κ ν) := ⟨empty⟩

def keys (m : SortedMap κ ν) : List κ := m.entries.map Prod.fst

def size (m : SortedMap κ ν) : Nat := m.entries.length

def get? [DecidableEq κ] (m : SortedMap κ ν) (k : κ) : Option ν := m.entries.lookup k

def insert [Std.TransOrd κ] [Std.LawfulEqOrd κ] (m : SortedMap κ ν) (k : κ) (v : ν) :
    SortedMap κ ν :=
  ⟨insertEntry k v m.entries, by
    rw [map_fst_insertEntry]
    exact m.ascending.insertKey⟩

def erase (m : SortedMap κ ν) (k : κ) : SortedMap κ ν :=
  ⟨m.entries.filter fun e => compare e.1 k != .eq,
    m.ascending.sublist (List.filter_sublist.map _)⟩

/-- Takes the entries with the smallest keys off as long as a condition holds of the key: the ones
taken, and the map that is left. -/
def popWhile (m : SortedMap κ ν) (due : κ → Bool) : List (κ × ν) × SortedMap κ ν :=
  (m.entries.takeWhile fun e => due e.1,
    ⟨m.entries.dropWhile fun e => due e.1,
      m.ascending.sublist ((List.dropWhile_sublist _).map _)⟩)

/-! ## Keys and values -/

omit [Ord κ] in
theorem lookup_cons_eq [DecidableEq κ] {k x : κ} {v : ν} {entries : List (κ × ν)} :
    ((k, v) :: entries).lookup x = if x = k then some v else entries.lookup x := by
  rw [List.lookup_cons]
  by_cases h : x = k
  · simp [h]
  · simp [h, beq_eq_false_iff_ne.2 h]

theorem lookup_insertEntry [DecidableEq κ] [Std.LawfulEqOrd κ] {k x : κ} {v : ν}
    {entries : List (κ × ν)} :
    (insertEntry k v entries).lookup x = if x = k then some v else entries.lookup x := by
  induction entries with
  | nil => simp only [insertEntry, lookup_cons_eq]
  | cons e rest ih =>
      obtain ⟨k', v'⟩ := e
      unfold insertEntry
      split
      · simp only [lookup_cons_eq]
      · next h =>
          have hk : k = k' := Std.LawfulEqOrd.compare_eq_iff_eq.1 h
          subst hk
          simp only [lookup_cons_eq]
          by_cases hx : x = k <;> simp [hx]
      · next h =>
          have hk : k' ≠ k := fun hk => by
            rw [hk, Std.LawfulEqOrd.compare_eq_iff_eq.2 rfl] at h
            exact Ordering.noConfusion h
          simp only [lookup_cons_eq, ih]
          by_cases hx : x = k'
          · subst hx
            simp [hk]
          · simp [hx]

/-- Insertion sets the value of its key and of no other. -/
theorem get?_insert [DecidableEq κ] [Std.TransOrd κ] [Std.LawfulEqOrd κ]
    {m : SortedMap κ ν} {k x : κ} {v : ν} :
    (m.insert k v).get? x = if x = k then some v else m.get? x :=
  lookup_insertEntry

theorem lookup_filter_compare_ne [DecidableEq κ] [Std.LawfulEqOrd κ] {k x : κ}
    {entries : List (κ × ν)} :
    (entries.filter fun e => compare e.1 k != .eq).lookup x
      = if x = k then none else entries.lookup x := by
  induction entries with
  | nil => simp
  | cons e rest ih =>
      obtain ⟨k', v'⟩ := e
      by_cases hk : k' = k
      · subst hk
        rw [List.filter_cons_of_neg (by simp), ih,
          lookup_cons_eq]
        by_cases hx : x = k' <;> simp [hx]
      · rw [List.filter_cons_of_pos
          (by simpa using fun h => hk (Std.LawfulEqOrd.compare_eq_iff_eq.1 h)),
          lookup_cons_eq, lookup_cons_eq, ih]
        by_cases hx : x = k'
        · subst hx
          simp [hk]
        · simp [hx]

/-- Erasure takes the value of its key and of no other. -/
theorem get?_erase [DecidableEq κ] [Std.LawfulEqOrd κ] {m : SortedMap κ ν} {k x : κ} :
    (m.erase k).get? x = if x = k then none else m.get? x :=
  lookup_filter_compare_ne

/-! ## Entries and values -/

section

variable [DecidableEq κ] [Std.TransOrd κ]

omit [Ord κ] [Std.TransOrd κ] in
theorem mem_of_lookup_eq_some {entries : List (κ × ν)} {k : κ} {v : ν}
    (h : entries.lookup k = some v) : (k, v) ∈ entries := by
  induction entries with
  | nil => exact nomatch h
  | cons e rest ih =>
      rw [lookup_cons_eq] at h
      split at h
      · next hk =>
          cases h
          subst hk
          exact List.mem_cons_self
      · exact List.mem_cons_of_mem _ (ih h)

theorem get?_eq_some_iff {m : SortedMap κ ν} {k : κ} {v : ν} :
    m.get? k = some v ↔ (k, v) ∈ m.entries := by
  refine ⟨mem_of_lookup_eq_some, fun hm => ?_⟩
  obtain ⟨entries, ascending⟩ := m
  show entries.lookup k = some v
  induction entries with
  | nil => exact absurd hm List.not_mem_nil
  | cons e rest ih =>
      rw [List.map_cons, Ascending, List.pairwise_cons] at ascending
      rw [lookup_cons_eq]
      rcases List.mem_cons.1 hm with rfl | hm
      · rw [if_pos rfl]
      · -- the key stands in a later entry, so it is not that of the first
        have hne : k ≠ e.1 := fun hk =>
          Ascending.not_mem_of_forall_lt ascending.1 (hk ▸ List.mem_map_of_mem (f := Prod.fst) hm)
        rw [if_neg hne]
        exact ih ascending.2 hm

theorem mem_keys_iff {m : SortedMap κ ν} {k : κ} : k ∈ m.keys ↔ (m.get? k).isSome = true := by
  rw [Option.isSome_iff_exists]
  constructor
  · intro h
    obtain ⟨e, he, rfl⟩ := List.mem_map.1 h
    exact ⟨e.2, get?_eq_some_iff.2 he⟩
  · rintro ⟨v, hv⟩
    exact List.mem_map.2 ⟨(k, v), get?_eq_some_iff.1 hv, rfl⟩

/-- The entries are told by the keys and their values. -/
theorem map_some_entries (m : SortedMap κ ν) :
    m.entries.map some = m.keys.map fun k => (m.get? k).map fun v => (k, v) := by
  rw [keys, List.map_map]
  refine List.map_congr_left fun e he => ?_
  show _ = (m.get? e.1).map _
  rw [get?_eq_some_iff.2 he]
  rfl

/-- A map is determined by its values. -/
theorem ext {m m' : SortedMap κ ν} (h : ∀ k, m.get? k = m'.get? k) : m = m' := by
  have hkeys : m.keys = m'.keys := m.ascending.ext m'.ascending fun k => by
    show k ∈ m.keys ↔ k ∈ m'.keys
    rw [mem_keys_iff, mem_keys_iff, h]
  have hentries : m.entries.map some = m'.entries.map some := by
    rw [map_some_entries, map_some_entries, hkeys]
    simp only [h]
  rw [List.map_inj_right fun _ _ => Option.some.inj] at hentries
  cases m
  cases m'
  cases hentries
  rfl

end

end SortedMap

end StorageMarket
