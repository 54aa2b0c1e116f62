import StorageMarket.Deadlines
import StorageMarket.Proofs.Lists

/-!
# Deadlines in order

The deadlines strung together in order (`toList`) are a strictly ascending list. What is
taken off is the front of it, and what is left is the rest; and as long as a condition
that holds of a moment holds of all earlier ones, what is taken off is just what meets
the condition.

Deadlines are tidy if no moment is kept at which nothing is to finish. Everything that is
done to deadlines keeps them so, and tidy deadlines are determined by their members.
-/

namespace StorageMarket.Deadlines

def ofMoment (moment : Instant × SortedSet RequestId) : List Deadline :=
  moment.2.toList.map fun request => ⟨moment.1, request⟩

def toList (deadlines : Deadlines) : List Deadline :=
  deadlines.moments.entries.flatMap ofMoment

theorem mem_ofMoment {moment : Instant × SortedSet RequestId} {d : Deadline} :
    d ∈ ofMoment moment ↔ d.time = moment.1 ∧ d.request ∈ moment.2 := by
  rw [ofMoment, List.mem_map]
  constructor
  · rintro ⟨request, hm, rfl⟩
    exact ⟨rfl, hm⟩
  · rintro ⟨ht, hm⟩
    exact ⟨d.request, hm, by rw [← ht]⟩

theorem mem_toList {deadlines : Deadlines} {d : Deadline} :
    d ∈ deadlines.toList ↔ d ∈ deadlines := by
  rw [toList, List.mem_flatMap, mem_def, requestsAt]
  constructor
  · rintro ⟨⟨time, requests⟩, hm, hd⟩
    obtain ⟨ht, hr⟩ := mem_ofMoment.1 hd
    rw [SortedMap.get?_eq_some_iff.2 (ht ▸ hm : (d.time, requests) ∈ deadlines.moments.entries)]
    exact hr
  · intro hd
    cases hmoment : deadlines.moments.get? d.time with
    | none =>
        rw [hmoment] at hd
        exact absurd hd SortedSet.not_mem_empty
    | some requests =>
        rw [hmoment] at hd
        exact ⟨(d.time, requests), SortedMap.get?_eq_some_iff.1 hmoment, mem_ofMoment.2 ⟨rfl, hd⟩⟩

theorem compare_eq_lt {d e : Deadline} :
    compare d e = .lt ↔
      d.time < e.time ∨ d.time = e.time ∧ compare d.request e.request = .lt := by
  show (compare d.time e.time).then (compare d.request e.request) = .lt ↔ _
  rw [Ordering.then_eq_lt, Instant.compare_eq_lt, Std.LawfulEqOrd.compare_eq_iff_eq]

theorem ascending_ofMoment (moment : Instant × SortedSet RequestId) :
    Ascending (ofMoment moment) := by
  refine List.pairwise_map.2 (moment.2.ascending.imp fun {x y} hlt => ?_)
  exact compare_eq_lt.2 (.inr ⟨rfl, hlt⟩)

theorem ascending_toList (deadlines : Deadlines) : Ascending deadlines.toList := by
  refine List.pairwise_flatMap.2 ⟨fun moment _ => ascending_ofMoment moment, ?_⟩
  refine (List.pairwise_map.1 deadlines.moments.ascending).imp fun {a b} hlt => ?_
  intro d hd e he
  refine compare_eq_lt.2 (.inl (Instant.compare_eq_lt.1 ?_))
  rw [(mem_ofMoment.1 hd).1, (mem_ofMoment.1 he).1]
  exact hlt

theorem nodup_toList (deadlines : Deadlines) : deadlines.toList.Nodup :=
  deadlines.ascending_toList.imp fun {a b} hab he => by
    rw [he, Std.ReflOrd.compare_self] at hab
    exact Ordering.noConfusion hab

theorem length_toList (deadlines : Deadlines) : deadlines.toList.length = deadlines.size := by
  rw [toList, size]
  induction deadlines.moments.entries with
  | nil => rfl
  | cons moment moments ih =>
      rw [List.flatMap_cons, List.length_append, ih, ofMoment, List.length_map, List.foldr_cons,
        SortedSet.size]

/-! ## Taking deadlines off -/

/-- The deadlines that are taken off the front while a condition on the moment holds. -/
def taken (deadlines : Deadlines) (due : Instant → Bool) : List Deadline :=
  (deadlines.moments.popWhile due).1.flatMap ofMoment

theorem taken_append (deadlines : Deadlines) (due : Instant → Bool) :
    deadlines.taken due ++ (deadlines.popWhile due).2.toList = deadlines.toList := by
  show (deadlines.moments.entries.takeWhile _).flatMap ofMoment
    ++ (deadlines.moments.entries.dropWhile _).flatMap ofMoment = _
  rw [← List.flatMap_append, List.takeWhile_append_dropWhile, toList]

theorem popWhile_fst (deadlines : Deadlines) (due : Instant → Bool) :
    (deadlines.popWhile due).1 = (deadlines.taken due).map Deadline.request := by
  rw [taken, List.map_flatMap]
  show List.flatMap _ _ = List.flatMap _ _
  refine congrArg (fun f => List.flatMap f _) (funext fun moment => ?_)
  rw [ofMoment, List.map_map]
  exact (List.map_id _).symm

theorem mem_popWhile_fst {deadlines : Deadlines} {due : Instant → Bool} {x : RequestId} :
    x ∈ (deadlines.popWhile due).1 ↔ ∃ d ∈ deadlines.taken due, d.request = x := by
  rw [popWhile_fst, List.mem_map]

theorem mem_of_mem_taken {deadlines : Deadlines} {due : Instant → Bool} {d : Deadline}
    (h : d ∈ deadlines.taken due) : d ∈ deadlines := by
  rw [← mem_toList, ← deadlines.taken_append due]
  exact List.mem_append_left _ h

theorem mem_popWhile_snd {deadlines : Deadlines} {due : Instant → Bool} {d : Deadline} :
    d ∈ (deadlines.popWhile due).2 ↔ d ∈ deadlines ∧ d ∉ deadlines.taken due := by
  have hsplit := deadlines.taken_append due
  have hdisjoint := List.nodup_append.1 (hsplit ▸ deadlines.nodup_toList)
  rw [← mem_toList, ← mem_toList]
  constructor
  · intro hd
    refine ⟨hsplit ▸ List.mem_append_right _ hd, fun ht => ?_⟩
    exact hdisjoint.2.2 d ht d hd rfl
  · rintro ⟨hd, ht⟩
    rw [← hsplit] at hd
    exact (List.mem_append.1 hd).resolve_left ht

theorem ascending_taken (deadlines : Deadlines) (due : Instant → Bool) :
    Ascending (deadlines.taken due) :=
  (List.pairwise_append.1 (deadlines.taken_append due ▸ deadlines.ascending_toList)).1

theorem nodup_taken (deadlines : Deadlines) (due : Instant → Bool) :
    (deadlines.taken due).Nodup :=
  (List.nodup_append.1 (deadlines.taken_append due ▸ deadlines.nodup_toList)).1

/-- What is taken off is what meets the condition, if it holds of all earlier moments too. -/
theorem mem_taken {deadlines : Deadlines} {due : Instant → Bool}
    (hdue : ∀ t u, t < u → due u = true → due t = true) {d : Deadline} :
    d ∈ deadlines.taken due ↔ d ∈ deadlines ∧ due d.time = true := by
  have hfront : deadlines.moments.entries.takeWhile (fun moment => due moment.1)
      = deadlines.moments.entries.filter fun moment => due moment.1 :=
    takeWhile_eq_filter <| (List.pairwise_map.1 deadlines.moments.ascending).imp
      fun {a b} hlt => hdue a.1 b.1 (Instant.compare_eq_lt.1 hlt)
  show d ∈ (deadlines.moments.entries.takeWhile _).flatMap ofMoment ↔ _
  rw [hfront, ← mem_toList, toList, List.mem_flatMap, List.mem_flatMap]
  constructor
  · rintro ⟨moment, hm, hd⟩
    obtain ⟨hm, hmoment⟩ := List.mem_filter.1 hm
    exact ⟨⟨moment, hm, hd⟩, (mem_ofMoment.1 hd).1 ▸ hmoment⟩
  · rintro ⟨⟨moment, hm, hd⟩, hmoment⟩
    exact ⟨moment, List.mem_filter.2 ⟨hm, (mem_ofMoment.1 hd).1 ▸ hmoment⟩, hd⟩

theorem le_closed (now t u : Instant) (hlt : t < u) (h : decide (u ≤ now) = true) :
    decide (t ≤ now) = true := by
  rw [decide_eq_true_iff] at h ⊢
  exact Int.le_of_lt (Int.lt_of_lt_of_le hlt h)

theorem lt_closed (now t u : Instant) (hlt : t < u) (h : decide (u < now) = true) :
    decide (t < now) = true := by
  rw [decide_eq_true_iff] at h ⊢
  exact Int.lt_trans hlt h

/-- What is due may be taken off in two goes, some of it early. -/
theorem popWhile_popWhile {early due : Instant → Bool} (h : ∀ t, early t = true → due t = true)
    (deadlines : Deadlines) :
    deadlines.popWhile due
      = ((deadlines.popWhile early).1 ++ ((deadlines.popWhile early).2.popWhile due).1,
        ((deadlines.popWhile early).2.popWhile due).2) := by
  have himp (moment : Instant × SortedSet RequestId) :
      early moment.1 = true → due moment.1 = true := h moment.1
  have htaken := takeWhile_append_takeWhile himp deadlines.moments.entries
  have hleft := dropWhile_dropWhile himp deadlines.moments.entries
  simp only [popWhile, SortedMap.popWhile, ← htaken, hleft, List.flatMap_append]

/-! ## Tidy deadlines -/

/-- No moment is kept at which nothing is to finish. -/
def Tidy (deadlines : Deadlines) : Prop :=
  ∀ moment ∈ deadlines.moments.entries, moment.2 ≠ .empty

theorem tidy_empty : Tidy empty := fun _ h => absurd h List.not_mem_nil

theorem tidy_iff {deadlines : Deadlines} :
    deadlines.Tidy ↔ ∀ time requests, deadlines.moments.get? time = some requests →
      requests ≠ .empty := by
  constructor
  · intro h time requests hmoment
    exact h (time, requests) (SortedMap.get?_eq_some_iff.1 hmoment)
  · rintro h ⟨time, requests⟩ hm
    exact h time requests (SortedMap.get?_eq_some_iff.2 hm)

theorem insert_ne_empty (requests : SortedSet RequestId) (request : RequestId) :
    requests.insert request ≠ .empty := by
  intro h
  have hm : request ∈ requests.insert request := SortedSet.mem_insert.2 (.inl rfl)
  rw [h] at hm
  exact SortedSet.not_mem_empty hm

theorem Tidy.schedule {deadlines : Deadlines} (h : deadlines.Tidy) (time : Instant)
    (request : RequestId) : (deadlines.schedule time request).Tidy := by
  refine tidy_iff.2 fun t requests hmoment => ?_
  rw [Deadlines.schedule, SortedMap.get?_insert] at hmoment
  split at hmoment
  · cases hmoment
    exact insert_ne_empty _ _
  · exact tidy_iff.1 h t requests hmoment

theorem Tidy.cancel {deadlines : Deadlines} (h : deadlines.Tidy) (time : Instant)
    (request : RequestId) : (deadlines.cancel time request).Tidy := by
  rw [Deadlines.cancel]
  split
  · exact h
  · dsimp only
    split
    · refine tidy_iff.2 fun t requests hmoment => ?_
      rw [SortedMap.get?_erase] at hmoment
      split at hmoment
      · cases hmoment
      · exact tidy_iff.1 h t requests hmoment
    · next hleft =>
        refine tidy_iff.2 fun t requests hmoment => ?_
        rw [SortedMap.get?_insert] at hmoment
        split at hmoment
        · cases hmoment
          exact fun hempty => hleft (SortedSet.isEmpty_iff.2 hempty)
        · exact tidy_iff.1 h t requests hmoment

theorem Tidy.popWhile {deadlines : Deadlines} (h : deadlines.Tidy) (due : Instant → Bool) :
    (deadlines.popWhile due).2.Tidy :=
  fun moment hm => h moment ((List.dropWhile_sublist _).subset hm)

theorem Tidy.ext {deadlines others : Deadlines} (h : deadlines.Tidy) (h' : others.Tidy)
    (hmem : ∀ d, d ∈ deadlines ↔ d ∈ others) : deadlines = others := by
  have hrequests (time : Instant) : deadlines.requestsAt time = others.requestsAt time :=
    SortedSet.ext fun x => hmem ⟨time, x⟩
  obtain ⟨moments⟩ := deadlines
  obtain ⟨moments'⟩ := others
  refine congrArg Deadlines.mk (SortedMap.ext fun time => ?_)
  have hsame := hrequests time
  simp only [requestsAt] at hsame
  -- where only one of them has a moment, nothing would be left to finish at it
  cases hm : moments.get? time with
  | none =>
      cases hm' : moments'.get? time with
      | none => rfl
      | some requests =>
          rw [hm, hm'] at hsame
          exact absurd hsame.symm (tidy_iff.1 h' time requests hm')
  | some requests =>
      cases hm' : moments'.get? time with
      | none =>
          rw [hm, hm'] at hsame
          exact absurd hsame (tidy_iff.1 h time requests hm)
      | some others =>
          rw [hm, hm'] at hsame
          exact congrArg some hsame

end StorageMarket.Deadlines
