import StorageMarket.Ledger

/-!
# Looking up deals

The deals of a ledger are a list in the order of creation, looked up by the name of
the request. As long as no name stands twice, the list is known once its names are
known in order and every look-up is (`deals_ext`). Each way to change the list is
told here by what it does to the names and to the look-ups.
-/

namespace StorageMarket.Ledger

def ids (ledger : Ledger) : List RequestId := ledger.deals.map Deal.id

theorem id_of_find? {ledger : Ledger} {x : RequestId} {deal : Deal}
    (h : ledger.find? x = some deal) : deal.id = x :=
  of_decide_eq_true (List.find?_some h :)

theorem mem_of_find? {ledger : Ledger} {x : RequestId} {deal : Deal}
    (h : ledger.find? x = some deal) : deal ∈ ledger.deals :=
  List.mem_of_find?_eq_some h

theorem find?_eq_none {ledger : Ledger} {x : RequestId} :
    ledger.find? x = none ↔ x ∉ ledger.ids := by
  rw [find?, List.find?_eq_none, ids, List.mem_map]
  constructor
  · rintro h ⟨deal, hm, hid⟩
    exact h deal hm (decide_eq_true hid)
  · intro h deal hm hid
    exact h ⟨deal, hm, of_decide_eq_true hid⟩

theorem isSome_find? {ledger : Ledger} {x : RequestId} :
    (ledger.find? x).isSome = true ↔ x ∈ ledger.ids := by
  rw [Option.isSome_iff_ne_none, ne_eq, find?_eq_none, Decidable.not_not]

theorem mem_ids_of_find? {ledger : Ledger} {x : RequestId} {deal : Deal}
    (h : ledger.find? x = some deal) : x ∈ ledger.ids :=
  isSome_find?.1 (by rw [h]; rfl)

theorem find?_of_mem {ledger : Ledger} (hn : ledger.ids.Nodup) {deal : Deal}
    (h : deal ∈ ledger.deals) : ledger.find? deal.id = some deal := by
  rw [find?]
  rw [ids] at hn
  generalize ledger.deals = deals at hn h
  induction deals with
  | nil => exact absurd h List.not_mem_nil
  | cons d rest ih =>
      rw [List.map_cons, List.nodup_cons] at hn
      rcases List.mem_cons.1 h with rfl | hm
      · rw [List.find?_cons_of_pos (by simp)]
      · have hne : d.id ≠ deal.id := by
          intro hid
          rw [hid] at hn
          exact hn.1 (List.mem_map_of_mem hm)
        rw [List.find?_cons_of_neg (by simpa using hne)]
        exact ih hn.2 hm

theorem eq_of_id_eq {ledger : Ledger} (hn : ledger.ids.Nodup) {deal other : Deal}
    (h : deal ∈ ledger.deals) (h' : other ∈ ledger.deals) (hid : deal.id = other.id) :
    deal = other := by
  have := find?_of_mem hn h
  rw [hid, find?_of_mem hn h'] at this
  exact (Option.some.inj this).symm

/-- The names in order and all look-ups tell the deals. -/
theorem deals_ext {deals others : List Deal} (hn : (deals.map Deal.id).Nodup)
    (hids : deals.map Deal.id = others.map Deal.id)
    (hfind : ∀ x ∈ deals.map Deal.id,
      deals.find? (fun d => d.id = x) = others.find? (fun d => d.id = x)) :
    deals = others := by
  induction deals generalizing others with
  | nil => exact (List.map_eq_nil_iff.1 hids.symm).symm
  | cons d rest ih =>
      cases others with
      | nil => exact absurd hids (by simp)
      | cons d' rest' =>
          rw [List.map_cons, List.map_cons, List.cons_eq_cons] at hids
          rw [List.map_cons, List.nodup_cons] at hn
          have hd : d = d' := by
            have := hfind d.id (by simp)
            rw [List.find?_cons_of_pos (by simp),
              List.find?_cons_of_pos (by simp [hids.1])] at this
            exact Option.some.inj this
          subst hd
          have htail : rest = rest' := by
            refine ih hn.2 hids.2 fun x hx => ?_
            have hne : d.id ≠ x := fun e => hn.1 (e ▸ hx)
            have := hfind x (List.mem_cons_of_mem _ hx)
            rwa [List.find?_cons_of_neg (by simpa using hne),
              List.find?_cons_of_neg (by simpa using hne)] at this
          rw [htail]

/-! ## After a deal has been put or added -/

@[simp] theorem ids_note (ledger : Ledger) (x : RequestId) : (ledger.note x).ids = ledger.ids := by
  rw [ids, deals_note, ids]

@[simp] theorem ids_put (ledger : Ledger) (deal : Deal) : (ledger.put deal).ids = ledger.ids := by
  show (ledger.deals.map _).map Deal.id = ledger.deals.map Deal.id
  rw [List.map_map]
  refine List.map_congr_left fun d _ => ?_
  show Deal.id (if d.id = deal.id then deal else d) = d.id
  split
  · next h => exact h.symm
  · rfl

@[simp] theorem ids_append (ledger : Ledger) (deal : Deal) :
    (ledger.append deal).ids = ledger.ids ++ [deal.id] :=
  List.map_append

/-- Where a change of deals keeps their names, a changed list is looked up like the old one. -/
theorem find?_map {deals : List Deal} {f : Deal → Deal} (hf : ∀ deal ∈ deals, (f deal).id = deal.id)
    (x : RequestId) :
    (deals.map f).find? (fun d => d.id = x) = (deals.find? fun d => d.id = x).map f := by
  induction deals with
  | nil => rfl
  | cons d rest ih =>
      have hd := hf d List.mem_cons_self
      have ih := ih fun deal hm => hf deal (List.mem_cons_of_mem _ hm)
      by_cases hx : d.id = x
      · rw [List.map_cons, List.find?_cons_of_pos (by simp [hd, hx]),
          List.find?_cons_of_pos (by simp [hx])]
        rfl
      · rw [List.map_cons, List.find?_cons_of_neg (by simp [hd, hx]),
          List.find?_cons_of_neg (by simp [hx]), ih]

theorem find?_put (ledger : Ledger) (deal : Deal) (x : RequestId) :
    (ledger.put deal).find? x
      = if x = deal.id then (ledger.find? x).map fun _ => deal else ledger.find? x := by
  have hids : ∀ d ∈ ledger.deals, Deal.id (if d.id = deal.id then deal else d) = d.id := by
    intro d _
    split
    · next h => exact h.symm
    · rfl
  refine (find?_map hids x).trans ?_
  rw [← find?]
  cases hf : ledger.find? x with
  | none => split <;> rfl
  | some d =>
      rw [Option.map_some, id_of_find? hf]
      split <;> rfl

theorem find?_put_of_find? {ledger : Ledger} {id : RequestId} {deal new : Deal}
    (h : ledger.find? id = some deal) (hid : new.id = id) (x : RequestId) :
    (ledger.put new).find? x = if x = id then some new else ledger.find? x := by
  rw [find?_put, hid]
  by_cases hx : x = id
  · rw [if_pos hx, if_pos hx, hx, h]
    rfl
  · rw [if_neg hx, if_neg hx]

theorem find?_append (ledger : Ledger) (deal : Deal) (x : RequestId) :
    (ledger.append deal).find? x
      = (ledger.find? x).or (if deal.id = x then some deal else none) := by
  show (ledger.deals ++ [deal]).find? _ = _
  rw [List.find?_append, find?]
  congr 1
  split
  · next h => rw [List.find?_cons_of_pos (by simp [h])]
  · next h => rw [List.find?_cons_of_neg (by simp [h]), List.find?_nil]

theorem mem_put {ledger : Ledger} {deal d : Deal} (h : deal.id ∈ ledger.ids) :
    d ∈ (ledger.put deal).deals ↔ d = deal ∨ d ∈ ledger.deals ∧ d.id ≠ deal.id := by
  show d ∈ ledger.deals.map _ ↔ _
  rw [List.mem_map]
  constructor
  · rintro ⟨d', hm, rfl⟩
    split
    · exact .inl rfl
    · next hne => exact .inr ⟨hm, hne⟩
  · rintro (rfl | ⟨hm, hne⟩)
    · obtain ⟨d', hm, hid⟩ := List.mem_map.1 h
      exact ⟨d', hm, if_pos hid⟩
    · exact ⟨d, hm, if_neg hne⟩

end StorageMarket.Ledger
