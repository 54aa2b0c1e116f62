/-!
# Success

What is done in steps succeeds exactly if each step does, on what the one before has
left.
-/

namespace StorageMarket

@[simp] theorem except_ok_bind {ε α β : Type} (a : α) (f : α → Except ε β) :
    (Except.ok a >>= f) = f a := rfl

theorem except_bind_eq_ok {ε α β : Type} {x : Except ε α} {f : α → Except ε β} {b : β} :
    (x >>= f) = .ok b ↔ ∃ a, x = .ok a ∧ f a = .ok b := by
  cases x with
  | error e =>
      constructor
      · intro h
        exact nomatch h
      · rintro ⟨a, h, _⟩
        exact nomatch h
  | ok a =>
      constructor
      · intro h
        exact ⟨a, rfl, h⟩
      · rintro ⟨_, ha, h⟩
        cases ha
        exact h

theorem state_bind_eq_ok {ε σ α β : Type} {x : EStateM ε σ α} {f : α → EStateM ε σ β}
    {s s' : σ} {b : β} :
    (x >>= f) s = .ok b s' ↔ ∃ a t, x s = .ok a t ∧ f a t = .ok b s' := by
  show EStateM.bind x f s = _ ↔ _
  rw [EStateM.bind]
  cases x s with
  | error e t =>
      constructor
      · intro h
        exact nomatch h
      · rintro ⟨a, t, h, _⟩
        exact nomatch h
  | ok a t =>
      constructor
      · intro h
        exact ⟨a, t, rfl, h⟩
      · rintro ⟨_, _, ha, h⟩
        cases ha
        exact h

theorem state_map_of_ok {ε σ α β : Type} {x : EStateM ε σ α} {s s' : σ} {a : α} (f : α → β)
    (h : x s = .ok a s') : (f <$> x) s = .ok (f a) s' := by
  show EStateM.map f x s = _
  rw [EStateM.map, h]

theorem mapM_cons_eq_ok {ε σ α β : Type} {f : α → EStateM ε σ β} {a : α} {l : List α} {s s' : σ}
    {results : List β} :
    (a :: l).mapM f s = .ok results s' ↔
      ∃ b t rest, f a s = .ok b t ∧ l.mapM f t = .ok rest s' ∧ results = b :: rest := by
  rw [List.mapM_cons, state_bind_eq_ok]
  constructor
  · rintro ⟨b, t, hb, h⟩
    obtain ⟨rest, t', hrest, h⟩ := state_bind_eq_ok.1 h
    cases h
    exact ⟨b, t, rest, hb, hrest, rfl⟩
  · rintro ⟨b, t, rest, hb, hrest, rfl⟩
    exact ⟨b, t, hb, state_bind_eq_ok.2 ⟨rest, s', hrest, rfl⟩⟩

end StorageMarket
