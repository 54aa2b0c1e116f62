import StorageMarket.Proofs.Observer.Panels

/-!
# Observers that stay up

An observer without anybody to watch over it takes all that it is told as long as it does not
go down. A panel never does, whatever its members do, and a listener does not unless it crashes.
Then each listener, from the first to the last, has been called back for just these notices, in
their order.
-/

namespace StorageMarket.Observer

/-- An observer that stays up whatever it is told. -/
def Steady : Observer → Prop
  | .listener _ react _ => ∀ told notice, react told notice ≠ .crashed
  | .panel _ => True

/-- An observer that can follow a run from its beginning. -/
structure Ready (observer : Observer) : Prop where
  steady : observer.Steady
  untold : ∀ listener ∈ observer.listeners, listener.told = []

variable {observer : Observer}

theorem Steady.isDown_eq_false (h : observer.Steady) : observer.isDown = false := by
  cases observer with
  | listener name react told =>
      cases told with
      | nil => rfl
      | cons latest earlier => exact decide_eq_false (h earlier latest)
  | panel members => rfl

theorem Steady.tell (h : observer.Steady) (notice : Notice) :
    (observer.tell notice).after.Steady := by
  cases observer with
  | listener name react told =>
      rw [tell_listener]
      exact h
  | panel members =>
      rw [tell_panel]
      trivial

theorem Steady.inform_eq (h : observer.Steady) (notices : List Notice) :
    observer.inform notices = (observer.tellAll notices).1 := by
  induction notices generalizing observer with
  | nil => rfl
  | cons notice notices ih =>
      rw [inform, h.isDown_eq_false, if_neg Bool.false_ne_true]
      exact ih (h.tell notice)

theorem Steady.told_inform (h : observer.Steady) (notices : List Notice) :
    (observer.inform notices).listeners.map told
      = observer.listeners.map fun listener => listener.told ++ notices := by
  rw [h.inform_eq, told_listeners_tellAll]

theorem Steady.names_inform (h : observer.Steady) (notices : List Notice) :
    (observer.inform notices).listeners.map name = observer.listeners.map name := by
  rw [h.inform_eq, listeners_tellAll, List.map_map]
  exact List.map_congr_left fun listener _ => listener.name_tellAll notices

theorem Ready.told_inform (h : observer.Ready) {notices : List Notice} {listener : Observer}
    (hm : listener ∈ (observer.inform notices).listeners) : listener.told = notices := by
  have htold : listener.told ∈ observer.listeners.map fun listener => listener.told ++ notices := by
    rw [← h.steady.told_inform]
    exact List.mem_map_of_mem hm
  obtain ⟨before, hbefore, heq⟩ := List.mem_map.1 htold
  rw [← heq, h.untold before hbefore, List.nil_append]

end StorageMarket.Observer
