import StorageMarket.Observer

/-!
# Panels pass on everything

However panels are nested, telling the outermost one comes to telling its listeners, from
the first to the last: each is called back for each notice once, in the way that belongs
to the notice and with all that was said. Every panel, inner ones included, ends up with
its members as they would be had they been told the notices on their own, and has counted
for each how often it failed.

The step is one notice and the recursion is on the tree; then a run of notices is by
induction on the run.
-/

namespace StorageMarket

mutual

/-- The panels that an observer consists of, an outer one before those in it. -/
def Observer.panels : Observer → List Panel
  | .listener .. => []
  | .panel members => members :: members.inner

def Panel.inner : Panel → List Panel
  | .empty => []
  | .member observer _ rest => observer.panels ++ rest.inner

end

/-- How often an observer fails or crashes when it is told notices one after the other. -/
def Observer.mishaps (observer : Observer) : List Notice → Nat
  | [] => 0
  | notice :: notices =>
      (if (observer.tell notice).reaction = .done then 0 else 1)
        + (observer.tell notice).after.mishaps notices

/-! ## One notice -/

theorem Panel.fanOut_member (observer : Observer) (failures : Nat) (rest : Panel)
    (notice : Notice) :
    (Panel.member observer failures rest).fanOut notice
      = ⟨.member (observer.tell notice).after
          (if (observer.tell notice).reaction = .done then failures else failures + 1)
          (rest.fanOut notice).after, .done,
        (observer.tell notice).deliveries ++ (rest.fanOut notice).deliveries⟩ := by
  rw [Panel.fanOut]
  rfl

mutual

theorem Observer.deliveries_tell (notice : Notice) : (observer : Observer) →
    (observer.tell notice).deliveries
      = observer.listeners.map fun listener => ⟨listener.name, notice⟩
  | .listener name react told => by
      rw [Observer.tell_listener]
      rfl
  | .panel members => by
      rw [Observer.tell_panel]
      exact members.deliveries_fanOut notice

theorem Panel.deliveries_fanOut (notice : Notice) : (panel : Panel) →
    (panel.fanOut notice).deliveries
      = panel.listeners.map fun listener => ⟨listener.name, notice⟩
  | .empty => rfl
  | .member observer failures rest => by
      rw [Panel.fanOut_member, Panel.listeners, List.map_append, ← observer.deliveries_tell notice,
        ← rest.deliveries_fanOut notice]

end

mutual

theorem Observer.listeners_tell (notice : Notice) : (observer : Observer) →
    (observer.tell notice).after.listeners
      = observer.listeners.map fun listener => (listener.tell notice).after
  | .listener name react told => by
      rw [Observer.listeners, List.map_singleton, Observer.tell_listener]
      rfl
  | .panel members => by
      rw [Observer.tell_panel]
      exact members.listeners_fanOut notice

theorem Panel.listeners_fanOut (notice : Notice) : (panel : Panel) →
    (panel.fanOut notice).after.listeners
      = panel.listeners.map fun listener => (listener.tell notice).after
  | .empty => rfl
  | .member observer failures rest => by
      rw [Panel.fanOut_member, Panel.listeners, Panel.listeners, List.map_append,
        observer.listeners_tell notice, rest.listeners_fanOut notice]

end

mutual

theorem Observer.panels_tell (notice : Notice) : (observer : Observer) →
    (observer.tell notice).after.panels
      = observer.panels.map fun panel => (panel.fanOut notice).after
  | .listener name react told => by
      rw [Observer.tell_listener]
      rfl
  | .panel members => by
      rw [Observer.tell_panel, Observer.panels, Observer.panels, List.map_cons,
        members.inner_fanOut notice]

theorem Panel.inner_fanOut (notice : Notice) : (panel : Panel) →
    (panel.fanOut notice).after.inner = panel.inner.map fun panel => (panel.fanOut notice).after
  | .empty => rfl
  | .member observer failures rest => by
      rw [Panel.fanOut_member, Panel.inner, Panel.inner, List.map_append,
        observer.panels_tell notice, rest.inner_fanOut notice]

end

/-- Each member is told the notice, and it is counted if it fails. -/
theorem Panel.entries_fanOut (panel : Panel) (notice : Notice) :
    (panel.fanOut notice).after.entries = panel.entries.map fun entry =>
      ((entry.1.tell notice).after,
        entry.2 + if (entry.1.tell notice).reaction = .done then 0 else 1) := by
  match panel with
  | .empty => rfl
  | .member observer failures rest =>
      rw [Panel.fanOut_member, Panel.entries, Panel.entries, List.map_cons,
        rest.entries_fanOut notice]
      split <;> rfl

/-! ## Listeners in a run -/

namespace Observer

theorem name_tell (observer : Observer) (notice : Notice) :
    (observer.tell notice).after.name = observer.name := by
  cases observer with
  | listener name react told => rw [Observer.tell_listener]; rfl
  | panel members => rw [Observer.tell_panel]; rfl

theorem name_tellAll (observer : Observer) (notices : List Notice) :
    (observer.tellAll notices).1.name = observer.name := by
  induction notices generalizing observer with
  | nil => rfl
  | cons notice notices ih => exact (ih _).trans (observer.name_tell notice)

theorem deliveries_tellAll (observer : Observer) (notices : List Notice) :
    (observer.tellAll notices).2 = notices.flatMap fun notice =>
      observer.listeners.map fun listener => ⟨listener.name, notice⟩ := by
  induction notices generalizing observer with
  | nil => rfl
  | cons notice notices ih =>
      rw [tellAll, List.flatMap_cons, ← deliveries_tell]
      show _ ++ ((observer.tell notice).after.tellAll notices).2 = _
      rw [ih, listeners_tell]
      simp only [List.map_map, Function.comp_def, name_tell]

theorem listeners_tellAll (observer : Observer) (notices : List Notice) :
    (observer.tellAll notices).1.listeners
      = observer.listeners.map fun listener => (listener.tellAll notices).1 := by
  induction notices generalizing observer with
  | nil => exact (List.map_id _).symm
  | cons notice notices ih =>
      show ((observer.tell notice).after.tellAll notices).1.listeners = _
      rw [ih, listeners_tell, List.map_map]
      rfl

end Observer

mutual

theorem Observer.exists_listener : (observer : Observer) → ∀ member ∈ observer.listeners,
    ∃ name react told, member = .listener name react told
  | .listener name react told => fun _ h => ⟨name, react, told, List.mem_singleton.1 h⟩
  | .panel members => members.exists_listener

theorem Panel.exists_listener : (panel : Panel) → ∀ member ∈ panel.listeners,
    ∃ name react told, member = .listener name react told
  | .empty => fun _ h => absurd h List.not_mem_nil
  | .member observer _ rest => fun member h => by
      rcases List.mem_append.1 h with h | h
      · exact observer.exists_listener member h
      · exact rest.exists_listener member h

end

namespace Observer

theorem told_listeners_tellAll (observer : Observer) (notices : List Notice) :
    (observer.tellAll notices).1.listeners.map told
      = observer.listeners.map fun listener => listener.told ++ notices := by
  rw [listeners_tellAll, List.map_map]
  refine List.map_congr_left fun member h => ?_
  obtain ⟨name, react, told, rfl⟩ := observer.exists_listener member h
  exact told_tellAll_listener name react told notices

theorem listeners_ofList {observers : List Observer}
    (h : ∀ observer ∈ observers, observer.listeners = [observer]) :
    (panel (.ofList observers)).listeners = observers := by
  show (Panel.ofList observers).listeners = observers
  induction observers with
  | nil => rfl
  | cons observer rest ih =>
      rw [Panel.ofList, Panel.listeners, h observer List.mem_cons_self,
        ih fun other hm => h other (List.mem_cons_of_mem _ hm), List.singleton_append]

theorem listeners_flat (observer : Observer) :
    (panel (.ofList observer.listeners)).listeners = observer.listeners :=
  listeners_ofList fun member h => by
    obtain ⟨_, _, _, rfl⟩ := observer.exists_listener member h
    rfl

/-! ## Panels in a run -/

/-- Each panel tells its members all the notices, and counts how often they fail. -/
theorem entries_panels_tellAll (observer : Observer) (notices : List Notice) :
    (observer.tellAll notices).1.panels.map Panel.entries
      = observer.panels.map fun panel => panel.entries.map fun entry =>
        ((entry.1.tellAll notices).1, entry.2 + entry.1.mishaps notices) := by
  induction notices generalizing observer with
  | nil => exact List.map_congr_left fun panel _ => (List.map_id _).symm
  | cons notice notices ih =>
      show ((observer.tell notice).after.tellAll notices).1.panels.map Panel.entries = _
      rw [ih, panels_tell, List.map_map]
      refine List.map_congr_left fun panel _ => ?_
      rw [Function.comp_apply, Panel.entries_fanOut, List.map_map]
      refine List.map_congr_left fun entry _ => ?_
      rw [Function.comp_apply, Nat.add_assoc]
      rfl

theorem mishaps_panel (members : Panel) (notices : List Notice) :
    (panel members).mishaps notices = 0 := by
  induction notices generalizing members with
  | nil => rfl
  | cons notice notices ih => rw [mishaps, reaction_tell_panel, tell_panel, ih, if_pos rfl]

/-- However panels are nested and whatever their listeners do, all listeners are told all that the
outermost panel is told: notice by notice, each listener is reached once, in the order of the
listeners, and is called back for that very notice, just as by one flat panel of them. No panel
ever fails. The members of each panel, inner or outer, end up as if they had been told the notices
on their own, and the panel has counted for each of them how often it failed or crashed; for a
member that is a panel, that is never. -/
theorem panels_pass_on_everything (members : Panel) (notices : List Notice) :
    let before := panel members
    let flat := panel (.ofList before.listeners)
    let after := (before.tellAll notices).1
    ((before.tellAll notices).2 = notices.flatMap fun notice =>
        before.listeners.map fun listener => ⟨listener.name, notice⟩) ∧
      (after.listeners.map told = before.listeners.map fun listener => listener.told ++ notices) ∧
      ((flat.tellAll notices).2 = (before.tellAll notices).2 ∧
        (flat.tellAll notices).1.listeners = after.listeners) ∧
      (∀ inner notice, ((panel inner).tell notice).reaction = .done) ∧
      (after.panels.map Panel.entries = before.panels.map fun panel =>
        panel.entries.map fun entry =>
          ((entry.1.tellAll notices).1, entry.2 + entry.1.mishaps notices)) ∧
      ∀ inner, (panel inner).mishaps notices = 0 := by
  intro before flat after
  refine ⟨deliveries_tellAll before notices, told_listeners_tellAll before notices, ⟨?_, ?_⟩,
    reaction_tell_panel, entries_panels_tellAll before notices,
    fun inner => mishaps_panel inner notices⟩
  · rw [deliveries_tellAll, deliveries_tellAll, listeners_flat]
  · rw [listeners_tellAll, listeners_tellAll, listeners_flat]

end Observer

end StorageMarket
