import StorageMarket.Proofs.Replay.Changes

/-!
# Which changes are accepted

Publishing adds a request to a ledger and nothing else does. So changes are accepted,
whatever they are, exactly if the requests that they publish are new and differ from each
other. Of a replay these are the requests that the events of its blocks publish: it makes
no difference how the events are spread over blocks.
-/

namespace StorageMarket

def Change.publishes? : Change → Option RequestId
  | create request _ _ => some request.id
  | _ => none

def Event.publishes? : Event → Option RequestId
  | published e => some e.request.id
  | _ => none

namespace Ledger

@[simp] theorem ids_revise (ledger : Ledger) (id : RequestId) (rule : Deal → Option Deal) :
    (ledger.revise id rule).2.ids = ledger.ids := by
  rcases ledger.revise_cases id rule with heq | ⟨deal, new, _, _, heq⟩
  · rw [heq]
    exact ids_note ledger id
  · rw [heq]
    exact (ids_put _ _).trans (ids_note ledger id)

@[simp] theorem ids_finishWhile (ledger : Ledger) (due : Instant → Bool) :
    (ledger.finishWhile due).2.ids = ledger.ids :=
  ids_finishAll _ _

theorem change_ids_cases (ledger : Ledger) (change : Change) :
    (change.publishes? = none ∧ (ledger.change change).1.refusal? = none ∧
      (ledger.change change).2.ids = ledger.ids) ∨
    ∃ id, change.publishes? = some id ∧
      ((id ∈ ledger.ids ∧ (ledger.change change).1.refusal? = some ⟨id⟩) ∨
        (id ∉ ledger.ids ∧ (ledger.change change).1.refusal? = none ∧
          (ledger.change change).2.ids = ledger.ids ++ [id])) := by
  cases change with
  | create request block time =>
      refine .inr ⟨request.id, rfl, ?_⟩
      rw [Ledger.change]
      rcases create_cases ledger request block time with ⟨hknown, hc⟩ | ⟨hfresh, hc⟩
      · rw [hc]
        exact .inl ⟨hknown, rfl⟩
      · rw [hc]
        refine .inr ⟨hfresh, rfl, ?_⟩
        show ((ledger.note request.id).append _).ids = _
        rw [ids_append, ids_note]
        rfl
  | transition request stage =>
      refine .inl ⟨rfl, rfl, ?_⟩
      show (ledger.transition request stage).2.ids = _
      rw [transition_eq_revise, ids_revise]
  | fillSlot request slot host =>
      refine .inl ⟨rfl, rfl, ?_⟩
      show (ledger.fillSlot request slot host).2.ids = _
      rw [fillSlot_eq_revise, ids_revise]
  | freeSlot request slot =>
      refine .inl ⟨rfl, rfl, ?_⟩
      show (ledger.freeSlot request slot).2.ids = _
      rw [freeSlot_eq_revise, ids_revise]
  | finishDue now => exact .inl ⟨rfl, rfl, ids_finishWhile ledger fun t => t ≤ now⟩
  | finishBefore now => exact .inl ⟨rfl, rfl, ids_finishWhile ledger fun t => t < now⟩

/-- Changes are accepted if and only if the requests that they publish are new to the ledger and
differ from each other. -/
theorem accepts_iff {ledger : Ledger} {changes : List Change} :
    ledger.Accepts changes ↔
      (∀ id ∈ changes.filterMap Change.publishes?, id ∉ ledger.ids) ∧
        (changes.filterMap Change.publishes?).Nodup := by
  induction changes generalizing ledger with
  | nil => simp [accepts_nil]
  | cons change changes ih =>
      rw [accepts_cons, ih]
      rcases ledger.change_ids_cases change with
        ⟨hnone, haccepted, hids⟩ | ⟨id, hsome, ⟨hknown, hrefused⟩ | ⟨hfresh, haccepted, hids⟩⟩
      · rw [List.filterMap_cons_none hnone, haccepted, hids]
        exact and_iff_right rfl
      · rw [List.filterMap_cons_some hsome, hrefused]
        constructor
        · rintro ⟨h, _⟩
          cases h
        · rintro ⟨hnew, _⟩
          exact absurd hknown (hnew id List.mem_cons_self)
      · rw [List.filterMap_cons_some hsome, haccepted, hids, List.nodup_cons, List.forall_mem_cons]
        constructor
        · rintro ⟨_, hnew, hdistinct⟩
          refine ⟨⟨hfresh, fun x hx hknown => ?_⟩, fun hagain => ?_, hdistinct⟩
          · exact hnew x hx (List.mem_append_left _ hknown)
          · exact hnew id hagain (List.mem_append_right _ List.mem_cons_self)
        · rintro ⟨⟨_, hnew⟩, hother, hdistinct⟩
          refine ⟨rfl, fun x hx hmem => ?_, hdistinct⟩
          rcases List.mem_append.1 hmem with hknown | hsame
          · exact hnew x hx hknown
          · rw [List.mem_singleton.1 hsame] at hx
            exact hother hx

end Ledger

/-! ## What a replay publishes -/

theorem Event.publishes?_change (time : Instant) (event : Event) :
    (event.change time).publishes? = event.publishes? := by
  cases event <;> rfl

theorem Block.filterMap_changes (block : Block) :
    block.changes.filterMap Change.publishes? = block.events.filterMap Event.publishes? := by
  have hevents : (block.events.map (Event.change block.time)).filterMap Change.publishes?
      = block.events.filterMap Event.publishes? := by
    rw [List.filterMap_map]
    exact congrArg (fun f => block.events.filterMap f)
      (funext fun event => Event.publishes?_change block.time event)
  rw [changes, List.filterMap_cons_none rfl, List.filterMap_append, hevents,
    List.filterMap_cons_none rfl, List.filterMap_nil, List.append_nil]

/-- A replay publishes the requests that the events of its blocks publish. -/
theorem Replay.filterMap_changesUpTo (target : Instant) (latestBlock : Option BlockNumber)
    (blocks : List Block) :
    (changesUpTo target latestBlock blocks).filterMap Change.publishes?
      = (blocks.flatMap Block.events).filterMap Event.publishes? := by
  have hclosing : (closing target latestBlock).filterMap Change.publishes? = [] := by
    rw [closing]
    split <;> rfl
  rw [changesUpTo, List.filterMap_append, hclosing, List.append_nil, List.filterMap_flatMap,
    List.filterMap_flatMap]
  simp only [Block.filterMap_changes]

end StorageMarket
