import StorageMarket.Proofs.Ledger.Snapshot
import StorageMarket.Tracker

/-!
# Replays as changes

A replay does nothing to a ledger but make changes, one for each event and some that
finish deals. What they are is known beforehand (`changesUpTo`): a replay that succeeds
makes all of them, and one that fails has made the first of them (`Makes`).

The notices of a change follow from the change and the answer to it. A list of changes
is accepted if none of them publishes a request twice.
-/

namespace StorageMarket

def Stage.occurrence : Stage → Occurrence
  | new => .published
  | started => .fulfilled
  | finished => .finished
  | cancelled => .cancelled
  | failed => .failed

def Change.notices : Change → Answer → List Notice
  | .create .., .created (.ok deal) => [⟨.published, deal⟩]
  | .transition _ stage, .changed (some deal) => [⟨stage.occurrence, deal⟩]
  | .fillSlot _ slot host, .changed (some deal) => [⟨.slotFilled slot host, deal⟩]
  | .freeSlot _ slot, .freed (some (deal, previous)) => [⟨.slotFreed slot previous, deal⟩]
  | .finishDue _, .finished deals => finishNotices deals
  | .finishBefore _, .finished deals => finishNotices deals
  | _, _ => []

/-- A revision of a deal is told by one notice that shows the new deal, if there is one. -/
theorem Change.notices_transition (id : RequestId) (stage : Stage) (answer : Option Deal) :
    (Change.transition id stage).notices (.changed answer)
      = answer.toList.map fun deal => ⟨stage.occurrence, deal⟩ := by
  cases answer <;> rfl

theorem Change.notices_fillSlot (id : RequestId) (slot : SlotIndex) (host : Address)
    (answer : Option Deal) :
    (Change.fillSlot id slot host).notices (.changed answer)
      = answer.toList.map fun deal => ⟨.slotFilled slot host, deal⟩ := by
  cases answer <;> rfl

theorem Change.notices_freeSlot (id : RequestId) (slot : SlotIndex) (answer : Option Deal)
    (previous : Option Address) :
    (Change.freeSlot id slot).notices (.freed (answer.map fun deal => (deal, previous)))
      = answer.toList.map fun deal => ⟨.slotFreed slot previous, deal⟩ := by
  cases answer <;> rfl

def Event.change (time : Instant) : Event → Change
  | published e => .create e.request e.block time
  | fulfilled e => .transition e.request .started
  | cancelled e => .transition e.request .cancelled
  | failed e => .transition e.request .failed
  | slotFilled e => .fillSlot e.request e.slot e.host
  | slotFreed e => .freeSlot e.request e.slot

def Block.changes (block : Block) : List Change :=
  .finishBefore block.time :: (block.events.map (Event.change block.time)
    ++ [.finishDue block.time])

namespace Ledger

/-- None of the changes publishes a request twice. -/
def Accepts (ledger : Ledger) (changes : List Change) : Prop :=
  ∀ answer ∈ (ledger.changeAll changes).1, answer.refusal? = none

def news (ledger : Ledger) : List Change → List Notice
  | [] => []
  | change :: changes =>
      change.notices (ledger.change change).1 ++ (ledger.change change).2.news changes

theorem accepts_nil (ledger : Ledger) : ledger.Accepts [] := fun _ h => absurd h List.not_mem_nil

theorem accepts_append {ledger : Ledger} {changes more : List Change} :
    ledger.Accepts (changes ++ more)
      ↔ ledger.Accepts changes ∧ (ledger.changeAll changes).2.Accepts more := by
  simp only [Accepts, changeAll_append, List.mem_append, or_imp, forall_and]

theorem accepts_cons {ledger : Ledger} {change : Change} {changes : List Change} :
    ledger.Accepts (change :: changes)
      ↔ (ledger.change change).1.refusal? = none ∧ (ledger.change change).2.Accepts changes := by
  simp only [Accepts, changeAll, List.mem_cons, or_imp, forall_and, forall_eq]

theorem news_append (ledger : Ledger) (changes more : List Change) :
    ledger.news (changes ++ more)
      = ledger.news changes ++ (ledger.changeAll changes).2.news more := by
  induction changes generalizing ledger with
  | nil => rfl
  | cons change changes ih => rw [List.cons_append, news, ih, news, List.append_assoc, changeAll]

theorem accepts_commit {ledger : Ledger} {changes : List Change} :
    ledger.commit.Accepts changes ↔ ledger.Accepts changes := by
  rw [Accepts, changeAll_commit, Accepts]

theorem news_commit (ledger : Ledger) (changes : List Change) :
    ledger.commit.news changes = ledger.news changes := by
  induction changes generalizing ledger with
  | nil => rfl
  | cons change changes ih => rw [news, change_commit, ih, news]

theorem accepts_finishDue (ledger : Ledger) (now : Instant) : ledger.Accepts [.finishDue now] := by
  intro answer h
  rw [List.mem_singleton.1 h]
  rfl

/-! ## Applying events -/

/-- Applying an event is making its change. -/
theorem apply_cases (ledger : Ledger) (event : Event) (time : Instant) :
    (∃ fault, (ledger.change (event.change time)).1.refusal? = some fault ∧
        ledger.apply event time = .error fault) ∨
      ((ledger.change (event.change time)).1.refusal? = none ∧
        ∃ notice, ledger.apply event time = .ok (notice, (ledger.change (event.change time)).2) ∧
          notice.toList
            = (event.change time).notices (ledger.change (event.change time)).1) := by
  cases event with
  | published e =>
      simp only [Event.change, Ledger.change, apply]
      cases ledger.create e.request e.block time with
      | error fault => exact .inl ⟨fault, rfl, rfl⟩
      | ok result => exact .inr ⟨rfl, _, rfl, rfl⟩
  | fulfilled e =>
      refine .inr ⟨rfl, _, rfl, ?_⟩
      show _ = Change.notices _ (.changed (ledger.transition e.request .started).1)
      cases (ledger.transition e.request .started).1 <;> rfl
  | cancelled e =>
      refine .inr ⟨rfl, _, rfl, ?_⟩
      show _ = Change.notices _ (.changed (ledger.transition e.request .cancelled).1)
      cases (ledger.transition e.request .cancelled).1 <;> rfl
  | failed e =>
      refine .inr ⟨rfl, _, rfl, ?_⟩
      show _ = Change.notices _ (.changed (ledger.transition e.request .failed).1)
      cases (ledger.transition e.request .failed).1 <;> rfl
  | slotFilled e =>
      refine .inr ⟨rfl, _, rfl, ?_⟩
      show _ = Change.notices _ (.changed (ledger.fillSlot e.request e.slot e.host).1)
      cases (ledger.fillSlot e.request e.slot e.host).1 <;> rfl
  | slotFreed e =>
      refine .inr ⟨rfl, _, rfl, ?_⟩
      show Option.toList (Option.map _ (ledger.freeSlot e.request e.slot).1)
        = Change.notices _ (.freed (ledger.freeSlot e.request e.slot).1)
      cases (ledger.freeSlot e.request e.slot).1 <;> rfl

end Ledger

namespace Replay

/-- The last change of a replay, if any block was ever seen: the time goes on to the target. -/
def closing (target : Instant) (latestBlock : Option BlockNumber) : List Change :=
  if latestBlock.isSome then [.finishDue target] else []

/-- The changes that replaying blocks up to a target makes. -/
def changesUpTo (target : Instant) (latestBlock : Option BlockNumber) (blocks : List Block) :
    List Change :=
  blocks.flatMap Block.changes ++ closing target latestBlock

variable {σ α β : Type}

/-! ## Every result comes from changes -/

/-- What a part of an update leaves comes from these changes, or from the first of them if it
failed. -/
def ComesFrom (ledger : Ledger) (changes : List Change) :
    EStateM.Result UpdateError (σ × Ledger) α → Prop
  | .ok _ (_, after) => after = (ledger.changeAll changes).2
  | .error _ (_, after) => ∃ made, made <+: changes ∧ after = (ledger.changeAll made).2

/-- A part of an update that does nothing to the ledger but make these changes. -/
def Makes (part : Replay σ α) (changes : List Change) : Prop :=
  ∀ world ledger, ComesFrom ledger changes (part (world, ledger))

theorem Makes.pure (a : α) : Makes (pure a : Replay σ α) [] := fun _ _ => rfl

theorem Makes.bind {part : Replay σ α} {next : α → Replay σ β} {changes more : List Change}
    (h : Makes part changes) (h' : ∀ a, Makes (next a) more) :
    Makes (part >>= next) (changes ++ more) := by
  intro world ledger
  have hpart := h world ledger
  show ComesFrom ledger _ (EStateM.bind part next (world, ledger))
  rw [EStateM.bind]
  cases hresult : part (world, ledger) with
  | error e state =>
      rw [hresult] at hpart
      obtain ⟨made, hprefix, hafter⟩ := hpart
      exact ⟨made, hprefix.trans (List.prefix_append ..), hafter⟩
  | ok a state =>
      obtain ⟨world', ledger'⟩ := state
      rw [hresult] at hpart
      have hafter : ledger' = (ledger.changeAll changes).2 := hpart
      have hnext := h' a world' ledger'
      show ComesFrom ledger _ (next a (world', ledger'))
      cases hsecond : next a (world', ledger') with
      | error e state =>
          rw [hsecond] at hnext
          obtain ⟨made, hprefix, hmade⟩ := hnext
          refine ⟨changes ++ made, (List.prefix_append_right_inj changes).2 hprefix, ?_⟩
          rw [Ledger.changeAll_append, ← hafter, hmade]
      | ok b state =>
          rw [hsecond] at hnext
          have hmade : state.2 = (ledger'.changeAll more).2 := hnext
          show state.2 = _
          rw [Ledger.changeAll_append, ← hafter, hmade]

theorem makes_finishBefore (now : Instant) :
    Makes (change (σ := σ) fun ledger => ledger.finishBefore now) [.finishBefore now] :=
  fun _ _ => rfl

theorem makes_finishDue (now : Instant) :
    Makes (change (σ := σ) fun ledger => ledger.finishDue now) [.finishDue now] :=
  fun _ _ => rfl

theorem makes_applyEvents (time : Instant) (events : List Event) (notices : Array Notice) :
    Makes (applyEvents (σ := σ) time events notices) (events.map (Event.change time)) := by
  induction events generalizing notices with
  | nil => exact Makes.pure notices
  | cons event events ih =>
      intro world ledger
      rw [applyEvents]
      rcases ledger.apply_cases event time with ⟨fault, _, happly⟩ | ⟨_, notice, happly, _⟩
      · simp only [happly]
        exact ⟨[], List.nil_prefix, rfl⟩
      · simp only [happly]
        have hrest := ih (notices ++ notice.toList) world (ledger.change (event.change time)).2
        cases hresult : applyEvents time events (notices ++ notice.toList)
          (world, (ledger.change (event.change time)).2) with
        | error e state =>
            rw [hresult] at hrest
            obtain ⟨made, hprefix, hmade⟩ := hrest
            exact ⟨event.change time :: made, List.cons_prefix_cons.2 ⟨rfl, hprefix⟩, hmade⟩
        | ok notices state =>
            rw [hresult] at hrest
            exact hrest

theorem makes_audit (oracle : Oracle σ) (audit : Option Audit) (block : Block)
    (staged : Staged) : Makes (Replay.audit oracle audit block staged) [] := by
  cases audit with
  | none => exact Makes.pure staged
  | some audit =>
      intro world ledger
      simp only [Replay.audit]
      split
      · rfl
      · exact ⟨[], List.nil_prefix, rfl⟩

theorem makes_block (oracle : Oracle σ) (audit : Option Audit) (block : Block)
    (staged : Staged) : Makes (Replay.block oracle audit block staged) block.changes := by
  show Makes _ ([] ++ ([.finishBefore block.time]
    ++ (block.events.map (Event.change block.time) ++ ([.finishDue block.time] ++ []))))
  refine (makes_audit oracle audit block staged).bind fun staged => ?_
  refine (makes_finishBefore block.time).bind fun early => ?_
  refine (makes_applyEvents block.time block.events _).bind fun notices => ?_
  exact (makes_finishDue block.time).bind fun due => Makes.pure _

theorem makes_blocks (oracle : Oracle σ) (audit : Option Audit) (blocks : List Block)
    (staged : Staged) :
    Makes (Replay.blocks oracle audit blocks staged) (blocks.flatMap Block.changes) := by
  induction blocks generalizing staged with
  | nil => exact Makes.pure staged
  | cons block blocks ih =>
      rw [Replay.blocks, List.foldlM_cons, List.flatMap_cons]
      exact (makes_block oracle audit block staged).bind ih

/-- A replay does nothing to the ledger but make the changes of its blocks and let the time go on. -/
theorem makes_run (oracle : Oracle σ) (audit : Option Audit) (told : Chronicle)
    (target : Instant) (latestBlock : Option BlockNumber) :
    Makes (run oracle audit told target latestBlock)
      (changesUpTo target latestBlock told.blocks) := by
  refine (makes_blocks oracle audit told.blocks _).bind fun staged => ?_
  rw [closing]
  split
  · exact (makes_finishDue target).bind fun due => Makes.pure _
  · exact Makes.pure _

end Replay

end StorageMarket
