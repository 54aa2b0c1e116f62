import StorageMarket.Audit
import StorageMarket.Chronicle
import StorageMarket.Ledger
import StorageMarket.Observer

/-!
# Following the marketplace

A tracker knows the state of the marketplace up to a moment, its mark. An update to
a later moment fetches the events since the mark, tells them as a chronicle and
applies them to the ledger block by block:

* the audit, if there is one, sees the block with the ledger as the block before has
  left it;
* deals whose deadline lies before the block are finished;
* the events of the block are applied;
* deals whose deadline is not after the block are finished.

After the last block, deals whose deadline is not after the target are finished,
provided that any block was ever seen.

An update takes effect as a whole or not at all. The ledger is changed in place
under an undo log, and rolled back when something fails; the mark, the audit and the
observer change only once everything has succeeded. The observer is told last, so an
update that a crash of its listener takes down has taken effect by then; what is said
here of its outcome is what it has done.
-/

namespace StorageMarket

inductive UpdateError where
  | notAdvancing (target mark : Instant)
  | duplicate (fault : DuplicateRequest)
  | chronicle (fault : ChronicleFault)
  | fetch (error : FetchError)
  | oracle (error : OracleError)
deriving DecidableEq

namespace UpdateError

def message : UpdateError → String
  | notAdvancing target mark => s!"update to {target} is before the high-water mark {mark}"
  | duplicate fault => fault.message
  | chronicle fault => fault.message
  | fetch error => error.message
  | oracle error => error.message

/-- Whether the same update may succeed later: whoever was asked was not at hand. Anything else
is a mistake that stays one. -/
def isRecoverable : UpdateError → Bool
  | fetch (.undecodable _) => false
  | fetch _ => true
  | oracle _ => true
  | _ => false

end UpdateError

structure Outcome where
  window : Window
  blocks : Option BlockRange
  events : Nat
  /-- What happened to the deals, in order. -/
  notices : List Notice
  /-- The reports on the periods that ended. -/
  reports : List Report
deriving DecidableEq

/-- The state of the marketplace up to a moment. -/
structure Tracker where
  ledger : Ledger
  /-- Everything up to this moment is known. -/
  mark : Instant
  latestBlock : Option BlockNumber
  audit : Option Audit
  observer : Observer

/-! ## Applying events -/

namespace Ledger

def notify (occurrence : Occurrence) (change : Option Deal × Ledger) : Option Notice × Ledger :=
  (change.1.map fun deal => ⟨occurrence, deal⟩, change.2)

def apply (ledger : Ledger) (event : Event) (time : Instant) :
    Except DuplicateRequest (Option Notice × Ledger) :=
  match event with
  | .published e => do
      let (deal, ledger) ← ledger.create e.request e.block time
      return (some ⟨.published, deal⟩, ledger)
  | .fulfilled e => .ok (notify .fulfilled (ledger.transition e.request .started))
  | .cancelled e => .ok (notify .cancelled (ledger.transition e.request .cancelled))
  | .failed e => .ok (notify .failed (ledger.transition e.request .failed))
  | .slotFilled e =>
      .ok (notify (.slotFilled e.slot e.host) (ledger.fillSlot e.request e.slot e.host))
  | .slotFreed e =>
      let (freed, ledger) := ledger.freeSlot e.request e.slot
      .ok (freed.map fun (deal, previous) => ⟨.slotFreed e.slot previous, deal⟩, ledger)

end Ledger

def finishNotices (deals : List Deal) : List Notice := deals.map fun deal => ⟨.finished, deal⟩

/-! ## Replaying a chronicle -/

/-- What an update has gathered so far, apart from the ledger. -/
structure Staged where
  cursor : Option Cursor
  notices : Array Notice
  reports : Array Report

/-- A part of an update: it asks the chain, changes the ledger, and may fail. What was done before
the failure stays done. -/
abbrev Replay (σ : Type) := EStateM UpdateError (σ × Ledger)

namespace Replay

variable {σ : Type}

def change {α : Type} (f : Ledger → α × Ledger) : Replay σ α := fun (world, ledger) =>
  let (a, ledger) := f ledger
  .ok a (world, ledger)

def applyEvents (time : Instant) : List Event → Array Notice → Replay σ (Array Notice)
  | [], notices => pure notices
  | event :: events, notices => fun (world, ledger) =>
      match ledger.apply event time with
      | .ok (notice, ledger) => applyEvents time events (notices ++ notice.toList) (world, ledger)
      | .error fault => .error (.duplicate fault) (world, ledger)

def audit (oracle : Oracle σ) (audit : Option Audit) (block : Block) (staged : Staged) :
    Replay σ Staged :=
  match audit with
  | none => pure staged
  | some audit => fun (world, ledger) =>
      match Audit.advance oracle audit.maxClosed staged.cursor block.number block.time
        ledger.deals world with
      | .ok (cursor, reports) world =>
          .ok { staged with cursor := some cursor, reports := staged.reports ++ reports }
            (world, ledger)
      | .error e world => .error (.oracle e) (world, ledger)

def block (oracle : Oracle σ) (audit : Option Audit) (block : Block) (staged : Staged) :
    Replay σ Staged := do
  let staged ← Replay.audit oracle audit block staged
  let early ← change fun ledger => ledger.finishBefore block.time
  let notices ← applyEvents block.time block.events (staged.notices ++ finishNotices early)
  let due ← change fun ledger => ledger.finishDue block.time
  return { staged with notices := notices ++ finishNotices due }

def blocks (oracle : Oracle σ) (audit : Option Audit) (blocks : List Block) (staged : Staged) :
    Replay σ Staged :=
  blocks.foldlM (fun staged block => Replay.block oracle audit block staged) staged

/-- Replays a chronicle and lets the time go on to the target. -/
def run (oracle : Oracle σ) (audit : Option Audit) (told : Chronicle) (target : Instant)
    (latestBlock : Option BlockNumber) : Replay σ Staged := do
  let staged ← blocks oracle audit told.blocks ⟨audit.bind Audit.cursor, #[], #[]⟩
  if latestBlock.isSome then
    let due ← change fun ledger => ledger.finishDue target
    return { staged with notices := staged.notices ++ finishNotices due }
  else
    return staged

end Replay

/-! ## Updating -/

namespace Tracker

/-- A tracker that starts right after a moment. -/
def start (observer : Observer) (mark : Instant) : Tracker :=
  ⟨.empty, mark, none, none, observer⟩

def withAudit (tracker : Tracker) (audit : Audit) : Tracker := { tracker with audit := some audit }

def drain (tracker : Tracker) : List Report × Tracker :=
  match tracker.audit with
  | none => ([], tracker)
  | some audit =>
      let (reports, audit) := audit.drain
      (reports, { tracker with audit := some audit })

theorem mark_drain : (tracker : Tracker) → tracker.drain.2.mark = tracker.mark
  | ⟨_, _, _, none, _⟩ => rfl
  | ⟨_, _, _, some _, _⟩ => rfl

def accept (tracker : Tracker) (target : Instant) (latestBlock : Option BlockNumber)
    (ledger : Ledger) (staged : Staged) : Tracker where
  ledger := ledger.commit
  mark := target
  latestBlock := latestBlock
  audit := tracker.audit.map fun audit => audit.commit staged.cursor staged.reports.toList
  observer := tracker.observer.inform staged.notices.toList

variable {σ : Type}

/-- Asks for what happened since the mark, and tells it block by block. -/
def gather (source : Source σ) (target : Instant) :
    EStateM UpdateError (σ × Tracker) (Window × Chronicle) := fun (world, tracker) =>
  if h : target < tracker.mark then
    .error (.notAdvancing target tracker.mark) (world, tracker)
  else
    let window : Window := ⟨tracker.mark, target, Instant.not_lt.1 h⟩
    match source.fetch window world with
    | .error e world => .error (.fetch e) (world, tracker)
    | .ok batch world =>
        match Chronicle.ofBatch batch (some tracker.mark) with
        | .error fault => .error (.chronicle fault) (world, tracker)
        | .ok told => .ok (window, told) (world, tracker)

/-- Replays what happened in a window: the tracker moves on to its end, or stays as it was. -/
def replay (oracle : Oracle σ) (window : Window) (told : Chronicle) :
    EStateM UpdateError (σ × Tracker) Outcome := fun (world, tracker) =>
  let latestBlock := told.lastBlock?.or tracker.latestBlock
  -- an update that was given up half way may have left its changes behind
  let ledger := tracker.ledger.rollback.begin
  match Replay.run oracle tracker.audit told window.stop latestBlock (world, ledger) with
  | .error e (world, ledger) => .error e (world, { tracker with ledger := ledger.rollback })
  | .ok staged (world, ledger) =>
      let outcome : Outcome :=
        { window
          blocks := told.stretch.map fun stretch => stretch.blocks
          events := told.events.length
          notices := staged.notices.toList
          reports := staged.reports.toList }
      .ok outcome (world, tracker.accept window.stop latestBlock ledger staged)

def update (source : Source σ) (oracle : Oracle σ) (target : Instant) :
    EStateM UpdateError (σ × Tracker) Outcome := do
  let (window, told) ← gather source target
  replay oracle window told

/-- What is gathered reaches up to the target. -/
theorem stop_of_gather {source : Source σ} {target : Instant} {state after : σ × Tracker}
    {found : Window × Chronicle} (h : gather source target state = .ok found after) :
    found.1.stop = target := by
  rw [gather] at h
  split at h
  · cases h
  · dsimp only at h
    split at h
    · cases h
    · split at h
      · cases h
      · cases h
        rfl

/-- A replay that goes well moves the mark to the end of its window. -/
theorem mark_of_replay {oracle : Oracle σ} {window : Window} {told : Chronicle}
    {state after : σ × Tracker} {outcome : Outcome}
    (h : replay oracle window told state = .ok outcome after) : after.2.mark = window.stop := by
  rw [replay] at h
  dsimp only at h
  split at h
  · cases h
  · cases h
    rfl

/-- An update that goes well moves the mark to its target. -/
theorem update_mark {source : Source σ} {oracle : Oracle σ} {target : Instant}
    {state after : σ × Tracker} {outcome : Outcome}
    (h : update source oracle target state = .ok outcome after) : after.2.mark = target := by
  have hbind : EStateM.bind (gather source target) (fun found => replay oracle found.1 found.2)
      state = .ok outcome after := h
  rw [EStateM.bind] at hbind
  split at hbind
  · next hgather => rw [mark_of_replay hbind, stop_of_gather hgather]
  · cases hbind

def ofHistory (source : Source σ) (oracle : Oracle σ) (observer : Observer) (window : Window)
    (world : σ) : EStateM.Result UpdateError (σ × Tracker) Outcome :=
  update source oracle window.stop (world, start observer window.start)

end Tracker

end StorageMarket
