import StorageMarket.Deadlines

/-!
# The ledger

All deals since the observation began, in the order of their creation, and the
deadlines of those that are running. Deals are never dropped. What is told about an
unknown request is ignored, because the observation may have started after its
publication; so is a turn that a request cannot take, and a slot that it does not
have.

While an undo log is open, it keeps every deal as it was before the first change
to it. Rolling back puts these deals back, mends the deadlines and drops the deals
that were created since; only deals that were touched are copied.
-/

namespace StorageMarket

structure DuplicateRequest where
  request : RequestId
deriving DecidableEq

def DuplicateRequest.message (fault : DuplicateRequest) : String :=
  s!"request {fault.request} already exists"

/-- Deals as they were before the first change to them. -/
structure UndoLog where
  /-- The number of deals when the log was opened. -/
  size : Nat
  /-- Each request that was touched, and its deal if there was one. -/
  kept : List (RequestId × Option Deal)
deriving DecidableEq

/-- All deals, in the order of their creation. -/
structure Ledger where
  deals : List Deal
  deadlines : Deadlines
  undo : Option UndoLog
deriving DecidableEq

namespace Ledger

def empty : Ledger := ⟨[], .empty, none⟩

/-! ## Questions -/

def find? (ledger : Ledger) (id : RequestId) : Option Deal :=
  ledger.deals.find? fun deal => deal.id = id

def isFilled (ledger : Ledger) (id : RequestId) (slot : SlotIndex) : Bool :=
  (ledger.find? id).any fun deal => deal.hosts.isFilled slot

def wasEverFilled (ledger : Ledger) (id : RequestId) (slot : SlotIndex) : Bool :=
  (ledger.find? id).any fun deal => deal.hosts.wasEverFilled slot

def inStage (ledger : Ledger) (stage : Stage) : List Deal :=
  ledger.deals.filter fun deal => deal.stage = stage

def pendingFinishes (ledger : Ledger) : Nat := ledger.deadlines.size

/-! ## Changes -/

/-- Keeps the deal of a request in the undo log, unless it is there already. -/
def note (ledger : Ledger) (id : RequestId) : Ledger :=
  match ledger.undo with
  | none => ledger
  | some log =>
      if log.kept.any fun entry => entry.1 = id then ledger
      else
        { ledger with
          undo := some { log with kept := (id, ledger.find? id) :: log.kept } }

@[simp] theorem deals_note (ledger : Ledger) (id : RequestId) :
    (ledger.note id).deals = ledger.deals := by
  unfold note
  split
  · rfl
  · split <;> rfl

@[simp] theorem deadlines_note (ledger : Ledger) (id : RequestId) :
    (ledger.note id).deadlines = ledger.deadlines := by
  unfold note
  split
  · rfl
  · split <;> rfl

@[simp] theorem find?_note (ledger : Ledger) (id x : RequestId) :
    (ledger.note id).find? x = ledger.find? x := by
  rw [find?, deals_note, find?]

def put (ledger : Ledger) (deal : Deal) : Ledger :=
  { ledger with deals := ledger.deals.map fun d => if d.id = deal.id then deal else d }

def append (ledger : Ledger) (deal : Deal) : Ledger :=
  { ledger with deals := ledger.deals ++ [deal] }

def create (ledger : Ledger) (request : Request) (block : BlockNumber) (time : Instant) :
    Except DuplicateRequest (Deal × Ledger) :=
  if (ledger.find? request.id).isSome then
    .error ⟨request.id⟩
  else
    let deal := Deal.publish request block time
    .ok (deal, (ledger.note request.id).append deal)

def reschedule (deadlines : Deadlines) (deal : Deal) (stage : Stage) : Deadlines :=
  if stage = .started then deadlines.schedule deal.finishTime deal.id
  else if deal.stage = .started then deadlines.cancel deal.finishTime deal.id
  else deadlines

/-- A request moves to another stage: its deal afterwards, unless the request is unknown or cannot
move there. -/
def transition (ledger : Ledger) (id : RequestId) (stage : Stage) : Option Deal × Ledger :=
  let ledger := ledger.note id
  match ledger.find? id with
  | none => (none, ledger)
  | some deal =>
      if deal.stage.canBecome stage then
        let moved := { deal with stage }
        (some moved,
          { ledger.put moved with deadlines := reschedule ledger.deadlines deal stage })
      else
        (none, ledger)

/-- A host takes over a slot: the deal afterwards, unless the request is unknown or has no such
slot. -/
def fillSlot (ledger : Ledger) (id : RequestId) (slot : SlotIndex) (host : Address) :
    Option Deal × Ledger :=
  let ledger := ledger.note id
  match ledger.find? id with
  | none => (none, ledger)
  | some deal =>
      if slot < deal.request.terms.slots then
        let filled := { deal with hosts := deal.hosts.fill slot host }
        (some filled, ledger.put filled)
      else
        (none, ledger)

/-- The host of a slot leaves: the deal afterwards and the host, if there was one, unless the
request is unknown. -/
def freeSlot (ledger : Ledger) (id : RequestId) (slot : SlotIndex) :
    Option (Deal × Option Address) × Ledger :=
  let ledger := ledger.note id
  match ledger.find? id with
  | none => (none, ledger)
  | some deal =>
      let freed := { deal with hosts := deal.hosts.free slot }
      (some (freed, deal.hosts.host? slot), ledger.put freed)

def finishAll (ledger : Ledger) : List RequestId → List Deal × Ledger
  | [] => ([], ledger)
  | id :: ids =>
      let ledger := ledger.note id
      match ledger.find? id with
      | none => ledger.finishAll ids
      | some deal =>
          let finished := { deal with stage := Stage.finished }
          let (deals, ledger) := (ledger.put finished).finishAll ids
          (finished :: deals, ledger)

def finishDue (ledger : Ledger) (now : Instant) : List Deal × Ledger :=
  let (due, left) := ledger.deadlines.popUntil now
  { ledger with deadlines := left }.finishAll due

def finishBefore (ledger : Ledger) (now : Instant) : List Deal × Ledger :=
  let (due, left) := ledger.deadlines.popBefore now
  { ledger with deadlines := left }.finishAll due

/-! ## Undoing -/

def begin (ledger : Ledger) : Ledger :=
  { ledger with undo := some ⟨ledger.deals.length, []⟩ }

def commit (ledger : Ledger) : Ledger := { ledger with undo := none }

/-- Puts back the deal of one request and mends its deadline. -/
def restore (ledger : Ledger) (entry : RequestId × Option Deal) : Ledger :=
  let (id, before) := entry
  let deadlines :=
    match ledger.find? id with
    | some current =>
        if current.stage = .started then ledger.deadlines.cancel current.finishTime id
        else ledger.deadlines
    | none => ledger.deadlines
  match before with
  | none => { ledger with deadlines }
  | some deal =>
      let deadlines :=
        if deal.stage = .started then deadlines.schedule deal.finishTime id else deadlines
      -- the deal keeps its place in the order of creation
      if (ledger.find? id).isSome then { ledger.put deal with deadlines }
      else { ledger.append deal with deadlines }

/-- Takes back what was changed since the undo log was opened; nothing, if none is open. -/
def rollback (ledger : Ledger) : Ledger :=
  match ledger.undo with
  | none => ledger
  | some log =>
      let restored := log.kept.foldl restore ledger
      { restored with deals := restored.deals.take log.size, undo := none }

end Ledger

end StorageMarket
