import StorageMarket.Recording.Format

/-!
# Archives

An archive is a recording that was found in order. It stands in for a chain node and
for its proofs: it answers for the events of a window from the recorded blocks, and
for periods and proofs from the recorded entries.

A recording is in order if a period has a length, if there are blocks, if block
numbers increase strictly and times never go back, and if every event is in a
recorded block. Otherwise the first of these rules that is broken is named.

A block that is left out of a recording gets an estimated time like any other block
inside a stretch, so a recording should list every block when block times vary.
-/

namespace StorageMarket

inductive RecordingFault where
  | zeroPeriod
  | noBlocks
  | unorderedBlocks (previous block : BlockNumber)
  | timeWentBack (block : BlockNumber)
  | unknownBlock (block : BlockNumber)
  | inverted (fault : RangeFault)
deriving DecidableEq

def RecordingFault.message : RecordingFault → String
  | zeroPeriod => "proof period length must be greater than zero"
  | noBlocks => "recording contains no blocks"
  | unorderedBlocks previous block =>
      s!"block {block} follows block {previous}, block numbers must strictly increase"
  | timeWentBack block => s!"block {block} is older than the block before it"
  | unknownBlock block => s!"event references block {block}, which is not part of the recording"
  | inverted fault => fault.message

/-- A recording in order. -/
structure Archive where
  recording : Recording
  /-- The time from the first to the last block. -/
  times : Window
deriving DecidableEq

namespace Archive

/-! ## Checking a recording -/

def checkPair (previous block : BlockStamp) : Except RecordingFault Unit :=
  if block.number ≤ previous.number then .error (.unorderedBlocks previous.number block.number)
  else if block.time < previous.time then .error (.timeWentBack block.number)
  else .ok ()

def checkBlocks : List BlockStamp → Except RecordingFault Unit
  | previous :: block :: rest => do
      checkPair previous block
      checkBlocks (block :: rest)
  | _ => .ok ()

def checkEvents (blocks : List BlockStamp) (events : List Event) : Except RecordingFault Unit :=
  match events.find? fun event => !blocks.any fun block => block.number = event.block with
  | some event => .error (.unknownBlock event.block)
  | none => .ok ()

def ofRecording (recording : Recording) : Except RecordingFault Archive := do
  if recording.periodSeconds = 0 then throw .zeroPeriod
  match recording.blocks.head?, recording.blocks.getLast? with
  | some first, some last => do
      checkBlocks recording.blocks
      -- the order of the blocks puts the first time before the last
      let times ← (Window.of first.time last.time).mapError .inverted
      checkEvents recording.blocks recording.events
      return ⟨recording, times⟩
  | _, _ => throw .noBlocks

/-- Just before the first block. -/
def start (archive : Archive) : Instant :=
  (archive.times.start.sub? (.ofMillis 1)).getD archive.times.start

/-! ## Answering -/

/-- The blocks after the start of a window and up to its end. -/
def blocksIn (archive : Archive) (window : Window) : List BlockStamp :=
  (archive.recording.blocks.dropWhile fun block => block.time ≤ window.start).takeWhile
    fun block => block.time ≤ window.stop

def stretchOf (first last : BlockStamp) : Except RangeFault Stretch := do
  let blocks ← BlockRange.of first.number last.number
  let times ← Window.of first.time last.time
  return ⟨blocks, times⟩

def eventsIn (archive : Archive) (window : Window) : Except FetchError Batch :=
  let blocks := archive.blocksIn window
  match blocks.head?, blocks.getLast? with
  | some first, some last =>
      match stretchOf first last with
      | .error fault => .error (.undecodable fault.message)
      | .ok stretch =>
          .ok (Batch.ofEvents window (some stretch)
            (archive.recording.events.filter fun event => stretch.blocks.contains event.block))
  | _, _ => .ok (Batch.empty window)

/-- The period in which a moment lies; there are none before 1970. -/
def periodOf (archive : Archive) (time : Instant) : Except OracleError Period :=
  if time.seconds < 0 then
    .error (.invalidConfiguration s!"{time} is before the unix epoch")
  else
    .ok (UInt64.ofNat (time.seconds.toNat / archive.recording.periodSeconds.toNat))

/-- What is recorded about the proof of a slot in a period; of several entries the last counts. -/
def proofStatus (archive : Archive) (id : RequestId) (slot : SlotIndex) (period : Period) :
    ProofStatus :=
  archive.recording.proofs.foldl
    (fun found entry =>
      if entry.slot = slot ∧ entry.period = period ∧ entry.request = id then entry.status
      else found)
    .notRequired

/-! ## Standing in for the chain -/

def ask {σ ε α : Type} (answer : Except ε α) : EStateM ε σ α := fun world =>
  match answer with
  | .ok a => .ok a world
  | .error e => .error e world

def source (archive : Archive) (σ : Type) : Source σ where
  fetch window := ask (archive.eventsIn window)

def oracle (archive : Archive) (σ : Type) : Oracle σ where
  periodOf time := ask (archive.periodOf time)
  proofStatus request slot _ period := ask (.ok (archive.proofStatus request.id slot period))

end Archive

end StorageMarket
