import StorageMarket.BlockClock
import StorageMarket.Event.Batch

/-!
# Chronicles

A chronicle tells a batch block by block: every block of the stretch in ascending
order, with its time and its events in the order in which they are applied. Within
a block events are ordered by kind, and those of one kind stay in the order of the
batch.

A batch makes no chronicle when it reaches back behind the moment up to which
everything is known already, when its blocks are not inside its window, or when an
event belongs to none of its blocks.
-/

namespace StorageMarket

structure Block where
  number : BlockNumber
  time : Instant
  events : List Event
deriving DecidableEq

inductive ChronicleFault where
  /-- The window starts before the moment up to which everything is known. -/
  | startsTooEarly (start mark : Instant)
  | stretchOutsideWindow (stretch : Stretch) (window : Window)
  | eventWithoutStretch (block : BlockNumber)
  /-- An event is in none of the blocks. -/
  | eventOutsideStretch (fault : OutOfRange)
deriving DecidableEq

def ChronicleFault.message : ChronicleFault → String
  | startsTooEarly start mark => s!"timeline starts at {start}, before the high-water mark {mark}"
  | stretchOutsideWindow stretch window =>
      s!"blocks {stretch.describe} are not inside the requested range {window}"
  | eventWithoutStretch block => s!"event in block {block} was returned without any block span"
  | eventOutsideStretch fault => fault.message

structure Chronicle where
  window : Window
  stretch : Option Stretch
  /-- All events, ordered by block, then by kind, then as in the batch. -/
  events : List Event
deriving DecidableEq

namespace Chronicle

/-! ## Building -/

/-- The blocks lie inside the window, the first one strictly after its start. -/
def checkStretch (window : Window) : Option Stretch → Except ChronicleFault Unit
  | none => .ok ()
  | some stretch =>
      if stretch.times.start ≤ window.start ∨ window.stop < stretch.times.stop then
        .error (.stretchOutsideWindow stretch window)
      else
        .ok ()

def checkEvent (stretch : Option Stretch) (event : Event) : Except ChronicleFault Unit :=
  match stretch with
  | none => .error (.eventWithoutStretch event.block)
  | some stretch =>
      if stretch.blocks.contains event.block then .ok ()
      else .error (.eventOutsideStretch ⟨event.block, stretch.blocks⟩)

def checkEvents (stretch : Option Stretch) : List Event → Except ChronicleFault Unit
  | [] => .ok ()
  | event :: events => do
      checkEvent stretch event
      checkEvents stretch events

def checkStart (window : Window) : Option Instant → Except ChronicleFault Unit
  | none => .ok ()
  | some mark =>
      if window.start < mark then .error (.startsTooEarly window.start mark) else .ok ()

/-- The chronicle of a batch; everything up to `mark` is known already. -/
def ofBatch (batch : Batch) (mark : Option Instant) : Except ChronicleFault Chronicle := do
  checkStart batch.window mark
  checkStretch batch.window batch.stretch
  checkEvents batch.stretch batch.events
  return {
    window := batch.window
    stretch := batch.stretch
    events := batch.events.mergeSort fun a b => a.block ≤ b.block }

/-! ## Telling -/

def lastBlock? (chronicle : Chronicle) : Option BlockNumber :=
  chronicle.stretch.map fun stretch => stretch.blocks.last

def eventsOf (block : BlockNumber) (events : List Event) : List Event :=
  events.takeWhile fun event => event.block = block

def eventsAfter (block : BlockNumber) (events : List Event) : List Event :=
  events.dropWhile fun event => event.block = block

theorem eventsOf_append_eventsAfter (block : BlockNumber) (events : List Event) :
    eventsOf block events ++ eventsAfter block events = events :=
  List.takeWhile_append_dropWhile

theorem block_of_mem_eventsOf {block : BlockNumber} {events : List Event} {event : Event}
    (h : event ∈ eventsOf block events) : event.block = block := by
  have := List.all_takeWhile (p := fun event : Event => event.block = block) (l := events)
  exact of_decide_eq_true (List.all_eq_true.1 this event h)

def blocksFrom (stretch : Stretch) : Nat → BlockNumber → List Event → List Block
  | 0, _, _ => []
  | count + 1, block, events =>
      ⟨block, stretch.estimate block, eventsOf block events⟩
        :: blocksFrom stretch count (block + 1) (eventsAfter block events)

def blocks (chronicle : Chronicle) : List Block :=
  match chronicle.stretch with
  | none => []
  | some stretch => blocksFrom stretch stretch.blocks.size stretch.blocks.first chronicle.events

end Chronicle

end StorageMarket
