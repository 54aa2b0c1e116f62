import StorageMarket.Event
import StorageMarket.Range

/-!
# Batches of events

What a chain node answers when it is asked for the events of a window of time: the
window it has served, the stretch of blocks found in it, if any, and one stream of
events for each kind. The window is open at its start: a block at that very moment
does not belong to it.

A flat list of events is sorted into the streams, and the streams can be strung
together again, kind after kind.
-/

namespace StorageMarket

/-- The events of a window of time, one stream for each kind. -/
structure Batch where
  window : Window
  stretch : Option Stretch
  published : List Publication
  fulfilled : List Turn
  cancelled : List Turn
  failed : List Turn
  slotFilled : List Filling
  slotFreed : List Freeing
deriving DecidableEq

namespace Batch

def empty (window : Window) : Batch := ⟨window, none, [], [], [], [], [], []⟩

def add (batch : Batch) (event : Event) : Batch :=
  match event with
  | .published e => { batch with published := e :: batch.published }
  | .fulfilled e => { batch with fulfilled := e :: batch.fulfilled }
  | .cancelled e => { batch with cancelled := e :: batch.cancelled }
  | .failed e => { batch with failed := e :: batch.failed }
  | .slotFilled e => { batch with slotFilled := e :: batch.slotFilled }
  | .slotFreed e => { batch with slotFreed := e :: batch.slotFreed }

/-- Sorts a list of events into the streams; each stream keeps the order of the list. -/
def ofEvents (window : Window) (stretch : Option Stretch) (events : List Event) : Batch :=
  events.foldr (fun event batch => batch.add event) { empty window with stretch }

def events (batch : Batch) : List Event :=
  batch.published.map .published ++ batch.fulfilled.map .fulfilled
    ++ batch.cancelled.map .cancelled ++ batch.failed.map .failed
    ++ batch.slotFilled.map .slotFilled ++ batch.slotFreed.map .slotFreed

def size (batch : Batch) : Nat :=
  batch.published.length + batch.fulfilled.length + batch.cancelled.length
    + batch.failed.length + batch.slotFilled.length + batch.slotFreed.length

def isEmpty (batch : Batch) : Bool := batch.size = 0

theorem length_events (batch : Batch) : batch.events.length = batch.size := by
  simp only [events, size, List.length_append, List.length_map]

theorem size_add (batch : Batch) (event : Event) : (batch.add event).size = batch.size + 1 := by
  cases event <;> simp only [add, size, List.length_cons] <;> omega

theorem size_ofEvents (window : Window) (stretch : Option Stretch) (events : List Event) :
    (ofEvents window stretch events).size = events.length := by
  induction events with
  | nil => rfl
  | cons event events ih =>
      show ((ofEvents window stretch events).add event).size = _
      rw [size_add, ih, List.length_cons]

end Batch

end StorageMarket
