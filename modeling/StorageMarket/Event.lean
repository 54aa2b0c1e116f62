import StorageMarket.Request

/-!
# Contract events

What the contract of the marketplace tells: a request is published, starts, is
cancelled or fails, and a host takes over a slot or leaves it. An event names the
block that emitted it; when that was is not part of it.
-/

namespace StorageMarket

structure Publication where
  block : BlockNumber
  request : Request
deriving DecidableEq

/-- A request takes a turn: it starts, is cancelled or fails. -/
structure Turn where
  block : BlockNumber
  request : RequestId
deriving DecidableEq

structure Filling where
  block : BlockNumber
  request : RequestId
  slot : SlotIndex
  host : Address
deriving DecidableEq

structure Freeing where
  block : BlockNumber
  request : RequestId
  slot : SlotIndex
deriving DecidableEq

inductive EventKind where
  | published
  | fulfilled
  | cancelled
  | failed
  | slotFilled
  | slotFreed
deriving DecidableEq

namespace EventKind

/-- All kinds, in the order in which events of one block are applied: a request has to be known
before it can change, and it changes as a whole before its slots do. -/
def all : List EventKind := [published, fulfilled, cancelled, failed, slotFilled, slotFreed]

def rank : EventKind → Nat
  | published => 0
  | fulfilled => 1
  | cancelled => 2
  | failed => 3
  | slotFilled => 4
  | slotFreed => 5

def name : EventKind → String
  | published => "storage_requested"
  | fulfilled => "request_fulfilled"
  | cancelled => "request_cancelled"
  | failed => "request_failed"
  | slotFilled => "slot_filled"
  | slotFreed => "slot_freed"

def ofName? (s : String) : Option EventKind := all.find? fun kind => kind.name = s

@[simp] theorem ofName?_name (kind : EventKind) : ofName? kind.name = some kind := by
  cases kind <;> decide +kernel

theorem all_pairwise_rank : all.Pairwise fun a b => a.rank < b.rank := by decide

end EventKind

inductive Event where
  | published (event : Publication)
  | fulfilled (event : Turn)
  | cancelled (event : Turn)
  | failed (event : Turn)
  | slotFilled (event : Filling)
  | slotFreed (event : Freeing)
deriving DecidableEq

namespace Event

def block : Event → BlockNumber
  | published event => event.block
  | fulfilled event => event.block
  | cancelled event => event.block
  | failed event => event.block
  | slotFilled event => event.block
  | slotFreed event => event.block

def kind : Event → EventKind
  | published _ => .published
  | fulfilled _ => .fulfilled
  | cancelled _ => .cancelled
  | failed _ => .failed
  | slotFilled _ => .slotFilled
  | slotFreed _ => .slotFreed

def request : Event → RequestId
  | published event => event.request.id
  | fulfilled event => event.request
  | cancelled event => event.request
  | failed event => event.request
  | slotFilled event => event.request
  | slotFreed event => event.request

end Event

end StorageMarket
