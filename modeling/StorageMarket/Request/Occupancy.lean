import StorageMarket.Request
import StorageMarket.Sorted.Map

/-!
# The hosts of a request

Each slot is stored by at most one host at a time. A slot that was filled once stays
known as such after its host has left.
-/

namespace StorageMarket

structure Occupancy where
  current : SortedMap SlotIndex Address
  /-- Every slot that has been filled at least once. -/
  everFilled : SortedSet SlotIndex
deriving DecidableEq

namespace Occupancy

def empty : Occupancy := ⟨.empty, .empty⟩

def host? (hosts : Occupancy) (slot : SlotIndex) : Option Address := hosts.current.get? slot

def isFilled (hosts : Occupancy) (slot : SlotIndex) : Bool := (hosts.host? slot).isSome

def wasEverFilled (hosts : Occupancy) (slot : SlotIndex) : Bool := hosts.everFilled.contains slot

def fill (hosts : Occupancy) (slot : SlotIndex) (host : Address) : Occupancy :=
  ⟨hosts.current.insert slot host, hosts.everFilled.insert slot⟩

def free (hosts : Occupancy) (slot : SlotIndex) : Occupancy :=
  { hosts with current := hosts.current.erase slot }

/-! ## Hosts after a change -/

theorem host?_fill {hosts : Occupancy} {slot s : SlotIndex} {host : Address} :
    (hosts.fill slot host).host? s = if s = slot then some host else hosts.host? s :=
  SortedMap.get?_insert

theorem host?_free {hosts : Occupancy} {slot s : SlotIndex} :
    (hosts.free slot).host? s = if s = slot then none else hosts.host? s :=
  SortedMap.get?_erase

theorem wasEverFilled_fill {hosts : Occupancy} {slot s : SlotIndex} {host : Address} :
    (hosts.fill slot host).wasEverFilled s = true ↔ s = slot ∨ hosts.wasEverFilled s = true := by
  rw [wasEverFilled, wasEverFilled, SortedSet.contains_iff, SortedSet.contains_iff]
  exact SortedSet.mem_insert

@[simp] theorem host?_empty (slot : SlotIndex) : empty.host? slot = none := rfl

@[simp] theorem wasEverFilled_empty (slot : SlotIndex) : empty.wasEverFilled slot = false := rfl

end Occupancy

end StorageMarket
