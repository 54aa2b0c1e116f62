import StorageMarket.Identity
import StorageMarket.Instant

/-!
# Storage requests

A client publishes a request: a dataset, split into slots, is to be stored on given
terms. The request never changes; what becomes of it is told by its stage and by the
hosts of its slots.
-/

namespace StorageMarket

abbrev BlockNumber := UInt64

abbrev SlotIndex := UInt64

abbrev Period := UInt64

/-- The number of amounts there are: two to the power of 128. -/
abbrev Amount.size : Nat := 340282366920938463463374607431768211456

/-- An amount of tokens, of at most 128 bits. -/
abbrev Amount := Fin Amount.size

example : Amount.size = Nat.pow 2 128 := by decide

/-- The terms on which a client wants a dataset stored. -/
structure Terms where
  /-- The number of slots the dataset is split into. -/
  slots : UInt64
  slotSize : UInt64
  /-- How long the storage lasts once the request has started, in seconds. -/
  duration : UInt64
  /-- The mean number of periods between two required proofs. -/
  proofProbability : UInt64
  /-- The reward of the hosts, per byte and second. -/
  pricePerBytePerSecond : Amount
  /-- What a host has to put down, per byte. -/
  collateralPerByte : Amount
  /-- How many slots may be lost before the request fails. -/
  maxSlotLoss : UInt64
deriving DecidableEq

/-- How long the storage lasts, no longer than the longest duration there is. -/
def Terms.storageTime (terms : Terms) : Duration :=
  (Duration.ofSeconds? terms.duration.toNat).getD Duration.longest

structure Request where
  id : RequestId
  client : Address
  terms : Terms
  /-- The name of the dataset by its content. -/
  contentCid : String
  /-- After this moment the request can no longer start. -/
  expiry : Instant
deriving DecidableEq

/-! ## Stages -/

inductive Stage where
  /-- Published, waiting for hosts. -/
  | new
  /-- All slots were filled and the storage is running. -/
  | started
  /-- The storage time went by. -/
  | finished
  /-- The request expired before it started. -/
  | cancelled
  /-- Too many slots were lost. -/
  | failed
deriving DecidableEq

namespace Stage

/-- A request only moves forward: it starts or is given up, and once started it ends. -/
def canBecome : Stage → Stage → Bool
  | new, started => true
  | new, cancelled => true
  | new, failed => true
  | started, finished => true
  | started, failed => true
  | _, _ => false

def name : Stage → String
  | new => "new"
  | started => "started"
  | finished => "finished"
  | cancelled => "cancelled"
  | failed => "failed"

def all : List Stage := [new, started, finished, cancelled, failed]

def ofName? (s : String) : Option Stage := all.find? fun stage => stage.name = s

@[simp] theorem ofName?_name (stage : Stage) : ofName? stage.name = some stage := by
  cases stage <;> decide +kernel

end Stage

end StorageMarket
