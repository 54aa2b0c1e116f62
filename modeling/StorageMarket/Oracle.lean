import StorageMarket.Event.Batch

/-!
# What is asked of the chain

Two things are asked: the events of a window of time, of a `Source`; and, of an
`Oracle`, in which proof period a moment lies and what is known about the proof of a
slot. Each answer may depend on the state of whoever is asked and may change it, so
that a question can fail now and succeed when it is asked again.
-/

namespace StorageMarket

/-! ## Events -/

inductive FetchError where
  /-- The node was not reached, or did not answer in time. -/
  | unavailable (reason : String)
  /-- The answer of the node makes no sense. -/
  | undecodable (reason : String)
  | other (reason : String)
deriving DecidableEq

def FetchError.message : FetchError → String
  | unavailable reason => s!"chain node unavailable: {reason}"
  | undecodable reason => s!"failed to decode chain events: {reason}"
  | other reason => reason

/-- Whoever answers for events. -/
structure Source (σ : Type) where
  /-- The events of the blocks after the start of a window and up to its end. -/
  fetch : Window → EStateM FetchError σ Batch

/-! ## Proofs -/

structure ProofStatus where
  /-- A proof had to be handed in. -/
  required : Bool
  /-- The required proof was never handed in. -/
  missing : Bool
deriving DecidableEq

def ProofStatus.notRequired : ProofStatus := ⟨false, false⟩

inductive OracleError where
  | unavailable (reason : String)
  | invalidConfiguration (reason : String)
  | other (reason : String)
deriving DecidableEq

def OracleError.message : OracleError → String
  | unavailable reason => s!"proof oracle unavailable: {reason}"
  | invalidConfiguration reason => s!"proof period configuration is invalid: {reason}"
  | other reason => reason

/-- Whoever answers for proof periods. -/
structure Oracle (σ : Type) where
  periodOf : Instant → EStateM OracleError σ Period
  /-- What is known, as of a block, about the proof of a slot of a request in a period. -/
  proofStatus : Request → SlotIndex → BlockNumber → Period → EStateM OracleError σ ProofStatus

end StorageMarket
