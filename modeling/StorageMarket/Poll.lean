import StorageMarket.Tracker

/-!
# Polling

Keeping a tracker close to the present: at every tick it is updated to a target that
lags behind the clock, so that only settled blocks are seen, and the reports that
have come up are handed on. A tick whose target does not lie after the mark updates
nothing. An update that may succeed later is left to the next tick; any other error
ends the polling.
-/

namespace StorageMarket

/-- How often to poll, and how far to stay behind the clock. -/
structure PollPlan where
  interval : Duration
  lag : Duration
deriving DecidableEq

namespace PollPlan

def default : PollPlan := ⟨.ofSeconds 10, .ofSeconds 60⟩

def target (plan : PollPlan) (now : Instant) : Instant := now.subOrEarliest plan.lag

end PollPlan

structure Polled where
  /-- The error that ended it, if one did. -/
  error : Option UpdateError
  /-- The reports handed on, batch by batch. -/
  batches : List (List Report)
deriving DecidableEq

namespace Tracker

variable {σ : Type}

/-- Updates a tracker if the target lies after its mark; an error that may pass is dropped. -/
def tryUpdate (source : Source σ) (oracle : Oracle σ) (target : Instant) :
    EStateM UpdateError (σ × Tracker) Unit := fun (world, tracker) =>
  if tracker.mark < target then
    match update source oracle target (world, tracker) with
    | .ok _ after => .ok () after
    | .error e after => if e.isRecoverable then .ok () after else .error e after
  else .ok () (world, tracker)

def tick (source : Source σ) (oracle : Oracle σ) (plan : PollPlan) (now : Instant) :
    EStateM UpdateError (σ × Tracker) (List Report) := do
  tryUpdate source oracle (plan.target now)
  modifyGet fun (world, tracker) =>
    let (reports, tracker) := tracker.drain
    (reports, (world, tracker))

/-- Polls at each reading of the clock until a tick leaves the chain in a state that `stop` holds
of, until an error ends it, or until there are no more readings. -/
def poll (source : Source σ) (oracle : Oracle σ) (plan : PollPlan) (stop : σ → Bool) :
    List Instant → σ × Tracker → Polled × (σ × Tracker)
  | [], state => (⟨none, []⟩, state)
  | now :: readings, state =>
      match tick source oracle plan now state with
      | .error e state => (⟨some e, []⟩, state)
      | .ok reports state =>
          let batch := if reports.isEmpty then [] else [reports]
          if stop state.1 then (⟨none, batch⟩, state)
          else
            let (polled, state) := poll source oracle plan stop readings state
            (⟨polled.error, batch ++ polled.batches⟩, state)

end Tracker

end StorageMarket
