import StorageMarket.Request.Occupancy

/-!
# Deals

A deal is a request together with what has become of it so far.
-/

namespace StorageMarket

structure Deal where
  request : Request
  stage : Stage
  createdBlock : BlockNumber
  createdAt : Instant
  hosts : Occupancy
deriving DecidableEq

namespace Deal

def publish (request : Request) (block : BlockNumber) (time : Instant) : Deal :=
  ⟨request, .new, block, time, .empty⟩

def id (deal : Deal) : RequestId := deal.request.id

/-- When a running deal is over: its creation and its storage time, no later than the last moment
of the calendar. -/
def finishTime (deal : Deal) : Instant := deal.createdAt.addOrLatest deal.request.terms.storageTime

def isRunning (deal : Deal) : Bool := deal.stage = .started

end Deal

end StorageMarket
