import StorageMarket.Event
import StorageMarket.Request.Format

/-!
# Events as JSON

An event is an object with its kind, its block and what else belongs to the kind.
-/

namespace StorageMarket

open Json

namespace Publication

def fields : Fields Publication :=
  (Fields.required "block" decodeUInt64).map Publication.mk
    |>.apply (.required "request" Request.fields.decode)

def members (event : Publication) : List (String × Json) :=
  [("block", jsonUInt64 event.block), ("request", event.request.json)]

end Publication

namespace Turn

def fields : Fields Turn :=
  (Fields.required "block" decodeUInt64).map Turn.mk
    |>.apply (.required "request_id" (Bytes.decode 32))

def members (event : Turn) : List (String × Json) :=
  [("block", jsonUInt64 event.block), ("request_id", event.request.json)]

end Turn

namespace Filling

def fields : Fields Filling :=
  (Fields.required "block" decodeUInt64).map Filling.mk
    |>.apply (.required "request_id" (Bytes.decode 32))
    |>.apply (.required "slot_index" decodeUInt64)
    |>.apply (.required "host" (Bytes.decode 20))

def members (event : Filling) : List (String × Json) :=
  [("block", jsonUInt64 event.block), ("request_id", event.request.json),
    ("slot_index", jsonUInt64 event.slot), ("host", event.host.json)]

end Filling

namespace Freeing

def fields : Fields Freeing :=
  (Fields.required "block" decodeUInt64).map Freeing.mk
    |>.apply (.required "request_id" (Bytes.decode 32))
    |>.apply (.required "slot_index" decodeUInt64)

def members (event : Freeing) : List (String × Json) :=
  [("block", jsonUInt64 event.block), ("request_id", event.request.json),
    ("slot_index", jsonUInt64 event.slot)]

end Freeing

namespace EventKind

def decode : Decoder EventKind := fun depth value => do
  let s ← decodeString depth value
  match ofName? s with
  | some kind => return kind
  | none => throw unexpected

def fields : EventKind → Fields Event
  | published => Publication.fields.map .published
  | fulfilled => Turn.fields.map .fulfilled
  | cancelled => Turn.fields.map .cancelled
  | failed => Turn.fields.map .failed
  | slotFilled => Filling.fields.map .slotFilled
  | slotFreed => Freeing.fields.map .slotFreed

end EventKind

namespace Event

def members : Event → List (String × Json)
  | published event => event.members
  | fulfilled event => event.members
  | cancelled event => event.members
  | failed event => event.members
  | slotFilled event => event.members
  | slotFreed event => event.members

def json (event : Event) : Json := .object (("kind", .string event.kind.name) :: event.members)

def decode : Decoder Event := decodeTagged "kind" EventKind.decode EventKind.fields

end Event

end StorageMarket
