import StorageMarket.Event.Format
import StorageMarket.Recording

/-!
# Recordings as JSON

Events and proofs may be left out of a recording. The two parts of what is known
about a proof stand among the other members of its entry.
-/

namespace StorageMarket

open Json

namespace BlockStamp

def json (block : BlockStamp) : Json :=
  .object [("number", jsonUInt64 block.number), ("timestamp", block.time.json)]

def fields : Fields BlockStamp :=
  (Fields.required "number" decodeUInt64).map BlockStamp.mk
    |>.apply (.required "timestamp" Instant.decode)

end BlockStamp

namespace ProofStatus

def members (status : ProofStatus) : List (String × Json) :=
  [("required", .bool status.required), ("missing", .bool status.missing)]

def json (status : ProofStatus) : Json := .object status.members

def fields : Fields ProofStatus :=
  (Fields.required "required" decodeBool).map ProofStatus.mk
    |>.apply (.required "missing" decodeBool)

end ProofStatus

namespace ProofEntry

def json (entry : ProofEntry) : Json :=
  .object ([("request_id", entry.request.json), ("slot_index", jsonUInt64 entry.slot),
    ("period", jsonUInt64 entry.period)] ++ entry.status.members)

def ownFields : Fields (ProofStatus → ProofEntry) :=
  (Fields.required "request_id" (Bytes.decode 32)).map ProofEntry.mk
    |>.apply (.required "slot_index" decodeUInt64)
    |>.apply (.required "period" decodeUInt64)

def decode : Decoder ProofEntry := decodeJoined (· ·) ownFields ProofStatus.fields

end ProofEntry

namespace Recording

def json (recording : Recording) : Json :=
  .object [
    ("period_seconds", jsonUInt64 recording.periodSeconds),
    ("blocks", .array (recording.blocks.map BlockStamp.json)),
    ("events", .array (recording.events.map Event.json)),
    ("proofs", .array (recording.proofs.map ProofEntry.json))]

def fields : Fields Recording :=
  (Fields.required "period_seconds" decodeUInt64).map Recording.mk
    |>.apply (.required "blocks" (decodeList BlockStamp.fields.decode))
    |>.apply (.optional "events" (decodeList Event.decode) [])
    |>.apply (.optional "proofs" (decodeList ProofEntry.decode) [])

def ofText (text : List Char) : Except Fault Recording := readText fields.decode text

end Recording

end StorageMarket
