import StorageMarket.Instant.Text
import StorageMarket.Json
import StorageMarket.Json.Decoder
import StorageMarket.Request

/-!
# Requests as JSON

Identifiers and instants are strings. Amounts are strings, too, as JSON numbers
cannot hold all of them; a plain number of at most 64 bits is read as well. The
remaining numbers are plain.
-/

namespace StorageMarket

open Json

/-! ## Parts -/

def jsonUInt64 (n : UInt64) : Json := .number n.toNat

def Bytes.json {n : Nat} (bytes : Bytes n) : Json := .string (toString bytes)

def Bytes.decode (n : Nat) : Decoder (Bytes n) :=
  decodeText fun text => (Bytes.ofHex n text).mapError fun fault => .refused fault.message

def Instant.json (t : Instant) : Json := .string (String.ofList t.exchange)

def Instant.decode : Decoder Instant :=
  decodeText fun text =>
    match Instant.ofText? text with
    | some t => .ok t
    | none => .error .unexpected

namespace Amount

def json (amount : Amount) : Json := .string (Decimal.text amount)

def ofDigits (text : List Char) : Except Mismatch Amount :=
  (Decimal.read Amount.size (by decide) text).mapError fun fault => .refused fault.message

/-- An amount, as a string of digits or as a number of at most 64 bits. -/
def decode : Decoder Amount := fun depth value =>
  match value with
  | .number _ => (decodeUInt64 depth value).map fun n =>
      ⟨n.toNat, Nat.lt_trans n.toNat_lt_size (by decide)⟩
  | _ => decodeText ofDigits depth value

end Amount

/-! ## Terms and requests -/

namespace Terms

def json (terms : Terms) : Json :=
  .object [
    ("slots", jsonUInt64 terms.slots),
    ("slot_size", jsonUInt64 terms.slotSize),
    ("duration", jsonUInt64 terms.duration),
    ("proof_probability", jsonUInt64 terms.proofProbability),
    ("price_per_byte_per_second", Amount.json terms.pricePerBytePerSecond),
    ("collateral_per_byte", Amount.json terms.collateralPerByte),
    ("max_slot_loss", jsonUInt64 terms.maxSlotLoss)]

def fields : Fields Terms :=
  (Fields.required "slots" decodeUInt64).map Terms.mk
    |>.apply (.required "slot_size" decodeUInt64)
    |>.apply (.required "duration" decodeUInt64)
    |>.apply (.required "proof_probability" decodeUInt64)
    |>.apply (.required "price_per_byte_per_second" Amount.decode)
    |>.apply (.required "collateral_per_byte" Amount.decode)
    |>.apply (.required "max_slot_loss" decodeUInt64)

end Terms

namespace Request

def json (request : Request) : Json :=
  .object [
    ("id", request.id.json),
    ("client", request.client.json),
    ("ask", request.terms.json),
    ("content_cid", .string request.contentCid),
    ("expiry", request.expiry.json)]

def fields : Fields Request :=
  (Fields.required "id" (Bytes.decode 32)).map Request.mk
    |>.apply (.required "client" (Bytes.decode 20))
    |>.apply (.required "ask" Terms.fields.decode)
    |>.apply (.required "content_cid" decodeString)
    |>.apply (.required "expiry" Instant.decode)

end Request

namespace Stage

def json (stage : Stage) : Json := .string stage.name

def decode : Decoder Stage := decodeName ofName?

end Stage

end StorageMarket
