import StorageMarket.Proofs.Identity.Hex
import StorageMarket.Proofs.Instant.Text
import StorageMarket.Proofs.Json.Decoder
import StorageMarket.Request.Format

/-!
# Written requests read back

A request and all its parts are read back at any depth, provided that it does not expire
in a leap second.
-/

namespace StorageMarket

open Json

/-! ## Parts -/

theorem Bytes.decode_json {n : Nat} (bytes : Bytes n) (depth : Nat) :
    Bytes.decode n depth bytes.json.toOutline = .ok bytes := by
  refine decodeText_string ?_ depth
  rw [Bytes.ofHex_hex]
  rfl

theorem Instant.decode_json {t : Instant} (h : t.Regular) (depth : Nat) :
    Instant.decode depth t.json.toOutline = .ok t := by
  refine decodeText_string ?_ depth
  rw [Instant.ofText?_exchange h]

theorem Amount.decode_json (amount : Amount) (depth : Nat) :
    Amount.decode depth (Amount.json amount).toOutline = .ok amount := by
  have hread : Amount.ofDigits (Decimal.digits amount) = .ok amount := by
    rw [Amount.ofDigits, Decimal.read_digits]
    rfl
  exact decodeText_string hread depth

/-! ## Terms and requests -/

theorem Terms.decode_json (terms : Terms) (depth : Nat) :
    Terms.fields.decode depth terms.json.toOutline = .ok terms := by
  have h := (Fields.yields_single "slots" none (decodeUInt64_number terms.slots (depth + 1))).map
      Terms.mk
    |>.field "slot_size" none (decodeUInt64_number terms.slotSize _) (by simp)
    |>.field "duration" none (decodeUInt64_number terms.duration _) (by simp)
    |>.field "proof_probability" none (decodeUInt64_number terms.proofProbability _) (by simp)
    |>.field "price_per_byte_per_second" none (Amount.decode_json terms.pricePerBytePerSecond _)
      (by simp)
    |>.field "collateral_per_byte" none (Amount.decode_json terms.collateralPerByte _) (by simp)
    |>.field "max_slot_loss" none (decodeUInt64_number terms.maxSlotLoss _) (by simp)
  exact h.decode_object

theorem Request.decode_json {request : Request} (h : request.expiry.Regular) (depth : Nat) :
    Request.fields.decode depth request.json.toOutline = .ok request := by
  have h := (Fields.yields_single "id" none (Bytes.decode_json request.id (depth + 1))).map
      Request.mk
    |>.field "client" none (Bytes.decode_json request.client _) (by simp)
    |>.field "ask" none (Terms.decode_json request.terms _) (by simp)
    |>.field "content_cid" none (decodeString_string request.contentCid _) (by simp)
    |>.field "expiry" none (Instant.decode_json h _) (by simp)
  exact h.decode_object

end StorageMarket
