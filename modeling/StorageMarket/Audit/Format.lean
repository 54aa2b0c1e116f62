import StorageMarket.Audit
import StorageMarket.Request.Format

/-!
# Reports as JSON
-/

namespace StorageMarket

def MissedProof.json (proof : MissedProof) : Json :=
  .object [
    ("host", Json.ofOption Bytes.json proof.host),
    ("request_id", proof.request.json),
    ("slot_index", jsonUInt64 proof.slot)]

def Report.json (report : Report) : Json :=
  .object [
    ("period_number", jsonUInt64 report.period),
    ("reference_block", jsonUInt64 report.referenceBlock),
    ("total_slots", .number report.totalSlots),
    ("required_proofs", .number report.requiredProofs),
    ("missed_proofs", .array (report.missedProofs.map MissedProof.json))]

end StorageMarket
