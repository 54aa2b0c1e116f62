import Mathlib.Data.List.Permutation
import StorageMarket.Proofs.Event.Format
import StorageMarket.Recording.Format

/-!
# Written recordings read back

Nothing of a recording is lost by writing it down: as long as no moment lies in a leap
second, the text reads back as the recording, and so does the text of each of its parts.
-/

namespace StorageMarket

open Json

/-! ## Parts -/

theorem BlockStamp.decode_json {block : BlockStamp} (h : block.time.Regular) (depth : Nat) :
    BlockStamp.fields.decode depth block.json.toOutline = .ok block := by
  have h := (Fields.yields_single "number" none (decodeUInt64_number block.number (depth + 1))).map
      BlockStamp.mk
    |>.field "timestamp" none (Instant.decode_json h _) (by simp)
  exact h.decode_object

theorem ProofStatus.yields (status : ProofStatus) (depth : Nat) :
    ProofStatus.fields.Yields depth status.members status :=
  (Fields.yields_single "required" none (decodeBool_bool status.required depth)).map ProofStatus.mk
    |>.field "missing" none (decodeBool_bool status.missing _) (by simp)

theorem ProofEntry.yields (entry : ProofEntry) (depth : Nat) :
    ProofEntry.ownFields.Yields depth [("request_id", entry.request.json),
      ("slot_index", jsonUInt64 entry.slot), ("period", jsonUInt64 entry.period)]
      (ProofEntry.mk entry.request entry.slot entry.period) :=
  (Fields.yields_single "request_id" none (Bytes.decode_json entry.request depth)).map ProofEntry.mk
    |>.field "slot_index" none (decodeUInt64_number entry.slot _) (by simp)
    |>.field "period" none (decodeUInt64_number entry.period _) (by simp)

theorem ProofEntry.decode_json (entry : ProofEntry) (depth : Nat) :
    ProofEntry.decode depth entry.json.toOutline = .ok entry :=
  decodeJoined_object (entry.yields _) (entry.status.yields _) (by simp [ProofStatus.members])
    (by simp [ProofStatus.members])

/-! ## Recordings -/

namespace Recording

/-- No moment of the recording lies in a leap second. -/
structure Regular (recording : Recording) : Prop where
  blocks : ∀ block ∈ recording.blocks, block.time.Regular
  events : ∀ event ∈ recording.events, event.Regular

instance (recording : Recording) : Decidable recording.Regular :=
  decidable_of_iff ((∀ block ∈ recording.blocks, block.time.Regular) ∧
    ∀ event ∈ recording.events, event.Regular) ⟨fun h => ⟨h.1, h.2⟩, fun h => ⟨h.blocks, h.events⟩⟩

theorem decode_json {recording : Recording} (h : recording.Regular) {depth : Nat}
    (hdepth : depth + 5 < nestingLimit) :
    fields.decode depth recording.json.toOutline = .ok recording := by
  have hblocks : decodeList BlockStamp.fields.decode (depth + 1)
      (array (recording.blocks.map BlockStamp.json)).toOutline = .ok recording.blocks :=
    decodeList_array fun block hblock => BlockStamp.decode_json (h.blocks block hblock) _
  have hevents : decodeList Event.decode (depth + 1)
      (array (recording.events.map Event.json)).toOutline = .ok recording.events :=
    decodeList_array fun event hevent => Event.decode_json (h.events event hevent) (by omega)
  have hproofs : decodeList ProofEntry.decode (depth + 1)
      (array (recording.proofs.map ProofEntry.json)).toOutline = .ok recording.proofs :=
    decodeList_array fun entry _ => entry.decode_json _
  have h := (Fields.yields_single "period_seconds" none
      (decodeUInt64_number recording.periodSeconds (depth + 1))).map Recording.mk
    |>.field "blocks" none hblocks (by simp)
    |>.field "events" (some []) hevents (by simp)
    |>.field "proofs" (some []) hproofs (by simp)
  exact h.decode_object

/-- Recordings and all that they are made of survive being written and read. -/
theorem round_trip :
    RoundTrips fields.decode json Regular ∧
    RoundTrips BlockStamp.fields.decode BlockStamp.json (fun block => block.time.Regular) ∧
    RoundTrips Event.decode Event.json Event.Regular ∧
    RoundTrips ProofEntry.decode ProofEntry.json (fun _ => True) ∧
    RoundTrips ProofStatus.fields.decode ProofStatus.json (fun _ => True) ∧
    RoundTrips Request.fields.decode Request.json (fun request => request.expiry.Regular) ∧
    RoundTrips Terms.fields.decode Terms.json (fun _ => True) ∧
    RoundTrips Amount.decode Amount.json (fun _ => True) ∧
    RoundTrips Instant.decode Instant.json Instant.Regular ∧
    ∀ n, RoundTrips (Bytes.decode n) Bytes.json (fun _ => True) := by
  refine ⟨roundTrips_of_decode fun _ h => decode_json h (by decide),
    roundTrips_of_decode fun _ h => BlockStamp.decode_json h 0,
    roundTrips_of_decode fun _ h => Event.decode_json h (by decide),
    roundTrips_of_decode fun entry _ => entry.decode_json 0,
    roundTrips_of_decode fun status _ => (status.yields 1).decode_object,
    roundTrips_of_decode fun _ h => Request.decode_json h 0,
    roundTrips_of_decode fun terms _ => terms.decode_json 0,
    roundTrips_of_decode fun amount _ => Amount.decode_json amount 0,
    roundTrips_of_decode fun _ h => Instant.decode_json h 0,
    fun n => roundTrips_of_decode fun bytes _ => bytes.decode_json 0⟩

/-- A recording with an event of each kind, numbers and moments at the ends of their ranges, and a
name that has to be escaped. -/
def fullRecording : Recording :=
  let id : RequestId := ⟨List.replicate 32 171, rfl⟩
  let host : Address := ⟨List.replicate 20 9, rfl⟩
  { periodSeconds := 18446744073709551615
    blocks := [⟨0, .earliest⟩, ⟨1, ⟨951827696, 120000, by decide⟩⟩, ⟨2, .latest⟩]
    events := [
      .published ⟨1, id, host,
        ⟨3, 0, 4096, 1, ⟨340282366920938463463374607431768211455, by decide⟩, ⟨7, by decide⟩, 1⟩,
        "a \"name\"\n\\ of two lines, − and 𝄞", .earliest⟩,
      .fulfilled ⟨1, id⟩, .cancelled ⟨2, id⟩, .failed ⟨2, id⟩,
      .slotFilled ⟨1, id, 18446744073709551615, host⟩, .slotFreed ⟨2, id, 0⟩]
    proofs := [⟨id, 2, 18446744073709551615, ⟨true, false⟩⟩] }

/-- The sample is read back, and a status that is written as a bare list of its fields is rewritten
as an object once and for all. -/
theorem round_trip_fullRecording :
    ofText fullRecording.json.compact = .ok fullRecording ∧
    ∃ written, rewrite ProofStatus.fields.decode ProofStatus.json "[true, false]".toList
        = .ok written ∧
      rewrite ProofStatus.fields.decode ProofStatus.json written = .ok written := by
  obtain ⟨hrecording, -, -, -, hstatus, -⟩ := round_trip
  refine ⟨hrecording.reads_back fullRecording (by decide), ?_⟩
  exact hstatus.idempotent _ ⟨true, false⟩ (by cbv) trivial

end Recording

end StorageMarket
