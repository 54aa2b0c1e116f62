import StorageMarket.Event.Format
import StorageMarket.Proofs.Request.Format

/-!
# Written events read back

The fields of an event wait aside until its kind is known, so an event is read back
wherever there is room for two more levels: that of a request and that of its terms.
-/

namespace StorageMarket

open Json

/-! ## Content that waits aside -/

theorem Terms.inspect_json (terms : Terms) {depth : Nat} (h : depth + 1 < nestingLimit) :
    terms.json.toOutline.inspect depth = .ok () := by
  refine inspect_object h ?_
  simp [jsonUInt64, Amount.json]

theorem Request.inspect_json (request : Request) {depth : Nat} (h : depth + 2 < nestingLimit) :
    request.json.toOutline.inspect depth = .ok () := by
  refine inspect_object (by omega) ?_
  simp [Bytes.json, Instant.json, request.terms.inspect_json h]

/-! ## Kinds of events -/

theorem EventKind.decode_name (kind : EventKind) (depth : Nat) :
    EventKind.decode depth (Json.string kind.name).toOutline = .ok kind := by
  simp only [EventKind.decode, decodeString_string, except_ok_bind, EventKind.ofName?_name]
  rfl

theorem Publication.yields {event : Publication} (h : event.request.expiry.Regular) (depth : Nat) :
    Publication.fields.Yields depth event.members event :=
  (Fields.yields_single "block" none (decodeUInt64_number event.block depth)).map Publication.mk
    |>.field "request" none (Request.decode_json h _) (by simp)

theorem Turn.yields (event : Turn) (depth : Nat) :
    Turn.fields.Yields depth event.members event :=
  (Fields.yields_single "block" none (decodeUInt64_number event.block depth)).map Turn.mk
    |>.field "request_id" none (Bytes.decode_json event.request _) (by simp)

theorem Filling.yields (event : Filling) (depth : Nat) :
    Filling.fields.Yields depth event.members event :=
  (Fields.yields_single "block" none (decodeUInt64_number event.block depth)).map Filling.mk
    |>.field "request_id" none (Bytes.decode_json event.request _) (by simp)
    |>.field "slot_index" none (decodeUInt64_number event.slot _) (by simp)
    |>.field "host" none (Bytes.decode_json event.host _) (by simp)

theorem Freeing.yields (event : Freeing) (depth : Nat) :
    Freeing.fields.Yields depth event.members event :=
  (Fields.yields_single "block" none (decodeUInt64_number event.block depth)).map Freeing.mk
    |>.field "request_id" none (Bytes.decode_json event.request _) (by simp)
    |>.field "slot_index" none (decodeUInt64_number event.slot _) (by simp)

/-! ## Events -/

namespace Event

/-- No moment that the event tells lies in a leap second. -/
def Regular : Event → Prop
  | published event => event.request.expiry.Regular
  | _ => True

instance : DecidablePred Regular := fun event =>
  match event with
  | published event => inferInstanceAs (Decidable event.request.expiry.Regular)
  | fulfilled _ => .isTrue trivial
  | cancelled _ => .isTrue trivial
  | failed _ => .isTrue trivial
  | slotFilled _ => .isTrue trivial
  | slotFreed _ => .isTrue trivial

theorem yields {event : Event} (h : event.Regular) (depth : Nat) :
    event.kind.fields.Yields depth event.members event := by
  cases event with
  | published event => exact (Publication.yields h depth).map Event.published
  | fulfilled event => exact (event.yields depth).map Event.fulfilled
  | cancelled event => exact (event.yields depth).map Event.cancelled
  | failed event => exact (event.yields depth).map Event.failed
  | slotFilled event => exact (event.yields depth).map Event.slotFilled
  | slotFreed event => exact (event.yields depth).map Event.slotFreed

/-- Whatever the kind of an event, what else belongs to it can wait aside. -/
theorem plain (event : Event) {depth : Nat} (h : depth + 2 < nestingLimit) :
    Plain depth event.members := by
  cases event with
  | published event =>
      simp [members, Publication.members, jsonUInt64, event.request.inspect_json h]
  | fulfilled event => simp [members, Turn.members, jsonUInt64, Bytes.json]
  | cancelled event => simp [members, Turn.members, jsonUInt64, Bytes.json]
  | failed event => simp [members, Turn.members, jsonUInt64, Bytes.json]
  | slotFilled event => simp [members, Filling.members, jsonUInt64, Bytes.json]
  | slotFreed event => simp [members, Freeing.members, jsonUInt64, Bytes.json]

theorem kind_not_mem (event : Event) : "kind" ∉ event.members.map Prod.fst := by
  cases event <;>
    simp [members, Publication.members, Turn.members, Filling.members, Freeing.members]

theorem decode_json {event : Event} (h : event.Regular) {depth : Nat}
    (hdepth : depth + 3 < nestingLimit) : Event.decode depth event.json.toOutline = .ok event :=
  decodeTagged_object (EventKind.decode_name event.kind _) (yields h _)
    (event.plain (by omega)) event.kind_not_mem

end Event

end StorageMarket
