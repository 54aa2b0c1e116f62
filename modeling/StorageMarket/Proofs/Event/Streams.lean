import StorageMarket.Proofs.Chronicle.Completeness

/-!
# Events in streams

A list of events is sorted into one stream for each kind, and the streams are strung together
again. What comes out is the stable sort of the list by kind: the kinds in their order, and
the events of one kind as they came. That is the order in which a chronicle applies the events
of one block, so it makes no difference to it in which order the kinds came in.

Nothing is lost on the way. A batch is known once its events are, and two lists make the same
batch exactly if they hold the same events of each kind in the same order.
-/

namespace StorageMarket

namespace Event

def kindPrecedes (a b : Event) : Bool := a.kind.rank ≤ b.kind.rank

variable {events : List Event}

theorem kindPrecedes_iff (a b : Event) :
    a.kindPrecedes b = true ↔ a.kind.rank ≤ b.kind.rank := decide_eq_true_iff

/-- Within one block the order of the places is that of the kinds. -/
theorem filter_block_mergeSort (events : List Event) (n : BlockNumber) :
    (events.mergeSort precedes).filter (fun e => e.block = n)
      = (events.filter fun e => e.block = n).mergeSort kindPrecedes := by
  refine eq_mergeSort kindPrecedes_iff ?_ fun k => ?_
  · refine ((pairwise_mergeSort_precedes events).sublist List.filter_sublist).imp_of_mem ?_
    intro a b ha hb hplace
    have hblock : a.block = b.block :=
      (of_decide_eq_true (List.mem_filter.1 ha).2).trans
        (of_decide_eq_true (List.mem_filter.1 hb).2).symm
    rw [place, place, hblock] at hplace
    omega
  · have hone (a b : Event) (ha : (decide (a.kind.rank = k) && decide (a.block = n)) = true)
        (hb : (decide (b.kind.rank = k) && decide (b.block = n)) = true) :
        a.place ≤ b.place := by
      rw [Bool.and_eq_true, decide_eq_true_iff, decide_eq_true_iff] at ha hb
      rw [place, place, ha.1, ha.2, hb.1, hb.2]
    rw [List.filter_filter, List.filter_filter,
      filter_mergeSort precedes_iff hone]

end Event

namespace Batch

variable {window : Window} {stretch : Option Stretch} {events others : List Event}

/-- Sorting events into streams and stringing these together sorts the events by kind. -/
theorem events_ofEvents (window : Window) (stretch : Option Stretch) (events : List Event) :
    (ofEvents window stretch events).events = events.mergeSort Event.kindPrecedes := by
  refine eq_mergeSort Event.kindPrecedes_iff (pairwise_events _) fun k => ?_
  exact filter_events_ofEvents_of_kind (fun a b ha hb => Event.rank_injective
    ((of_decide_eq_true ha).trans (of_decide_eq_true hb).symm)) window stretch events

theorem ofEvents_eq_iff :
    ofEvents window stretch events = ofEvents window stretch others ↔
      ∀ kind, events.filter (fun e => e.kind = kind) = others.filter fun e => e.kind = kind := by
  constructor
  · intro h kind
    rw [← stream_ofEvents window stretch, h, stream_ofEvents]
  · intro h
    refine eq_of_streams ?_ ?_ fun kind => ?_
    · rw [window_ofEvents, window_ofEvents]
    · rw [stretch_ofEvents, stretch_ofEvents]
    · rw [stream_ofEvents, stream_ofEvents, h]

end Batch

namespace Chronicle

/-- The events of a told block are those of the list that are in it, sorted by kind. -/
theorem events_of_ofBatch_ofEvents {window : Window} {stretch : Option Stretch}
    {events : List Event} {mark : Option Instant} {told : Chronicle}
    (htold : ofBatch (.ofEvents window stretch events) mark = .ok told) {block : Block}
    (hm : block ∈ told.blocks) :
    block.events
      = (events.filter fun e => e.block = block.number).mergeSort Event.kindPrecedes := by
  obtain ⟨_, _, _, heq⟩ := ofBatch_eq_ok.1 htold
  have hevents : told.events = events.mergeSort Event.precedes := by
    rw [heq, ← Batch.mergeSort_events_ofEvents window stretch]
  rw [(orderly_of_ofBatch htold).events_eq_filter hm, hevents, Event.filter_block_mergeSort]

end Chronicle

namespace Batch

/-- Sorting a list of events into streams and stringing these together again is the stable sort of
the list by kind, the order in which the events of each block of the chronicle are told, and the
batch has as many events as the list. The events of any batch, sorted into streams again, give that
batch. Two lists make the same batch exactly if they hold the same events of each kind in the same
order, and then the same chronicle, or the same reason why there is none. -/
theorem streams_are_lossless (batch : Batch) (window : Window) (stretch : Option Stretch)
    (events others : List Event) (mark : Option Instant) :
    (ofEvents window stretch events).events = events.mergeSort Event.kindPrecedes ∧
    (∀ told, Chronicle.ofBatch (ofEvents window stretch events) mark = .ok told →
      ∀ block ∈ told.blocks, block.events
        = (events.filter fun e => e.block = block.number).mergeSort Event.kindPrecedes) ∧
    (ofEvents window stretch events).size = events.length ∧
    ofEvents batch.window batch.stretch batch.events = batch ∧
    ((∀ kind, events.filter (fun e => e.kind = kind) = others.filter fun e => e.kind = kind) ↔
      ofEvents window stretch events = ofEvents window stretch others) ∧
    ((∀ kind, events.filter (fun e => e.kind = kind) = others.filter fun e => e.kind = kind) →
      Chronicle.ofBatch (ofEvents window stretch events) mark
        = Chronicle.ofBatch (ofEvents window stretch others) mark) := by
  refine ⟨events_ofEvents window stretch events, ?_, size_ofEvents window stretch events,
    ofEvents_events batch, ofEvents_eq_iff.symm, fun hkinds => ?_⟩
  · intro told htold block hm
    exact Chronicle.events_of_ofBatch_ofEvents htold hm
  · rw [ofEvents_eq_iff.2 hkinds]

/-- Four events of one request, in two orders that differ only between the kinds. -/
def arrivals (freedFirst : Bool) : List Event :=
  let id : RequestId := ⟨List.replicate 32 84, List.length_replicate⟩
  let freed : List Event := [.slotFreed ⟨32, id, 5⟩, .slotFreed ⟨31, id, 4⟩]
  let turns : List Event := [.failed ⟨32, id⟩, .fulfilled ⟨31, id⟩]
  if freedFirst then freed ++ turns else turns ++ freed

theorem streams_are_lossless_arrivals :
    arrivals true ≠ arrivals false ∧
    (ofEvents ⟨⟨830, 0, by decide⟩, ⟨860, 0, by decide⟩, by decide⟩ none (arrivals true)).events.map
      (fun e => (e.kind, e.block)) = [(.fulfilled, 31), (.failed, 32), (.slotFreed, 32),
        (.slotFreed, 31)] ∧
    ∀ window stretch mark, Chronicle.ofBatch (ofEvents window stretch (arrivals true)) mark
      = Chronicle.ofBatch (ofEvents window stretch (arrivals false)) mark := by
  refine ⟨by decide, by decide, fun window stretch mark => ?_⟩
  obtain ⟨_, _, _, _, _, hsame⟩ := streams_are_lossless (.empty window) window stretch
    (arrivals true) (arrivals false) mark
  refine hsame fun kind => ?_
  cases kind <;> rfl

end Batch

end StorageMarket
