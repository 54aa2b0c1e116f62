import StorageMarket.Event.Batch
import StorageMarket.Proofs.Lists

/-!
# The order of events

Events are told by block, and within a block by kind. Both together give an event its
`place`, one number, and events of one place stay in the order in which they came.

A list in that order is known once it is known, place by place, which events it holds
(`eq_mergeSort`). So sorting a batch, which is strung together kind after kind, by block
gives what sorting the events themselves by place gives.
-/

namespace StorageMarket

namespace Event

/-- Whether an event may be told before another one: an earlier block comes first, and within a
block an earlier kind. -/
def precedes (a b : Event) : Bool :=
  a.block < b.block || (a.block = b.block && a.kind.rank ≤ b.kind.rank)

def place (event : Event) : Nat := event.block.toNat * 6 + event.kind.rank

theorem rank_lt (kind : EventKind) : kind.rank < 6 := by cases kind <;> decide

theorem rank_injective {kind other : EventKind} (h : kind.rank = other.rank) : kind = other := by
  cases kind <;> cases other <;> first | rfl | exact nomatch h

theorem precedes_iff (a b : Event) : a.precedes b = true ↔ a.place ≤ b.place := by
  have ha := rank_lt a.kind
  have hb := rank_lt b.kind
  rw [precedes, Bool.or_eq_true, Bool.and_eq_true, decide_eq_true_iff, decide_eq_true_iff,
    decide_eq_true_iff, UInt64.lt_iff_toNat_lt, ← UInt64.toNat_inj, place, place]
  omega

theorem block_of_place_eq {a b : Event} (h : a.place = b.place) : a.block = b.block := by
  have ha := rank_lt a.kind
  have hb := rank_lt b.kind
  rw [place, place] at h
  rw [← UInt64.toNat_inj]
  omega

theorem kind_of_place_eq {a b : Event} (h : a.place = b.place) : a.kind = b.kind := by
  have ha := rank_lt a.kind
  have hb := rank_lt b.kind
  rw [place, place] at h
  exact rank_injective (by omega)

theorem place_lt_of_block_lt {a b : Event} (h : a.block < b.block) : a.place < b.place := by
  have ha := rank_lt a.kind
  rw [UInt64.lt_iff_toNat_lt] at h
  rw [place, place]
  omega

theorem blockPrecedes_iff (a b : Event) :
    decide (a.block ≤ b.block) = true ↔ a.block.toNat ≤ b.block.toNat := by
  rw [decide_eq_true_iff, UInt64.le_iff_toNat_le]

/-! ## Lists in order -/

/-- Events ordered by block, and within each block by kind, are in order. -/
theorem pairwise_place_of_blocks {events : List Event}
    (h : events.Pairwise fun a b => a.block ≤ b.block)
    (hkinds : ∀ n, (events.filter fun e => e.block = n).Pairwise
      fun a b => a.kind.rank ≤ b.kind.rank) :
    events.Pairwise fun a b => a.place ≤ b.place := by
  induction events with
  | nil => exact List.Pairwise.nil
  | cons a events ih =>
      rw [List.pairwise_cons] at h ⊢
      constructor
      · intro b hb
        by_cases hblock : a.block = b.block
        · have hhead := hkinds a.block
          rw [List.filter_cons_of_pos (by simp), List.pairwise_cons] at hhead
          have hkind := hhead.1 b (List.mem_filter.2 ⟨hb, by simp [hblock]⟩)
          rw [place, place, hblock]
          omega
        · have hlt := UInt64.lt_of_le_of_ne (h.1 b hb) hblock
          exact Nat.le_of_lt (place_lt_of_block_lt hlt)
      · refine ih h.2 fun n => (hkinds n).sublist ?_
        exact (List.sublist_cons_self a events).filter _

theorem pairwise_mergeSort_blocks (events : List Event) :
    (events.mergeSort fun a b => a.block ≤ b.block).Pairwise fun a b => a.block ≤ b.block :=
  (pairwise_mergeSort blockPrecedes_iff events).imp UInt64.le_iff_toNat_le.2

theorem pairwise_mergeSort_precedes (events : List Event) :
    (events.mergeSort precedes).Pairwise fun a b => a.place ≤ b.place :=
  pairwise_mergeSort precedes_iff events

theorem filter_mergeSort_precedes (events : List Event) (k : Nat) :
    (events.mergeSort precedes).filter (fun e => e.place = k)
      = events.filter fun e => e.place = k :=
  filter_key_mergeSort precedes_iff events k

/-- It does not matter whether events are picked before they are sorted or after. -/
theorem mergeSort_filter (events : List Event) (p : Event → Bool) :
    (events.filter p).mergeSort precedes = (events.mergeSort precedes).filter p := by
  have hsorted := (pairwise_mergeSort_precedes events).sublist (List.filter_sublist (p := p))
  refine (eq_mergeSort precedes_iff hsorted fun k => ?_).symm
  have hcomm (l : List Event) : (l.filter p).filter (fun e => e.place = k)
      = (l.filter fun e => e.place = k).filter p := by
    rw [List.filter_filter, List.filter_filter]
    exact List.filter_congr fun e _ => Bool.and_comm ..
  rw [hcomm, hcomm, filter_mergeSort_precedes]

/-- Events of which some come before all others can be sorted apart. -/
theorem mergeSort_partition {events : List Event} {p : Event → Bool}
    (hp : ∀ a ∈ events, ∀ b ∈ events, p a = true → p b = false → a.place < b.place) :
    events.mergeSort precedes
      = (events.filter p).mergeSort precedes
        ++ (events.filter fun e => !p e).mergeSort precedes := by
  refine (eq_mergeSort precedes_iff ?_ fun k => ?_).symm
  · refine List.pairwise_append.2 ⟨pairwise_mergeSort_precedes _, pairwise_mergeSort_precedes _, ?_⟩
    intro a ha b hb
    rw [List.mem_mergeSort, List.mem_filter] at ha hb
    exact Nat.le_of_lt (hp a ha.1 b hb.1 ha.2 (by simpa using hb.2))
  · rw [List.filter_append, filter_mergeSort_precedes, filter_mergeSort_precedes,
      List.filter_filter, List.filter_filter]
    -- the events of one place are all on one side
    have hside : ∃ v, ∀ e ∈ events, e.place = k → p e = v := by
      by_cases hsome : ∃ a ∈ events, p a = true ∧ a.place = k
      · obtain ⟨a, ha, hpa, hk⟩ := hsome
        refine ⟨true, fun b hb hbk => ?_⟩
        cases hpb : p b with
        | true => rfl
        | false =>
            have := hp a ha b hb hpa hpb
            omega
      · refine ⟨false, fun b hb hbk => ?_⟩
        cases hpb : p b with
        | true => exact absurd ⟨b, hb, hpb, hbk⟩ hsome
        | false => rfl
    obtain ⟨v, hv⟩ := hside
    have hleft : events.filter (fun e => decide (e.place = k) && p e)
        = events.filter fun e => decide (e.place = k) && v := by
      refine List.filter_congr fun e he => ?_
      by_cases hk : e.place = k
      · rw [hv e he hk]
      · simp [hk]
    have hright : events.filter (fun e => decide (e.place = k) && !p e)
        = events.filter fun e => decide (e.place = k) && !v := by
      refine List.filter_congr fun e he => ?_
      by_cases hk : e.place = k
      · rw [hv e he hk]
      · simp [hk]
    rw [hleft, hright]
    cases v <;> simp

end Event

namespace Batch

/-! ## Batches in order -/

@[simp] theorem window_ofEvents (window : Window) (stretch : Option Stretch)
    (events : List Event) : (ofEvents window stretch events).window = window := by
  induction events with
  | nil => rfl
  | cons event events ih => cases event <;> exact ih

@[simp] theorem stretch_ofEvents (window : Window) (stretch : Option Stretch)
    (events : List Event) : (ofEvents window stretch events).stretch = stretch := by
  induction events with
  | nil => rfl
  | cons event events ih => cases event <;> exact ih

def stream (batch : Batch) : EventKind → List Event
  | .published => batch.published.map .published
  | .fulfilled => batch.fulfilled.map .fulfilled
  | .cancelled => batch.cancelled.map .cancelled
  | .failed => batch.failed.map .failed
  | .slotFilled => batch.slotFilled.map .slotFilled
  | .slotFreed => batch.slotFreed.map .slotFreed

theorem events_eq_flatMap (batch : Batch) : batch.events = EventKind.all.flatMap batch.stream := by
  simp [events, EventKind.all, stream]

theorem kind_of_mem_stream {batch : Batch} {kind : EventKind} {event : Event}
    (h : event ∈ batch.stream kind) : event.kind = kind := by
  cases kind <;> obtain ⟨e, _, rfl⟩ := List.mem_map.1 h <;> rfl

theorem stream_add (batch : Batch) (event : Event) (kind : EventKind) :
    (batch.add event).stream kind
      = if event.kind = kind then event :: batch.stream kind else batch.stream kind := by
  cases event <;> cases kind <;> rfl

theorem stream_ofEvents (window : Window) (stretch : Option Stretch) (events : List Event)
    (kind : EventKind) :
    (ofEvents window stretch events).stream kind = events.filter fun e => e.kind = kind := by
  induction events with
  | nil => cases kind <;> rfl
  | cons event events ih =>
      show ((ofEvents window stretch events).add event).stream kind = _
      rw [stream_add, ih]
      by_cases hkind : event.kind = kind
      · rw [if_pos hkind, List.filter_cons_of_pos (by simp [hkind])]
      · rw [if_neg hkind, List.filter_cons_of_neg (by simp [hkind])]

theorem pairwise_events (batch : Batch) :
    batch.events.Pairwise fun a b => a.kind.rank ≤ b.kind.rank := by
  rw [events_eq_flatMap, List.pairwise_flatMap]
  constructor
  · intro kind _
    refine List.pairwise_of_forall_mem_list fun a ha b hb => ?_
    have hsame : a.kind = b.kind := (kind_of_mem_stream ha).trans (kind_of_mem_stream hb).symm
    exact Nat.le_of_eq (congrArg EventKind.rank hsame)
  · refine EventKind.all_pairwise_rank.imp fun hlt a ha b hb => ?_
    rw [kind_of_mem_stream ha, kind_of_mem_stream hb]
    exact Nat.le_of_lt hlt

theorem filter_stream (batch : Batch) (kind other : EventKind) :
    (batch.stream other).filter (fun e => e.kind = kind)
      = if other = kind then batch.stream kind else [] := by
  split
  · next h =>
      subst h
      exact List.filter_eq_self.2 fun e he => decide_eq_true (kind_of_mem_stream he)
  · next h =>
      refine List.filter_eq_nil_iff.2 fun e he => ?_
      rw [kind_of_mem_stream he, decide_eq_true_iff]
      exact h

theorem filter_events (batch : Batch) (kind : EventKind) :
    batch.events.filter (fun e => e.kind = kind) = batch.stream kind := by
  rw [events_eq_flatMap, List.filter_flatMap]
  simp only [filter_stream]
  cases kind <;> simp [EventKind.all]

theorem filter_events_ofEvents (window : Window) (stretch : Option Stretch) (events : List Event)
    (kind : EventKind) :
    (ofEvents window stretch events).events.filter (fun e => e.kind = kind)
      = events.filter fun e => e.kind = kind := by
  rw [filter_events, stream_ofEvents]

theorem eq_of_streams {batch other : Batch} (hwindow : batch.window = other.window)
    (hstretch : batch.stretch = other.stretch)
    (hstreams : ∀ kind, batch.stream kind = other.stream kind) : batch = other := by
  have hpublished : batch.published = other.published :=
    (List.map_inj_right fun _ _ h => Event.published.inj h).1 (hstreams .published)
  have hfulfilled : batch.fulfilled = other.fulfilled :=
    (List.map_inj_right fun _ _ h => Event.fulfilled.inj h).1 (hstreams .fulfilled)
  have hcancelled : batch.cancelled = other.cancelled :=
    (List.map_inj_right fun _ _ h => Event.cancelled.inj h).1 (hstreams .cancelled)
  have hfailed : batch.failed = other.failed :=
    (List.map_inj_right fun _ _ h => Event.failed.inj h).1 (hstreams .failed)
  have hfilled : batch.slotFilled = other.slotFilled :=
    (List.map_inj_right fun _ _ h => Event.slotFilled.inj h).1 (hstreams .slotFilled)
  have hfreed : batch.slotFreed = other.slotFreed :=
    (List.map_inj_right fun _ _ h => Event.slotFreed.inj h).1 (hstreams .slotFreed)
  cases batch
  cases other
  subst hwindow hstretch hpublished hfulfilled hcancelled hfailed hfilled hfreed
  rfl

theorem ofEvents_events (batch : Batch) :
    ofEvents batch.window batch.stretch batch.events = batch := by
  apply eq_of_streams
  · exact window_ofEvents ..
  · exact stretch_ofEvents ..
  · intro kind
    rw [stream_ofEvents, filter_events]

theorem mem_events_ofEvents {window : Window} {stretch : Option Stretch} {events : List Event}
    {event : Event} : event ∈ (ofEvents window stretch events).events ↔ event ∈ events := by
  have := congrArg (event ∈ ·) (filter_events_ofEvents window stretch events event.kind)
  simpa using this

theorem filter_events_ofEvents_of_kind {p : Event → Bool}
    (hp : ∀ a b, p a = true → p b = true → a.kind = b.kind) (window : Window)
    (stretch : Option Stretch) (events : List Event) :
    (ofEvents window stretch events).events.filter p = events.filter p := by
  by_cases hsome : ∃ a ∈ events, p a = true
  · obtain ⟨a, _, ha⟩ := hsome
    have hkind (l : List Event) : l.filter p = (l.filter fun e => e.kind = a.kind).filter p := by
      rw [List.filter_filter]
      refine List.filter_congr fun b _ => ?_
      cases hb : p b with
      | true => simp [hp b a hb ha]
      | false => rfl
    rw [hkind, filter_events_ofEvents, ← hkind]
  · have hnone : ∀ a ∈ events, ¬ p a = true := fun a ha hpa => hsome ⟨a, ha, hpa⟩
    rw [List.filter_eq_nil_iff.2 hnone]
    exact List.filter_eq_nil_iff.2 fun a ha => hnone a (mem_events_ofEvents.1 ha)

/-- The order in which a batch is told is that of the places of the events. -/
theorem mergeSort_events_ofEvents (window : Window) (stretch : Option Stretch)
    (events : List Event) :
    ((ofEvents window stretch events).events.mergeSort fun a b => a.block ≤ b.block)
      = events.mergeSort Event.precedes := by
  have hkeep (p : Event → Bool) (hp : ∀ a b, p a = true → p b = true → a.block = b.block) :
      ((ofEvents window stretch events).events.mergeSort fun a b => a.block ≤ b.block).filter p
        = (ofEvents window stretch events).events.filter p := by
    refine filter_mergeSort Event.blockPrecedes_iff (fun a b ha hb => ?_) _
    exact Nat.le_of_eq (congrArg UInt64.toNat (hp a b ha hb))
  -- sorting by block keeps the kinds in order, and the stream of a kind is as in the list
  refine eq_mergeSort Event.precedes_iff ?_ fun k => ?_
  · refine Event.pairwise_place_of_blocks (Event.pairwise_mergeSort_blocks _) fun n => ?_
    rw [hkeep _ fun a b ha hb => (of_decide_eq_true ha).trans (of_decide_eq_true hb).symm]
    exact (pairwise_events _).sublist List.filter_sublist
  · rw [hkeep _ fun a b ha hb => Event.block_of_place_eq
      ((of_decide_eq_true ha).trans (of_decide_eq_true hb).symm)]
    exact filter_events_ofEvents_of_kind (fun a b ha hb => Event.kind_of_place_eq
      ((of_decide_eq_true ha).trans (of_decide_eq_true hb).symm)) window stretch events

theorem events_ofEvents_perm (window : Window) (stretch : Option Stretch) (events : List Event) :
    (ofEvents window stretch events).events.Perm events := by
  have hsorted := List.mergeSort_perm (ofEvents window stretch events).events
    fun a b => a.block ≤ b.block
  rw [mergeSort_events_ofEvents] at hsorted
  exact hsorted.symm.trans (List.mergeSort_perm events Event.precedes)

/-- Sorting the events of a batch by block sorts them by place. -/
theorem mergeSort_events (batch : Batch) :
    (batch.events.mergeSort fun a b => a.block ≤ b.block)
      = batch.events.mergeSort Event.precedes := by
  have hsorted := mergeSort_events_ofEvents batch.window batch.stretch batch.events
  rwa [ofEvents_events] at hsorted

end Batch

end StorageMarket
