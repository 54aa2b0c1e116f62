import StorageMarket.Chronicle
import StorageMarket.Proofs.Event.Order
import StorageMarket.Proofs.Lists
import StorageMarket.Proofs.Success

/-!
# What a chronicle tells

The blocks of a chronicle are numbered one after the other, and each takes the events
at the head of what is left. Since the events are ordered by block and none lies outside
of the blocks, each block gets just its own events, and no event is left over.

A batch makes a chronicle exactly when it passes the three checks.
-/

namespace StorageMarket.Chronicle

/-- The events are ordered by block, and each is in a block of the stretch. -/
structure Orderly (chronicle : Chronicle) : Prop where
  sorted : chronicle.events.Pairwise fun a b => a.block ≤ b.block
  inside : ∀ e ∈ chronicle.events,
    ∃ stretch, chronicle.stretch = some stretch ∧ stretch.blocks.contains e.block = true

/-! ## Checks -/

theorem checkStart_eq_ok {window : Window} {mark : Option Instant} :
    checkStart window mark = .ok () ↔ ∀ m ∈ mark, m ≤ window.start := by
  cases mark with
  | none => simp [checkStart]
  | some m =>
      rw [checkStart]
      split
      · next h => simp [Instant.not_le.2 h]
      · next h => simp [Instant.not_lt.1 h]

theorem checkStretch_eq_ok {window : Window} {stretch : Option Stretch} :
    checkStretch window stretch = .ok ()
      ↔ ∀ s ∈ stretch, window.start < s.times.start ∧ s.times.stop ≤ window.stop := by
  cases stretch with
  | none => simp [checkStretch]
  | some s =>
      rw [checkStretch]
      split
      · next h =>
          constructor
          · intro hok
            exact nomatch hok
          · intro hin
            obtain ⟨hstart, hstop⟩ := hin s rfl
            rcases h with h | h
            · exact absurd h (Instant.not_le.2 hstart)
            · exact absurd hstop (Instant.not_le.2 h)
      · next h =>
          rw [not_or, Instant.not_le, Instant.not_lt] at h
          simpa using h

theorem checkEvent_eq_ok {stretch : Option Stretch} {event : Event} :
    checkEvent stretch event = .ok ()
      ↔ ∃ s, stretch = some s ∧ s.blocks.contains event.block = true := by
  cases stretch with
  | none => simp [checkEvent]
  | some s =>
      rw [checkEvent]
      split
      · next h => simpa using h
      · next h => simpa using h

theorem checkEvents_eq_ok {stretch : Option Stretch} {events : List Event} :
    checkEvents stretch events = .ok ()
      ↔ ∀ e ∈ events, ∃ s, stretch = some s ∧ s.blocks.contains e.block = true := by
  induction events with
  | nil => simp [checkEvents]
  | cons event events ih =>
      rw [List.forall_mem_cons, ← checkEvent_eq_ok, ← ih, checkEvents]
      cases checkEvent stretch event with
      | error fault =>
          constructor
          · intro h
            exact nomatch h
          · rintro ⟨h, _⟩
            exact nomatch h
      | ok u => exact ⟨fun h => ⟨rfl, h⟩, And.right⟩

/-- A batch makes a chronicle exactly if it starts late enough, its stretch lies inside its window
and its events inside the stretch. -/
theorem ofBatch_eq_ok {batch : Batch} {mark : Option Instant} {told : Chronicle} :
    ofBatch batch mark = .ok told
      ↔ (∀ m ∈ mark, m ≤ batch.window.start) ∧
        (∀ s ∈ batch.stretch,
          batch.window.start < s.times.start ∧ s.times.stop ≤ batch.window.stop) ∧
        (∀ e ∈ batch.events, ∃ s, batch.stretch = some s ∧ s.blocks.contains e.block = true) ∧
        told = ⟨batch.window, batch.stretch,
          batch.events.mergeSort fun a b => a.block ≤ b.block⟩ := by
  rw [← checkStart_eq_ok, ← checkStretch_eq_ok, ← checkEvents_eq_ok, ofBatch]
  simp only [except_bind_eq_ok]
  constructor
  · rintro ⟨_, hstart, _, hstretch, _, hevents, htold⟩
    cases htold
    exact ⟨hstart, hstretch, hevents, rfl⟩
  · rintro ⟨hstart, hstretch, hevents, rfl⟩
    exact ⟨(), hstart, (), hstretch, (), hevents, rfl⟩

theorem orderly_of_ofBatch {batch : Batch} {mark : Option Instant} {told : Chronicle}
    (h : ofBatch batch mark = .ok told) : told.Orderly := by
  obtain ⟨_, _, hevents, rfl⟩ := ofBatch_eq_ok.1 h
  constructor
  · exact Event.pairwise_mergeSort_blocks batch.events
  · intro e he
    exact hevents e (List.mem_mergeSort.1 he)

theorem ofBatch_ofEvents {window : Window} {stretch : Option Stretch} {events : List Event}
    (hstretch : ∀ s ∈ stretch, window.start < s.times.start ∧ s.times.stop ≤ window.stop)
    (hevents : ∀ e ∈ events, ∃ s, stretch = some s ∧ s.blocks.contains e.block = true) :
    ofBatch (Batch.ofEvents window stretch events) (some window.start)
      = .ok ⟨window, stretch, events.mergeSort Event.precedes⟩ := by
  refine ofBatch_eq_ok.2 ⟨?_, ?_, ?_, ?_⟩
  · intro m hm
    cases hm
    rw [Batch.window_ofEvents]
    exact Instant.le_refl _
  · rw [Batch.window_ofEvents, Batch.stretch_ofEvents]
    exact hstretch
  · intro e he
    rw [Batch.stretch_ofEvents]
    exact hevents e (Batch.mem_events_ofEvents.1 he)
  · rw [Batch.window_ofEvents, Batch.stretch_ofEvents, Batch.mergeSort_events_ofEvents]

/-! ## Blocks -/

def blockOf (stretch : Stretch) (events : List Event) (number : Nat) : Block :=
  ⟨.ofNat number, stretch.estimate (.ofNat number), events.filter fun e => e.block = .ofNat number⟩

theorem pairwise_front {events : List Event}
    (hsorted : events.Pairwise fun a b => a.block ≤ b.block) {n : Nat}
    (hle : ∀ e ∈ events, n ≤ e.block.toNat) :
    events.Pairwise fun a b => decide (b.block = .ofNat n) = true
      → decide (a.block = .ofNat n) = true := by
  refine hsorted.imp_of_mem fun {a b} ha _ hab hb => ?_
  rw [decide_eq_true_iff] at hb ⊢
  have hab := UInt64.le_iff_toNat_le.1 hab
  have ha := hle a ha
  rw [hb, UInt64.toNat_ofNat'] at hab
  rw [← UInt64.ofNat_toNat (x := a.block), show a.block.toNat = n by omega]

theorem eventsOf_eq_filter {events : List Event}
    (hsorted : events.Pairwise fun a b => a.block ≤ b.block) {n : Nat}
    (hle : ∀ e ∈ events, n ≤ e.block.toNat) :
    eventsOf (.ofNat n) events = events.filter fun e => e.block = .ofNat n :=
  takeWhile_eq_filter (pairwise_front hsorted hle)

theorem lt_of_mem_eventsAfter {events : List Event}
    (hsorted : events.Pairwise fun a b => a.block ≤ b.block) {n : Nat}
    (hle : ∀ e ∈ events, n ≤ e.block.toNat) {e : Event} (h : e ∈ eventsAfter (.ofNat n) events) :
    n < e.block.toNat := by
  rw [eventsAfter, dropWhile_eq_filter (pairwise_front hsorted hle), List.mem_filter] at h
  obtain ⟨he, hblock⟩ := h
  refine Nat.lt_of_le_of_ne (hle e he) ?_
  rintro rfl
  simp at hblock

theorem filter_eventsAfter {block other : BlockNumber} (h : other ≠ block) (events : List Event) :
    (eventsAfter block events).filter (fun e => e.block = other)
      = events.filter fun e => e.block = other := by
  have hnone : (eventsOf block events).filter (fun e => e.block = other) = [] := by
    refine List.filter_eq_nil_iff.2 fun e he => ?_
    rw [block_of_mem_eventsOf he, decide_eq_true_iff]
    exact h.symm
  have := congrArg (List.filter fun e => decide (e.block = other))
    (eventsOf_append_eventsAfter block events)
  rwa [List.filter_append, hnone, List.nil_append] at this

theorem pairwise_eventsAfter {events : List Event}
    (hsorted : events.Pairwise fun a b => a.block ≤ b.block) (block : BlockNumber) :
    (eventsAfter block events).Pairwise fun a b => a.block ≤ b.block :=
  hsorted.sublist (List.dropWhile_sublist _)

theorem blocksFrom_eq_map (stretch : Stretch) {count n : Nat} {events : List Event}
    (hsorted : events.Pairwise fun a b => a.block ≤ b.block) (hfit : n + count ≤ UInt64.size)
    (hle : ∀ e ∈ events, n ≤ e.block.toNat) :
    blocksFrom stretch count (.ofNat n) events
      = (List.range' n count).map (blockOf stretch events) := by
  induction count generalizing n events with
  | zero => rfl
  | succ count ih =>
      have hn : n < UInt64.size := by omega
      have hnext : UInt64.ofNat n + 1 = UInt64.ofNat (n + 1) := (UInt64.ofNat_add n 1).symm
      rw [blocksFrom, List.range'_succ, List.map_cons, blockOf, eventsOf_eq_filter hsorted hle,
        hnext, ih (pairwise_eventsAfter hsorted _) (by omega) fun e he =>
          lt_of_mem_eventsAfter hsorted hle he]
      -- what the first block has taken belongs to none of the later ones
      refine congrArg _ (List.map_congr_left fun m hm => ?_)
      have hm := List.mem_range'_1.1 hm
      have hne : UInt64.ofNat m ≠ UInt64.ofNat n := by
        intro h
        have := congrArg UInt64.toNat h
        have hm' : m < UInt64.size := by omega
        rw [UInt64.toNat_ofNat_of_lt' hn, UInt64.toNat_ofNat_of_lt' hm'] at this
        omega
      rw [blockOf, blockOf, filter_eventsAfter hne]

/-- No event is left over. -/
theorem flatMap_events_blocksFrom (stretch : Stretch) {count n : Nat} {events : List Event}
    (hsorted : events.Pairwise fun a b => a.block ≤ b.block) (hfit : n + count ≤ UInt64.size)
    (hle : ∀ e ∈ events, n ≤ e.block.toNat) (hlt : ∀ e ∈ events, e.block.toNat < n + count) :
    (blocksFrom stretch count (.ofNat n) events).flatMap Block.events = events := by
  induction count generalizing n events with
  | zero =>
      cases events with
      | nil => rfl
      | cons e events =>
          have := hle e List.mem_cons_self
          have := hlt e List.mem_cons_self
          omega
  | succ count ih =>
      have hnext : UInt64.ofNat n + 1 = UInt64.ofNat (n + 1) := (UInt64.ofNat_add n 1).symm
      rw [blocksFrom, List.flatMap_cons, hnext, ih (pairwise_eventsAfter hsorted _) (by omega)]
      · exact eventsOf_append_eventsAfter _ events
      · intro e he
        exact lt_of_mem_eventsAfter hsorted hle he
      · intro e he
        have := hlt e ((List.dropWhile_sublist _).subset he)
        omega

theorem Orderly.bounds {chronicle : Chronicle} (h : chronicle.Orderly) {stretch : Stretch}
    (hs : chronicle.stretch = some stretch) {e : Event} (he : e ∈ chronicle.events) :
    stretch.blocks.first.toNat ≤ e.block.toNat ∧
      e.block.toNat < stretch.blocks.first.toNat + stretch.blocks.size := by
  obtain ⟨stretch', hs', hin⟩ := h.inside e he
  rw [hs] at hs'
  cases hs'
  rw [BlockRange.contains_iff, UInt64.le_iff_toNat_le, UInt64.le_iff_toNat_le] at hin
  rw [BlockRange.size, BlockRange.gaps]
  omega

theorem first_add_size_le (range : BlockRange) : range.first.toNat + range.size ≤ UInt64.size := by
  have hle := UInt64.le_iff_toNat_le.1 range.ordered
  have hlast := range.last.toNat_lt_size
  rw [BlockRange.size, BlockRange.gaps]
  omega

theorem Orderly.blocks_eq_map {chronicle : Chronicle} (h : chronicle.Orderly) {stretch : Stretch}
    (hs : chronicle.stretch = some stretch) :
    chronicle.blocks = (List.range' stretch.blocks.first.toNat stretch.blocks.size).map
      (blockOf stretch chronicle.events) := by
  rw [← blocksFrom_eq_map stretch h.sorted (first_add_size_le _) fun e he => (h.bounds hs he).1,
    UInt64.ofNat_toNat, blocks, hs]

/-- A chronicle tells all of its events, in their order. -/
theorem Orderly.flatMap_events_blocks {chronicle : Chronicle} (h : chronicle.Orderly) :
    chronicle.blocks.flatMap Block.events = chronicle.events := by
  cases hs : chronicle.stretch with
  | none =>
      have hnone : chronicle.events = [] := by
        refine List.eq_nil_iff_forall_not_mem.2 fun e he => ?_
        obtain ⟨stretch, hs', _⟩ := h.inside e he
        rw [hs] at hs'
        exact nomatch hs'
      rw [blocks, hs, hnone]
      rfl
  | some stretch =>
      have hall := flatMap_events_blocksFrom stretch h.sorted (first_add_size_le stretch.blocks)
        (fun e he => (h.bounds hs he).1) fun e he => (h.bounds hs he).2
      rw [UInt64.ofNat_toNat] at hall
      rw [blocks, hs]
      exact hall

theorem Orderly.numbers_blocks {chronicle : Chronicle} (h : chronicle.Orderly) {stretch : Stretch}
    (hs : chronicle.stretch = some stretch) :
    chronicle.blocks.map (fun block => block.number.toNat)
      = List.range' stretch.blocks.first.toNat stretch.blocks.size := by
  rw [h.blocks_eq_map hs, List.map_map]
  refine (List.map_congr_left fun m hm => ?_).trans (List.map_id _)
  have hm := List.mem_range'_1.1 hm
  have hfit := first_add_size_le stretch.blocks
  have hlt : m < UInt64.size := by omega
  exact UInt64.toNat_ofNat_of_lt' hlt

theorem Orderly.pairwise_numbers {chronicle : Chronicle} (h : chronicle.Orderly) :
    chronicle.blocks.Pairwise fun a b => a.number < b.number := by
  cases hs : chronicle.stretch with
  | none =>
      rw [blocks, hs]
      exact List.Pairwise.nil
  | some stretch =>
      have hsorted := List.pairwise_lt_range' (s := stretch.blocks.first.toNat)
        (n := stretch.blocks.size)
      rw [← h.numbers_blocks hs, List.pairwise_map] at hsorted
      exact hsorted.imp UInt64.lt_iff_toNat_lt.2

end StorageMarket.Chronicle
