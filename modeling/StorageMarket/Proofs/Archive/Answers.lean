import StorageMarket.Proofs.Archive.Order
import StorageMarket.Proofs.Event.Order
import StorageMarket.Proofs.Ledger.Snapshot

/-!
# What an archive answers

An archive finds the blocks of a window by their times, and the events by the numbers of
these blocks. Since numbers and times go up together, the events found are those whose own
block has a time in the window.

The start of a window does not belong to it and its end does. So two windows that meet
share no block and no event, and together have those of the window that they make up.
-/

namespace StorageMarket

namespace Recording

/-- Two windows that meet have the events of both of them put together. -/
theorem eventsBetween_append_perm {recording : Recording} {start middle stop : Instant}
    (hstart : start ≤ middle) (hstop : middle ≤ stop) :
    (recording.eventsBetween start middle ++ recording.eventsBetween middle stop).Perm
      (recording.eventsBetween start stop) := by
  rw [← filter_isBy hstop, ← filter_not_isBy hstart]
  exact List.filter_append_perm ..

theorem InOrder.not_mem_eventsBetween {recording : Recording} (h : recording.InOrder)
    {start middle stop : Instant} {e : Event} (he : e ∈ recording.eventsBetween start middle) :
    e ∉ recording.eventsBetween middle stop := by
  intro hlate
  obtain ⟨_, block, hm, hnumber, _, hle⟩ := h.mem_eventsBetween.1 he
  obtain ⟨_, block', hm', hnumber', hlt, _⟩ := h.mem_eventsBetween.1 hlate
  rw [h.eq_of_number_eq hm hm' (hnumber.trans hnumber'.symm)] at hle
  exact Instant.not_lt.2 hle hlt

end Recording

namespace Archive

/-- What the answer for a window consists of. -/
structure Serves (archive : Archive) (window : Window) (batch : Batch) : Prop where
  stretch : Stretches (archive.blocksIn window) batch.stretch
  batch : batch = Batch.ofEvents window batch.stretch
    (archive.recording.eventsBetween window.start window.stop)

variable {archive : Archive}

theorem exists_serves (h : archive.recording.InOrder) (window : Window) :
    ∃ batch, archive.eventsIn window = .ok batch ∧ archive.Serves window batch := by
  obtain ⟨stretch, hstretch, hanswer⟩ := exists_eventsIn h window
  refine ⟨_, hanswer, ?_, ?_⟩
  · rw [Batch.stretch_ofEvents]
    exact hstretch
  · rw [Batch.stretch_ofEvents]

theorem serves_of_eventsIn (h : archive.recording.InOrder) {window : Window} {batch : Batch}
    (hanswer : archive.eventsIn window = .ok batch) : archive.Serves window batch := by
  obtain ⟨other, hother, hserves⟩ := exists_serves h window
  rw [hanswer] at hother
  cases hother
  exact hserves

theorem Stretches.isSome_iff {blocks : List BlockStamp} {stretch : Option Stretch}
    (h : Stretches blocks stretch) : stretch.isSome = true ↔ ∃ block, block ∈ blocks := by
  rcases h with ⟨rfl, rfl⟩ | ⟨first, _, _, hfirst, _, _, rfl⟩
  · simp
  · exact ⟨fun _ => ⟨first, List.mem_of_head? hfirst⟩, fun _ => rfl⟩

theorem Stretches.spans {blocks : List BlockStamp} {stretch : Option Stretch}
    (h : Stretches blocks stretch) {spanned : Stretch} (hs : spanned ∈ stretch) :
    ∃ first last, blocks.head? = some first ∧ blocks.getLast? = some last ∧
      Spans spanned first last := by
  rcases h with ⟨_, rfl⟩ | ⟨first, last, _, hfirst, hlast, hspans, rfl⟩
  · cases hs
  · cases hs
    exact ⟨first, last, hfirst, hlast, hspans⟩

namespace Serves

variable {window : Window} {batch : Batch} (h : archive.Serves window batch)
include h

theorem window_eq : batch.window = window := by
  rw [h.batch, Batch.window_ofEvents]

theorem stream_eq (kind : EventKind) :
    batch.stream kind = (archive.recording.eventsBetween window.start window.stop).filter
      fun e => e.kind = kind := by
  rw [h.batch, Batch.stream_ofEvents]

theorem events_perm :
    batch.events.Perm (archive.recording.eventsBetween window.start window.stop) := by
  rw [h.batch]
  exact Batch.events_ofEvents_perm ..

/-- Every block of the answer for a window comes before every block of the answer for a window
that starts where the first one ends. -/
theorem last_lt_first (hinOrder : archive.recording.InOrder) {other : Window} {late : Batch}
    (hlate : archive.Serves other late) (hmeet : window.stop ≤ other.start) {stretch : Stretch}
    (hs : stretch ∈ batch.stretch) {stretch' : Stretch} (hs' : stretch' ∈ late.stretch) :
    stretch.blocks.last < stretch'.blocks.first := by
  obtain ⟨_, last, _, hlast, hspans⟩ := h.stretch.spans hs
  obtain ⟨first, _, hfirst, _, hspans'⟩ := hlate.stretch.spans hs'
  obtain ⟨hm, _, hstop⟩ := (mem_blocksIn hinOrder).1 (List.mem_of_getLast? hlast)
  obtain ⟨hm', hstart, _⟩ := (mem_blocksIn hinOrder).1 (List.mem_of_head? hfirst)
  rw [hspans.lastNumber, hspans'.firstNumber]
  refine hinOrder.number_lt_of_time_lt hm hm' ?_
  exact Int.lt_of_le_of_lt (Instant.le_trans hstop hmeet) hstart

end Serves

/-- An archive always answers. The answer for a window has a stretch if and only if some block was
recorded after the start of the window and not after its end; it runs from the first to the last
of these blocks, by their numbers and by their times. Each stream has the recorded events of its
kind whose blocks were recorded in the window, in the order in which they are recorded. If a window
is cut in two, the answers for its parts have just the events of the answer for the whole, none of
them in both, and all blocks of the first part come before those of the second. -/
theorem answers_windows_exactly {recording : Recording} {archive : Archive}
    (harchive : ofRecording recording = .ok archive) :
    (∀ window, ∃ batch, archive.eventsIn window = .ok batch ∧ batch.window = window ∧
      (batch.stretch.isSome = true ↔
        ∃ block ∈ recording.blocks, window.start < block.time ∧ block.time ≤ window.stop) ∧
      (∀ stretch ∈ batch.stretch, ∃ first last,
        (recording.blocks.filter fun block =>
          window.start < block.time ∧ block.time ≤ window.stop).head? = some first ∧
        (recording.blocks.filter fun block =>
          window.start < block.time ∧ block.time ≤ window.stop).getLast? = some last ∧
        Spans stretch first last) ∧
      ∀ kind, batch.stream kind
        = (recording.eventsBetween window.start window.stop).filter fun e => e.kind = kind) ∧
    ∀ (start middle stop : Instant) (hstart : start ≤ middle) (hstop : middle ≤ stop)
      (early late whole : Batch),
      archive.eventsIn ⟨start, middle, hstart⟩ = .ok early →
      archive.eventsIn ⟨middle, stop, hstop⟩ = .ok late →
      archive.eventsIn ⟨start, stop, Instant.le_trans hstart hstop⟩ = .ok whole →
      (early.events ++ late.events).Perm whole.events ∧
      (∀ e ∈ early.events, e ∉ late.events) ∧
      ∀ stretch ∈ early.stretch, ∀ stretch' ∈ late.stretch,
        stretch.blocks.last < stretch'.blocks.first := by
  obtain ⟨rfl, hinOrder⟩ := ofRecording_ok harchive
  constructor
  · intro window
    obtain ⟨batch, hanswer, hserves⟩ := exists_serves hinOrder window
    refine ⟨batch, hanswer, hserves.window_eq, ?_, ?_, hserves.stream_eq⟩
    · rw [hserves.stretch.isSome_iff]
      exact exists_congr fun block => mem_blocksIn hinOrder
    · intro stretch hs
      rw [← blocksIn_eq_filter hinOrder]
      exact hserves.stretch.spans hs
  · intro start middle stop hstart hstop early late whole hearly hlate hwhole
    have hearly := serves_of_eventsIn hinOrder hearly
    have hlate := serves_of_eventsIn hinOrder hlate
    have hwhole := serves_of_eventsIn hinOrder hwhole
    refine ⟨?_, ?_, ?_⟩
    · have hcut := archive.recording.eventsBetween_append_perm hstart hstop
      exact (hearly.events_perm.append hlate.events_perm).trans
        (hcut.trans hwhole.events_perm.symm)
    · intro e he
      rw [hearly.events_perm.mem_iff] at he
      rw [hlate.events_perm.mem_iff]
      exact hinOrder.not_mem_eventsBetween he
    · intro stretch hs stretch' hs'
      exact hearly.last_lt_first hinOrder hlate (Instant.le_refl middle) hs hs'

/-- Four blocks, two of them at one time, with an event in each but the first of these two. -/
def meetingRecording : Recording where
  periodSeconds := 60
  blocks := [⟨3, ⟨2200, 0, by decide⟩⟩, ⟨4, ⟨2210, 0, by decide⟩⟩, ⟨8, ⟨2210, 0, by decide⟩⟩,
    ⟨9, ⟨2230, 0, by decide⟩⟩]
  events := [.failed ⟨9, (Ledger.sampleRequest 1 2 100).id⟩,
    .fulfilled ⟨8, (Ledger.sampleRequest 1 2 100).id⟩,
    .published ⟨3, Ledger.sampleRequest 1 2 100⟩]
  proofs := []

def meetingArchive : Archive :=
  ⟨meetingRecording, ⟨⟨2200, 0, by decide⟩, ⟨2230, 0, by decide⟩, by decide⟩⟩

/-- From the time of the first block to that of the two in the middle, and on to the last. -/
theorem answers_windows_exactly_meetingRecording :
    ofRecording meetingRecording = .ok meetingArchive ∧
      ∃ early late,
        meetingArchive.eventsIn
          ⟨⟨2200, 0, by decide⟩, ⟨2210, 0, by decide⟩, by decide⟩ = .ok early ∧
        meetingArchive.eventsIn
          ⟨⟨2210, 0, by decide⟩, ⟨2230, 0, by decide⟩, by decide⟩ = .ok late ∧
        early.stream .fulfilled = [.fulfilled ⟨8, (Ledger.sampleRequest 1 2 100).id⟩] ∧
        early.stream .published = [] ∧
        (∀ e ∈ early.events, e ∉ late.events) ∧
        early.stretch.isSome = true ∧ late.stretch.isSome = true ∧
        ∀ stretch ∈ early.stretch, ∀ stretch' ∈ late.stretch,
          stretch.blocks.last < stretch'.blocks.first := by
  have harchive : ofRecording meetingRecording = .ok meetingArchive := rfl
  obtain ⟨hanswers, hcut⟩ := answers_windows_exactly harchive
  obtain ⟨early, hearly, _, hsome, _, hstream⟩ :=
    hanswers ⟨⟨2200, 0, by decide⟩, ⟨2210, 0, by decide⟩, by decide⟩
  obtain ⟨late, hlate, _, hsome', _, _⟩ :=
    hanswers ⟨⟨2210, 0, by decide⟩, ⟨2230, 0, by decide⟩, by decide⟩
  obtain ⟨whole, hwhole, _⟩ :=
    hanswers ⟨⟨2200, 0, by decide⟩, ⟨2230, 0, by decide⟩, by decide⟩
  obtain ⟨_, hapart, hnumbers⟩ :=
    hcut _ _ _ (by decide) (by decide) early late whole hearly hlate hwhole
  refine ⟨harchive, early, late, hearly, hlate, ?_, ?_, hapart, ?_, ?_, hnumbers⟩
  · rw [hstream]
    decide
  · rw [hstream]
    decide
  · exact hsome.2 (by decide)
  · exact hsome'.2 (by decide)

end Archive

end StorageMarket
