import StorageMarket.Archive
import StorageMarket.Proofs.Lists
import StorageMarket.Proofs.Success

/-!
# Recordings in order

What a recording that passed the checks of an archive is like, and what the archive
therefore answers when it is asked for a window.

The blocks of a window are those with a time in it, and an event is in the stretch of
these blocks exactly if the time of its own block is in the window: numbers and times
run the same way.
-/

namespace StorageMarket

namespace Recording

/-- There are blocks, both numbers and times go up, and every event is in a block. -/
structure InOrder (recording : Recording) : Prop where
  period : recording.periodSeconds ≠ 0
  nonempty : recording.blocks ≠ []
  ordered : recording.blocks.Pairwise fun a b => a.number < b.number ∧ a.time ≤ b.time
  known : ∀ e ∈ recording.events, ∃ block ∈ recording.blocks, block.number = e.block

def timeOf? (recording : Recording) (number : BlockNumber) : Option Instant :=
  (recording.blocks.find? fun block => block.number = number).map BlockStamp.time

/-- The recorded events of the blocks after one moment and up to another. -/
def eventsBetween (recording : Recording) (start stop : Instant) : List Event :=
  recording.events.filter fun event =>
    (recording.timeOf? event.block).any fun time => start < time ∧ time ≤ stop

/-- Of two recorded blocks one comes first. -/
theorem InOrder.cases {recording : Recording} (h : recording.InOrder) {a b : BlockStamp}
    (ha : a ∈ recording.blocks) (hb : b ∈ recording.blocks) :
    a = b ∨ (a.number < b.number ∧ a.time ≤ b.time) ∨
      (b.number < a.number ∧ b.time ≤ a.time) := by
  have hordered := h.ordered
  generalize recording.blocks = blocks at ha hb hordered
  induction blocks with
  | nil => exact absurd ha List.not_mem_nil
  | cons c blocks ih =>
      rw [List.pairwise_cons] at hordered
      rcases List.mem_cons.1 ha with rfl | ha' <;> rcases List.mem_cons.1 hb with rfl | hb'
      · exact .inl rfl
      · exact .inr (.inl (hordered.1 b hb'))
      · exact .inr (.inr (hordered.1 a ha'))
      · exact ih ha' hb' hordered.2

theorem InOrder.eq_of_number_eq {recording : Recording} (h : recording.InOrder) {a b : BlockStamp}
    (ha : a ∈ recording.blocks) (hb : b ∈ recording.blocks) (hab : a.number = b.number) :
    a = b := by
  rcases h.cases ha hb with heq | ⟨hlt, _⟩ | ⟨hlt, _⟩
  · exact heq
  · rw [hab] at hlt
    exact absurd hlt (UInt64.lt_irrefl _)
  · rw [hab] at hlt
    exact absurd hlt (UInt64.lt_irrefl _)

theorem InOrder.time_le_of_number_le {recording : Recording} (h : recording.InOrder)
    {a b : BlockStamp} (ha : a ∈ recording.blocks) (hb : b ∈ recording.blocks)
    (hab : a.number ≤ b.number) : a.time ≤ b.time := by
  rcases h.cases ha hb with rfl | ⟨_, hle⟩ | ⟨hlt, _⟩
  · exact Instant.le_refl _
  · exact hle
  · exact absurd hab (UInt64.not_le.2 hlt)

theorem InOrder.number_lt_of_time_lt {recording : Recording} (h : recording.InOrder)
    {a b : BlockStamp} (ha : a ∈ recording.blocks) (hb : b ∈ recording.blocks)
    (hab : a.time < b.time) : a.number < b.number := by
  rw [← UInt64.not_le]
  intro hle
  exact Instant.not_lt.2 (h.time_le_of_number_le hb ha hle) hab

theorem InOrder.timeOf?_of_mem {recording : Recording} (h : recording.InOrder) {block : BlockStamp}
    (hm : block ∈ recording.blocks) : recording.timeOf? block.number = some block.time := by
  rw [timeOf?]
  cases hf : recording.blocks.find? fun b => b.number = block.number with
  | none => exact absurd (List.find?_eq_none.1 hf block hm) (by simp)
  | some b =>
      have hnumber : b.number = block.number := of_decide_eq_true (List.find?_some hf :)
      rw [h.eq_of_number_eq (List.mem_of_find?_eq_some hf) hm hnumber]
      rfl

theorem InOrder.mem_eventsBetween {recording : Recording} (h : recording.InOrder)
    {start stop : Instant} {e : Event} :
    e ∈ recording.eventsBetween start stop ↔ e ∈ recording.events ∧
      ∃ block ∈ recording.blocks, block.number = e.block ∧ start < block.time ∧
        block.time ≤ stop := by
  rw [eventsBetween, List.mem_filter]
  constructor
  · rintro ⟨he, htime⟩
    obtain ⟨block, hm, hnumber⟩ := h.known e he
    rw [← hnumber, h.timeOf?_of_mem hm] at htime
    exact ⟨he, block, hm, hnumber, by simpa using htime⟩
  · rintro ⟨he, block, hm, hnumber, htime⟩
    rw [← hnumber, h.timeOf?_of_mem hm]
    exact ⟨he, by simpa using htime⟩

def isBy (recording : Recording) (moment : Instant) (event : Event) : Bool :=
  (recording.timeOf? event.block).any fun time => time ≤ moment

theorem filter_isBy {recording : Recording} {start middle stop : Instant} (hstop : middle ≤ stop) :
    (recording.eventsBetween start stop).filter (recording.isBy middle)
      = recording.eventsBetween start middle := by
  rw [eventsBetween, List.filter_filter]
  refine List.filter_congr fun e _ => ?_
  rw [isBy]
  cases recording.timeOf? e.block with
  | none => rfl
  | some time =>
      rw [Option.any_some, Option.any_some, Option.any_some, Bool.eq_iff_iff, Bool.and_eq_true,
        decide_eq_true_iff, decide_eq_true_iff, decide_eq_true_iff]
      constructor
      · rintro ⟨hle, hlt, _⟩
        exact ⟨hlt, hle⟩
      · rintro ⟨hlt, hle⟩
        exact ⟨hle, hlt, Instant.le_trans hle hstop⟩

theorem filter_not_isBy {recording : Recording} {start middle stop : Instant}
    (hstart : start ≤ middle) :
    (recording.eventsBetween start stop).filter (fun e => !recording.isBy middle e)
      = recording.eventsBetween middle stop := by
  rw [eventsBetween, List.filter_filter]
  refine List.filter_congr fun e _ => ?_
  rw [isBy]
  cases recording.timeOf? e.block with
  | none => rfl
  | some time =>
      rw [Option.any_some, Option.any_some, Option.any_some, Bool.eq_iff_iff, Bool.and_eq_true,
        Bool.not_eq_true', decide_eq_false_iff_not, Instant.not_le, decide_eq_true_iff,
        decide_eq_true_iff]
      constructor
      · rintro ⟨hlt, _, hle⟩
        exact ⟨hlt, hle⟩
      · rintro ⟨hlt, hle⟩
        exact ⟨hlt, Int.lt_of_le_of_lt hstart hlt, hle⟩

theorem number_bounds {blocks : List BlockStamp}
    (hordered : blocks.Pairwise fun a b => a.number < b.number ∧ a.time ≤ b.time)
    {first last : BlockStamp} (hfirst : blocks.head? = some first)
    (hlast : blocks.getLast? = some last) {b : BlockStamp} (hb : b ∈ blocks) :
    first.number ≤ b.number ∧ b.number ≤ last.number := by
  constructor
  · obtain ⟨rest, rfl⟩ := List.head?_eq_some_iff.1 hfirst
    rcases List.mem_cons.1 hb with rfl | hb
    · exact UInt64.le_refl _
    · exact UInt64.le_of_lt ((List.pairwise_cons.1 hordered).1 b hb).1
  · obtain ⟨init, rfl⟩ := List.getLast?_eq_some_iff.1 hlast
    rcases List.mem_append.1 hb with hb | hb
    · exact UInt64.le_of_lt
        ((List.pairwise_append.1 hordered).2.2 b hb last List.mem_cons_self).1
    · rw [List.mem_singleton.1 hb]
      exact UInt64.le_refl _

theorem head_time_le_getLast {blocks : List BlockStamp}
    (hordered : blocks.Pairwise fun a b => a.number < b.number ∧ a.time ≤ b.time)
    (hne : blocks ≠ []) : (blocks.head hne).time ≤ (blocks.getLast hne).time := by
  match blocks, hordered, hne with
  | [block], _, _ => exact Instant.le_refl _
  | first :: second :: rest, hordered, hne =>
      rw [List.getLast_cons (List.cons_ne_nil second rest)]
      exact ((List.pairwise_cons.1 hordered).1 _ (List.getLast_mem _)).2

end Recording

namespace Archive

/-! ## Checks -/

theorem checkPair_eq_ok {previous block : BlockStamp} :
    checkPair previous block = .ok () ↔ previous.number < block.number ∧ previous.time ≤ block.time := by
  rw [checkPair, ← UInt64.not_le, ← Instant.not_lt]
  split
  · next h => simp [h]
  · next h =>
      split
      · next h' => simp [h']
      · next h' => simp [h, h']

theorem checkBlocks_eq_ok {blocks : List BlockStamp} :
    checkBlocks blocks = .ok ()
      ↔ blocks.Pairwise fun a b => a.number < b.number ∧ a.time ≤ b.time := by
  induction blocks with
  | nil => simp [checkBlocks]
  | cons a blocks ih =>
      -- only neighbours are compared, so the head is checked against the next block alone
      cases blocks with
      | nil => simp [checkBlocks]
      | cons b rest =>
          rw [List.pairwise_cons, ← ih, checkBlocks]
          cases hpair : checkPair a b with
          | error fault =>
              constructor
              · intro h
                exact nomatch h
              · rintro ⟨h, _⟩
                rw [checkPair_eq_ok.2 (h b List.mem_cons_self)] at hpair
                exact nomatch hpair
          | ok _ =>
              have hab := checkPair_eq_ok.1 hpair
              constructor
              · intro h
                refine ⟨?_, h⟩
                intro c hc
                rcases List.mem_cons.1 hc with rfl | hc
                · exact hab
                · have hbc := (List.pairwise_cons.1 (ih.1 h)).1 c hc
                  exact ⟨UInt64.lt_trans hab.1 hbc.1, Instant.le_trans hab.2 hbc.2⟩
              · exact And.right

theorem checkEvents_eq_ok {blocks : List BlockStamp} {events : List Event} :
    checkEvents blocks events = .ok ()
      ↔ ∀ e ∈ events, ∃ block ∈ blocks, block.number = e.block := by
  rw [checkEvents]
  cases hf : events.find? fun e => !blocks.any fun block => block.number = e.block with
  | none => simpa using hf
  | some e =>
      have he := List.find?_some hf
      have hm := List.mem_of_find?_eq_some hf
      constructor
      · intro h
        exact nomatch h
      · intro h
        obtain ⟨block, hb, hnumber⟩ := h e hm
        simp only [Bool.not_eq_true', List.any_eq_false, decide_eq_true_eq] at he
        exact absurd hnumber (he block hb)

theorem ofRecording_ok {recording : Recording} {archive : Archive}
    (h : ofRecording recording = .ok archive) :
    archive.recording = recording ∧ recording.InOrder := by
  rw [ofRecording] at h
  by_cases hperiod : recording.periodSeconds = 0
  · rw [if_pos hperiod] at h
    exact nomatch h
  · rw [if_neg hperiod] at h
    cases hfirst : recording.blocks.head? with
    | none =>
        simp only [hfirst] at h
        exact nomatch h
    | some first =>
        cases hlast : recording.blocks.getLast? with
        | none =>
            simp only [hfirst, hlast] at h
            exact nomatch h
        | some last =>
            simp only [hfirst, hlast] at h
            have hnonempty : recording.blocks ≠ [] := by
              rintro hnil
              rw [hnil] at hfirst
              exact nomatch hfirst
            obtain ⟨_, hblocks, h⟩ := except_bind_eq_ok.1 h
            obtain ⟨times, _, h⟩ := except_bind_eq_ok.1 h
            obtain ⟨_, hevents, h⟩ := except_bind_eq_ok.1 h
            cases h
            exact ⟨rfl, hperiod, hnonempty, checkBlocks_eq_ok.1 hblocks,
              checkEvents_eq_ok.1 hevents⟩

theorem ofRecording_eq {recording : Recording} (h : recording.InOrder) :
    ∃ ordered, ofRecording recording
      = .ok ⟨recording, (recording.blocks.head h.nonempty).time,
          (recording.blocks.getLast h.nonempty).time, ordered⟩ := by
  have hfirst : recording.blocks.head? = some (recording.blocks.head h.nonempty) :=
    List.head?_eq_some_head h.nonempty
  have hlast : recording.blocks.getLast? = some (recording.blocks.getLast h.nonempty) :=
    List.getLast?_eq_some_getLast h.nonempty
  have htimes := Recording.head_time_le_getLast h.ordered h.nonempty
  refine ⟨htimes, ?_⟩
  rw [ofRecording, if_neg h.period]
  simp only [hfirst, hlast, checkBlocks_eq_ok.2 h.ordered, checkEvents_eq_ok.2 h.known,
    Window.of, dif_pos htimes]
  rfl

theorem exists_archive {recording : Recording} (h : recording.InOrder) :
    ∃ archive, ofRecording recording = .ok archive := by
  obtain ⟨_, harchive⟩ := ofRecording_eq h
  exact ⟨_, harchive⟩

/-! ## Answers -/

theorem blocksIn_eq_filter {archive : Archive} (h : archive.recording.InOrder) (window : Window) :
    archive.blocksIn window
      = archive.recording.blocks.filter fun b => window.start < b.time ∧ b.time ≤ window.stop := by
  have hfront (t : Instant) : archive.recording.blocks.Pairwise fun a b =>
      decide (b.time ≤ t) = true → decide (a.time ≤ t) = true := by
    refine h.ordered.imp fun {a b} hab hb => ?_
    rw [decide_eq_true_iff] at hb ⊢
    exact Instant.le_trans hab.2 hb
  rw [blocksIn, dropWhile_eq_filter (hfront window.start),
    takeWhile_eq_filter ((hfront window.stop).sublist List.filter_sublist), List.filter_filter]
  refine List.filter_congr fun b _ => ?_
  simp [← Instant.not_le, Bool.and_comm]

theorem mem_blocksIn {archive : Archive} (h : archive.recording.InOrder) {window : Window}
    {b : BlockStamp} : b ∈ archive.blocksIn window
      ↔ b ∈ archive.recording.blocks ∧ window.start < b.time ∧ b.time ≤ window.stop := by
  rw [blocksIn_eq_filter h, List.mem_filter, decide_eq_true_iff]

/-- A window that is cut in two has the blocks of its first part and then those of its second. -/
theorem blocksIn_append (archive : Archive) {start middle stop : Instant} (hstart : start ≤ middle)
    (hstop : middle ≤ stop) :
    archive.blocksIn ⟨start, middle, hstart⟩ ++ archive.blocksIn ⟨middle, stop, hstop⟩
      = archive.blocksIn ⟨start, stop, Instant.le_trans hstart hstop⟩ := by
  have himp {t u : Instant} (htu : t ≤ u) (block : BlockStamp)
      (hblock : decide (block.time ≤ t) = true) : decide (block.time ≤ u) = true := by
    rw [decide_eq_true_iff] at hblock ⊢
    exact Instant.le_trans hblock htu
  have hcut := takeWhile_append_takeWhile (himp hstop)
    (archive.recording.blocks.dropWhile fun block => block.time ≤ start)
  rw [dropWhile_dropWhile (himp hstart)] at hcut
  exact hcut

/-- A stretch that runs from one recorded block to another. -/
structure Spans (stretch : Stretch) (first last : BlockStamp) : Prop where
  firstNumber : stretch.blocks.first = first.number
  lastNumber : stretch.blocks.last = last.number
  firstTime : stretch.times.start = first.time
  lastTime : stretch.times.stop = last.time

theorem Spans.unique {stretch other : Stretch} {first last : BlockStamp}
    (h : Spans stretch first last) (h' : Spans other first last) : stretch = other := by
  obtain ⟨⟨_, _, _⟩, ⟨_, _, _⟩⟩ := stretch
  obtain ⟨⟨_, _, _⟩, ⟨_, _, _⟩⟩ := other
  cases h.firstNumber.trans h'.firstNumber.symm
  cases h.lastNumber.trans h'.lastNumber.symm
  cases h.firstTime.trans h'.firstTime.symm
  cases h.lastTime.trans h'.lastTime.symm
  rfl

/-- The stretch of some blocks goes from the first to the last; without blocks there is none. -/
def Stretches (blocks : List BlockStamp) (stretch : Option Stretch) : Prop :=
  (blocks = [] ∧ stretch = none) ∨
    ∃ first last spanned, blocks.head? = some first ∧ blocks.getLast? = some last ∧
      Spans spanned first last ∧ stretch = some spanned

theorem Stretches.unique {blocks : List BlockStamp} {stretch other : Option Stretch}
    (h : Stretches blocks stretch) (h' : Stretches blocks other) : stretch = other := by
  rcases h with ⟨hnone, rfl⟩ | ⟨first, last, spanned, hfirst, hlast, hspans, rfl⟩ <;>
    rcases h' with ⟨hnone', rfl⟩ | ⟨first', last', spanned', hfirst', hlast', hspans', rfl⟩
  · rfl
  · rw [hnone] at hfirst'
    cases hfirst'
  · rw [hnone'] at hfirst
    cases hfirst
  · rw [hfirst, Option.some.injEq] at hfirst'
    rw [hlast, Option.some.injEq] at hlast'
    subst hfirst' hlast'
    rw [hspans.unique hspans']

theorem stretchOf_eq_ok {first last : BlockStamp} (hnumber : first.number ≤ last.number)
    (htime : first.time ≤ last.time) : ∃ stretch, stretchOf first last = .ok stretch ∧
      Spans stretch first last := by
  refine ⟨⟨⟨first.number, last.number, hnumber⟩, ⟨first.time, last.time, htime⟩⟩, ?_, ?_⟩
  · rw [stretchOf, BlockRange.of, dif_pos hnumber, Window.of, dif_pos htime]
    rfl
  · exact ⟨rfl, rfl, rfl, rfl⟩

theorem ordered_blocksIn {archive : Archive} (h : archive.recording.InOrder) (window : Window) :
    (archive.blocksIn window).Pairwise fun a b => a.number < b.number ∧ a.time ≤ b.time := by
  rw [blocksIn_eq_filter h]
  exact h.ordered.sublist List.filter_sublist

theorem eventsBetween_eq_nil {archive : Archive} (h : archive.recording.InOrder) {window : Window}
    (hnone : archive.blocksIn window = []) :
    archive.recording.eventsBetween window.start window.stop = [] := by
  refine List.eq_nil_iff_forall_not_mem.2 fun e he => ?_
  obtain ⟨_, block, hm, _, htime⟩ := h.mem_eventsBetween.1 he
  have hin := (mem_blocksIn h).2 ⟨hm, htime⟩
  rw [hnone] at hin
  exact List.not_mem_nil hin

section

variable {archive : Archive} (h : archive.recording.InOrder) {window : Window}
  {first last : BlockStamp} (hfirst : (archive.blocksIn window).head? = some first)
  (hlast : (archive.blocksIn window).getLast? = some last) {stretch : Stretch}
  (hspans : Spans stretch first last)
include h hfirst hlast hspans

/-- A recorded block is in the stretch of a window by its number exactly if it is in the window by
its time. -/
theorem contains_number_iff {block : BlockStamp} (hm : block ∈ archive.recording.blocks) :
    stretch.blocks.contains block.number = true
      ↔ window.start < block.time ∧ block.time ≤ window.stop := by
  have hin := (mem_blocksIn h).1 (List.mem_of_head? hfirst)
  have hin' := (mem_blocksIn h).1 (List.mem_of_getLast? hlast)
  rw [BlockRange.contains_iff, hspans.firstNumber, hspans.lastNumber]
  constructor
  · rintro ⟨hlo, hhi⟩
    have hlo := h.time_le_of_number_le hin.1 hm hlo
    have hhi := h.time_le_of_number_le hm hin'.1 hhi
    exact ⟨Int.lt_of_lt_of_le hin.2.1 hlo, Instant.le_trans hhi hin'.2.2⟩
  · intro htime
    exact Recording.number_bounds (ordered_blocksIn h window) hfirst hlast
      ((mem_blocksIn h).2 ⟨hm, htime⟩)

theorem filter_contains_eq :
    (archive.recording.events.filter fun e => stretch.blocks.contains e.block)
      = archive.recording.eventsBetween window.start window.stop := by
  refine List.filter_congr fun e he => ?_
  obtain ⟨block, hm, hblock⟩ := h.known e he
  rw [← hblock, h.timeOf?_of_mem hm, Option.any_some, Bool.eq_iff_iff,
    contains_number_iff h hfirst hlast hspans hm, decide_eq_true_iff]

end

/-- All that an archive answers for a window: nothing if it has no block there, otherwise the
stretch from the first block to the last; and the events of the blocks in the window. -/
theorem eventsIn_cases {archive : Archive} (h : archive.recording.InOrder) (window : Window) :
    (archive.blocksIn window = [] ∧
      archive.eventsIn window = .ok (Batch.ofEvents window none
        (archive.recording.eventsBetween window.start window.stop))) ∨
    ∃ first last stretch, (archive.blocksIn window).head? = some first ∧
      (archive.blocksIn window).getLast? = some last ∧ Spans stretch first last ∧
      archive.eventsIn window = .ok (Batch.ofEvents window (some stretch)
        (archive.recording.eventsBetween window.start window.stop)) := by
  rw [eventsIn]
  cases hfirst : (archive.blocksIn window).head? with
  | none =>
      have hnone : archive.blocksIn window = [] := List.head?_eq_none_iff.1 hfirst
      rw [eventsBetween_eq_nil h hnone]
      exact .inl ⟨hnone, rfl⟩
  | some first =>
      cases hlast : (archive.blocksIn window).getLast? with
      | none =>
          rw [List.getLast?_eq_none_iff] at hlast
          rw [hlast] at hfirst
          exact nomatch hfirst
      | some last =>
          have hmfirst := List.mem_of_head? hfirst
          have hmlast := List.mem_of_getLast? hlast
          have hnumber := (Recording.number_bounds (ordered_blocksIn h window) hfirst hlast hmlast).1
          have htime := h.time_le_of_number_le ((mem_blocksIn h).1 hmfirst).1
            ((mem_blocksIn h).1 hmlast).1 hnumber
          -- the check of the two ends cannot fail, since the blocks are in order
          obtain ⟨stretch, hstretch, hspans⟩ := stretchOf_eq_ok hnumber htime
          refine .inr ⟨first, last, stretch, rfl, rfl, hspans, ?_⟩
          simp only [hstretch, filter_contains_eq h hfirst hlast hspans]

theorem exists_eventsIn {archive : Archive} (h : archive.recording.InOrder) (window : Window) :
    ∃ stretch, Stretches (archive.blocksIn window) stretch ∧
      archive.eventsIn window = .ok (Batch.ofEvents window stretch
        (archive.recording.eventsBetween window.start window.stop)) := by
  rcases eventsIn_cases h window with
    ⟨hnone, hanswer⟩ | ⟨first, last, stretch, hfirst, hlast, hspans, hanswer⟩
  · exact ⟨none, .inl ⟨hnone, rfl⟩, hanswer⟩
  · exact ⟨some stretch, .inr ⟨first, last, stretch, hfirst, hlast, hspans, rfl⟩, hanswer⟩

end Archive

end StorageMarket
