import StorageMarket.Proofs.Archive.Order

/-!
# What is wrong with a recording

A recording has an archive exactly if it is in order, and otherwise the first rule that it
breaks is named: the length of a period, then whether there are blocks, then the first two
neighbours that are out of order, then the first event in a block that is not listed. Only
neighbours are compared, and yet all blocks of a recording that is accepted are in order; so
the last block is never older than the first.

What the archive says about a proof is what the last entry about it says.
-/

namespace StorageMarket

namespace Recording

def neighbours (blocks : List BlockStamp) : List (BlockStamp × BlockStamp) :=
  blocks.zip blocks.tail

/-- What is wrong with two neighbours; their numbers are looked at first. -/
inductive PairFault : BlockStamp × BlockStamp → RecordingFault → Prop where
  | numbers {previous block : BlockStamp} (unordered : block.number ≤ previous.number) :
      PairFault (previous, block) (.unorderedBlocks previous.number block.number)
  | times {previous block : BlockStamp} (ordered : previous.number < block.number)
      (back : block.time < previous.time) : PairFault (previous, block) (.timeWentBack block.number)

def IsListed (blocks : List BlockStamp) (event : Event) : Prop :=
  ∃ block ∈ blocks, block.number = event.block

inductive FirstFault (recording : Recording) : RecordingFault → Prop where
  | period (zero : recording.periodSeconds = 0) : FirstFault recording .zeroPeriod
  | blocks (period : recording.periodSeconds ≠ 0) (none : recording.blocks = []) :
      FirstFault recording .noBlocks
  | pair {earlier later : List (BlockStamp × BlockStamp)} {pair : BlockStamp × BlockStamp}
      {fault : RecordingFault} (period : recording.periodSeconds ≠ 0)
      (split : neighbours recording.blocks = earlier ++ pair :: later)
      (before : ∀ p ∈ earlier, p.1.number < p.2.number ∧ p.1.time ≤ p.2.time)
      (wrong : PairFault pair fault) : FirstFault recording fault
  | event {earlier later : List Event} {event : Event} (period : recording.periodSeconds ≠ 0)
      (nonempty : recording.blocks ≠ [])
      (ordered : recording.blocks.Pairwise fun a b => a.number < b.number ∧ a.time ≤ b.time)
      (split : recording.events = earlier ++ event :: later)
      (before : ∀ e ∈ earlier, IsListed recording.blocks e)
      (wrong : ¬ IsListed recording.blocks event) : FirstFault recording (.unknownBlock event.block)

def lastStatus (recording : Recording) (id : RequestId) (slot : SlotIndex) (period : Period) :
    ProofStatus :=
  ((recording.proofs.filter fun entry =>
    entry.slot = slot ∧ entry.period = period ∧ entry.request = id).getLast?.map
      ProofEntry.status).getD .notRequired

end Recording

namespace Archive

open Recording

/-! ## The checks one by one -/

theorem checkPair_eq_error {previous block : BlockStamp} {fault : RecordingFault} :
    checkPair previous block = .error fault ↔ PairFault (previous, block) fault := by
  rw [checkPair]
  by_cases hnumber : block.number ≤ previous.number
  · rw [if_pos hnumber]
    constructor
    · rintro ⟨⟩
      exact .numbers hnumber
    · intro h
      cases h with
      | numbers unordered => rfl
      | times ordered back => exact absurd ordered (UInt64.not_lt.2 hnumber)
  · rw [if_neg hnumber]
    by_cases htime : block.time < previous.time
    · rw [if_pos htime]
      constructor
      · rintro ⟨⟩
        exact .times (UInt64.not_le.1 hnumber) htime
      · intro h
        cases h with
        | numbers unordered => exact absurd unordered hnumber
        | times ordered back => rfl
    · rw [if_neg htime]
      constructor
      · rintro ⟨⟩
      · intro h
        cases h with
        | numbers unordered => exact absurd unordered hnumber
        | times ordered back => exact absurd back htime

/-- The first neighbours that are out of order are named. -/
theorem checkBlocks_eq_error {blocks : List BlockStamp} {fault : RecordingFault} :
    checkBlocks blocks = .error fault ↔
      ∃ earlier pair later, neighbours blocks = earlier ++ pair :: later ∧
        (∀ p ∈ earlier, p.1.number < p.2.number ∧ p.1.time ≤ p.2.time) ∧ PairFault pair fault := by
  induction blocks with
  | nil => simp [checkBlocks, neighbours]
  | cons a blocks ih =>
      cases blocks with
      | nil => simp [checkBlocks, neighbours]
      | cons b rest =>
          have hpairs : neighbours (a :: b :: rest) = (a, b) :: neighbours (b :: rest) := rfl
          rw [checkBlocks, hpairs]
          cases hfirst : checkPair a b with
          | error first =>
              have hwrong := checkPair_eq_error.1 hfirst
              constructor
              · rintro ⟨⟩
                exact ⟨[], (a, b), neighbours (b :: rest), rfl, by simp, hwrong⟩
              · rintro ⟨earlier, pair, later, hsplit, hbefore, hfault⟩
                cases earlier with
                | nil =>
                    cases hsplit
                    exact hfirst.symm.trans (checkPair_eq_error.2 hfault)
                | cons p earlier =>
                    rw [List.cons_append, List.cons.injEq] at hsplit
                    obtain ⟨rfl, _⟩ := hsplit
                    have hok := checkPair_eq_ok.2 (hbefore (a, b) List.mem_cons_self)
                    cases hfirst.symm.trans hok
          | ok _ =>
              rw [except_ok_bind, ih]
              constructor
              · rintro ⟨earlier, pair, later, hsplit, hbefore, hfault⟩
                refine ⟨(a, b) :: earlier, pair, later, by rw [hsplit]; rfl, ?_, hfault⟩
                exact List.forall_mem_cons.2 ⟨checkPair_eq_ok.1 hfirst, hbefore⟩
              · rintro ⟨earlier, pair, later, hsplit, hbefore, hfault⟩
                cases earlier with
                | nil =>
                    cases hsplit
                    cases hfirst.symm.trans (checkPair_eq_error.2 hfault)
                | cons p earlier =>
                    rw [List.cons_append, List.cons.injEq] at hsplit
                    exact ⟨earlier, pair, later, hsplit.2,
                      fun q hq => hbefore q (List.mem_cons_of_mem _ hq), hfault⟩

theorem any_eq_true_iff_isListed {blocks : List BlockStamp} {event : Event} :
    (blocks.any fun block => block.number = event.block) = true ↔ IsListed blocks event := by
  simp [IsListed]

/-- The first event in a block that is not listed is named by that block. -/
theorem checkEvents_eq_error {blocks : List BlockStamp} {events : List Event}
    {fault : RecordingFault} :
    checkEvents blocks events = .error fault ↔
      ∃ earlier event later, events = earlier ++ event :: later ∧
        (∀ e ∈ earlier, IsListed blocks e) ∧ ¬ IsListed blocks event ∧
        fault = .unknownBlock event.block := by
  have hfound {event : Event} :
      (events.find? fun e => !blocks.any fun block => block.number = e.block) = some event ↔
        ∃ earlier later, events = earlier ++ event :: later ∧
          (∀ e ∈ earlier, IsListed blocks e) ∧ ¬ IsListed blocks event := by
    rw [List.find?_eq_some_iff_append, Bool.not_eq_true', ← Bool.not_eq_true,
      any_eq_true_iff_isListed]
    simp only [Bool.not_not, any_eq_true_iff_isListed]
    constructor
    · rintro ⟨hwrong, earlier, later, hsplit, hbefore⟩
      exact ⟨earlier, later, hsplit, hbefore, hwrong⟩
    · rintro ⟨earlier, later, hsplit, hbefore, hwrong⟩
      exact ⟨hwrong, earlier, later, hsplit, hbefore⟩
  rw [checkEvents]
  constructor
  · intro h
    split at h
    · next event hfind =>
        cases h
        obtain ⟨earlier, later, hsplit, hbefore, hwrong⟩ := hfound.1 hfind
        exact ⟨earlier, event, later, hsplit, hbefore, hwrong, rfl⟩
    · cases h
  · rintro ⟨earlier, event, later, hsplit, hbefore, hwrong, rfl⟩
    rw [hfound.2 ⟨earlier, later, hsplit, hbefore, hwrong⟩]

/-! ## All checks -/

theorem ofRecording_of_ne {recording : Recording} (hperiod : recording.periodSeconds ≠ 0)
    (hblocks : recording.blocks ≠ []) :
    ofRecording recording = do
      checkBlocks recording.blocks
      let times ← (Window.of (recording.blocks.head hblocks).time
        (recording.blocks.getLast hblocks).time).mapError .inverted
      checkEvents recording.blocks recording.events
      return ⟨recording, times⟩ := by
  have hfirst : recording.blocks.head? = some (recording.blocks.head hblocks) :=
    List.head?_eq_some_head hblocks
  have hlast : recording.blocks.getLast? = some (recording.blocks.getLast hblocks) :=
    List.getLast?_eq_some_getLast hblocks
  rw [ofRecording, if_neg hperiod]
  simp only [hfirst, hlast]

theorem ofRecording_of_firstFault {recording : Recording} {fault : RecordingFault}
    (h : recording.FirstFault fault) : ofRecording recording = .error fault := by
  cases h with
  | period zero =>
      rw [ofRecording, if_pos zero]
      rfl
  | blocks period none =>
      rw [ofRecording, if_neg period]
      simp only [none, List.head?_nil]
      rfl
  | pair period split before wrong =>
      have hne : recording.blocks ≠ [] := by
        intro hnil
        rw [hnil] at split
        exact absurd split (by simp [neighbours])
      rw [ofRecording_of_ne period hne,
        checkBlocks_eq_error.2 ⟨_, _, _, split, before, wrong⟩]
      rfl
  | event period nonempty ordered split before wrong =>
      have htimes := head_time_le_getLast ordered nonempty
      rw [ofRecording_of_ne period nonempty, checkBlocks_eq_ok.2 ordered, Window.of,
        dif_pos htimes, checkEvents_eq_error.2 ⟨_, _, _, split, before, wrong, rfl⟩]
      rfl

theorem inOrder_or_firstFault (recording : Recording) :
    recording.InOrder ∨ ∃ fault, recording.FirstFault fault := by
  by_cases hperiod : recording.periodSeconds = 0
  · exact .inr ⟨_, .period hperiod⟩
  by_cases hblocks : recording.blocks = []
  · exact .inr ⟨_, .blocks hperiod hblocks⟩
  cases hchecked : checkBlocks recording.blocks with
  | error fault =>
      obtain ⟨earlier, pair, later, hsplit, hbefore, hwrong⟩ := checkBlocks_eq_error.1 hchecked
      exact .inr ⟨fault, .pair hperiod hsplit hbefore hwrong⟩
  | ok _ =>
      have hordered := checkBlocks_eq_ok.1 hchecked
      cases hevents : checkEvents recording.blocks recording.events with
      | error fault =>
          obtain ⟨earlier, event, later, hsplit, hbefore, hwrong, rfl⟩ :=
            checkEvents_eq_error.1 hevents
          exact .inr ⟨_, .event hperiod hblocks hordered hsplit hbefore hwrong⟩
      | ok _ => exact .inl ⟨hperiod, hblocks, hordered, checkEvents_eq_ok.1 hevents⟩

theorem ofRecording_eq_error_iff {recording : Recording} {fault : RecordingFault} :
    ofRecording recording = .error fault ↔ recording.FirstFault fault := by
  constructor
  · intro herror
    rcases inOrder_or_firstFault recording with horder | ⟨first, hfirst⟩
    · obtain ⟨archive, hok⟩ := exists_archive horder
      cases hok.symm.trans herror
    · cases (ofRecording_of_firstFault hfirst).symm.trans herror
      exact hfirst
  · exact ofRecording_of_firstFault

theorem proofStatus_eq_lastStatus (archive : Archive) (id : RequestId) (slot : SlotIndex)
    (period : Period) :
    archive.proofStatus id slot period = archive.recording.lastStatus id slot period :=
  foldl_ite_eq_getLast? _ _ _ _

/-- A recording has an archive exactly if it is in order. Otherwise the first thing that is wrong
with it is named: that periods have no length, that there are no blocks, the first neighbours
whose numbers or, if these are in order, whose times are not, or the first event in a block that
is not listed; never that the last block is older than the first. The archive says about a proof
what the last entry about it says, whatever the block, and that none was required if there is
no entry. -/
theorem accepts_recordings_in_order (σ : Type) (recording : Recording) :
    ((∃ archive, ofRecording recording = .ok archive) ↔ recording.InOrder) ∧
    (∀ fault, ofRecording recording = .error fault ↔ recording.FirstFault fault) ∧
    (∀ fault, ofRecording recording ≠ .error (.inverted fault)) ∧
    ∀ archive, ofRecording recording = .ok archive →
      ∀ request slot block period (world : σ),
        (archive.oracle σ).proofStatus request slot block period world
          = .ok (recording.lastStatus request.id slot period) world := by
  refine ⟨⟨?_, exists_archive⟩, fun fault => ofRecording_eq_error_iff, fun fault hinverted => ?_,
    fun archive hok request slot block period world => ?_⟩
  · rintro ⟨archive, hok⟩
    exact (ofRecording_ok hok).2
  · -- no first fault is of this kind
    generalize hfault : RecordingFault.inverted fault = named at hinverted
    cases ofRecording_eq_error_iff.1 hinverted with
    | pair period split before wrong => cases wrong <;> cases hfault
    | _ => cases hfault
  · obtain ⟨rfl, _⟩ := ofRecording_ok hok
    rw [← proofStatus_eq_lastStatus]
    rfl

end Archive

end StorageMarket
