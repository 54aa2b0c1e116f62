import StorageMarket.Proofs.Audit.Reports
import StorageMarket.Proofs.Replay.Scenes

/-!
# Reviewing scenes

A review is what an audit is meant to be. It goes from one scene to the next, and keeps the
deals that run in the last one. When it meets a block of a later period, it writes the
reports on the periods that ended for the deals it has kept.

An audit does not keep these deals. It looks back from the next block, when some of them
may have finished. Still the two ask the same questions in the same order and write the
same reports, as long as the blocks come in the order of their times.
-/

namespace StorageMarket

namespace Audit

variable {σ : Type}

/-! ## Reviews -/

/-- What a review keeps of the last scene: the latest period so far, the block, and the deals that
run right after it. -/
structure Reference where
  period : Period
  block : BlockNumber
  running : List Deal

def latest (reference : Option Reference) (period : Period) : Period :=
  match reference with
  | none => period
  | some reference => if period ≤ reference.period then reference.period else period

def closeUp (oracle : Oracle σ) (maxClosed : UInt64) (reference : Option Reference)
    (period : Period) : EStateM OracleError σ (List Report) :=
  match reference with
  | none => pure []
  | some reference =>
      (closedPeriods maxClosed reference.period period).mapM fun closed =>
        Report.ofAnswers closed reference.block reference.running <$>
          askAll oracle reference.block closed reference.running

def review (oracle : Oracle σ) (maxClosed : UInt64) :
    Option Reference → List Scene → EStateM OracleError σ (List Report)
  | _, [] => pure []
  | reference, scene :: scenes => do
      let period ← oracle.periodOf scene.1.time
      let reports ← closeUp oracle maxClosed reference period
      let more ← review oracle maxClosed
        (some ⟨latest reference period, scene.1.number, scene.running⟩) scenes
      return reports ++ more

/-! ## Audits and reviews -/

/-- A cursor stands where a reference does, and the deals that ran there can be told from those of
a ledger. -/
inductive Recalls : Option Cursor → Option Reference → Ledger → Prop where
  | nothing {ledger : Ledger} (h : ledger.deals = []) : Recalls none none ledger
  | last {ledger : Ledger} {cursor : Cursor} (h : ledger.AsOf cursor.lastTime) :
      Recalls (some cursor)
        (some ⟨cursor.period, cursor.lastBlock, ledger.deals.filter Deal.isRunning⟩) ledger

variable {oracle : Oracle σ} {maxClosed : UInt64} {cursor : Option Cursor}
  {reference : Option Reference} {ledger : Ledger}

theorem Recalls.advance_eq (h : Recalls cursor reference ledger) (block : BlockNumber)
    (time : Instant) :
    advance oracle maxClosed cursor block time ledger.deals = do
      let period ← oracle.periodOf time
      let reports ← closeUp oracle maxClosed reference period
      return (⟨latest reference period, block, time⟩, reports) := by
  cases h with
  | nothing _ => rfl
  | @last _ cursor hasOf =>
      have hwrite (closed : Period) := writeReport_eq oracle cursor.lastBlock
        (ledger.deals.filter Deal.isRunning) closed
      rw [advance_some_eq, hasOf.filter_wasRunning, funext hwrite]
      rfl

/-- What is known by the cursor has ended by the time of a later block. -/
theorem Recalls.finishedBy (h : Recalls cursor reference ledger) {time : Instant}
    (hlater : ∀ current ∈ cursor, current.lastTime ≤ time) : ledger.FinishedBy time := by
  cases h with
  | nothing hnone =>
      intro deal hm
      rw [hnone] at hm
      exact absurd hm List.not_mem_nil
  | last hasOf => exact hasOf.finished.mono (hlater _ rfl)

/-- After a block, the deals that run in its scene are the ones to be told later. -/
theorem Recalls.next (h : Recalls cursor reference ledger) (hsound : ledger.Sound) {block : Block}
    (hlater : ∀ current ∈ cursor, current.lastTime ≤ block.time) (period : Period) :
    let after := (ledger.changeAll block.changes).2
    Recalls (some ⟨period, block.number, block.time⟩)
      (some ⟨period, block.number, Scene.running (block, after.deals)⟩) after :=
  .last (hsound.asOf_block (h.finishedBy hlater))

/-- An audit and a review write the same reports, from the same answers. -/
theorem Recalls.watchAll_eq_review (h : Recalls cursor reference ledger) (hsound : ledger.Sound)
    {blocks : List Block} (hsorted : blocks.Pairwise fun a b => a.time ≤ b.time)
    (hlater : ∀ current ∈ cursor, ∀ block ∈ blocks, current.lastTime ≤ block.time)
    (oracle : Oracle σ) (audit : Audit) :
    Prod.snd <$> watchAll oracle (some audit) cursor (ledger.sights blocks)
      = review oracle audit.maxClosed reference (ledger.scenes blocks) := by
  -- by induction on the blocks; after each of them the cursor recalls its scene
  induction blocks generalizing cursor reference ledger with
  | nil => simp [watchAll, Ledger.sights, Ledger.scenes, review]
  | cons block blocks ih =>
      rw [List.pairwise_cons] at hsorted
      have hsound' := Ledger.closed_sound.changeAll hsound block.changes
      have hblock : ∀ current ∈ cursor, current.lastTime ≤ block.time := fun current hm =>
        hlater current hm block List.mem_cons_self
      have hrest (period : Period) : ∀ current ∈ some (Cursor.mk period block.number block.time),
          ∀ other ∈ blocks, current.lastTime ≤ other.time := by
        intro current hm
        cases hm
        exact hsorted.1
      have hnext (period : Period) :=
        ih (h.next hsound hblock period) hsound' hsorted.2 (hrest period)
      rw [Ledger.sights, Ledger.scenes, watchAll, review, watch]
      simp only [h.advance_eq, ← hnext]
      simp [map_eq_pure_bind, -bind_pure_comp]

/-! ## What a report is about -/

/-- A report is about some deals as of a block: it follows from the answers to one question for each
of their slots. -/
def Describes (oracle : Oracle σ) (report : Report) (block : BlockNumber) (running : List Deal) :
    Prop :=
  ∃ answers world world',
    askAll oracle block report.period running world = .ok answers world' ∧
    report = Report.ofAnswers report.period block running answers

/-- A block is in a period, or at least in a later one than another. -/
def Ends (oracle : Oracle σ) (period : Period) (block : Block) : Prop :=
  ∃ later world world', oracle.periodOf block.time world = .ok later world' ∧ period < later

theorem describes_of_closeUp {period : Period} {reports : List Report} {world world' : σ}
    (h : closeUp oracle maxClosed reference period world = .ok reports world') {report : Report}
    (hm : report ∈ reports) :
    ∃ last ∈ reference, Describes oracle report last.block last.running ∧
      report.period < period := by
  cases reference with
  | none =>
      cases h
      exact absurd hm List.not_mem_nil
  | some last =>
      obtain ⟨closed, hclosed, between, after, hreport⟩ := exists_of_mem_mapM h hm
      rw [map_eq_pure_bind, state_bind_eq_ok] at hreport
      obtain ⟨answers, _, hanswers, hreport⟩ := hreport
      cases hreport
      exact ⟨last, rfl, ⟨answers, between, after, hanswers, rfl⟩,
        (bounds_of_mem_closedPeriods hclosed).2⟩

/-- Every report of a review is about one scene, or about what it was given to start with; and the
block of the next scene shows that its period is over. -/
theorem describes_of_review {scenes : List Scene} {reports : List Report} {world world' : σ}
    (h : review oracle maxClosed reference scenes world = .ok reports world') {report : Report}
    (hm : report ∈ reports) :
    (∃ last ∈ reference, ∃ next later, scenes = next :: later ∧
      Describes oracle report last.block last.running ∧ Ends oracle report.period next.1) ∨
    ∃ earlier scene next later, scenes = earlier ++ scene :: next :: later ∧
      Describes oracle report scene.1.number scene.running ∧ Ends oracle report.period next.1 := by
  induction scenes generalizing reference reports world with
  | nil =>
      cases h
      exact absurd hm List.not_mem_nil
  | cons scene scenes ih =>
      rw [review, state_bind_eq_ok] at h
      obtain ⟨period, between, hperiod, h⟩ := h
      obtain ⟨closed, after, hclosed, h⟩ := state_bind_eq_ok.1 h
      obtain ⟨more, last, hmore, h⟩ := state_bind_eq_ok.1 h
      cases h
      rcases List.mem_append.1 hm with hm | hm
      · obtain ⟨last, hlast, hdescribes, hlt⟩ := describes_of_closeUp hclosed hm
        exact .inl ⟨last, hlast, scene, scenes, rfl, hdescribes, period, world, between, hperiod, hlt⟩
      · rcases ih hmore hm with
          ⟨_, hlast, next, later, rfl, habout⟩ | ⟨earlier, found, next, later, rfl, habout⟩
        · cases hlast
          exact .inr ⟨[], scene, next, later, rfl, habout⟩
        · exact .inr ⟨scene :: earlier, found, next, later, rfl, habout⟩

end Audit

end StorageMarket
