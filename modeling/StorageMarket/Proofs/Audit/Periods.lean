import Mathlib.Algebra.Module.Submodule.Lattice
import Mathlib.Computability.Primrec.List
import Mathlib.Data.List.Permutation
import StorageMarket.Proofs.Audit.Reports
import StorageMarket.Proofs.Ledger.Snapshot

/-!
# The periods of reports

An audit is shown blocks, in any order and with any deals, over oracles that may answer
anything and may fail at any question; in between, its reports are taken. Whatever is
done, no report is lost and none is there twice, and the periods of the reports go up
all the time. As long as the audit moves on by no more periods than its limit, every
period from the first one it has seen is reported.

All this comes from what a single action can do (`Comes`): the cursor moves from one
period to another, and the reports are on the periods in between.
-/

namespace StorageMarket

/-- A block that is shown to an audit: with which deals, and over which oracle as it stands. -/
structure Sighting where
  World : Type
  oracle : Oracle World
  world : World
  block : BlockNumber
  time : Instant
  deals : List Deal

namespace Audit

def look (audit : Audit) (sighting : Sighting) :
    EStateM.Result OracleError (sighting.World × Audit) Unit :=
  observe sighting.oracle sighting.block sighting.time sighting.deals (sighting.world, audit)

/-! ## What can be done with an audit -/

/-- What can be done with an audit. Its reports may be taken through any handle. -/
inductive Action where
  | see (sighting : Sighting)
  | drain

inductive Effect where
  | failed (e : OracleError)
  /-- A block was seen, and these reports were written. -/
  | seen (reports : List Report)
  | drained (reports : List Report)

/-- The reports that an audit writes as it sees a block: those that are pending afterwards if none
was before. -/
def written (audit : Audit) (sighting : Sighting) : List Report :=
  match audit.drain.2.look sighting with
  | .ok _ (_, after) => after.pending
  | .error _ _ => []

def act (audit : Audit) : Action → Effect × Audit
  | .see sighting =>
      match audit.look sighting with
      | .ok _ (_, after) => (.seen (audit.written sighting), after)
      | .error e (_, after) => (.failed e, after)
  | .drain => (.drained audit.drain.1, audit.drain.2)

/-- Something that was done: how the audit stood before and after, and what came of it. -/
structure Entry where
  before : Audit
  action : Action
  effect : Effect
  after : Audit

def actAll (audit : Audit) : List Action → List Entry × Audit
  | [] => ([], audit)
  | action :: actions =>
      let first := audit.act action
      let others := first.2.actAll actions
      (⟨audit, action, first.1, first.2⟩ :: others.1, others.2)

namespace Effect

def reports : Effect → List Report
  | seen reports => reports
  | _ => []

def taken : Effect → List Report
  | drained reports => reports
  | _ => []

end Effect

def reported (log : List Entry) : List Report := log.flatMap fun entry => entry.effect.reports

def taken (log : List Entry) : List Report := log.flatMap fun entry => entry.effect.taken

def firstPeriod? (log : List Entry) : Option Period :=
  log.findSome? fun entry => entry.after.cursor.map Cursor.period

def Entry.jump (entry : Entry) : Nat :=
  match entry.before.cursor, entry.after.cursor with
  | some current, some next => next.period.toNat - current.period.toNat
  | _, _ => 0

/-! ## What comes of one action -/

def laterPeriod (cursor : Option Cursor) (period : Period) : Period :=
  match cursor with
  | none => period
  | some current => if period ≤ current.period then current.period else period

/-- The periods that are reported as a cursor moves to a period: none if it is the first. -/
def closedSince (maxClosed : UInt64) (cursor : Option Cursor) (next : Period) : List Period :=
  match cursor with
  | none => []
  | some current => closedPeriods maxClosed current.period next

/-- All that can come of what is done with an audit. -/
inductive Comes (audit : Audit) : Action → Effect → Audit → Prop where
  /-- A failure leaves no trace, and does not depend on what is pending. -/
  | failed {sighting : Sighting} {e : OracleError} {world : sighting.World}
      (fails : ∀ pending, { audit with pending }.look sighting
        = .error e (world, { audit with pending })) :
      audit.Comes (.see sighting) (.failed e) audit
  /-- The cursor moves on to the block, and the reports on the periods that ended in between are
  added to what is pending, whatever that is. -/
  | seen {sighting : Sighting} {period : Period} {between world : sighting.World}
      {reports : List Report}
      (named : sighting.oracle.periodOf sighting.time sighting.world = .ok period between)
      (periods : reports.map Report.period
        = closedSince audit.maxClosed audit.cursor (laterPeriod audit.cursor period))
      (succeeds : ∀ pending, { audit with pending }.look sighting
        = .ok () (world, { audit with pending }.commit
          (some ⟨laterPeriod audit.cursor period, sighting.block, sighting.time⟩) reports)) :
      audit.Comes (.see sighting) (.seen reports) (audit.commit
        (some ⟨laterPeriod audit.cursor period, sighting.block, sighting.time⟩) reports)
  | drained : audit.Comes .drain (.drained audit.pending) { audit with pending := [] }

section

variable {σ : Type} {oracle : Oracle σ} {block : BlockNumber} {time : Instant} {deals : List Deal}

theorem periods_of_mapM {periods : List Period} {reports : List Report} {world world' : σ}
    (h : periods.mapM (writeReport oracle block deals) world = .ok reports world') :
    reports.map Report.period = periods := by
  induction periods generalizing reports world with
  | nil =>
      cases h
      rfl
  | cons period periods ih =>
      obtain ⟨report, between, rest, hreport, hrest, rfl⟩ := mapM_cons_eq_ok.1 h
      obtain ⟨readings, after, _, hreport⟩ := state_bind_eq_ok.1 hreport
      cases hreport
      rw [List.map_cons, ih hrest]
      rfl

/-- Seeing a block moves the cursor to the later one of two periods. -/
theorem advance_eq_ok {maxClosed : UInt64} {cursor : Option Cursor} {next : Cursor}
    {reports : List Report} {world world' : σ}
    (h : advance oracle maxClosed cursor block time deals world = .ok (next, reports) world') :
    ∃ period between, oracle.periodOf time world = .ok period between ∧
      next = ⟨laterPeriod cursor period, block, time⟩ ∧
      reports.map Report.period = closedSince maxClosed cursor next.period := by
  cases cursor with
  | none =>
      obtain ⟨period, hperiod, rfl, rfl⟩ := advance_none_eq_ok.1 h
      exact ⟨period, world', hperiod, rfl, rfl⟩
  | some current =>
      rw [advance_some_eq] at h
      obtain ⟨period, between, hperiod, h⟩ := state_bind_eq_ok.1 h
      obtain ⟨written, after, hwritten, h⟩ := state_bind_eq_ok.1 h
      cases h
      refine ⟨period, between, hperiod, rfl, ?_⟩
      have hperiods := periods_of_mapM hwritten
      rw [hperiods]
      unfold closedSince
      by_cases hle : period ≤ current.period
      · simp [hle, closedPeriods_of_le]
      · simp [hle]

end

/-- What is pending does not change what is seen. -/
theorem look_of_ok {audit : Audit} {sighting : Sighting} {next : Cursor} {reports : List Report}
    {world : sighting.World}
    (h : advance sighting.oracle audit.maxClosed audit.cursor sighting.block sighting.time
      sighting.deals sighting.world = .ok (next, reports) world) (pending : List Report) :
    { audit with pending }.look sighting
      = .ok () (world, { audit with pending }.commit (some next) reports) := by
  unfold look observe
  simp only [h]

theorem look_of_error {audit : Audit} {sighting : Sighting} {e : OracleError}
    {world : sighting.World}
    (h : advance sighting.oracle audit.maxClosed audit.cursor sighting.block sighting.time
      sighting.deals sighting.world = .error e world) (pending : List Report) :
    { audit with pending }.look sighting = .error e (world, { audit with pending }) := by
  unfold look observe
  simp only [h]

theorem comes_act (audit : Audit) (action : Action) :
    audit.Comes action (audit.act action).1 (audit.act action).2 := by
  cases action with
  | drain => exact .drained
  | see sighting =>
      cases hadvance : advance sighting.oracle audit.maxClosed audit.cursor sighting.block
        sighting.time sighting.deals sighting.world with
      | error e world =>
          have hlook := look_of_error hadvance
          have hact : audit.act (.see sighting) = (.failed e, audit) := by
            rw [act, show audit.look sighting = _ from hlook audit.pending]
          rw [hact]
          exact .failed hlook
      | ok result world =>
          obtain ⟨next, reports⟩ := result
          obtain ⟨period, between, hnamed, rfl, hperiods⟩ := advance_eq_ok hadvance
          have hlook := look_of_ok hadvance
          have hwritten : audit.written sighting = reports := by
            rw [written, show audit.drain.2.look sighting = _ from hlook []]
            rfl
          have hact : audit.act (.see sighting) = (.seen reports, audit.commit
              (some ⟨laterPeriod audit.cursor period, sighting.block, sighting.time⟩) reports) := by
            rw [act, show audit.look sighting = _ from hlook audit.pending, hwritten]
          rw [hact]
          exact .seen hnamed hperiods hlook

/-! ## What comes of a run -/

/-- Nothing that was written is lost or there twice. -/
theorem taken_append_pending (audit : Audit) (actions : List Action) :
    taken (audit.actAll actions).1 ++ (audit.actAll actions).2.pending
      = audit.pending ++ reported (audit.actAll actions).1 := by
  induction actions generalizing audit with
  | nil => exact (List.append_nil _).symm
  | cons action actions ih =>
      have ih := ih (audit.act action).2
      have hcomes := audit.comes_act action
      rw [actAll, taken, List.flatMap_cons, ← taken, reported, List.flatMap_cons, ← reported,
        List.append_assoc, ih]
      generalize (audit.act action).1 = effect at hcomes ⊢
      generalize (audit.act action).2 = after at hcomes ⊢
      cases hcomes with
      | failed fails => rfl
      | seen named periods succeeds => exact List.append_assoc ..
      | drained => rfl

def StartsFrom (cursor : Option Cursor) (periods : List Period) : Prop :=
  ∀ current ∈ cursor, ∀ period ∈ periods, current.period ≤ period

theorem le_laterPeriod {cursor : Option Cursor} {current : Cursor} (hm : current ∈ cursor)
    (period : Period) : current.period ≤ laterPeriod cursor period := by
  cases hm
  unfold laterPeriod
  dsimp only
  split
  · exact UInt64.le_refl _
  · next hle => exact UInt64.le_of_lt (UInt64.not_le.1 hle)

theorem closedSince_bounds {maxClosed : UInt64} {cursor : Option Cursor} {next period : Period}
    (hm : period ∈ closedSince maxClosed cursor next) :
    (∀ current ∈ cursor, current.period ≤ period) ∧ period < next := by
  cases cursor with
  | none => exact absurd hm List.not_mem_nil
  | some current =>
      obtain ⟨hle, hlt⟩ := bounds_of_mem_closedPeriods hm
      refine ⟨fun other hother => ?_, hlt⟩
      cases hother
      exact hle

theorem pairwise_closedSince (maxClosed : UInt64) (cursor : Option Cursor) (next : Period) :
    (closedSince maxClosed cursor next).Pairwise (· < ·) := by
  cases cursor with
  | none => exact List.Pairwise.nil
  | some current =>
      have hsorted := List.pairwise_lt_range'
        (s := max current.period.toNat (next.toNat - maxClosed.toNat))
        (n := next.toNat - max current.period.toNat (next.toNat - maxClosed.toNat))
      rw [← toNat_closedPeriods, List.pairwise_map] at hsorted
      exact hsorted.imp UInt64.lt_iff_toNat_lt.2

/-- The periods of the reports go up from where the cursor was. -/
theorem ascending_reported (audit : Audit) (actions : List Action) :
    StartsFrom audit.cursor ((reported (audit.actAll actions).1).map Report.period) ∧
      ((reported (audit.actAll actions).1).map Report.period).Pairwise (· < ·) := by
  induction actions generalizing audit with
  | nil => exact ⟨fun _ _ _ h => absurd h List.not_mem_nil, List.Pairwise.nil⟩
  | cons action actions ih =>
      obtain ⟨hfrom, hsorted⟩ := ih (audit.act action).2
      have hcomes := audit.comes_act action
      rw [actAll, reported, List.flatMap_cons, ← reported, List.map_append]
      generalize (audit.act action).1 = effect at hcomes ⊢
      generalize (audit.act action).2 = after at hcomes hfrom hsorted ⊢
      cases hcomes with
      | failed fails => exact ⟨hfrom, hsorted⟩
      | drained => exact ⟨hfrom, hsorted⟩
      | @seen sighting period between world reports named periods succeeds =>
          have hfrom := hfrom _ rfl
          show StartsFrom _ (reports.map _ ++ _) ∧ (reports.map _ ++ _).Pairwise _
          rw [periods]
          constructor
          · intro current hcurrent p hp
            rcases List.mem_append.1 hp with hp | hp
            · exact (closedSince_bounds hp).1 current hcurrent
            · exact UInt64.le_trans (le_laterPeriod hcurrent period) (hfrom p hp)
          · refine List.pairwise_append.2 ⟨pairwise_closedSince .., hsorted, fun p hp q hq => ?_⟩
            exact UInt64.lt_of_lt_of_le (closedSince_bounds hp).2 (hfrom q hq)

/-! ## Periods without a gap -/

theorem Comes.maxClosed {audit after : Audit} {action : Action} {effect : Effect}
    (h : audit.Comes action effect after) : after.maxClosed = audit.maxClosed := by
  cases h <;> rfl

/-- The cursor never moves back, and the reports of one action are on the periods it passed, no more
than the limit. -/
theorem Comes.periods {audit after : Audit} {action : Action} {effect : Effect}
    (h : audit.Comes action effect after) {current next : Cursor}
    (hcurrent : audit.cursor = some current) (hnext : after.cursor = some next) :
    current.period ≤ next.period ∧
      effect.reports.map (fun report => report.period.toNat)
        = List.range' (max current.period.toNat (next.period.toNat - audit.maxClosed.toNat))
            (next.period.toNat
              - max current.period.toNat (next.period.toNat - audit.maxClosed.toNat)) := by
  have hstay (heq : current = next) : current.period ≤ next.period ∧
      ([] : List Report).map (fun report => report.period.toNat)
        = List.range' (max current.period.toNat (next.period.toNat - audit.maxClosed.toNat))
            (next.period.toNat
              - max current.period.toNat (next.period.toNat - audit.maxClosed.toNat)) := by
    subst heq
    rw [show current.period.toNat
      - max current.period.toNat (current.period.toNat - audit.maxClosed.toNat) = 0 by omega]
    exact ⟨UInt64.le_refl _, rfl⟩
  cases h with
  | failed fails => exact hstay (Option.some.inj (hcurrent.symm.trans hnext))
  | drained => exact hstay (Option.some.inj (hcurrent.symm.trans hnext))
  | @seen sighting period between world reports named periods succeeds =>
      cases hnext
      refine ⟨le_laterPeriod hcurrent period, ?_⟩
      have hnat : reports.map (fun report => report.period.toNat)
          = (reports.map Report.period).map UInt64.toNat := by
        rw [List.map_map]
        rfl
      show reports.map _ = _
      rw [hnat, periods, hcurrent]
      exact toNat_closedPeriods ..

theorem Comes.exists_cursor {audit after : Audit} {action : Action} {effect : Effect}
    (h : audit.Comes action effect after) {current : Cursor}
    (hcurrent : audit.cursor = some current) : ∃ next, after.cursor = some next := by
  cases h with
  | failed fails => exact ⟨current, hcurrent⟩
  | drained => exact ⟨current, hcurrent⟩
  | seen named periods succeeds => exact ⟨_, rfl⟩

/-- If the audit never moves on by more periods than its limit, no period is left out. -/
theorem reported_eq_range {audit : Audit} {actions : List Action} {current : Cursor}
    (hcurrent : audit.cursor = some current)
    (hjump : ∀ entry ∈ (audit.actAll actions).1, entry.jump ≤ audit.maxClosed.toNat) :
    ∃ last, (audit.actAll actions).2.cursor = some last ∧ current.period ≤ last.period ∧
      (reported (audit.actAll actions).1).map (fun report => report.period.toNat)
        = List.range' current.period.toNat (last.period.toNat - current.period.toNat) := by
  induction actions generalizing audit current with
  | nil =>
      refine ⟨current, hcurrent, UInt64.le_refl _, ?_⟩
      rw [Nat.sub_self]
      rfl
  | cons action actions ih =>
      have hcomes := audit.comes_act action
      obtain ⟨next, hnext⟩ := hcomes.exists_cursor hcurrent
      obtain ⟨hle, hfirst⟩ := hcomes.periods hcurrent hnext
      have hstep := hjump ⟨audit, action, _, _⟩ List.mem_cons_self
      simp only [Entry.jump, hcurrent, hnext] at hstep
      rw [← hcomes.maxClosed] at hjump
      obtain ⟨last, hlast, hle', hrest⟩ :=
        ih hnext fun entry hm => hjump entry (List.mem_cons_of_mem _ hm)
      have hnat := UInt64.le_iff_toNat_le.1 hle
      have hnat' := UInt64.le_iff_toNat_le.1 hle'
      have hstart : max current.period.toNat (next.period.toNat - audit.maxClosed.toNat)
          = current.period.toNat := by omega
      refine ⟨last, hlast, UInt64.le_trans hle hle', ?_⟩
      rw [actAll, reported, List.flatMap_cons, ← reported, List.map_append, hrest, hfirst, hstart]
      have happend := List.range'_append_1 (s := current.period.toNat)
        (m := next.period.toNat - current.period.toNat)
        (n := last.period.toNat - next.period.toNat)
      rw [Nat.add_sub_cancel' hnat] at happend
      rw [happend]
      congr 1
      omega

/-- As long as an audit has no cursor it writes no report. -/
theorem Comes.reports_of_none {audit after : Audit} {action : Action} {effect : Effect}
    (h : audit.Comes action effect after) (hnone : audit.cursor = none) : effect.reports = [] := by
  cases h with
  | failed fails => rfl
  | drained => rfl
  | seen named periods succeeds =>
      rw [hnone] at periods
      exact List.map_eq_nil_iff.1 periods

theorem firstPeriod?_cons (entry : Entry) (log : List Entry) :
    firstPeriod? (entry :: log)
      = (entry.after.cursor.map Cursor.period).or (firstPeriod? log) := by
  rw [firstPeriod?, List.findSome?_cons, ← firstPeriod?]
  cases entry.after.cursor <;> rfl

/-- The same from the first period that the audit is in. -/
theorem reported_eq_range_of_none {audit : Audit} {actions : List Action}
    (hnone : audit.cursor = none)
    (hjump : ∀ entry ∈ (audit.actAll actions).1, entry.jump ≤ audit.maxClosed.toNat)
    {first : Period} (hfirst : firstPeriod? (audit.actAll actions).1 = some first) :
    ∃ last, (audit.actAll actions).2.cursor = some last ∧
      (reported (audit.actAll actions).1).map (fun report => report.period.toNat)
        = List.range' first.toNat (last.period.toNat - first.toNat) := by
  induction actions generalizing audit with
  | nil => exact nomatch hfirst
  | cons action actions ih =>
      have hcomes := audit.comes_act action
      have hrest : ∀ entry ∈ ((audit.act action).2.actAll actions).1,
          entry.jump ≤ (audit.act action).2.maxClosed.toNat := by
        rw [hcomes.maxClosed]
        exact fun entry hm => hjump entry (List.mem_cons_of_mem _ hm)
      rw [actAll, reported, List.flatMap_cons, ← reported, hcomes.reports_of_none hnone,
        List.nil_append]
      rw [actAll, firstPeriod?_cons] at hfirst
      cases hafter : (audit.act action).2.cursor with
      | none =>
          rw [hafter] at hfirst
          exact ih hafter hrest hfirst
      | some next =>
          rw [hafter] at hfirst
          cases hfirst
          obtain ⟨last, hlast, _, hrange⟩ := reported_eq_range hafter hrest
          exact ⟨last, hlast, hrange⟩

/-! ## Any run -/

theorem Comes.unchanged {audit after : Audit} {action : Action} {e : OracleError}
    (h : audit.Comes action (.failed e) after) : after = audit := by
  cases h
  rfl

theorem comes_of_mem {audit : Audit} {actions : List Action} {entry : Entry}
    (hm : entry ∈ (audit.actAll actions).1) :
    entry.before.Comes entry.action entry.effect entry.after ∧
      entry.before.maxClosed = audit.maxClosed := by
  induction actions generalizing audit with
  | nil => exact absurd hm List.not_mem_nil
  | cons action actions ih =>
      have hcomes := audit.comes_act action
      rcases List.mem_cons.1 hm with rfl | hm
      · exact ⟨hcomes, rfl⟩
      · rw [← hcomes.maxClosed]
        exact ih hm

/-- Whatever is done with a new audit: what was taken and what is pending is just what was written,
in order, and the periods of the reports go up. An action that fails changes nothing; one that
moves the cursor from one period to another writes the reports on those in between, each once,
no more than the limit. If the limit is never exceeded, every period is reported from the first
one that was seen to the one before the last. -/
theorem reports_follow_periods {maxClosed : UInt64} {actions : List Action} {log : List Entry}
    {last : Audit} (hrun : (new maxClosed).actAll actions = (log, last)) :
    taken log ++ last.pending = reported log ∧
    ((reported log).map Report.period).Pairwise (· < ·) ∧
    (∀ entry ∈ log, entry.before.Comes entry.action entry.effect entry.after ∧
      (∀ e, entry.effect = .failed e → entry.after = entry.before) ∧
      ∀ current next, entry.before.cursor = some current → entry.after.cursor = some next →
        current.period ≤ next.period ∧
        entry.effect.reports.map (fun report => report.period.toNat)
          = List.range' (max current.period.toNat (next.period.toNat - (max 1 maxClosed.toNat)))
              (next.period.toNat
                - max current.period.toNat (next.period.toNat - (max 1 maxClosed.toNat)))) ∧
    ∀ first, firstPeriod? log = some first →
      (∀ entry ∈ log, entry.jump ≤ max 1 maxClosed.toNat) →
      ∃ current, last.cursor = some current ∧
        (reported log).map (fun report => report.period.toNat)
          = List.range' first.toNat (current.period.toNat - first.toNat) := by
  have hlimit : (new maxClosed).maxClosed.toNat = max 1 maxClosed.toNat := by
    unfold new
    split
    · next hzero =>
        subst hzero
        rfl
    · next hne =>
        have hpos : maxClosed.toNat ≠ 0 := fun h => hne (UInt64.toNat_inj.1 h)
        show maxClosed.toNat = _
        omega
  have hall : log = ((new maxClosed).actAll actions).1 := by rw [hrun]
  have hend : last = ((new maxClosed).actAll actions).2 := by rw [hrun]
  subst hall hend
  refine ⟨taken_append_pending _ actions, (ascending_reported _ actions).2, ?_, ?_⟩
  · intro entry hm
    obtain ⟨hcomes, hmax⟩ := comes_of_mem hm
    refine ⟨hcomes, ?_, ?_⟩
    · intro e he
      rw [he] at hcomes
      exact hcomes.unchanged
    · intro current next hcurrent hnext
      have hperiods := hcomes.periods hcurrent hnext
      rwa [hmax, hlimit] at hperiods
  · intro first hfirst hjump
    rw [← hlimit] at hjump
    exact reported_eq_range_of_none rfl hjump hfirst

def sampleDeal : Deal where
  request := Ledger.sampleRequest 4 1 3600
  stage := .started
  createdBlock := 7
  createdAt := default
  hosts := .empty

/-- A block in a period, over an oracle that has so many answers about proofs left. -/
def sampleSighting (block : BlockNumber) (period : Period) (answers : Nat) : Sighting where
  World := Nat
  oracle :=
    { periodOf _ := pure period
      proofStatus _ _ _ _ left :=
        if left = 0 then .error (.unavailable "timeout") left
        else .ok ⟨true, true⟩ (left - 1) }
  world := answers
  block := block
  time := default
  deals := [sampleDeal]

/-- The second block is seen at the second attempt only: the first one fails between two reports.
The third block is in an earlier period. -/
def sampleActions : List Action :=
  [.see (sampleSighting 11 5 0), .see (sampleSighting 12 7 1), .drain,
    .see (sampleSighting 12 7 2), .see (sampleSighting 13 6 0), .drain,
    .see (sampleSighting 14 9 2)]

theorem reports_follow_periods_sampleActions :
    ∃ log last, (new 2).actAll sampleActions = (log, last) ∧
      ((reported log).map Report.period = [5, 6, 7, 8]) ∧
      taken log ++ last.pending = reported log ∧
      firstPeriod? log = some 5 ∧ (∀ entry ∈ log, entry.jump ≤ max 1 (2 : UInt64).toNat) ∧
      ∃ current, last.cursor = some current ∧
        (reported log).map (fun report => report.period.toNat)
          = List.range' 5 (current.period.toNat - 5) := by
  have hfirst : firstPeriod? ((new 2).actAll sampleActions).1 = some 5 := by cbv
  have hjump : ∀ entry ∈ ((new 2).actAll sampleActions).1,
      entry.jump ≤ max 1 (2 : UInt64).toNat := by
    have hjumps : ((new 2).actAll sampleActions).1.map Entry.jump = [0, 0, 0, 2, 0, 0, 2] := by cbv
    intro entry hm
    have hmem := List.mem_map_of_mem (f := Entry.jump) hm
    rw [hjumps] at hmem
    have hsmall : ∀ jump ∈ [0, 0, 0, 2, 0, 0, 2], jump ≤ max 1 (2 : UInt64).toNat := by decide
    exact hsmall _ hmem
  have hperiods : (reported ((new 2).actAll sampleActions).1).map Report.period = [5, 6, 7, 8] := by
    cbv
  have hrun : (new 2).actAll sampleActions
      = (((new 2).actAll sampleActions).1, ((new 2).actAll sampleActions).2) := rfl
  obtain ⟨htaken, _, _, hrange⟩ := reports_follow_periods hrun
  exact ⟨_, _, rfl, hperiods, htaken, hfirst, hjump, hrange 5 hfirst hjump⟩

end Audit

end StorageMarket
