import Mathlib.Algebra.GroupWithZero.Nat
import StorageMarket.Audit
import StorageMarket.Proofs.Success

/-!
# How reports are written

A report takes one question for each slot of each examined deal, deal after deal and slot
after slot; everything in it follows from the answers. When an audit moves on to a later
period it writes the reports on the periods in between, the oldest first, of which there
are no more than the limit.
-/

namespace StorageMarket

/-! ## One answer for each question -/

section

variable {ε σ α β γ : Type}

theorem length_of_mapM {f : α → EStateM ε σ β} {l : List α} {s s' : σ} {results : List β}
    (h : l.mapM f s = .ok results s') : results.length = l.length := by
  induction l generalizing s results with
  | nil =>
      cases h
      rfl
  | cons a l ih =>
      obtain ⟨b, t, rest, _, hrest, rfl⟩ := mapM_cons_eq_ok.1 h
      rw [List.length_cons, List.length_cons, ih hrest]

theorem exists_of_mem_mapM {f : α → EStateM ε σ β} {l : List α} {s s' : σ} {results : List β}
    (h : l.mapM f s = .ok results s') {b : β} (hb : b ∈ results) :
    ∃ a ∈ l, ∃ t t', f a t = .ok b t' := by
  induction l generalizing s results with
  | nil =>
      cases h
      exact absurd hb List.not_mem_nil
  | cons a l ih =>
      obtain ⟨first, t, rest, hfirst, hrest, rfl⟩ := mapM_cons_eq_ok.1 h
      rcases List.mem_cons.1 hb with rfl | hb
      · exact ⟨a, List.mem_cons_self, s, t, hfirst⟩
      · obtain ⟨c, hc, hresult⟩ := ih hrest hb
        exact ⟨c, List.mem_cons_of_mem a hc, hresult⟩

/-- What is made of the answers matters only for as many answers as there are questions. -/
theorem map_mapM_congr {f : α → EStateM ε σ β} {l : List α} {g h : List β → γ}
    (hsame : ∀ results, results.length = l.length → g results = h results) :
    g <$> l.mapM f = h <$> l.mapM f := by
  funext s
  show EStateM.map g (l.mapM f) s = EStateM.map h (l.mapM f) s
  unfold EStateM.map
  cases hresult : l.mapM f s with
  | error e t => rfl
  | ok results t =>
      show EStateM.Result.ok (g results) t = .ok (h results) t
      rw [hsame results (length_of_mapM hresult)]

theorem mapM_map {m : Type → Type} [Monad m] [LawfulMonad m] (f : α → m β) (g : α → β → γ)
    (l : List α) :
    l.mapM (fun a => g a <$> f a) = (fun results => List.zipWith g l results) <$> l.mapM f := by
  induction l with
  | nil => simp
  | cons a l ih => simp [List.mapM_cons, ih]

end

/-! ## Slots -/

def Deal.slots (deal : Deal) : List SlotIndex :=
  (List.range deal.request.terms.slots.toNat).map .ofNat

namespace Audit

def places (deals : List Deal) : List (Deal × SlotIndex) :=
  deals.flatMap fun deal => deal.slots.map fun slot => (deal, slot)

variable {σ : Type}

def askAll (oracle : Oracle σ) (block : BlockNumber) (period : Period) (deals : List Deal) :
    EStateM OracleError σ (List ProofStatus) :=
  (places deals).mapM fun place => oracle.proofStatus place.1.request place.2 block period

end Audit

def MissedProof.of? (place : Deal × SlotIndex) (status : ProofStatus) : Option MissedProof :=
  if status.required && status.missing then
    some ⟨place.1.hosts.host? place.2, place.1.id, place.2⟩
  else none

def Report.ofAnswers (period : Period) (block : BlockNumber) (deals : List Deal)
    (answers : List ProofStatus) : Report where
  period := period
  referenceBlock := block
  totalSlots := (deals.map fun deal => deal.request.terms.slots.toNat).sum
  requiredProofs := answers.countP fun status => status.required
  missedProofs := (List.zipWith MissedProof.of? (Audit.places deals) answers).filterMap id

namespace Audit

theorem length_places (deals : List Deal) :
    (places deals).length = (deals.map fun deal => deal.request.terms.slots.toNat).sum := by
  simp only [places, List.length_flatMap, List.length_map, Deal.slots, List.length_range]

def readingOf (place : Deal × SlotIndex) (status : ProofStatus) : Reading :=
  ⟨place.1.id, place.2, place.1.hosts.host? place.2, status⟩

theorem ofReadings_eq_ofAnswers (period : Period) (block : BlockNumber) {deals : List Deal}
    {answers : List ProofStatus} (hlength : answers.length = (places deals).length) :
    Report.ofReadings period block (List.zipWith readingOf (places deals) answers)
      = Report.ofAnswers period block deals answers := by
  have hstatus : (List.zipWith readingOf (places deals) answers).map Reading.status = answers := by
    have hsecond := List.map_snd_zip (Nat.le_of_eq hlength)
    rw [List.zip, List.map_zipWith] at hsecond
    rw [List.map_zipWith]
    exact hsecond
  have hmissed : (List.zipWith readingOf (places deals) answers).map Reading.missed?
      = List.zipWith MissedProof.of? (places deals) answers := by
    rw [List.map_zipWith]
    rfl
  unfold Report.ofReadings Report.ofAnswers
  congr 1
  · rw [List.length_zipWith, hlength, Nat.min_self, length_places]
  · conv => rhs; rw [← hstatus]
    rw [List.countP_map]
    rfl
  · rw [← hmissed, List.filterMap_map]
    rfl

variable {σ : Type} (oracle : Oracle σ) (block : BlockNumber)

/-! ## Readings -/

def readPlace (period : Period) (place : Deal × SlotIndex) : EStateM OracleError σ Reading :=
  readingOf place <$> oracle.proofStatus place.1.request place.2 block period

theorem readSlots_eq (period : Period) (deal : Deal) (count n : Nat) (readings : Array Reading) :
    readSlots oracle block period deal count (.ofNat n) readings
      = (fun found => (readings.toList ++ found).toArray) <$>
        ((List.range' n count).map fun i => (deal, UInt64.ofNat i)).mapM
          (readPlace oracle block period) := by
  induction count generalizing n readings with
  | zero => simp [readSlots]
  | succ count ih =>
      have hnext : UInt64.ofNat n + 1 = UInt64.ofNat (n + 1) := (UInt64.ofNat_add n 1).symm
      rw [readSlots, List.range'_succ, List.map_cons, List.mapM_cons, hnext]
      simp [ih, readPlace, readingOf, map_eq_pure_bind, -bind_pure_comp, -UInt64.ofNat_add]

theorem readDeals_eq (period : Period) (deals : List Deal) (readings : Array Reading) :
    readDeals oracle block period deals readings
      = (fun found => (readings.toList ++ found).toArray) <$>
        (places deals).mapM (readPlace oracle block period) := by
  induction deals generalizing readings with
  | nil => simp [readDeals, places]
  | cons deal deals ih =>
      have hplaces : places (deal :: deals)
          = (List.range' 0 deal.request.terms.slots.toNat).map (fun i => (deal, UInt64.ofNat i))
            ++ places deals := by
        rw [places, List.flatMap_cons, Deal.slots, List.map_map, List.range_eq_range']
        rfl
      have hfirst : (0 : SlotIndex) = .ofNat 0 := rfl
      rw [readDeals, hfirst, readSlots_eq, hplaces, List.mapM_append]
      simp [ih, map_eq_pure_bind, -bind_pure_comp]

/-! ## Reports -/

/-- A report takes one question for each slot, and follows from the answers. -/
theorem writeReport_eq (deals : List Deal) (period : Period) :
    writeReport oracle block deals period
      = Report.ofAnswers period block deals <$> askAll oracle block period deals := by
  have hread : (places deals).mapM (readPlace oracle block period)
      = List.zipWith readingOf (places deals) <$> askAll oracle block period deals :=
    mapM_map _ readingOf (places deals)
  rw [writeReport, readDeals_eq, hread, askAll,
    ← map_mapM_congr fun answers hlength => ofReadings_eq_ofAnswers period block hlength]
  simp [map_eq_pure_bind, -bind_pure_comp]

theorem writeReports_eq (deals : List Deal) (count n : Nat) (reports : Array Report) :
    writeReports oracle block deals count (.ofNat n) reports
      = (fun written => (reports.toList ++ written).toArray) <$>
        ((List.range' n count).map UInt64.ofNat).mapM (writeReport oracle block deals) := by
  induction count generalizing n reports with
  | zero => simp [writeReports]
  | succ count ih =>
      have hnext : UInt64.ofNat n + 1 = UInt64.ofNat (n + 1) := (UInt64.ofNat_add n 1).symm
      rw [writeReports, List.range'_succ, List.map_cons, List.mapM_cons, hnext]
      simp [ih, map_eq_pure_bind, -bind_pure_comp, -UInt64.ofNat_add]

/-! ## Periods that ended -/

/-- The periods that are reported when an audit moves from one period to another one: those from the
one to just before the other, no more than the limit. -/
def closedPeriods (maxClosed : UInt64) (current next : Period) : List Period :=
  let first := max current.toNat (next.toNat - maxClosed.toNat)
  (List.range' first (next.toNat - first)).map .ofNat

theorem closedPeriods_of_le {maxClosed : UInt64} {current next : Period} (h : next ≤ current) :
    closedPeriods maxClosed current next = [] := by
  have h := UInt64.le_iff_toNat_le.1 h
  have hnone : next.toNat - max current.toNat (next.toNat - maxClosed.toNat) = 0 := by omega
  rw [closedPeriods, hnone]
  rfl

/-- Each period is reported once, and none of them wraps around. -/
theorem toNat_closedPeriods (maxClosed : UInt64) (current next : Period) :
    (closedPeriods maxClosed current next).map UInt64.toNat
      = List.range' (max current.toNat (next.toNat - maxClosed.toNat))
          (next.toNat - max current.toNat (next.toNat - maxClosed.toNat)) := by
  rw [closedPeriods, List.map_map]
  refine (List.map_congr_left fun n hn => ?_).trans (List.map_id _)
  have hn := List.mem_range'_1.1 hn
  have hfit := next.toNat_lt_size
  exact UInt64.toNat_ofNat_of_lt' (by omega)

theorem bounds_of_mem_closedPeriods {maxClosed : UInt64} {current next period : Period}
    (hm : period ∈ closedPeriods maxClosed current next) : current ≤ period ∧ period < next := by
  have hnat : period.toNat ∈ (closedPeriods maxClosed current next).map UInt64.toNat :=
    List.mem_map_of_mem hm
  rw [toNat_closedPeriods, List.mem_range'_1] at hnat
  rw [UInt64.le_iff_toNat_le, UInt64.lt_iff_toNat_lt]
  omega

/-- The first of them is found without a subtraction that wraps around. -/
theorem toNat_firstClosed (maxClosed : UInt64) {current next : Period} (h : current ≤ next) :
    (firstClosed maxClosed current next).toNat
      = max current.toNat (next.toNat - maxClosed.toNat) := by
  have hle := UInt64.le_iff_toNat_le.1 h
  have hgap := UInt64.toNat_sub_of_le next current h
  rw [firstClosed]
  split
  · next hlt =>
      have hlt := UInt64.lt_iff_toNat_lt.1 hlt
      have hfit : maxClosed ≤ next := UInt64.le_iff_toNat_le.2 (by omega)
      rw [UInt64.toNat_sub_of_le next maxClosed hfit]
      omega
  · next hle' =>
      have hle' := UInt64.le_iff_toNat_le.1 (UInt64.not_lt.1 hle')
      omega

variable {oracle block} {world world' : σ} {time : Instant} {deals : List Deal}

theorem advance_none_eq_ok {maxClosed : UInt64} {next : Cursor} {reports : List Report} :
    advance oracle maxClosed none block time deals world = .ok (next, reports) world' ↔
      ∃ period, oracle.periodOf time world = .ok period world' ∧
        next = ⟨period, block, time⟩ ∧ reports = [] := by
  rw [advance, state_bind_eq_ok]
  constructor
  · rintro ⟨period, between, hperiod, h⟩
    cases h
    exact ⟨period, hperiod, rfl, rfl⟩
  · rintro ⟨period, hperiod, rfl, rfl⟩
    exact ⟨period, world', hperiod, rfl⟩

theorem writeReports_closedPeriods (maxClosed : UInt64) {current next : Period}
    (h : current ≤ next) :
    Array.toList <$> writeReports oracle block deals
        (next.toNat - (firstClosed maxClosed current next).toNat)
        (firstClosed maxClosed current next) #[]
      = (closedPeriods maxClosed current next).mapM (writeReport oracle block deals) := by
  rw [← UInt64.ofNat_toNat (x := firstClosed maxClosed current next), writeReports_eq,
    UInt64.ofNat_toNat, toNat_firstClosed maxClosed h, closedPeriods]
  simp

/-- A later block is seen in the later one of two periods; the reports are on the periods that ended
in between, as of the block before. -/
theorem advance_some_eq (maxClosed : UInt64) (current : Cursor) :
    advance oracle maxClosed (some current) block time deals = do
      let period ← oracle.periodOf time
      let reports ← (closedPeriods maxClosed current.period period).mapM
        (writeReport oracle current.lastBlock (deals.filter (wasRunning current.lastTime)))
      return (⟨if period ≤ current.period then current.period else period, block, time⟩,
        reports) := by
  rw [advance]
  refine bind_congr fun period => ?_
  by_cases hle : period ≤ current.period
  · rw [closedPeriods_of_le hle]
    simp [hle]
  · have hlt : current.period ≤ period := UInt64.le_of_lt (UInt64.not_le.1 hle)
    rw [← writeReports_closedPeriods maxClosed hlt]
    simp [hle]

end Audit

end StorageMarket
