import StorageMarket.Archive
import StorageMarket.Proofs.Audit.Reports
import StorageMarket.Proofs.Replay.Success

/-!
# What an archive says about proofs

An archive says something about every proof. All that it may be asked in vain is in which
period a moment lies, and that only before 1970. So an audit over an archive comes through
exactly if no block that it sees is told before 1970.
-/

namespace StorageMarket

namespace Instant

theorem onCalendar_zero :
    (-8334601228800 : Int) ≤ 0 ∧ (0 : Int) ≤ 8210266876799 ∧ 0 < 2000000000 := by
  decide

/-- The moment from which on there are proof periods. -/
def epoch : Instant := ⟨0, 0, onCalendar_zero⟩

theorem epoch_le_iff {t : Instant} : epoch ≤ t ↔ 0 ≤ t.seconds := by
  have hnanos := t.onCalendar.2.2
  rw [le_def, rank, rank, epoch]
  dsimp only
  omega

end Instant

/-! ## Questions that are always answered -/

section

variable {ε σ α β : Type}

/-- A question that is answered in every state. -/
def Answered (part : EStateM ε σ α) : Prop := ∀ s, ∃ a t, part s = .ok a t

theorem Answered.map {part : EStateM ε σ α} (h : Answered part) (f : α → β) :
    Answered (f <$> part) := by
  intro s
  obtain ⟨a, t, ha⟩ := h s
  exact ⟨f a, t, state_map_of_ok f ha⟩

theorem Answered.mapM {f : α → EStateM ε σ β} (h : ∀ a, Answered (f a)) (l : List α) :
    Answered (l.mapM f) := by
  induction l with
  | nil =>
      intro s
      exact ⟨[], s, rfl⟩
  | cons a l ih =>
      intro s
      obtain ⟨b, t, hb⟩ := h a s
      obtain ⟨rest, t', hrest⟩ := ih t
      exact ⟨b :: rest, t', mapM_cons_eq_ok.2 ⟨b, t, rest, hb, hrest, rfl⟩⟩

end

namespace Audit

variable {σ : Type} {oracle : Oracle σ}

def KnowsProofs (oracle : Oracle σ) : Prop :=
  ∀ request slot block period, Answered (oracle.proofStatus request slot block period)

theorem answered_writeReport (h : KnowsProofs oracle) (block : BlockNumber) (deals : List Deal)
    (period : Period) : Answered (writeReport oracle block deals period) := by
  rw [writeReport_eq]
  apply Answered.map
  apply Answered.mapM
  intro place
  exact h place.1.request place.2 block period

/-- An audit can see a block if the oracle knows its period and says something about every proof. -/
theorem exists_advance_ok (h : KnowsProofs oracle) (maxClosed : UInt64) (cursor : Option Cursor)
    (block : BlockNumber) (time : Instant) (deals : List Deal) (world : σ) :
    (∃ result world', advance oracle maxClosed cursor block time deals world = .ok result world') ↔
      ∃ period world', oracle.periodOf time world = .ok period world' := by
  cases cursor with
  | none =>
      constructor
      · rintro ⟨⟨next, reports⟩, world', hadvance⟩
        obtain ⟨period, hperiod, _⟩ := advance_none_eq_ok.1 hadvance
        exact ⟨period, world', hperiod⟩
      · rintro ⟨period, world', hperiod⟩
        exact ⟨_, world', advance_none_eq_ok.2 ⟨period, hperiod, rfl, rfl⟩⟩
  | some current =>
      rw [advance_some_eq]
      constructor
      · rintro ⟨result, world', hadvance⟩
        obtain ⟨period, between, hperiod, _⟩ := state_bind_eq_ok.1 hadvance
        exact ⟨period, between, hperiod⟩
      · rintro ⟨period, between, hperiod⟩
        obtain ⟨reports, world', hreports⟩ := Answered.mapM
          (answered_writeReport h current.lastBlock (deals.filter (wasRunning current.lastTime)))
          (closedPeriods maxClosed current.period period) between
        exact ⟨_, world', state_bind_eq_ok.2 ⟨period, between, hperiod,
          state_bind_eq_ok.2 ⟨reports, world', hreports, rfl⟩⟩⟩

end Audit

theorem Ledger.map_fst_sights (ledger : Ledger) (blocks : List Block) :
    (ledger.sights blocks).map Prod.fst = blocks := by
  induction blocks generalizing ledger with
  | nil => rfl
  | cons block blocks ih => rw [sights, List.map_cons, ih]

namespace Archive

variable {σ : Type}

theorem exists_periodOf_ok (archive : Archive) (time : Instant) :
    (∃ period, archive.periodOf time = .ok period) ↔ .epoch ≤ time := by
  rw [Instant.epoch_le_iff, periodOf]
  split
  · next hlt =>
      constructor
      · rintro ⟨period, h⟩
        cases h
      · intro hle
        omega
  · next hle => exact ⟨fun _ => Int.not_lt.1 hle, fun _ => ⟨_, rfl⟩⟩

theorem exists_ask_ok {ε α : Type} (answer : Except ε α) (world : σ) :
    (∃ a world', ask answer world = .ok a world') ↔ ∃ a, answer = .ok a := by
  cases answer with
  | error e =>
      constructor
      · rintro ⟨a, world', h⟩
        cases h
      · rintro ⟨a, h⟩
        cases h
  | ok a => exact ⟨fun _ => ⟨a, rfl⟩, fun _ => ⟨a, world, rfl⟩⟩

theorem knowsProofs_oracle (archive : Archive) : Audit.KnowsProofs (archive.oracle σ) :=
  fun request slot _ period world => ⟨archive.proofStatus request.id slot period, world, rfl⟩

/-- An audit over an archive can see a block unless the block is told before 1970. -/
theorem exists_watch_ok (archive : Archive) (audit : Option Audit) (cursor : Option Cursor)
    (block : Block) (deals : List Deal) (world : σ) :
    (∃ result world', Audit.watch (archive.oracle σ) audit cursor block deals world
        = .ok result world') ↔ (audit.isSome = true → .epoch ≤ block.time) := by
  cases audit with
  | none =>
      constructor
      · intro _ h
        cases h
      · intro _
        exact ⟨(cursor, []), world, rfl⟩
  | some audit =>
      have hadvance := Audit.exists_advance_ok (knowsProofs_oracle (σ := σ) archive)
        audit.maxClosed cursor block.number block.time deals world
      rw [← archive.exists_periodOf_ok block.time, ← exists_ask_ok _ world]
      constructor
      · rintro ⟨result, world', hwatch⟩ _
        obtain ⟨seen, between, hseen, _⟩ := state_bind_eq_ok.1 hwatch
        exact hadvance.1 ⟨seen, between, hseen⟩
      · intro hperiod
        obtain ⟨⟨next, reports⟩, world', hseen⟩ := hadvance.2 (hperiod rfl)
        exact ⟨(some next, reports), world', state_bind_eq_ok.2 ⟨_, world', hseen, rfl⟩⟩

/-- An audit over an archive comes through if and only if no block is told before 1970. -/
theorem exists_watchAll_ok (archive : Archive) (audit : Option Audit) (cursor : Option Cursor)
    (sights : List (Block × List Deal)) (world : σ) :
    (∃ result world', Audit.watchAll (archive.oracle σ) audit cursor sights world
        = .ok result world') ↔
      (audit.isSome = true → ∀ block ∈ sights.map Prod.fst, .epoch ≤ block.time) := by
  induction sights generalizing cursor world with
  | nil => exact ⟨fun _ _ _ h => absurd h List.not_mem_nil, fun _ => ⟨(cursor, []), world, rfl⟩⟩
  | cons sight sights ih =>
      obtain ⟨block, deals⟩ := sight
      have hfirst := archive.exists_watch_ok audit cursor block deals world
      constructor
      · rintro ⟨⟨last, reports⟩, world', hall⟩ haudit
        obtain ⟨next, first, between, more, hwatch, hrest, _⟩ :=
          Audit.watchAll_cons_eq_ok.1 hall
        rw [List.map_cons, List.forall_mem_cons]
        constructor
        · exact hfirst.1 ⟨_, between, hwatch⟩ haudit
        · exact (ih next between).1 ⟨_, world', hrest⟩ haudit
      · intro htimes
        obtain ⟨⟨next, first⟩, between, hwatch⟩ :=
          hfirst.2 fun haudit => htimes haudit _ List.mem_cons_self
        obtain ⟨⟨last, more⟩, world', hrest⟩ := (ih next between).2 fun haudit other hm =>
          htimes haudit other (List.mem_cons_of_mem _ hm)
        exact ⟨(last, first ++ more), world', Audit.watchAll_cons_eq_ok.2
          ⟨next, first, between, more, hwatch, hrest, rfl⟩⟩

end Archive

end StorageMarket
