import StorageMarket.Proofs.Replay.Changes
import StorageMarket.Proofs.Success

/-!
# Successful replays

A replay changes the ledger, lets the audit look at it, and may be stopped by either.
When it succeeds both can be told apart: the changes of all blocks are accepted, and the
audit gets an answer at each of its sights, where a sight is a block together with the
deals as they stand before it.
-/

namespace StorageMarket

variable {σ : Type}

namespace Audit

/-- Lets an audit see a block with the deals as they stand before it, if there is an audit. -/
def watch (oracle : Oracle σ) (audit : Option Audit) (cursor : Option Cursor) (block : Block)
    (deals : List Deal) : EStateM OracleError σ (Option Cursor × List Report) :=
  match audit with
  | none => pure (cursor, [])
  | some audit => do
      let (cursor, reports) ←
        advance oracle audit.maxClosed cursor block.number block.time deals
      return (some cursor, reports)

def watchAll (oracle : Oracle σ) (audit : Option Audit) :
    Option Cursor → List (Block × List Deal) →
      EStateM OracleError σ (Option Cursor × List Report)
  | cursor, [] => pure (cursor, [])
  | cursor, (block, deals) :: sights => do
      let (cursor, reports) ← watch oracle audit cursor block deals
      let (cursor, more) ← watchAll oracle audit cursor sights
      return (cursor, reports ++ more)

theorem watchAll_cons_eq_ok {oracle : Oracle σ} {audit : Option Audit}
    {cursor last : Option Cursor} {block : Block} {deals : List Deal}
    {sights : List (Block × List Deal)} {reports : List Report} {world world' : σ} :
    watchAll oracle audit cursor ((block, deals) :: sights) world = .ok (last, reports) world' ↔
      ∃ next first between more,
        watch oracle audit cursor block deals world = .ok (next, first) between ∧
        watchAll oracle audit next sights between = .ok (last, more) world' ∧
        reports = first ++ more := by
  rw [watchAll, state_bind_eq_ok]
  constructor
  · rintro ⟨⟨next, first⟩, between, hfirst, h⟩
    obtain ⟨⟨last', more⟩, final, hmore, h⟩ := state_bind_eq_ok.1 h
    cases h
    exact ⟨next, first, between, more, hfirst, hmore, rfl⟩
  · rintro ⟨next, first, between, more, hfirst, hmore, rfl⟩
    exact ⟨(next, first), between, hfirst, state_bind_eq_ok.2 ⟨(last, more), world', hmore, rfl⟩⟩

theorem watchAll_append_eq_ok {oracle : Oracle σ} {audit : Option Audit}
    {cursor last : Option Cursor} {sights others : List (Block × List Deal)}
    {reports : List Report} {world world' : σ} :
    watchAll oracle audit cursor (sights ++ others) world = .ok (last, reports) world' ↔
      ∃ next first between more,
        watchAll oracle audit cursor sights world = .ok (next, first) between ∧
        watchAll oracle audit next others between = .ok (last, more) world' ∧
        reports = first ++ more := by
  induction sights generalizing cursor reports world with
  | nil =>
      constructor
      · intro h
        exact ⟨cursor, [], world, reports, rfl, h, rfl⟩
      · rintro ⟨next, first, between, more, hfirst, hmore, rfl⟩
        cases hfirst
        exact hmore
  | cons sight sights ih =>
      obtain ⟨block, deals⟩ := sight
      rw [List.cons_append, watchAll_cons_eq_ok]
      constructor
      · rintro ⟨next, first, between, rest, hfirst, hrest, rfl⟩
        obtain ⟨next', second, between', more, hsecond, hmore, rfl⟩ := ih.1 hrest
        exact ⟨next', first ++ second, between', more, watchAll_cons_eq_ok.2
          ⟨next, first, between, second, hfirst, hsecond, rfl⟩, hmore, (List.append_assoc ..).symm⟩
      · rintro ⟨next', firsts, between', more, hfirsts, hmore, rfl⟩
        obtain ⟨next, first, between, second, hfirst, hsecond, rfl⟩ :=
          watchAll_cons_eq_ok.1 hfirsts
        exact ⟨next, first, between, second ++ more, hfirst, ih.2
          ⟨next', second, between', more, hsecond, hmore, rfl⟩, List.append_assoc ..⟩

end Audit

/-- What an audit sees of blocks: each of them, with the deals as they stand before it. -/
def Ledger.sights (ledger : Ledger) : List Block → List (Block × List Deal)
  | [] => []
  | block :: blocks =>
      (block, ledger.deals) :: (ledger.changeAll block.changes).2.sights blocks

theorem Ledger.sights_append (ledger : Ledger) (blocks others : List Block) :
    ledger.sights (blocks ++ others)
      = ledger.sights blocks
        ++ (ledger.changeAll (blocks.flatMap Block.changes)).2.sights others := by
  induction blocks generalizing ledger with
  | nil => rfl
  | cons block blocks ih =>
      rw [List.cons_append, Ledger.sights, ih, List.flatMap_cons, changeAll_append, Ledger.sights,
        List.cons_append]

theorem Ledger.sights_commit (ledger : Ledger) (blocks : List Block) :
    ledger.commit.sights blocks = ledger.sights blocks := by
  induction blocks generalizing ledger with
  | nil => rfl
  | cons block blocks ih =>
      rw [Ledger.sights, changeAll_commit, ih, Ledger.sights]
      rfl

def Staged.extend (staged : Staged) (cursor : Option Cursor) (notices : List Notice)
    (reports : List Report) : Staged where
  cursor := cursor
  notices := staged.notices ++ notices
  reports := staged.reports ++ reports

theorem appendList_assoc {α : Type} (xs : Array α) (l m : List α) :
    xs ++ l ++ m = xs ++ (l ++ m) :=
  Array.toList_inj.1 (by simp)

theorem Staged.extend_extend (staged : Staged) (cursor next : Option Cursor)
    (notices more : List Notice) (reports others : List Report) :
    (staged.extend cursor notices reports).extend next more others
      = staged.extend next (notices ++ more) (reports ++ others) := by
  simp only [extend, appendList_assoc]

theorem Staged.extend_nil (staged : Staged) : staged.extend staged.cursor [] [] = staged := by
  simp only [extend, Array.appendList_nil]

namespace Replay

theorem change_eq_ok {α : Type} {f : Ledger → α × Ledger} {world : σ} {ledger : Ledger} {a : α}
    {state : σ × Ledger} : change f (world, ledger) = .ok a state ↔
      a = (f ledger).1 ∧ state = (world, (f ledger).2) := by
  constructor
  · intro h
    injection h with ha hstate
    exact ⟨ha.symm, hstate.symm⟩
  · rintro ⟨rfl, rfl⟩
    rfl

theorem audit_eq_ok {oracle : Oracle σ} {audit : Option Audit} {block : Block}
    {staged staged' : Staged} {world world' : σ} {ledger ledger' : Ledger} :
    Replay.audit oracle audit block staged (world, ledger) = .ok staged' (world', ledger') ↔
      ∃ cursor reports, Audit.watch oracle audit staged.cursor block ledger.deals world
          = .ok (cursor, reports) world' ∧
        ledger' = ledger ∧ staged' = staged.extend cursor [] reports := by
  cases audit with
  | none =>
      constructor
      · intro h
        cases h
        exact ⟨_, [], rfl, rfl, (Staged.extend_nil _).symm⟩
      · rintro ⟨cursor, reports, hwatch, rfl, rfl⟩
        cases hwatch
        rw [Staged.extend_nil]
        rfl
  | some audit =>
      simp only [Replay.audit, Audit.watch, state_bind_eq_ok, Staged.extend, Array.appendList_nil]
      cases hadvance : Audit.advance oracle audit.maxClosed staged.cursor block.number block.time
        ledger.deals world with
      | error e world'' =>
          constructor
          · intro h
            cases h
          · rintro ⟨cursor, reports, ⟨_, _, hwatch, _⟩, _⟩
            cases hwatch
      | ok result world'' =>
          obtain ⟨cursor, reports⟩ := result
          constructor
          · intro h
            cases h
            exact ⟨some cursor, reports, ⟨(cursor, reports), world', rfl, rfl⟩, rfl, rfl⟩
          · rintro ⟨cursor', reports', ⟨found, _, hwatch, hfound⟩, rfl, rfl⟩
            cases hwatch
            cases hfound
            rfl

theorem applyEvents_eq_ok {time : Instant} {events : List Event} {notices notices' : Array Notice}
    {world world' : σ} {ledger ledger' : Ledger} :
    applyEvents time events notices (world, ledger) = .ok notices' (world', ledger') ↔
      ledger.Accepts (events.map (Event.change time)) ∧ world' = world ∧
        ledger' = (ledger.changeAll (events.map (Event.change time))).2 ∧
        notices' = notices ++ ledger.news (events.map (Event.change time)) := by
  induction events generalizing notices ledger with
  | nil =>
      rw [List.map_nil, Ledger.news, Array.appendList_nil]
      constructor
      · intro h
        cases h
        exact ⟨Ledger.accepts_nil _, rfl, rfl, rfl⟩
      · rintro ⟨_, rfl, rfl, rfl⟩
        rfl
  | cons event events ih =>
      rw [List.map_cons, Ledger.accepts_cons, Ledger.news, Ledger.changeAll, ← appendList_assoc]
      rcases ledger.apply_cases event time with
        ⟨fault, hrefused, happly⟩ | ⟨haccepted, notice, happly, hnotice⟩
      · have hfail : applyEvents time (event :: events) notices (world, ledger)
            = .error (.duplicate fault) (world, ledger) := by
          simp only [applyEvents, happly]
        rw [hfail, hrefused]
        constructor
        · intro h
          cases h
        · rintro ⟨⟨h, _⟩, _⟩
          cases h
      · have hnext : applyEvents time (event :: events) notices (world, ledger)
            = applyEvents time events (notices ++ notice.toList)
                (world, (ledger.change (event.change time)).2) := by
          simp only [applyEvents, happly]
        rw [hnext, ih, hnotice]
        simp only [haccepted, true_and]

theorem block_eq_ok {oracle : Oracle σ} {audit : Option Audit} {block : Block}
    {staged staged' : Staged} {world world' : σ} {ledger ledger' : Ledger} :
    Replay.block oracle audit block staged (world, ledger) = .ok staged' (world', ledger') ↔
      ledger.Accepts block.changes ∧ ledger' = (ledger.changeAll block.changes).2 ∧
        ∃ cursor reports, Audit.watch oracle audit staged.cursor block ledger.deals world
            = .ok (cursor, reports) world' ∧
          staged' = staged.extend cursor (ledger.news block.changes) reports := by
  -- the audit comes first and does not touch the ledger, then the three kinds of changes
  rw [Block.changes, Ledger.accepts_cons, Ledger.accepts_append, Ledger.changeAll,
    Ledger.changeAll_append, Ledger.news, Ledger.news_append]
  constructor
  · intro h
    obtain ⟨seen, ⟨world1, ledger1⟩, haudit, h⟩ := state_bind_eq_ok.1 h
    obtain ⟨cursor, reports, hwatch, rfl, rfl⟩ := audit_eq_ok.1 haudit
    obtain ⟨early, _, hearly, h⟩ := state_bind_eq_ok.1 h
    obtain ⟨rfl, rfl⟩ := change_eq_ok.1 hearly
    obtain ⟨notices, ⟨world2, ledger2⟩, hevents, h⟩ := state_bind_eq_ok.1 h
    obtain ⟨haccepts, rfl, rfl, rfl⟩ := applyEvents_eq_ok.1 hevents
    obtain ⟨due, _, hdue, h⟩ := state_bind_eq_ok.1 h
    obtain ⟨rfl, rfl⟩ := change_eq_ok.1 hdue
    injection h with hstaged hstate
    injection hstate with hworld hledger
    subst hstaged hworld hledger
    refine ⟨⟨rfl, haccepts, Ledger.accepts_finishDue _ _⟩, rfl, cursor, reports, hwatch, ?_⟩
    simp [Staged.extend, appendList_assoc, Ledger.news, Ledger.change, Change.notices]
  · rintro ⟨⟨_, haccepts, _⟩, rfl, cursor, reports, hwatch, rfl⟩
    refine state_bind_eq_ok.2 ⟨_, (world', ledger),
      audit_eq_ok.2 ⟨cursor, reports, hwatch, rfl, rfl⟩, ?_⟩
    refine state_bind_eq_ok.2 ⟨_, _, change_eq_ok.2 ⟨rfl, rfl⟩, ?_⟩
    refine state_bind_eq_ok.2 ⟨_, (world', _), applyEvents_eq_ok.2 ⟨haccepts, rfl, rfl, rfl⟩, ?_⟩
    refine state_bind_eq_ok.2 ⟨_, _, change_eq_ok.2 ⟨rfl, rfl⟩, ?_⟩
    show EStateM.Result.ok (Staged.mk _ _ _) _ = _
    simp [Staged.extend, appendList_assoc, Ledger.news, Ledger.change, Change.notices,
      Ledger.changeAll]

/-- Replaying blocks succeeds if their changes are accepted and the audit gets its answers. -/
theorem blocks_eq_ok {oracle : Oracle σ} {audit : Option Audit} {blocks : List Block}
    {staged staged' : Staged} {world world' : σ} {ledger ledger' : Ledger} :
    Replay.blocks oracle audit blocks staged (world, ledger) = .ok staged' (world', ledger') ↔
      ledger.Accepts (blocks.flatMap Block.changes) ∧
        ledger' = (ledger.changeAll (blocks.flatMap Block.changes)).2 ∧
        ∃ cursor reports, Audit.watchAll oracle audit staged.cursor (ledger.sights blocks) world
            = .ok (cursor, reports) world' ∧
          staged' = staged.extend cursor (ledger.news (blocks.flatMap Block.changes)) reports := by
  -- by induction on the blocks; what is staged only ever grows at its end
  induction blocks generalizing staged world ledger with
  | nil =>
      constructor
      · intro h
        cases h
        exact ⟨Ledger.accepts_nil _, rfl, _, [], rfl, (Staged.extend_nil _).symm⟩
      · rintro ⟨_, rfl, cursor, reports, hwatch, rfl⟩
        cases hwatch
        show _ = EStateM.Result.ok (Staged.extend _ _ [] []) _
        rw [Staged.extend_nil]
        rfl
  | cons block blocks ih =>
      rw [Replay.blocks, List.foldlM_cons, state_bind_eq_ok, List.flatMap_cons,
        Ledger.accepts_append, Ledger.changeAll_append, Ledger.news_append, Ledger.sights]
      constructor
      · rintro ⟨between, ⟨world'', ledger''⟩, hblock, hrest⟩
        obtain ⟨haccepts, rfl, next, first, hwatch, rfl⟩ := block_eq_ok.1 hblock
        obtain ⟨hmore, rfl, cursor, others, hwatchAll, rfl⟩ := ih.1 hrest
        refine ⟨⟨haccepts, hmore⟩, rfl, cursor, first ++ others, ?_, ?_⟩
        · exact Audit.watchAll_cons_eq_ok.2 ⟨next, first, world'', others, hwatch, hwatchAll, rfl⟩
        · exact Staged.extend_extend ..
      · rintro ⟨⟨haccepts, hmore⟩, rfl, cursor, reports, hwatchAll, rfl⟩
        obtain ⟨next, first, between, others, hwatch, hothers, rfl⟩ :=
          Audit.watchAll_cons_eq_ok.1 hwatchAll
        refine ⟨_, (between, _), block_eq_ok.2 ⟨haccepts, rfl, next, first, hwatch, rfl⟩, ?_⟩
        refine ih.2 ⟨hmore, rfl, cursor, others, hothers, ?_⟩
        exact (Staged.extend_extend ..).symm

theorem closing_eq_ok {target : Instant} {latestBlock : Option BlockNumber}
    {staged staged' : Staged} {world world' : σ} {ledger ledger' : Ledger} :
    (if latestBlock.isSome then do
        let due ← change fun ledger => ledger.finishDue target
        return { staged with notices := staged.notices ++ finishNotices due }
      else return staged : Replay σ Staged) (world, ledger) = .ok staged' (world', ledger') ↔
      world' = world ∧ ledger' = (ledger.changeAll (closing target latestBlock)).2 ∧
        staged' = staged.extend staged.cursor (ledger.news (closing target latestBlock)) [] := by
  rw [closing]
  cases latestBlock.isSome with
  | false =>
      show EStateM.Result.ok staged (world, ledger) = _ ↔ _ ∧ _ ∧ staged' = staged.extend _ [] []
      rw [Staged.extend_nil]
      constructor
      · intro h
        injection h with hstaged hstate
        injection hstate with hworld hledger
        exact ⟨hworld.symm, hledger.symm, hstaged.symm⟩
      · rintro ⟨rfl, rfl, rfl⟩
        rfl
  | true =>
      have hextend : staged.extend staged.cursor (ledger.news [.finishDue target]) []
          = { staged with
              notices := staged.notices ++ finishNotices (ledger.finishDue target).1 } := by
        simp [Staged.extend, Ledger.news, Ledger.change, Change.notices]
      rw [if_pos rfl, if_pos rfl, state_bind_eq_ok, hextend]
      constructor
      · rintro ⟨due, _, hdue, h⟩
        obtain ⟨rfl, rfl⟩ := change_eq_ok.1 hdue
        injection h with hstaged hstate
        injection hstate with hworld hledger
        exact ⟨hworld.symm, hledger.symm, hstaged.symm⟩
      · rintro ⟨rfl, rfl, rfl⟩
        exact ⟨_, _, change_eq_ok.2 ⟨rfl, rfl⟩, rfl⟩

theorem accepts_closing_self (ledger : Ledger) (target : Instant)
    (latestBlock : Option BlockNumber) : ledger.Accepts (closing target latestBlock) := by
  rw [closing]
  split
  · exact Ledger.accepts_finishDue ledger target
  · exact Ledger.accepts_nil ledger

/-- A replay succeeds if the changes of its blocks are accepted and the audit gets its answers. -/
theorem run_eq_ok {oracle : Oracle σ} {audit : Option Audit} {told : Chronicle}
    {target : Instant} {latestBlock : Option BlockNumber} {staged : Staged} {world world' : σ}
    {ledger ledger' : Ledger} :
    run oracle audit told target latestBlock (world, ledger) = .ok staged (world', ledger') ↔
      ledger.Accepts (changesUpTo target latestBlock told.blocks) ∧
        ledger' = (ledger.changeAll (changesUpTo target latestBlock told.blocks)).2 ∧
        ∃ cursor reports, Audit.watchAll oracle audit (audit.bind Audit.cursor)
            (ledger.sights told.blocks) world = .ok (cursor, reports) world' ∧
          staged = ⟨cursor, (ledger.news (changesUpTo target latestBlock told.blocks)).toArray,
            reports.toArray⟩ := by
  have hreplay := @blocks_eq_ok σ oracle audit told.blocks ⟨audit.bind Audit.cursor, #[], #[]⟩
  have hextend (cursor : Option Cursor) (notices more : List Notice) (reports : List Report) :
      (Staged.mk (audit.bind Audit.cursor) #[] #[]).extend cursor (notices ++ more) (reports ++ [])
        = ⟨cursor, (notices ++ more).toArray, reports.toArray⟩ := by
    simp [Staged.extend]
  rw [run, state_bind_eq_ok, changesUpTo, Ledger.accepts_append,
    Ledger.changeAll_append, Ledger.news_append]
  constructor
  · rintro ⟨between, ⟨world'', ledger''⟩, hblocks, h⟩
    obtain ⟨haccepts, rfl, cursor, reports, hwatch, rfl⟩ := hreplay.1 hblocks
    obtain ⟨rfl, rfl, rfl⟩ := closing_eq_ok.1 h
    refine ⟨⟨haccepts, accepts_closing_self _ target latestBlock⟩, rfl, cursor, reports, hwatch, ?_⟩
    rw [Staged.extend_extend]
    exact hextend ..
  · rintro ⟨⟨haccepts, _⟩, rfl, cursor, reports, hwatch, rfl⟩
    refine ⟨_, (world', _), hreplay.2 ⟨haccepts, rfl, cursor, reports, hwatch, rfl⟩,
      closing_eq_ok.2 ⟨rfl, rfl, ?_⟩⟩
    rw [Staged.extend_extend]
    exact (hextend ..).symm

end Replay

end StorageMarket
