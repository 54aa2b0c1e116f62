import Mathlib.Computability.Primrec.List
import StorageMarket.Proofs.Chronicle.Blocks
import StorageMarket.Proofs.Replay.Punctual
import StorageMarket.Proofs.Tracker.FailedUpdates
import StorageMarket.Proofs.Tracker.Replay

/-!
# Trackers finish deals in time

Whatever the chain answers, an update of a reachable tracker replays its blocks
punctually, and lets the time go on to its target without finishing a deal early. After
an update that goes well no deal runs whose time is not after the target, so that
another update to the same target that brings no block finds nothing to do.

If no block was ever seen, an update does not let the time go on; but then there is no
deal either (`Reachable.deals_eq_nil`).
-/

namespace StorageMarket

theorem Chronicle.blocks_of_stretch_none {told : Chronicle} (h : told.stretch = none) :
    told.blocks = [] := by
  rw [blocks, h]

theorem Chronicle.lastBlock?_eq_none {told : Chronicle} :
    told.lastBlock? = none ↔ told.stretch = none := by
  rw [lastBlock?, Option.map_eq_none_iff]

theorem Audit.commit_self (audit : Audit) : audit.commit audit.cursor [] = audit := by
  rw [commit, List.append_nil]

namespace Ledger

theorem Sound.finishDue_eq_self {ledger : Ledger} (h : ledger.Sound) {now : Instant}
    (hnone : ∀ deal ∈ ledger.deals, deal.stage = .started → now < deal.finishTime) :
    ledger.finishDue now = ([], ledger) := by
  have htaken : ledger.deadlines.taken (fun t => t ≤ now) = [] := by
    rw [List.eq_nil_iff_forall_not_mem]
    intro d hd
    obtain ⟨deal, hm, hr, hdue, _⟩ := (h.mem_taken (Deadlines.le_closed now)).1 hd
    exact Instant.not_le.2 (hnone deal hm hr) (of_decide_eq_true hdue)
  have hleft : (ledger.deadlines.popWhile fun t => t ≤ now).2 = ledger.deadlines := by
    refine (h.tidy.popWhile _).ext h.tidy fun d => ?_
    rw [Deadlines.mem_popWhile_snd, htaken]
    simp
  rw [finishDue_eq_finishWhile, Ledger.finishWhile, Deadlines.popWhile_fst, htaken, hleft]
  rfl

end Ledger

namespace Tracker

variable {σ : Type}

/-- As long as no block was seen, there is no deal. -/
theorem Reachable.deals_eq_nil {tracker : Tracker} (h : tracker.Reachable)
    (hnone : tracker.latestBlock = none) : tracker.ledger.deals = [] := by
  induction h with
  | start observer mark => rfl
  | withAudit _ audit ih => exact ih hnone
  | @update tracker hreach σ source oracle target world ih =>
      cases hresult : Tracker.update source oracle target (world, tracker) with
      | error e state =>
          have hsame : state.2 = tracker := hreach.settled.update_error hresult
          rw [hresult] at hnone
          show state.2.ledger.deals = []
          rw [hsame]
          exact ih (hsame ▸ hnone)
      | ok outcome state =>
          rw [hresult] at hnone
          have hnone : state.2.latestBlock = none := hnone
          show state.2.ledger.deals = []
          obtain ⟨window, told, world', _, hreplay⟩ := exists_replay_of_update hresult
          obtain ⟨_, cursor, reports, final, _, _, rfl⟩ := hreach.settled.replay_eq_ok.1 hreplay
          obtain ⟨htold, hbefore⟩ := Option.or_eq_none_iff.1 hnone
          have hblocks := Chronicle.blocks_of_stretch_none (Chronicle.lastBlock?_eq_none.1 htold)
          show (tracker.ledger.changeAll (tracker.changesTo window.stop told)).2.deals = []
          rw [changesTo, Replay.changesUpTo, hblocks, htold, hbefore]
          exact ih hbefore
  | @drain tracker _ ih =>
      have hsame : tracker.drain.2.latestBlock = tracker.latestBlock ∧
          tracker.drain.2.ledger = tracker.ledger := by
        rw [Tracker.drain]
        split <;> exact ⟨rfl, rfl⟩
      rw [hsame.2]
      exact ih (hsame.1 ▸ hnone)

/-- After an update that goes well no deal runs whose time is not after the target. -/
theorem Reachable.lt_of_update {tracker : Tracker} (h : tracker.Reachable) {source : Source σ}
    {oracle : Oracle σ} {target : Instant} {world : σ} {outcome : Outcome} {state : σ × Tracker}
    (hok : Tracker.update source oracle target (world, tracker) = .ok outcome state) {deal : Deal}
    (hm : deal ∈ state.2.ledger.deals) (hr : deal.stage = .started) :
    target < deal.finishTime := by
  have hreach : state.2.Reachable := by
    have hleft := h.update source oracle target world
    rwa [hok] at hleft
  cases hseen : state.2.latestBlock with
  | none =>
      rw [hreach.deals_eq_nil hseen] at hm
      exact absurd hm List.not_mem_nil
  | some block =>
      obtain ⟨window, told, world', hstop, hreplay⟩ := exists_replay_of_update hok
      obtain ⟨_, cursor, reports, final, _, _, rfl⟩ := h.settled.replay_eq_ok.1 hreplay
      have hseen : told.lastBlock?.or tracker.latestBlock = some block := hseen
      have hm : deal ∈ (tracker.ledger.changeAll (tracker.changesTo window.stop told)).2.deals := hm
      rw [changesTo, Replay.changesUpTo, Replay.closing, hseen, hstop,
        Ledger.changeAll_append] at hm
      exact (Ledger.closed_sound.changeAll h.settled.sound _).lt_of_finishDue hm hr

/-- A replay up to the mark that brings no block does nothing, if no deal is due. -/
theorem Settled.replay_idle {tracker : Tracker} (h : tracker.Settled) {window : Window}
    (hstop : window.stop = tracker.mark) {told : Chronicle} (hstretch : told.stretch = none)
    (hdue : ∀ deal ∈ tracker.ledger.deals, deal.stage = .started → tracker.mark < deal.finishTime)
    (oracle : Oracle σ) (world : σ) :
    replay oracle window told (world, tracker)
      = .ok ⟨window, none, told.events.length, [], []⟩ (world, tracker) := by
  have hblocks := Chronicle.blocks_of_stretch_none hstretch
  have hidle : tracker.ledger.finishDue tracker.mark = ([], tracker.ledger) :=
    h.sound.finishDue_eq_self hdue
  have hchange : tracker.ledger.change (.finishDue tracker.mark) = (.finished [], tracker.ledger) :=
    congrArg (Prod.map Answer.finished id) hidle
  have hchanges : tracker.changesTo window.stop told
      = Replay.closing tracker.mark (told.lastBlock?.or tracker.latestBlock) := by
    rw [changesTo, Replay.changesUpTo, hblocks, hstop]
    rfl
  have hnothing : tracker.ledger.news (tracker.changesTo window.stop told) = [] ∧
      (tracker.ledger.changeAll (tracker.changesTo window.stop told)).2 = tracker.ledger := by
    rw [hchanges, Replay.closing]
    split
    · simp [Ledger.news, Ledger.changeAll, hchange, Change.notices, finishNotices]
    · exact ⟨rfl, rfl⟩
  refine h.replay_eq_ok.2 ⟨?_, tracker.audit.bind Audit.cursor, [], world, ?_, ?_, ?_⟩
  · rw [hchanges]
    exact Replay.accepts_closing_self tracker.ledger _ _
  · rw [hblocks]
    rfl
  · rw [hnothing.1, hstretch]
    rfl
  · rw [moved, hnothing.1, hnothing.2, hstop, Chronicle.lastBlock?_eq_none.2 hstretch]
    have haudit : tracker.audit.map (fun audit => audit.commit (tracker.audit.bind Audit.cursor) [])
        = tracker.audit := by
      cases tracker.audit with
      | none => rfl
      | some audit => exact congrArg some audit.commit_self
    rw [haudit]
    rfl

/-- Whatever the chain answers, and whether or not it is given up on the way, a replay on a
reachable tracker makes the changes of its blocks and no others; it replays each block punctually,
and as the time goes on to the target no deal is finished early. After an update that goes well no
deal runs whose time is not after the target, so another update to the same target that brings no
block changes nothing and tells nothing. -/
theorem deals_finish_in_time {tracker : Tracker} (h : tracker.Reachable) :
    (∀ {σ : Type} (oracle : Oracle σ) (window : Window) (told : Chronicle) (world : σ),
      Replay.ComesFrom tracker.ledger.begin (tracker.changesTo window.stop told)
        (tracker.rerun oracle window told world) ∧
      (∀ earlier block later, told.blocks = earlier ++ block :: later →
        (tracker.ledger.begin.changeAll (earlier.flatMap Block.changes)).2.Punctual block) ∧
      Ledger.Patient window.stop
        (tracker.ledger.begin.changeAll (told.blocks.flatMap Block.changes)).2
        (tracker.ledger.begin.changeAll (tracker.changesTo window.stop told)).2) ∧
    ∀ {σ : Type} (source : Source σ) (oracle : Oracle σ) (target : Instant) (world : σ)
      (outcome : Outcome) (state : σ × Tracker),
      update source oracle target (world, tracker) = .ok outcome state →
      (∀ deal ∈ state.2.ledger.deals, deal.stage = .started → target < deal.finishTime) ∧
      ∀ {τ : Type} (again : Source τ) (oracle : Oracle τ) (between after : τ) (window : Window)
        (told : Chronicle),
        gather again target (between, state.2) = .ok (window, told) (after, state.2) →
        told.stretch = none →
        ∃ idle, update again oracle target (between, state.2) = .ok idle (after, state.2) ∧
          idle.notices = [] ∧ idle.reports = [] := by
  have hbegin : tracker.ledger.begin.Sound := h.settled.sound.begin
  refine ⟨fun oracle window told world => ⟨h.settled.rerun oracle window told world, ?_, ?_⟩, ?_⟩
  · intro earlier block later _
    exact (Ledger.closed_sound.changeAll hbegin _).punctual block
  · rw [changesTo, Replay.changesUpTo, Ledger.changeAll_append, Replay.closing]
    split
    · exact (Ledger.closed_sound.changeAll hbegin _).patient_finishDue window.stop
    · intro x deal hf hfinished
      exact ⟨deal, hf, .inl hfinished⟩
  · intro σ source oracle target world outcome state hok
    have hdue (deal : Deal) (hm : deal ∈ state.2.ledger.deals) (hr : deal.stage = .started) :
        target < deal.finishTime := h.lt_of_update hok hm hr
    refine ⟨hdue, fun again oracle between after window told hgather hstretch => ?_⟩
    obtain ⟨hstop, hupdate⟩ := update_of_gather hgather oracle
    rw [← update_mark hok] at hdue hstop
    exact ⟨_, hupdate.trans ((h.settled.update_ok hok).replay_idle hstop hstretch hdue oracle after),
      rfl, rfl⟩

/-- A chain of blocks that publish a request and let it start, to be stored for an hour. -/
def sampleLease : Source Unit where
  fetch window := pure (Batch.ofEvents window
    (some ⟨⟨41, 43, by decide⟩, ⟨⟨244, 0, by decide⟩, ⟨286, 0, by decide⟩, by decide⟩⟩)
    [.published ⟨41, Ledger.sampleRequest 1 2 3600⟩,
      .fulfilled ⟨43, (Ledger.sampleRequest 1 2 3600).id⟩])

/-- An update over that chain that stops while the request is stored. -/
def sampleStay : Attempt where
  World := Unit
  source := sampleLease
  oracle := sampleAttempt.oracle
  world := ()
  target := ⟨307, 0, by decide⟩

/-- A chain on which nothing happens any more. -/
def sampleCalm : Source Unit where
  fetch window := pure (Batch.ofEvents window none [])

theorem gather_sampleCalm (tracker : Tracker) :
    gather sampleCalm tracker.mark ((), tracker)
      = .ok (⟨tracker.mark, tracker.mark, Instant.le_refl _⟩,
          ⟨⟨tracker.mark, tracker.mark, Instant.le_refl _⟩, none, []⟩) ((), tracker) := by
  have hle : tracker.mark ≤ tracker.mark := Instant.le_refl _
  have hfetch : sampleCalm.fetch ⟨tracker.mark, tracker.mark, hle⟩ ()
      = .ok (Batch.ofEvents ⟨tracker.mark, tracker.mark, hle⟩ none []) () := rfl
  have htold : Chronicle.ofBatch (Batch.ofEvents ⟨tracker.mark, tracker.mark, hle⟩ none [])
      (some tracker.mark) = .ok ⟨⟨tracker.mark, tracker.mark, hle⟩, none, []⟩ := by
    refine (Chronicle.ofBatch_ofEvents ?_ ?_).trans ?_
    · simp
    · simp
    · rw [List.mergeSort_nil]
  rw [gather, dif_neg (Instant.not_lt.2 hle)]
  simp only [hfetch, htold]

theorem deals_finish_in_time_sampleStay :
    (start .silent default).Reachable ∧
      ∃ outcome state, update sampleLease sampleStay.oracle sampleStay.target
          (sampleStay.world, start .silent default) = .ok outcome state ∧
        (state.2.ledger.inStage .started).length = 1 ∧
        (∀ deal ∈ state.2.ledger.deals, deal.stage = .started →
          sampleStay.target < deal.finishTime) ∧
        ∃ idle, update sampleCalm sampleAttempt.oracle sampleStay.target ((), state.2)
            = .ok idle ((), state.2) ∧ idle.notices = [] ∧ idle.reports = [] := by
  have hreachable : (start .silent default).Reachable := Reachable.start .silent default
  have hrunning : (((start .silent default).use (.update sampleStay)).2.ledger.inStage
      .started).length = 1 := by cbv
  have hsucceeds : ((start .silent default).use (.update sampleStay)).1.isFailed = false := by cbv
  rcases (start .silent default).use_update_cases sampleStay with
    ⟨e, state, _, huse⟩ | ⟨outcome, state, hok, huse⟩ <;> rw [huse] at hrunning hsucceeds
  · cases hsucceeds
  · obtain ⟨hdue, hidle⟩ := (deals_finish_in_time hreachable).2 _ _ _ _ _ _ hok
    have hgather := gather_sampleCalm state.2
    rw [update_mark hok] at hgather
    exact ⟨hreachable, outcome, state, hok, hrunning, hdue,
      hidle sampleCalm sampleAttempt.oracle () () _ _ hgather rfl⟩

end Tracker

end StorageMarket
