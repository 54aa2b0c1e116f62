import StorageMarket.Poll
import StorageMarket.Proofs.Tracker.Failures
import StorageMarket.Proofs.Tracker.Splitting

/-!
# Polling delivers every report

Polling takes rounds: the clock is read, the tracker is updated if the target lies after
its mark, and the reports that nobody has taken yet are handed on. `rounds` writes down
each of them, with the update that was made and what came of it, and what polling gives
is read off this record (`poll_eq`).

The clock may stand still or go back, and whoever is asked may fail at any time: these
are rounds without an update, or with one that changes nothing. Nor does it matter how
the tracker was used before, even if an update was given up half way. The changes that
such an update has left behind are taken back by the next one that gets as far as the
ledger; nothing else about the tracker depends on them (`settle`).
-/

namespace StorageMarket.Tracker

variable {σ : Type}

/-! ## What an update that was given up has left behind -/

/-- A tracker without the changes of an update that was given up half way. -/
def settle (tracker : Tracker) : Tracker := { tracker with ledger := tracker.ledger.rollback }

theorem Settled.settle {tracker : Tracker} (h : tracker.Settled) : tracker.settle = tracker := by
  rw [Tracker.settle, h.rollback]

theorem settle_settle (tracker : Tracker) : tracker.settle.settle = tracker.settle := by
  have hclosed : tracker.ledger.rollback.undo = none := by
    rw [Ledger.rollback]
    split
    · assumption
    · rfl
  have htwice : tracker.ledger.rollback.rollback = tracker.ledger.rollback := by
    rw [Ledger.rollback, hclosed]
  rw [settle, settle, htwice]

theorem gather_settle (source : Source σ) (target : Instant) (world : σ) (tracker : Tracker) :
    (∃ e world', gather source target (world, tracker) = .error e (world', tracker)) ∨
      ∃ found world', gather source target (world, tracker) = .ok found (world', tracker) ∧
        gather source target (world, tracker.settle) = .ok found (world', tracker.settle) := by
  by_cases hlt : target < tracker.mark
  · exact .inl ⟨_, _, dif_pos hlt⟩
  · simp only [gather, dif_neg hlt, dif_neg (show ¬ target < tracker.settle.mark from hlt)]
    cases hfetch : source.fetch ⟨tracker.mark, target, Instant.not_lt.1 hlt⟩ world with
    | error e left => exact .inl ⟨_, _, rfl⟩
    | ok batch left =>
        cases htold : Chronicle.ofBatch batch (some tracker.mark) with
        | error fault =>
            refine .inl ⟨.chronicle fault, left, ?_⟩
            simp only [htold]
        | ok told =>
            refine .inr ⟨(⟨tracker.mark, target, Instant.not_lt.1 hlt⟩, told), left, ?_, ?_⟩
            · simp only [htold]
            · simp only [settle, hfetch, htold]

/-- An update takes back what another one has left behind, or fails before it comes to that. -/
theorem update_settle (source : Source σ) (oracle : Oracle σ) (target : Instant) (world : σ)
    (tracker : Tracker) :
    (∃ e world', update source oracle target (world, tracker) = .error e (world', tracker)) ∨
      update source oracle target (world, tracker)
        = update source oracle target (world, tracker.settle) := by
  rcases gather_settle source target world tracker with
    ⟨e, world', hgather⟩ | ⟨⟨window, told⟩, world', hgather, hsettled⟩
  · refine .inl ⟨e, world', ?_⟩
    rcases update_cases source oracle target world tracker with
      ⟨_, _, hfail, hupdate⟩ | ⟨_, _, _, hok, _⟩
    · rw [hgather] at hfail
      cases hfail
      exact hupdate
    · rw [hgather] at hok
      cases hok
  · refine .inr ?_
    rw [(update_of_gather hgather oracle).2, (update_of_gather hsettled oracle).2]
    have hledger : tracker.settle.ledger.rollback = tracker.ledger.rollback :=
      congrArg Tracker.ledger tracker.settle_settle
    simp only [replay, hledger]
    rfl

/-! ## One update -/

def pending (tracker : Tracker) : List Report := tracker.drain.1

theorem pending_settle : (tracker : Tracker) → tracker.settle.pending = tracker.pending
  | ⟨_, _, _, none, _⟩ => rfl
  | ⟨_, _, _, some _, _⟩ => rfl

theorem settle_drain : (tracker : Tracker) → tracker.drain.2.settle = tracker.settle.drain.2
  | ⟨_, _, _, none, _⟩ => rfl
  | ⟨_, _, _, some _, _⟩ => rfl

theorem pending_drain : (tracker : Tracker) → tracker.drain.2.pending = []
  | ⟨_, _, _, none, _⟩ => rfl
  | ⟨_, _, _, some _, _⟩ => rfl

/-- The tracker after a failed update: as it was, or without what another update has left behind. -/
theorem update_error_settle {tracker : Tracker} (h : tracker.settle.Settled) {source : Source σ}
    {oracle : Oracle σ} {target : Instant} {world : σ} {e : UpdateError} {state : σ × Tracker}
    (hfail : update source oracle target (world, tracker) = .error e state) :
    state.2 = tracker ∨ state.2 = tracker.settle := by
  rcases update_settle source oracle target world tracker with ⟨_, _, hupdate⟩ | hupdate <;>
    rw [hupdate] at hfail
  · cases hfail
    exact .inl rfl
  · exact .inr (h.update_error hfail)

/-- A successful update puts its reports behind those that nobody has taken yet. -/
theorem Settled.pending_update {tracker : Tracker} (h : tracker.Settled) {source : Source σ}
    {oracle : Oracle σ} {target : Instant} {world : σ} {outcome : Outcome} {state : σ × Tracker}
    (hok : Tracker.update source oracle target (world, tracker) = .ok outcome state) :
    state.2.pending = tracker.pending ++ outcome.reports := by
  obtain ⟨window, told, world', _, hreplay⟩ := exists_replay_of_update hok
  obtain ⟨_, cursor, reports, _, hwatch, rfl, rfl⟩ := h.replay_eq_ok.1 hreplay
  rw [pending, pending, moved, Tracker.drain, Tracker.drain]
  cases haudit : tracker.audit with
  | none =>
      rw [haudit, Audit.watchAll_none] at hwatch
      cases hwatch
      rfl
  | some audit => rfl

theorem update_ok_settle {tracker : Tracker} (h : tracker.settle.Settled) {source : Source σ}
    {oracle : Oracle σ} {target : Instant} {world : σ} {outcome : Outcome} {state : σ × Tracker}
    (hok : update source oracle target (world, tracker) = .ok outcome state) :
    state.2.Settled ∧ state.2.pending = tracker.pending ++ outcome.reports := by
  rcases update_settle source oracle target world tracker with ⟨_, _, hupdate⟩ | hupdate <;>
    rw [hupdate] at hok
  · cases hok
  · refine ⟨h.update_ok hok, ?_⟩
    rw [h.pending_update hok, pending_settle]

/-! ## Rounds -/

structure Round (σ : Type) where
  target : Instant
  before : σ × Tracker
  /-- What came of the update, if one was made. -/
  call : Option (EStateM.Result UpdateError (σ × Tracker) Outcome)

namespace Round

def left (round : Round σ) : σ × Tracker :=
  match round.call with
  | none => round.before
  | some (.ok _ state) => state
  | some (.error _ state) => state

/-- The error that ends the polling, if this round does. -/
def error? (round : Round σ) : Option UpdateError :=
  match round.call with
  | some (.error e _) => if e.isRecoverable then none else some e
  | _ => none

def taken (round : Round σ) : List Report :=
  match round.error? with
  | some _ => []
  | none => round.left.2.pending

/-- The reports that the update has written, if it succeeded. -/
def written (round : Round σ) : List Report :=
  match round.call with
  | some (.ok outcome _) => outcome.reports
  | _ => []

def after (round : Round σ) : σ × Tracker :=
  match round.error? with
  | some _ => round.left
  | none => (round.left.1, round.left.2.drain.2)

end Round

section Polling

variable (source : Source σ) (oracle : Oracle σ) (plan : PollPlan) (stop : σ → Bool)

def round (now : Instant) (state : σ × Tracker) : Round σ where
  target := plan.target now
  before := state
  call :=
    if state.2.mark < plan.target now then some (update source oracle (plan.target now) state)
    else none

def rounds : List Instant → σ × Tracker → List (Round σ)
  | [], _ => []
  | now :: readings, state =>
      let first := round source oracle plan now state
      first :: if first.error?.isSome || stop first.after.1 then [] else rounds readings first.after

def lastOf (state : σ × Tracker) (rounds : List (Round σ)) : σ × Tracker :=
  (rounds.getLast?.map Round.after).getD state

theorem lastOf_cons (state : σ × Tracker) (round : Round σ) (rounds : List (Round σ)) :
    lastOf state (round :: rounds) = lastOf round.after rounds := by
  cases rounds with
  | nil => rfl
  | cons next rounds => rw [lastOf, lastOf, List.getLast?_cons_cons, List.getLast?_cons]; rfl

theorem tryUpdate_eq (now : Instant) (state : σ × Tracker) :
    tryUpdate source oracle (plan.target now) state
      = match (round source oracle plan now state).error? with
        | some e => .error e (round source oracle plan now state).left
        | none => .ok () (round source oracle plan now state).left := by
  rw [tryUpdate]
  by_cases hlt : state.2.mark < plan.target now
  · simp only [hlt, if_true, Round.error?, Round.left, round]
    cases update source oracle (plan.target now) state with
    | ok outcome after => rfl
    | error e after => cases he : e.isRecoverable <;> simp [he]
  · simp only [hlt, if_false, Round.error?, Round.left, round]

theorem tick_eq (now : Instant) (state : σ × Tracker) :
    tick source oracle plan now state
      = match (round source oracle plan now state).error? with
        | some e => .error e (round source oracle plan now state).after
        | none => .ok (round source oracle plan now state).taken
            (round source oracle plan now state).after := by
  show EStateM.bind (tryUpdate source oracle (plan.target now)) _ state = _
  rw [EStateM.bind, tryUpdate_eq, Round.after, Round.taken]
  cases (round source oracle plan now state).error? <;> rfl

theorem poll_eq (readings : List Instant) (state : σ × Tracker) :
    poll source oracle plan stop readings state
      = (⟨(rounds source oracle plan stop readings state).findSome? Round.error?,
          ((rounds source oracle plan stop readings state).map Round.taken).filter
            fun batch => !batch.isEmpty⟩,
        lastOf state (rounds source oracle plan stop readings state)) := by
  induction readings generalizing state with
  | nil => rfl
  | cons now readings ih =>
      rw [poll, tick_eq, rounds, lastOf_cons]
      cases he : (round source oracle plan now state).error? with
      | some e => simp [he, Round.taken, lastOf]
      | none =>
          cases hstop : stop (round source oracle plan now state).after.1 with
          | true => simp [he, hstop, lastOf, List.filter_cons]
          | false =>
              simp only [hstop, ih]
              cases hbatch : (round source oracle plan now state).taken.isEmpty <;>
                simp [he, hbatch]

/-! ## When the rounds end -/

/-- Only the last round has an error that ends the polling. -/
theorem error?_of_mem_dropLast (readings : List Instant) (state : σ × Tracker) :
    ∀ round ∈ (rounds source oracle plan stop readings state).dropLast, round.error? = none := by
  induction readings generalizing state with
  | nil => simp [rounds]
  | cons now readings ih =>
      rw [rounds]
      split
      · simp
      · next hgoes =>
          have hnone : (round source oracle plan now state).error? = none := by
            rw [← Option.not_isSome_iff_eq_none]
            intro hsome
            exact hgoes (by rw [hsome, Bool.true_or])
          intro round hround
          cases hrest : rounds source oracle plan stop readings
            (Tracker.round source oracle plan now state).after with
          | nil => simp [hrest] at hround
          | cons next rest =>
              rw [hrest, List.dropLast_cons_cons, List.mem_cons] at hround
              rcases hround with rfl | hround
              · exact hnone
              · exact ih _ round (by rwa [hrest])

/-- The rounds go on until one has such an error, or `stop` holds, or there are no more readings. -/
theorem rounds_end (readings : List Instant) (state : σ × Tracker) :
    (rounds source oracle plan stop readings state).length = readings.length ∨
      ∃ round ∈ (rounds source oracle plan stop readings state).getLast?,
        round.error?.isSome = true ∨ stop round.after.1 = true := by
  induction readings generalizing state with
  | nil => exact .inl rfl
  | cons now readings ih =>
      rw [rounds]
      split
      · next hends => exact .inr ⟨_, rfl, by simpa using hends⟩
      · rcases ih (round source oracle plan now state).after with hlength | ⟨round, hlast, hends⟩
        · exact .inl (by simp [hlength])
        · refine .inr ⟨round, ?_, hends⟩
          rw [List.getLast?_cons, Option.mem_def.1 hlast]
          rfl

/-- There is one round for each reading of the clock, in order, as long as there are rounds. -/
theorem map_target_rounds (readings : List Instant) (state : σ × Tracker) :
    (rounds source oracle plan stop readings state).map Round.target
      <+: readings.map plan.target := by
  induction readings generalizing state with
  | nil => exact List.nil_prefix
  | cons now readings ih =>
      rw [rounds]
      split
      · exact ⟨readings.map plan.target, rfl⟩
      · exact List.cons_prefix_cons.2 ⟨rfl, ih _⟩

/-- Every round starts where the rounds before it have ended. -/
theorem before_of_rounds {readings : List Instant} {state : σ × Tracker}
    {earlier later : List (Round σ)} {round : Round σ}
    (h : rounds source oracle plan stop readings state = earlier ++ round :: later) :
    round.before = lastOf state earlier := by
  induction readings generalizing state earlier with
  | nil => simp [rounds] at h
  | cons now readings ih =>
      rw [rounds] at h
      cases earlier with
      | nil =>
          cases (List.cons.inj h).1
          rfl
      | cons first earlier =>
          obtain ⟨hfirst, hrest⟩ := List.cons.inj h
          rw [lastOf_cons, ← hfirst]
          split at hrest
          · simp at hrest
          · exact ih hrest

/-! ## What holds of every round -/

/-- What every round keeps holds before each of them. -/
theorem exists_of_mem_rounds {I : σ × Tracker → Prop}
    (hkeep : ∀ now state, I state → I (round source oracle plan now state).after)
    {readings : List Instant} {state : σ × Tracker} (h : I state) {round : Round σ}
    (hround : round ∈ rounds source oracle plan stop readings state) :
    ∃ now before, I before ∧ round = Tracker.round source oracle plan now before := by
  induction readings generalizing state with
  | nil => cases hround
  | cons now readings ih =>
      rw [rounds, List.mem_cons] at hround
      rcases hround with rfl | hround
      · exact ⟨now, state, h, rfl⟩
      · split at hround
        · cases hround
        · exact ih (hkeep now state h) hround

variable {state : σ × Tracker}

theorem call_eq_some {source oracle plan} {now : Instant}
    {result : EStateM.Result UpdateError (σ × Tracker) Outcome}
    (h : (round source oracle plan now state).call = some result) :
    state.2.mark < plan.target now ∧ result = update source oracle (plan.target now) state := by
  rw [round] at h
  split at h
  · next hlt => exact ⟨hlt, (Option.some.inj h).symm⟩
  · cases h

variable (now : Instant)

theorem left_cases (h : state.2.settle.Settled) :
    ((round source oracle plan now state).written = [] ∧
        ((round source oracle plan now state).left.2 = state.2 ∨
          (round source oracle plan now state).left.2 = state.2.settle)) ∨
      ∃ outcome after, (round source oracle plan now state).call = some (.ok outcome after) ∧
        update source oracle (plan.target now) state = .ok outcome after ∧
        state.2.mark < plan.target now := by
  rw [Round.written, Round.left]
  cases hcall : (round source oracle plan now state).call with
  | none => exact .inl ⟨rfl, .inl rfl⟩
  | some result =>
      obtain ⟨hlt, hresult⟩ := call_eq_some hcall
      cases result with
      | error e after => exact .inl ⟨rfl, update_error_settle h hresult.symm⟩
      | ok outcome after => exact .inr ⟨outcome, after, rfl, hresult.symm, hlt⟩

theorem settled_left (h : state.2.settle.Settled) :
    (round source oracle plan now state).left.2.settle.Settled := by
  rcases left_cases source oracle plan now h with
    ⟨_, hleft | hleft⟩ | ⟨outcome, after, hcall, hok, _⟩
  · rw [hleft]
    exact h
  · rw [hleft, settle_settle]
    exact h
  · have hsettled := (update_ok_settle h hok).1
    rw [Round.left, hcall]
    dsimp only
    rw [hsettled.settle]
    exact hsettled

theorem settled_after (h : state.2.settle.Settled) :
    (round source oracle plan now state).after.2.settle.Settled := by
  have hleft := settled_left source oracle plan now h
  rw [Round.after]
  split
  · exact hleft
  · rw [settle_drain]
    exact hleft.drain

theorem Settled.after (h : state.2.Settled) :
    (round source oracle plan now state).after.2.Settled := by
  have hsettled : state.2.settle.Settled := by rwa [h.settle]
  have hleft : (round source oracle plan now state).left.2.Settled := by
    rcases left_cases source oracle plan now hsettled with
      ⟨_, hleft | hleft⟩ | ⟨outcome, after, hcall, hok, _⟩
    · rwa [hleft]
    · rwa [hleft]
    · rw [Round.left, hcall]
      exact h.update_ok hok
  rw [Round.after]
  split
  · exact hleft
  · exact hleft.drain

theorem mark_le_after (h : state.2.settle.Settled) :
    state.2.mark ≤ (round source oracle plan now state).after.2.mark := by
  have hafter : (round source oracle plan now state).after.2.mark
      = (round source oracle plan now state).left.2.mark := by
    rw [Round.after]
    split
    · rfl
    · exact mark_drain _
  rw [hafter]
  rcases left_cases source oracle plan now h with
    ⟨_, hleft | hleft⟩ | ⟨outcome, after, hcall, hok, hlt⟩
  · rw [hleft]
    exact Instant.le_refl _
  · rw [hleft]
    exact Instant.le_refl _
  · rw [Round.left, hcall]
    dsimp only
    rw [update_mark hok]
    exact Int.le_of_lt hlt

/-- What was pending and what is written is handed on, or is pending still. -/
theorem taken_append_pending_after (h : state.2.settle.Settled) :
    (round source oracle plan now state).taken
        ++ (round source oracle plan now state).after.2.pending
      = state.2.pending ++ (round source oracle plan now state).written := by
  have hafter : (round source oracle plan now state).taken
      ++ (round source oracle plan now state).after.2.pending
        = (round source oracle plan now state).left.2.pending := by
    rw [Round.taken, Round.after]
    split
    · rfl
    · rw [pending_drain, List.append_nil]
  rw [hafter]
  rcases left_cases source oracle plan now h with
    ⟨hwritten, hleft | hleft⟩ | ⟨outcome, after, hcall, hok, _⟩
  · rw [hwritten, hleft, List.append_nil]
  · rw [hwritten, hleft, List.append_nil, pending_settle]
  · rw [Round.left, Round.written, hcall]
    exact (update_ok_settle h hok).2

/-! ## What holds of a run -/

theorem pairwise_marks (readings : List Instant) {state : σ × Tracker}
    (h : state.2.settle.Settled) :
    (state.2.mark :: (rounds source oracle plan stop readings state).map
      fun round => round.after.2.mark).Pairwise (· ≤ ·) := by
  induction readings generalizing state with
  | nil => exact List.pairwise_singleton ..
  | cons now readings ih =>
      have hle := mark_le_after source oracle plan now h
      rw [rounds]
      split
      · simpa using hle
      · have hrest := ih (settled_after source oracle plan now h)
        refine List.pairwise_cons.2 ⟨fun mark hmark => ?_, hrest⟩
        rcases List.mem_cons.1 hmark with rfl | hmark
        · exact hle
        · exact Instant.le_trans hle (List.rel_of_pairwise_cons hrest hmark)

theorem taken_append_pending_last (readings : List Instant) (h : state.2.settle.Settled) :
    (rounds source oracle plan stop readings state).flatMap Round.taken
        ++ (lastOf state (rounds source oracle plan stop readings state)).2.pending
      = state.2.pending
        ++ (rounds source oracle plan stop readings state).flatMap Round.written := by
  induction readings generalizing state with
  | nil => simp [rounds, lastOf]
  | cons now readings ih =>
      have hfirst := taken_append_pending_after source oracle plan now h
      rw [rounds, lastOf_cons]
      split
      · simpa [lastOf] using hfirst
      · have hrest := ih (settled_after source oracle plan now h)
        rw [List.flatMap_cons, List.append_assoc, hrest, ← List.append_assoc, hfirst,
          List.append_assoc, List.flatMap_cons]

variable {readings : List Instant} {source oracle plan stop} {round : Round σ}

theorem call_of_mem_rounds (h : state.2.settle.Settled)
    (hround : round ∈ rounds source oracle plan stop readings state)
    {result : EStateM.Result UpdateError (σ × Tracker) Outcome}
    (hcall : round.call = some result) :
    round.before.2.settle.Settled ∧ round.before.2.mark < round.target ∧
      result = update source oracle round.target round.before := by
  obtain ⟨now, before, hbefore, rfl⟩ := exists_of_mem_rounds source oracle plan stop
    (I := fun state => state.2.settle.Settled)
    (fun now _ hstate => settled_after source oracle plan now hstate) h hround
  exact ⟨hbefore, call_eq_some hcall⟩

theorem call_ne_notAdvancing (h : state.2.settle.Settled)
    (hround : round ∈ rounds source oracle plan stop readings state)
    (moment mark : Instant) (left : σ × Tracker) :
    round.call ≠ some (.error (.notAdvancing moment mark) left) := by
  intro hcall
  obtain ⟨_, hlt, hresult⟩ := call_of_mem_rounds h hround hcall
  exact Instant.not_lt.2 (Int.le_of_lt hlt) (lt_of_update_notAdvancing hresult.symm)

theorem findSome?_error?_ne_notAdvancing (h : state.2.settle.Settled) (moment mark : Instant) :
    (rounds source oracle plan stop readings state).findSome? Round.error?
      ≠ some (.notAdvancing moment mark) := by
  intro hrefused
  obtain ⟨round, hround, he⟩ := List.exists_of_findSome?_eq_some hrefused
  rw [Round.error?] at he
  split at he
  · next e left hcall =>
      split at he
      · cases he
      · cases he
        exact call_ne_notAdvancing h hround moment mark left hcall
  · cases he

theorem Settled.left_of_mem_rounds (h : state.2.Settled)
    (hround : round ∈ rounds source oracle plan stop readings state) {e : UpdateError}
    {left : σ × Tracker} (hcall : round.call = some (.error e left)) :
    left.2 = round.before.2 := by
  obtain ⟨now, before, hbefore, rfl⟩ := exists_of_mem_rounds source oracle plan stop
    (I := fun state => state.2.Settled) (fun now _ hstate => hstate.after source oracle plan now)
    h hround
  exact hbefore.update_error (call_eq_some hcall).2.symm

theorem goes_on {earlier later : List (Round σ)} {e : UpdateError} {left : σ × Tracker}
    (hsplit : rounds source oracle plan stop readings state = earlier ++ round :: later)
    (hcall : round.call = some (.error e left)) (he : e.isRecoverable = true) :
    later ≠ [] ∨ stop left.1 = true ∨
      (rounds source oracle plan stop readings state).length = readings.length := by
  have herror : round.error? = none := by
    rw [Round.error?, hcall]
    exact if_pos he
  have hafter : round.after.1 = left.1 := by rw [Round.after, herror, Round.left, hcall]
  rcases rounds_end source oracle plan stop readings state with hlength | ⟨final, hfinal, hends⟩
  · exact .inr (.inr hlength)
  · cases later with
    | cons next later => exact .inl (List.cons_ne_nil _ _)
    | nil =>
        rw [hsplit, List.getLast?_concat, Option.mem_some] at hfinal
        subst hfinal
        rw [herror, hafter] at hends
        exact .inr (.inl (hends.resolve_left (by decide)))

end Polling

/-- Polling takes one round for each reading of the clock, whatever the clock shows. It updates
only to a target after the mark, so no update is refused as not advancing, and the mark never
goes back. An error that may pass leaves the tracker as it was, and polling goes on; the first
other error ends it and is the one that is returned. The batches that are handed on, and then
the reports that are pending in the end, are those that were pending before and those of the
successful updates, in order; and no batch is empty. -/
theorem polling_delivers_every_report {tracker : Tracker} (h : tracker.settle.Reachable)
    (source : Source σ) (oracle : Oracle σ) (plan : PollPlan) (stop : σ → Bool)
    (readings : List Instant) (world : σ) {rounds : List (Round σ)} {polled : Polled}
    {last : σ × Tracker}
    (hrounds : Tracker.rounds source oracle plan stop readings (world, tracker) = rounds)
    (hpoll : poll source oracle plan stop readings (world, tracker) = (polled, last)) :
    (rounds.map Round.target <+: readings.map plan.target ∧
      (∀ earlier round later, rounds = earlier ++ round :: later →
        round.before = lastOf (world, tracker) earlier) ∧
      last = lastOf (world, tracker) rounds) ∧
    (∀ round ∈ rounds, ∀ result, round.call = some result →
      round.before.2.mark < round.target ∧
        result = update source oracle round.target round.before ∧
        ∀ moment mark left, result ≠ .error (.notAdvancing moment mark) left) ∧
    (∀ moment mark, polled.error ≠ some (.notAdvancing moment mark)) ∧
    (tracker.mark :: rounds.map fun round => round.after.2.mark).Pairwise (· ≤ ·) ∧
    (∀ earlier round later e left, rounds = earlier ++ round :: later →
      round.call = some (.error e left) → e.isRecoverable = true →
        (left.2 = round.before.2 ∨ left.2 = round.before.2.settle) ∧
        (tracker.Reachable → left.2 = round.before.2) ∧
        (later ≠ [] ∨ stop left.1 = true ∨ rounds.length = readings.length)) ∧
    (polled.error = rounds.findSome? Round.error? ∧
      ∀ round ∈ rounds.dropLast, round.error? = none) ∧
    (∀ batch ∈ polled.batches, batch ≠ []) ∧
    polled.batches.flatten ++ last.2.pending
      = tracker.pending ++ rounds.flatMap Round.written := by
  subst hrounds
  rw [poll_eq] at hpoll
  obtain ⟨rfl, rfl⟩ := Prod.mk.inj hpoll
  have hsettled : tracker.settle.Settled := h.settled
  have hmarks := @pairwise_marks σ source oracle plan stop readings (world, tracker) hsettled
  refine ⟨⟨map_target_rounds .., fun _ _ _ => before_of_rounds source oracle plan stop, rfl⟩, ?_,
    findSome?_error?_ne_notAdvancing hsettled, hmarks, ?_,
    ⟨rfl, error?_of_mem_dropLast source oracle plan stop readings _⟩, ?_, ?_⟩
  · intro round hround result hcall
    refine ⟨(call_of_mem_rounds hsettled hround hcall).2.1,
      (call_of_mem_rounds hsettled hround hcall).2.2, fun moment mark left hrefused => ?_⟩
    rw [hrefused] at hcall
    exact call_ne_notAdvancing hsettled hround moment mark left hcall
  · intro earlier round later e left hsplit hcall he
    have hround : round ∈ Tracker.rounds source oracle plan stop readings (world, tracker) := by
      rw [hsplit]
      exact List.mem_append_right _ List.mem_cons_self
    obtain ⟨hbefore, _, hresult⟩ := call_of_mem_rounds hsettled hround hcall
    exact ⟨update_error_settle hbefore hresult.symm,
      fun hreachable => Settled.left_of_mem_rounds hreachable.settled hround hcall,
      goes_on hsplit hcall he⟩
  · intro batch hbatch
    simpa using (List.mem_filter.1 hbatch).2
  · rw [List.flatten_filter_not_isEmpty, ← List.flatMap_def]
    exact taken_append_pending_last source oracle plan stop readings hsettled

/-- A chain that is not at hand at first, then has one block for each window, and in the end
answers nonsense. It counts how often it was asked. -/
def flakySource : Source Nat where
  fetch window asked :=
    if asked = 0 then .error (.unavailable "connection refused") 1
    else if asked < 4 then
      .ok (Batch.ofEvents window (some ⟨⟨8, 8, by decide⟩, ⟨window.stop, window.stop,
        Instant.le_refl _⟩⟩) []) (asked + 1)
    else .error (.undecodable "unknown event topic") (asked + 1)

/-- An oracle with a period every hundred seconds. -/
def hundredSeconds : Oracle Nat where
  periodOf moment := pure (moment.seconds / 100).toNat.toUInt64
  proofStatus _ _ _ _ := pure .notRequired

def samplePoller : Tracker := (start .silent ⟨10, 0, by decide⟩).withAudit (.new 3)

/-- A clock that also stands still and goes back. -/
def sampleReadings : List Instant :=
  [⟨160, 0, by decide⟩, ⟨160, 0, by decide⟩, ⟨150, 0, by decide⟩, ⟨270, 0, by decide⟩,
    ⟨380, 0, by decide⟩, ⟨490, 0, by decide⟩, ⟨600, 0, by decide⟩]

theorem polling_delivers_every_report_sampleReadings :
    samplePoller.settle.Reachable ∧
      ∃ taken polled last,
        rounds flakySource hundredSeconds .default (fun asked => asked == 100) sampleReadings
          (0, samplePoller) = taken ∧
        poll flakySource hundredSeconds .default (fun asked => asked == 100) sampleReadings
          (0, samplePoller) = (polled, last) ∧
        taken.length = 6 ∧ polled.batches.map List.length = [1, 1] ∧
        polled.error = some (.fetch (.undecodable "unknown event topic")) ∧
        polled.error = taken.findSome? Round.error? ∧
        polled.batches.flatten ++ last.2.pending
          = samplePoller.pending ++ taken.flatMap Round.written := by
  have hreachable : samplePoller.Reachable := (Reachable.start _ _).withAudit _
  have hsettled : samplePoller.settle.Reachable := by rwa [hreachable.settled.settle]
  have hall := polling_delivers_every_report hsettled flakySource hundredSeconds .default
    (fun asked => asked == 100) sampleReadings 0 rfl rfl
  exact ⟨hsettled, _, _, _, rfl, rfl, by decide +kernel, by decide +kernel, by decide +kernel,
    hall.2.2.2.2.2.1.1, hall.2.2.2.2.2.2.2⟩

end StorageMarket.Tracker
