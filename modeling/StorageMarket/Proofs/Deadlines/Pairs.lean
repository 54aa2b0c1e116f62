import Mathlib.Data.Finset.Sort
import StorageMarket.Proofs.Deadlines

/-!
# Deadlines as a set of pairs

Deadlines are kept moment by moment, and what is due is taken off moment by moment. To whoever
uses them they are a plain set of pairs of a moment and a request: `members`. Each action on
deadlines is said once more of such sets (`Action.onPairs`), with no moments kept and no loop;
whatever is done to deadlines returns what is returned there, and leaves the same pairs.

Taking off comes to an end: `Drains` says what the turns of the loop do, and each takes one
moment off.
-/

namespace StorageMarket

/-! ## The order of deadlines -/

namespace Deadline

/-- An earlier moment comes first, and of one moment the smaller identifier. -/
def NoLater (d e : Deadline) : Prop :=
  d.time < e.time ∨ d.time = e.time ∧ (compare d.request e.request).isLE = true

instance : DecidableRel NoLater := fun _ _ => inferInstanceAs (Decidable (_ ∨ _))

instance : IsTrans Deadline NoLater where
  trans d e f := by
    rintro (hlt | ⟨heq, hle⟩) (hlt' | ⟨heq', hle'⟩)
    · exact .inl (Int.lt_trans hlt hlt')
    · exact .inl (heq' ▸ hlt)
    · exact .inl (heq ▸ hlt')
    · exact .inr ⟨heq.trans heq', Std.TransCmp.isLE_trans hle hle'⟩

instance : Std.Antisymm NoLater where
  antisymm d e := by
    rintro (hlt | ⟨heq, hle⟩) (hlt' | ⟨heq', hle'⟩)
    · exact absurd hlt' (Int.lt_asymm hlt)
    · exact absurd (heq' ▸ hlt) (Int.lt_irrefl _)
    · exact absurd (heq ▸ hlt') (Int.lt_irrefl _)
    · have hrequest : d.request = e.request :=
        Std.LawfulEqOrd.compare_eq_iff_eq.1 (Std.OrientedCmp.isLE_antisymm hle hle')
      cases d
      cases e
      cases heq
      cases hrequest
      rfl

instance : Std.Total NoLater where
  total d e := by
    rcases Int.lt_trichotomy d.time.rank e.time.rank with hlt | heq | hlt
    · exact .inl (.inl hlt)
    · have htime := Instant.rank_injective heq
      cases hle : (compare d.request e.request).isLE with
      | true => exact .inl (.inr ⟨htime, hle⟩)
      | false =>
          have hswap : compare d.request e.request = (compare e.request d.request).swap :=
            Std.OrientedCmp.eq_swap
          rw [hswap, Ordering.isLE_swap, Ordering.isGE_eq_false] at hle
          refine .inr (.inr ⟨htime.symm, ?_⟩)
          rw [hle]
          rfl
    · exact .inr (.inl hlt)

theorem noLater_of_compare_eq_lt {d e : Deadline} (h : compare d e = .lt) : d.NoLater e := by
  rcases Deadlines.compare_eq_lt.1 h with hlt | ⟨htime, hlt⟩
  · exact .inl hlt
  · refine .inr ⟨htime, ?_⟩
    rw [hlt]
    rfl

end Deadline

namespace Deadlines

variable {deadlines : Deadlines} {due : Instant → Bool}

/-! ## The pairs -/

def members (deadlines : Deadlines) : Finset Deadline := deadlines.toList.toFinset

theorem mem_members {d : Deadline} : d ∈ deadlines.members ↔ d ∈ deadlines := by
  rw [members, List.mem_toFinset, mem_toList]

theorem card_members (deadlines : Deadlines) : deadlines.members.card = deadlines.size := by
  rw [members, List.toFinset_card_of_nodup deadlines.nodup_toList, length_toList]

theorem members_empty : empty.members = ∅ := rfl

theorem members_schedule (time : Instant) (request : RequestId) :
    (deadlines.schedule time request).members = insert ⟨time, request⟩ deadlines.members := by
  ext d
  rw [mem_members, mem_schedule, Finset.mem_insert, mem_members]

theorem members_cancel (time : Instant) (request : RequestId) :
    (deadlines.cancel time request).members = deadlines.members.erase ⟨time, request⟩ := by
  ext d
  rw [mem_members, mem_cancel, Finset.mem_erase, mem_members, and_comm]

theorem taken_eq_sort (hdue : ∀ t u, t < u → due u = true → due t = true) :
    deadlines.taken due
      = (deadlines.members.filter fun d => due d.time = true).sort Deadline.NoLater := by
  have hpairs : (deadlines.members.filter fun d => due d.time = true)
      = (deadlines.taken due).toFinset := by
    ext d
    rw [Finset.mem_filter, mem_members, List.mem_toFinset, mem_taken hdue]
  rw [hpairs]
  refine ((List.toFinset_sort Deadline.NoLater (deadlines.nodup_taken due)).2 ?_).symm
  exact (deadlines.ascending_taken due).imp Deadline.noLater_of_compare_eq_lt

theorem members_popWhile (hdue : ∀ t u, t < u → due u = true → due t = true) :
    (deadlines.popWhile due).2.members
      = deadlines.members.filter fun d => ¬ due d.time = true := by
  ext d
  rw [mem_members, mem_popWhile_snd, mem_taken hdue, Finset.mem_filter, mem_members, not_and]
  exact and_congr_right fun hd => ⟨fun h => h hd, fun h _ => h⟩

/-! ## Actions -/

inductive Action where
  | schedule (time : Instant) (request : RequestId)
  | cancel (time : Instant) (request : RequestId)
  | popUntil (time : Instant)
  | popBefore (time : Instant)

namespace Action

/-- The requests that an action on deadlines returns, and the deadlines that it leaves. -/
def onDeadlines (deadlines : Deadlines) : Action → List RequestId × Deadlines
  | schedule time request => ([], deadlines.schedule time request)
  | cancel time request => ([], deadlines.cancel time request)
  | popUntil time => deadlines.popUntil time
  | popBefore time => deadlines.popBefore time

/-- Takes the pairs that are due out of a set: their requests in order, and the pairs that are
left. -/
def takeOff (pairs : Finset Deadline) (due : Instant → Prop) [DecidablePred due] :
    List RequestId × Finset Deadline :=
  (((pairs.filter fun d => due d.time).sort Deadline.NoLater).map Deadline.request,
    pairs.filter fun d => ¬ due d.time)

/-- The same actions on a plain set of pairs. -/
def onPairs (pairs : Finset Deadline) : Action → List RequestId × Finset Deadline
  | schedule time request => ([], insert ⟨time, request⟩ pairs)
  | cancel time request => ([], pairs.erase ⟨time, request⟩)
  | popUntil time => takeOff pairs (· ≤ time)
  | popBefore time => takeOff pairs (· < time)

/-- One action after the other: what each returns, and what all of them leave. -/
def inTurn {σ : Type} (act : σ → Action → List RequestId × σ) :
    σ → List Action → List (List RequestId) × σ
  | state, [] => ([], state)
  | state, action :: actions =>
      let later := inTurn act (act state action).2 actions
      ((act state action).1 :: later.1, later.2)

theorem takeOff_members (deadlines : Deadlines)
    (hdue : ∀ t u, t < u → due u = true → due t = true) :
    takeOff deadlines.members (fun t => due t = true)
      = ((deadlines.popWhile due).1, (deadlines.popWhile due).2.members) := by
  rw [takeOff, popWhile_fst, taken_eq_sort hdue, members_popWhile hdue]

theorem onPairs_members (deadlines : Deadlines) (action : Action) :
    action.onPairs deadlines.members
      = ((action.onDeadlines deadlines).1, (action.onDeadlines deadlines).2.members) := by
  cases action with
  | schedule time request => rw [onPairs, onDeadlines, members_schedule]
  | cancel time request => rw [onPairs, onDeadlines, members_cancel]
  | popUntil time =>
      have h := takeOff_members deadlines (le_closed time)
      simp only [decide_eq_true_iff] at h
      exact h
  | popBefore time =>
      have h := takeOff_members deadlines (lt_closed time)
      simp only [decide_eq_true_iff] at h
      exact h

theorem inTurn_members (deadlines : Deadlines) (actions : List Action) :
    inTurn onPairs deadlines.members actions
      = ((inTurn onDeadlines deadlines actions).1,
        (inTurn onDeadlines deadlines actions).2.members) := by
  induction actions generalizing deadlines with
  | nil => rfl
  | cons action actions ih => simp only [inTurn, onPairs_members, ih]

theorem tidy_onDeadlines (h : deadlines.Tidy) (action : Action) :
    (action.onDeadlines deadlines).2.Tidy := by
  cases action with
  | schedule time request => exact h.schedule time request
  | cancel time request => exact h.cancel time request
  | popUntil time => exact h.popWhile _
  | popBefore time => exact h.popWhile _

theorem tidy_inTurn (h : deadlines.Tidy) (actions : List Action) :
    (inTurn onDeadlines deadlines actions).2.Tidy := by
  induction actions generalizing deadlines with
  | nil => exact h
  | cons action actions ih => exact ih (tidy_onDeadlines h action)

end Action

/-- No moment is kept without a request, so without a deadline there is no moment. -/
theorem Tidy.isEmpty_iff (h : deadlines.Tidy) : deadlines.isEmpty = true ↔ deadlines.size = 0 := by
  rw [isEmpty, List.isEmpty_iff, ← length_toList, List.length_eq_zero_iff, toList,
    List.flatMap_eq_nil_iff]
  constructor
  · intro hnone moment hm
    rw [hnone] at hm
    cases hm
  · intro hnone
    refine List.eq_nil_iff_forall_not_mem.2 fun moment hm => h moment hm ?_
    rw [← SortedSet.isEmpty_iff, SortedSet.isEmpty, List.isEmpty_iff]
    exact List.map_eq_nil_iff.1 (hnone moment hm)

/-! ## Turns of the loop -/

/-- Moments are taken off from the first on, one in a turn, until none is left or the first one is
not due. -/
inductive Drains (due : Instant → Bool) : Deadlines → List RequestId → Deadlines → Prop where
  | stop {deadlines : Deadlines}
      (first : ∀ moment ∈ deadlines.moments.entries.head?, due moment.1 = false) :
      Drains due deadlines [] deadlines
  | turn {deadlines rest left : Deadlines} {moment : Instant × SortedSet RequestId}
      {ids : List RequestId} (first : deadlines.moments.entries = moment :: rest.moments.entries)
      (isDue : due moment.1 = true) (later : Drains due rest ids left) :
      Drains due deadlines (moment.2.toList ++ ids) left

theorem eq_of_entries_eq {others : Deadlines}
    (h : deadlines.moments.entries = others.moments.entries) : deadlines = others := by
  obtain ⟨entries, ascending⟩ := deadlines
  obtain ⟨entries', ascending'⟩ := others
  cases h
  rfl

theorem popWhile_of_not_due
    (first : ∀ moment ∈ deadlines.moments.entries.head?, due moment.1 = false) :
    deadlines.popWhile due = ([], deadlines) := by
  have htaken : deadlines.moments.entries.takeWhile (fun moment => due moment.1) = [] := by
    cases hentries : deadlines.moments.entries with
    | nil => rfl
    | cons moment entries =>
        have hnot := first moment (by rw [hentries]; rfl)
        exact List.takeWhile_cons_of_neg (by simp [hnot])
  have hleft := List.takeWhile_append_dropWhile (p := fun moment => due moment.1)
    (l := deadlines.moments.entries)
  rw [htaken, List.nil_append] at hleft
  refine Prod.ext ?_ (eq_of_entries_eq hleft)
  show List.flatMap _ (deadlines.moments.entries.takeWhile _) = []
  rw [htaken, List.flatMap_nil]

theorem popWhile_of_due {rest : Deadlines} {moment : Instant × SortedSet RequestId}
    (first : deadlines.moments.entries = moment :: rest.moments.entries)
    (isDue : due moment.1 = true) :
    deadlines.popWhile due
      = (moment.2.toList ++ (rest.popWhile due).1, (rest.popWhile due).2) := by
  let dueAt (moment : Instant × SortedSet RequestId) : Bool := due moment.1
  have isDueAt : dueAt moment = true := isDue
  refine Prod.ext ?_ (eq_of_entries_eq ?_)
  · show List.flatMap _ (deadlines.moments.entries.takeWhile dueAt) = _
    rw [first, List.takeWhile_cons_of_pos isDueAt, List.flatMap_cons]
    rfl
  · show deadlines.moments.entries.dropWhile dueAt = rest.moments.entries.dropWhile dueAt
    rw [first, List.dropWhile_cons_of_pos isDueAt]

/-- The loop comes to an end: after each turn one moment fewer is left. -/
theorem drains_popWhile (deadlines : Deadlines) (due : Instant → Bool) :
    Drains due deadlines (deadlines.popWhile due).1 (deadlines.popWhile due).2 := by
  induction hentries : deadlines.moments.entries generalizing deadlines with
  | nil =>
      have first : ∀ moment ∈ deadlines.moments.entries.head?, due moment.1 = false := by
        intro moment hm
        rw [hentries] at hm
        cases hm
      rw [popWhile_of_not_due first]
      exact .stop first
  | cons moment entries ih =>
      cases isDue : due moment.1 with
      | true =>
          have ascending := deadlines.moments.ascending
          rw [hentries, List.map_cons] at ascending
          let rest : Deadlines := ⟨⟨entries, (List.pairwise_cons.1 ascending).2⟩⟩
          have first : deadlines.moments.entries = moment :: rest.moments.entries := hentries
          rw [popWhile_of_due first isDue]
          exact .turn first isDue (ih rest rfl)
      | false =>
          have first : ∀ m ∈ deadlines.moments.entries.head?, due m.1 = false := by
            intro m hm
            rw [hentries] at hm
            cases hm
            exact isDue
          rw [popWhile_of_not_due first]
          exact .stop first

/-- Taking off what is due is what the loop does, and the loop does nothing else. -/
theorem drains_iff {ids : List RequestId} {left : Deadlines} :
    Drains due deadlines ids left ↔ deadlines.popWhile due = (ids, left) := by
  constructor
  · intro h
    induction h with
    | stop first => exact popWhile_of_not_due first
    | turn first isDue _ ih => rw [popWhile_of_due first isDue, ih]
  · intro h
    have hdrains := drains_popWhile deadlines due
    rwa [h] at hdrains

/-! ## Deadlines in use -/

/-- After any actions from no deadlines on, each action has returned what it returns on a plain set
of pairs, and the deadlines are the pairs that are left of that set; there are as many of them, and
they are empty exactly if there are none. Taking off what is due, whatever the condition on the
moment, comes to an end. What is due until a moment may be taken off in two goes. -/
theorem deadlines_are_set_of_pairs (actions : List Action) :
    let used := Action.inTurn Action.onDeadlines empty actions
    let pairs := Action.inTurn Action.onPairs ∅ actions
    used.1 = pairs.1 ∧
    (∀ d, d ∈ used.2 ↔ d ∈ pairs.2) ∧
    used.2.size = pairs.2.card ∧
    (used.2.isEmpty = true ↔ used.2.size = 0) ∧
    (∀ due ids left, used.2.Drains due ids left ↔ used.2.popWhile due = (ids, left)) ∧
    ∀ early late, early ≤ late → used.2.popUntil late
      = ((used.2.popUntil early).1 ++ ((used.2.popUntil early).2.popUntil late).1,
        ((used.2.popUntil early).2.popUntil late).2) := by
  intro used pairs
  have hpairs : pairs = (used.1, used.2.members) := by
    show Action.inTurn Action.onPairs ∅ actions = _
    rw [← members_empty, Action.inTurn_members]
  rw [hpairs]
  refine ⟨rfl, fun d => mem_members.symm, (card_members used.2).symm,
    (Action.tidy_inTurn tidy_empty actions).isEmpty_iff, ?_, ?_⟩
  · intro due ids left
    exact drains_iff
  · intro early late hle
    refine popWhile_popWhile (fun t ht => ?_) used.2
    exact decide_eq_true (Instant.le_trans (of_decide_eq_true ht) hle)

/-- A request is scheduled at two moments and called off at a third one, where it never was. Nothing
is due when the first deadlines are asked for. -/
def sampleUse : List Action :=
  let early : Instant := ⟨90210, 7, by decide⟩
  let late : Instant := ⟨90211, 1300000000, by decide⟩
  let one : RequestId := ⟨List.replicate 32 61, List.length_replicate⟩
  let two : RequestId := ⟨List.replicate 32 62, List.length_replicate⟩
  [.schedule late two, .schedule early two, .schedule late one, .cancel early one,
    .popBefore early, .schedule early one, .schedule early one, .popBefore early]

theorem deadlines_are_set_of_pairs_sampleUse :
    let used := (Action.inTurn Action.onDeadlines empty sampleUse).2
    let early : Instant := ⟨90210, 7, by decide⟩
    let late : Instant := ⟨90211, 1300000000, by decide⟩
    early ≤ late ∧
    used.size = (Action.inTurn Action.onPairs ∅ sampleUse).2.card ∧
    (used.popUntil late).1.map (fun id => id.toList.head?) = [some 61, some 62, some 61, some 62] ∧
    (used.popUntil late).1
      = (used.popUntil early).1 ++ ((used.popUntil early).2.popUntil late).1 := by
  intro used early late
  have hle : early ≤ late := by decide
  obtain ⟨_, _, hsize, _, _, htwice⟩ := deadlines_are_set_of_pairs sampleUse
  exact ⟨hle, hsize, by decide, congrArg Prod.fst (htwice early late hle)⟩

end Deadlines

end StorageMarket
