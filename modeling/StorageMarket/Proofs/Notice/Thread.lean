import Mathlib.Data.List.Chain
import StorageMarket.Notice

/-!
# What is told about one request

The notices of one request are a thread: the first one publishes it, and each later one
shows the deal that the one before has shown, changed in the way it says. So by the
notices alone one can see that the request keeps to its life cycle.
-/

namespace StorageMarket

def Occurrence.stage? : Occurrence → Option Stage
  | published => some .new
  | fulfilled => some .started
  | cancelled => some .cancelled
  | failed => some .failed
  | finished => some .finished
  | slotFilled .. => none
  | slotFreed .. => none

namespace Notice

/-- The stage that a deal is shown at, where something happened to the deal as a whole. -/
def turn? (notice : Notice) : Option Stage := notice.occurrence.stage?.map fun _ => notice.deal.stage

/-- A notice that says and shows what may happen to a deal, or to a request without one. -/
inductive Follows : Option Deal → Notice → Prop where
  | published (request : Request) (block : BlockNumber) (time : Instant) :
      Follows none ⟨.published, .publish request block time⟩
  | turned (deal : Deal) {occurrence : Occurrence} {stage : Stage}
      (named : occurrence.stage? = some stage) (can : deal.stage.canBecome stage = true) :
      Follows (some deal) ⟨occurrence, { deal with stage }⟩
  | filled (deal : Deal) {slot : SlotIndex} (host : Address)
      (has : slot < deal.request.terms.slots) :
      Follows (some deal) ⟨.slotFilled slot host, { deal with hosts := deal.hosts.fill slot host }⟩
  | freed (deal : Deal) (slot : SlotIndex) :
      Follows (some deal)
        ⟨.slotFreed slot (deal.hosts.host? slot), { deal with hosts := deal.hosts.free slot }⟩

theorem Follows.stage_eq {before : Option Deal} {notice : Notice} (h : notice.Follows before)
    {stage : Stage} (hnamed : notice.occurrence.stage? = some stage) :
    notice.deal.stage = stage := by
  cases h with
  | published request block time => exact Option.some.inj hnamed
  | turned deal named can => exact Option.some.inj (named.symm.trans hnamed)
  | filled deal host has => cases hnamed
  | freed deal slot => cases hnamed

theorem Follows.ne_published {deal : Deal} {notice : Notice} (h : notice.Follows (some deal)) :
    notice.occurrence ≠ .published := by
  cases h with
  | turned _ named can =>
      rintro rfl
      -- no deal can become new
      cases named
      revert can
      cases deal.stage <;> decide
  | filled _ host has => exact Occurrence.noConfusion
  | freed _ slot => exact Occurrence.noConfusion

theorem Follows.eq_published {notice : Notice} (h : notice.Follows none) :
    notice.occurrence = .published := by
  cases h
  rfl

end Notice

/-- Notices one after the other, each of which follows from the deal as it is then. -/
inductive Thread : Option Deal → List Notice → Option Deal → Prop where
  | nil (deal : Option Deal) : Thread deal [] deal
  | cons {before after : Option Deal} {notice : Notice} {rest : List Notice}
      (first : notice.Follows before) (others : Thread (some notice.deal) rest after) :
      Thread before (notice :: rest) after

namespace Thread

theorem nil_iff {before after : Option Deal} : Thread before [] after ↔ after = before := by
  constructor
  · intro h
    cases h
    rfl
  · rintro rfl
    exact .nil _

theorem cons_iff {before after : Option Deal} {notice : Notice} {rest : List Notice} :
    Thread before (notice :: rest) after ↔
      notice.Follows before ∧ Thread (some notice.deal) rest after := by
  constructor
  · intro h
    cases h with
    | cons first others => exact ⟨first, others⟩
  · rintro ⟨first, others⟩
    exact .cons first others

theorem append_iff {before after : Option Deal} {notices more : List Notice} :
    Thread before (notices ++ more) after ↔
      ∃ between, Thread before notices between ∧ Thread between more after := by
  induction notices generalizing before with
  | nil =>
      constructor
      · intro h
        exact ⟨before, .nil before, h⟩
      · rintro ⟨between, hnil, hmore⟩
        rwa [nil_iff.1 hnil] at hmore
  | cons notice rest ih =>
      rw [List.cons_append, cons_iff, ih]
      constructor
      · rintro ⟨hfirst, between, hrest, hmore⟩
        exact ⟨between, .cons hfirst hrest, hmore⟩
      · rintro ⟨between, hthread, hmore⟩
        obtain ⟨hfirst, hrest⟩ := cons_iff.1 hthread
        exact ⟨hfirst, between, hrest, hmore⟩

theorem eq_getLast? {before after : Option Deal} {notices : List Notice}
    (h : Thread before notices after) :
    after = (notices.getLast?.map Notice.deal).or before := by
  induction h with
  | nil deal => rfl
  | @cons before after notice rest first others ih =>
      rw [ih, List.getLast?_cons]
      cases rest.getLast? <;> rfl

theorem eq_nil_iff {after : Option Deal} {notices : List Notice} (h : Thread none notices after) :
    notices = [] ↔ after = none := by
  rw [h.eq_getLast?, Option.or_none, Option.map_eq_none_iff, List.getLast?_eq_none_iff]

end Thread

/-! ## The life cycle -/

/-- The ways that a request may go. -/
def Stage.paths : List (List Stage) :=
  [[.new, .started, .finished], [.new, .started, .failed], [.new, .cancelled], [.new, .failed]]

/-- The stages that deals are shown to come to, one after the other. -/
def turns (notices : List Notice) : List Stage := notices.filterMap Notice.turn?

/-- What is told about one request keeps to the life cycle of requests. -/
structure LifeCycle (notices : List Notice) : Prop where
  /-- First of all the request is published. -/
  opens : ∀ notice ∈ notices.head?, notice.occurrence = .published ∧ notice.deal.stage = .new
  /-- It is published once. -/
  once : ∀ notice ∈ notices.tail, notice.occurrence ≠ .published
  /-- What happens to a deal brings it to the stage that goes with it. -/
  stages : ∀ notice ∈ notices, ∀ stage, notice.occurrence.stage? = some stage →
    notice.deal.stage = stage
  /-- The stages that it comes to are the beginning of a way that a request may go. -/
  path : ∃ path ∈ Stage.paths, turns notices <+: path
  /-- What happens to a slot leaves the deal at the stage that it has come to. -/
  slots : ∀ earlier notice later, notices = earlier ++ notice :: later →
    notice.occurrence.stage? = none → (turns earlier).getLast? = some notice.deal.stage

/-- After two turns a request has come to an end. -/
theorem Stage.canBecome_third {second third : Stage} (h : new.canBecome second = true)
    (h' : second.canBecome third = true) (stage : Stage) : third.canBecome stage = false := by
  revert h h'
  cases second <;> cases third <;> cases stage <;> decide

/-- Stages each of which can become the next are the beginning of a way that a request may go. -/
theorem Stage.exists_path {stages : List Stage}
    (h : (new :: stages).IsChain fun a b => a.canBecome b = true) :
    ∃ path ∈ Stage.paths, new :: stages <+: path := by
  cases stages with
  | nil => exact ⟨[.new, .failed], by decide, by decide⟩
  | cons second stages =>
      obtain ⟨hsecond, hrest⟩ := List.isChain_cons_cons.1 h
      cases stages with
      | nil => cases second <;> revert hsecond <;> decide
      | cons third stages =>
          obtain ⟨hthird, hrest⟩ := List.isChain_cons_cons.1 hrest
          cases stages with
          | nil => cases second <;> cases third <;> revert hsecond hthird <;> decide
          | cons fourth stages =>
              have hfourth := (List.isChain_cons_cons.1 hrest).1
              rw [canBecome_third hsecond hthird] at hfourth
              exact Bool.noConfusion hfourth

theorem turns_cons (notice : Notice) (rest : List Notice) :
    turns (notice :: rest) = notice.turn?.toList ++ turns rest := by
  rw [turns, List.filterMap_cons]
  cases notice.turn? <;> rfl

namespace Thread

theorem not_published {deal : Deal} {after : Option Deal} {notices : List Notice}
    (h : Thread (some deal) notices after) :
    ∀ notice ∈ notices, notice.occurrence ≠ .published := by
  induction notices generalizing deal with
  | nil => simp
  | cons notice rest ih =>
      obtain ⟨hfirst, hothers⟩ := cons_iff.1 h
      exact List.forall_mem_cons.2 ⟨hfirst.ne_published, ih hothers⟩

/-- A thread goes from stage to stage as a request may. -/
theorem isChain_turns {deal : Deal} {after : Option Deal} {notices : List Notice}
    (h : Thread (some deal) notices after) :
    (deal.stage :: turns notices).IsChain fun a b => a.canBecome b = true := by
  induction notices generalizing deal with
  | nil => exact List.isChain_singleton _
  | cons notice rest ih =>
      obtain ⟨hfirst, hothers⟩ := cons_iff.1 h
      have ih := ih hothers
      rw [turns_cons]
      cases hfirst with
      | turned deal named can =>
          rw [Notice.turn?, named]
          exact List.isChain_cons_cons.2 ⟨can, ih⟩
      | filled deal host has => exact ih
      | freed deal slot => exact ih

theorem getLast?_turns {before : Option Deal} {deal : Deal} {notices : List Notice}
    (h : Thread before notices (some deal)) :
    (turns notices).getLast?.or (before.map Deal.stage) = some deal.stage := by
  induction notices generalizing before with
  | nil => rw [← nil_iff.1 h]; rfl
  | cons notice rest ih =>
      obtain ⟨hfirst, hothers⟩ := cons_iff.1 h
      have hturn : notice.turn?.or (before.map Deal.stage) = some notice.deal.stage := by
        cases hfirst with
        | published request block time => rfl
        | turned deal named can => rw [Notice.turn?, named]; rfl
        | filled deal host has => rfl
        | freed deal slot => rfl
      have hlast : notice.turn?.toList.getLast? = notice.turn? := by
        cases notice.turn? <;> rfl
      rw [turns_cons, List.getLast?_append, hlast, Option.or_assoc, hturn]
      exact ih hothers

theorem lifeCycle {notices : List Notice} {after : Option Deal} (h : Thread none notices after) :
    LifeCycle notices where
  opens notice hhead := by
    cases h with
    | nil => cases hhead
    | cons first others =>
        cases hhead
        cases first with
        | published request block time => exact ⟨rfl, rfl⟩
  once := by
    cases h with
    | nil => simp
    | cons first others => exact others.not_published
  stages notice hm stage hnamed := by
    obtain ⟨earlier, later, rfl⟩ := List.append_of_mem hm
    obtain ⟨between, _, hrest⟩ := append_iff.1 h
    exact (cons_iff.1 hrest).1.stage_eq hnamed
  path := by
    cases h with
    | nil => exact ⟨[.new, .failed], by decide, List.nil_prefix⟩
    | cons first others =>
        have hchain := others.isChain_turns
        cases first with
        | published request block time => exact Stage.exists_path hchain
  slots earlier notice later heq hslot := by
    subst heq
    obtain ⟨between, hearlier, hrest⟩ := append_iff.1 h
    cases (cons_iff.1 hrest).1 with
    | published request block time => cases hslot
    | turned deal named can => cases named.symm.trans hslot
    | filled deal host has => simpa using hearlier.getLast?_turns
    | freed deal slot => simpa using hearlier.getLast?_turns

end Thread

end StorageMarket
