import StorageMarket.Proofs.Command.Passes
import StorageMarket.Proofs.Observer.Panels
import StorageMarket.Proofs.Recording.RoundTrip
import StorageMarket.Proofs.Replay.Census
import StorageMarket.Proofs.Tracker.Notices

/-!
# What the summary of a replay says

The summary of a replay shows two things that are kept apart: the tally of a listener,
which sees nothing but notices, and the deals of the ledger. They agree, as over all
passes of the replay every change of the deals is told by just one notice, and the
listener is told all of them.

That is said of what is printed: the numbers stand at their names, and the requests are
counted by the state that each of them shows.
-/

namespace StorageMarket

theorem Observer.toldTo_ofCommand (notices : List Notice) :
    (Observer.ofCommand.inform notices).toldTo "count" = notices := by
  have hsteady : Observer.ofCommand.Steady := trivial
  have hcount : ((Observer.quiet "count").tellAll notices).1.told = notices :=
    Observer.told_tellAll_listener "count" _ [] notices
  have hlog : ((Observer.quiet "log").tellAll notices).1.name = "log" :=
    Observer.name_tellAll _ _
  have hname : ((Observer.quiet "count").tellAll notices).1.name = "count" :=
    Observer.name_tellAll _ _
  rw [hsteady.inform_eq, toldTo, listeners_tellAll]
  show List.flatMap told ([((Observer.quiet "log").tellAll notices).1,
    ((Observer.quiet "count").tellAll notices).1].filter _) = notices
  simp [hlog, hname, hcount]

/-! ## Printed requests -/

namespace Json

def member? (name : String) : Json → Option Json
  | .object members => members.lookup name
  | _ => none

def shows (name text : String) (json : Json) : Bool :=
  match json.member? name with
  | some (.string s) => s = text
  | _ => false

def length : Json → Nat
  | .array items => items.length
  | _ => 0

/-- The number of slots that a printed request says were ever filled. -/
def everFilled (request : Json) : Nat :=
  (((request.member? "hosts").bind (member? "ever_filled")).map length).getD 0

end Json

theorem Stage.name_injective {stage other : Stage} (h : stage.name = other.name) :
    stage = other := by
  have hsame := congrArg ofName? h
  rw [ofName?_name, ofName?_name] at hsame
  exact Option.some.inj hsame

theorem Deal.shows_state (deal : Deal) (stage : Stage) :
    deal.json.shows "state" stage.name = decide (deal.stage = stage) := by
  show decide (deal.stage.name = stage.name) = _
  rw [decide_eq_decide]
  exact ⟨Stage.name_injective, congrArg Stage.name⟩

theorem Deal.everFilled_json (deal : Deal) :
    deal.json.everFilled = deal.hosts.everFilled.size := by
  show (deal.hosts.everFilled.toList.map jsonUInt64).length = _
  rw [List.length_map]
  rfl

/-- What the numbers of a printed summary say about the printed requests. -/
structure Tally.Matches (tally : Tally) (requests : List Json) : Prop where
  published : tally.published = requests.length
  finished : tally.finished = requests.countP (Json.shows "state" "finished")
  cancelled : tally.cancelled = requests.countP (Json.shows "state" "cancelled")
  failed : tally.failed = requests.countP (Json.shows "state" "failed")
  fulfilled_ge : requests.countP (Json.shows "state" "started")
    + requests.countP (Json.shows "state" "finished") ≤ tally.fulfilled
  fulfilled_le : tally.fulfilled
    ≤ requests.countP (Json.shows "state" "started")
      + requests.countP (Json.shows "state" "finished")
      + requests.countP (Json.shows "state" "failed")
  slotsFilled : (requests.map Json.everFilled).sum ≤ tally.slotsFilled

theorem countP_shows_state (deals : List Deal) (stage : Stage) :
    (deals.map Deal.json).countP (Json.shows "state" stage.name)
      = deals.countP fun deal => deal.stage = stage := by
  rw [List.countP_map]
  exact List.countP_congr fun deal _ => by rw [Function.comp_apply, deal.shows_state]

theorem Tally.Agrees.matches {tally : Tally} {deals : List Deal} (h : tally.Agrees deals) :
    tally.Matches (deals.map Deal.json) := by
  have hstates := countP_shows_state deals
  have hrunning : (deals.countP fun deal => deal.stage = .started ∨ deal.stage = .finished)
      = (deals.countP fun deal => deal.stage = .started)
        + deals.countP fun deal => deal.stage = .finished := by
    have hfinished (deal : Deal) : decide (deal.stage = .started) = true →
        decide (deal.stage = .finished) = false := by
      cases deal.stage <;> decide
    simp only [Bool.decide_or]
    exact countP_or hfinished deals
  have hfulfilled_ge := h.fulfilled_ge
  have hfulfilled_le := h.fulfilled_le
  rw [hrunning, ← hstates, ← hstates] at hfulfilled_ge hfulfilled_le
  rw [← hstates] at hfulfilled_le
  constructor
  · rw [h.published, List.length_map]
  · exact h.finished.trans (hstates .finished).symm
  · exact h.cancelled.trans (hstates .cancelled).symm
  · exact h.failed.trans (hstates .failed).symm
  · exact hfulfilled_ge
  · exact hfulfilled_le
  · rw [List.map_map]
    refine Nat.le_trans (Nat.le_of_eq (congrArg List.sum ?_)) h.slotsFilled
    exact List.map_congr_left fun deal _ => deal.everFilled_json

namespace Archive

variable (archive : Archive)

theorem settled_tracker : archive.tracker.Settled :=
  ((Tracker.Reachable.start .ofCommand archive.start).withAudit _).settled

theorem pass_cases {tracker : Tracker} (h : tracker.Settled) (target : Instant) :
    (∃ e, (archive.pass target tracker).error? = some e ∧
        (archive.pass target tracker).outcome? = none ∧
        (archive.pass target tracker).after = tracker) ∨
      ∃ outcome, (archive.pass target tracker).error? = none ∧
        (archive.pass target tracker).outcome? = some outcome ∧
        tracker.Tells outcome.notices (archive.pass target tracker).after ∧
        (archive.pass target tracker).after.Settled := by
  rw [Pass.error?, Pass.outcome?, Pass.after, pass]
  dsimp only
  cases hupdate : Tracker.update (archive.source Unit) (archive.oracle Unit) target
      ((), tracker) with
  | error e state => exact .inl ⟨e, rfl, rfl, h.update_error hupdate⟩
  | ok outcome state =>
      have hsettled := h.update_ok hupdate
      have hdrain : state.2.Tells [] state.2.drain.2 := hsettled.tells_use .drain
      refine .inr ⟨outcome, rfl, rfl, ?_, hsettled.drain⟩
      have htells := (h.tells_update hupdate).trans hdrain
      rwa [List.append_nil] at htells

/-- The outcomes of passes tell what becomes of the deals. -/
theorem tells_passes {tracker : Tracker} (h : tracker.Settled) (targets : List Instant) :
    tracker.Tells
      (((archive.passes targets tracker).filterMap Pass.outcome?).flatMap Outcome.notices)
      (Pass.lastOf tracker (archive.passes targets tracker)) := by
  induction targets generalizing tracker with
  | nil => exact Tracker.Tells.refl tracker
  | cons target targets ih =>
      rcases archive.pass_cases h target with
        ⟨e, herror, houtcome, hafter⟩ | ⟨outcome, herror, houtcome, htells, hsettled⟩
      · rw [passes_cons_of_error herror, List.filterMap_cons_none houtcome, Pass.lastOf_cons,
          hafter]
        exact Tracker.Tells.refl tracker
      · rw [passes_cons herror, List.filterMap_cons_some houtcome, List.flatMap_cons,
          Pass.lastOf_cons]
        exact htells.trans (ih hsettled)

/-- The tally after a replay counts what the outcomes of its passes tell, and so do the deals. -/
theorem agrees_replaySteps (stride : Stride) :
    let outcomes := (archive.allPasses stride).filterMap Pass.outcome?
    let progress := (archive.replaySteps stride ⟨archive.tracker, 0, #[]⟩).1
    progress.updates = outcomes.length ∧
      progress.tracker.tally = Tally.zero.addAll (outcomes.flatMap Outcome.notices) ∧
      progress.tracker.tally.Agrees progress.tracker.ledger.deals := by
  have htells := archive.tells_passes archive.settled_tracker
    (stride.targets archive.times.stop archive.start)
  intro outcomes progress
  have hprogress : progress = Progress.through ⟨archive.tracker, 0, #[]⟩
      (archive.allPasses stride) := congrArg Prod.fst (archive.replaySteps_tracker stride)
  have htally : progress.tracker.tally = Tally.zero.addAll (outcomes.flatMap Outcome.notices) := by
    rw [hprogress, Tracker.tally]
    refine congrArg Tally.zero.addAll ?_
    show (Pass.lastOf archive.tracker (archive.allPasses stride)).observer.toldTo "count" = _
    rw [allPasses, htells.observer]
    exact Observer.toldTo_ofCommand _
  refine ⟨?_, htally, ?_⟩
  · rw [hprogress]
    exact Nat.zero_add _
  · rw [htally, hprogress]
    exact htells.telling.agrees

theorem lines_replay {stride : Stride} (h : (archive.replay stride).failure = none) :
    (archive.replay stride).lines.getLast?
      = some (summary (archive.replaySteps stride ⟨archive.tracker, 0, #[]⟩).1).toPrettyText := by
  rw [replay] at h ⊢
  cases herror : (archive.replaySteps stride ⟨archive.tracker, 0, #[]⟩).2 with
  | some e =>
      simp only [herror] at h
      cases h
  | none =>
      simp only [herror]
      exact List.getLast?_concat

end Archive

namespace Command

/-- A replay that does not fail prints a summary last, and the summary agrees with itself. There
are as many new requests as requests, and as many finished, cancelled and failed ones as there are
requests in these states. The fulfilled ones are those that are started or finished and perhaps
some of the failed ones. At least as many slots were filled as are known to have been. All counts
together are the notices that the updates count. -/
theorem summary_agrees {path : String} {seconds : Nat} {contents : Option String}
    {readings : List Instant}
    (h : (run (.replay path seconds) contents readings).failure = none) :
    ∃ archive stride, prepareReplay seconds contents = .ok (archive, stride) ∧
      let outcomes := (archive.allPasses stride).filterMap Pass.outcome?
      let tracker := (archive.replaySteps stride ⟨archive.tracker, 0, #[]⟩).1.tracker
      let tally := tracker.tally
      let requests := tracker.ledger.deals.map fun deal => Json.object [
        ("request", deal.request.json),
        ("state", .string deal.stage.name),
        ("created_block", .number deal.createdBlock.toNat),
        ("created_at", deal.createdAt.json),
        ("hosts", .object [
          ("current", .object (deal.hosts.current.entries.map fun (slot, host) =>
            (Decimal.text slot.toNat, host.json))),
          ("ever_filled", .array (deal.hosts.everFilled.toList.map fun slot =>
            .number slot.toNat))])]
      (run (.replay path seconds) contents readings).lines.getLast?
          = some (Json.object [
              ("updates", .number outcomes.length),
              ("latest_block", Json.ofOption jsonUInt64 tracker.latestBlock),
              ("changes", .object [
                ("new_requests", .number tally.published),
                ("fulfilled", .number tally.fulfilled),
                ("cancelled", .number tally.cancelled),
                ("failed", .number tally.failed),
                ("finished", .number tally.finished),
                ("slots_filled", .number tally.slotsFilled),
                ("slots_freed", .number tally.slotsFreed)]),
              ("requests", .array requests)]).toPrettyText ∧
        tally.Matches requests ∧
        tally.total = (outcomes.map fun outcome => outcome.notices.length).sum := by
  rw [run] at h ⊢
  cases hprepare : prepareReplay seconds contents with
  | error failure =>
      rw [hprepare] at h
      cases h
  | ok prepared =>
      obtain ⟨archive, stride⟩ := prepared
      rw [hprepare] at h
      obtain ⟨hupdates, htally, hagrees⟩ := archive.agrees_replaySteps stride
      refine ⟨archive, stride, rfl, ?_, hagrees.matches, ?_⟩
      · rw [← hupdates]
        exact archive.lines_replay h
      · rw [htally, Tally.total_addAll, List.length_flatMap]
        exact Nat.zero_add _

/-- A request that has a slot filled, is fulfilled and runs out. -/
def busyRecording : Recording where
  periodSeconds := 60
  blocks := [⟨3, ⟨1000000000, 0, by decide⟩⟩, ⟨4, ⟨1000000060, 0, by decide⟩⟩,
    ⟨5, ⟨1000000090, 0, by decide⟩⟩]
  events := [.published ⟨3, Ledger.sampleRequest 1 1 70⟩,
    .slotFilled ⟨4, (Ledger.sampleRequest 1 1 70).id, 0, (Ledger.sampleRequest 1 1 70).client⟩,
    .fulfilled ⟨4, (Ledger.sampleRequest 1 1 70).id⟩]
  proofs := []

def busyArchive : Archive :=
  ⟨busyRecording, ⟨⟨1000000000, 0, by decide⟩, ⟨1000000090, 0, by decide⟩, by decide⟩⟩

def oneMinute : Stride := ⟨.ofSeconds 60, by decide⟩

theorem targets_busyArchive : oneMinute.targets busyArchive.times.stop busyArchive.start
    = [⟨1000000059, 999000000, by decide⟩, ⟨1000000090, 0, by decide⟩] := by
  have hfirst : oneMinute.next busyArchive.times.stop busyArchive.start
      = ⟨1000000059, 999000000, by decide⟩ := by decide
  have hsecond : oneMinute.next busyArchive.times.stop ⟨1000000059, 999000000, by decide⟩
      = ⟨1000000090, 0, by decide⟩ := by decide
  rw [Stride.targets_of_lt _ (by decide), hfirst, Stride.targets_of_lt _ (by decide), hsecond,
    Stride.targets_of_not_lt _ (by decide)]

/-- The errors of passes, how many of them went well, and a tally of what they tell. -/
def digest (passes : List Pass) : Option UpdateError × Nat × Tally :=
  (passes.findSome? Pass.error?, (passes.filterMap Pass.outcome?).length,
    Tally.zero.addAll ((passes.filterMap Pass.outcome?).flatMap Outcome.notices))

theorem digest_busyArchive :
    digest (busyArchive.allPasses oneMinute) = (none, 2, ⟨1, 1, 0, 0, 1, 1, 0⟩) := by
  have htracker : busyArchive.tracker
      = (Tracker.start .ofCommand ⟨999999999, 999000000, by decide⟩).withAudit
          (.new Audit.defaultMaxClosed) := rfl
  rw [Archive.allPasses, targets_busyArchive, htracker]
  cbv

theorem prepareReplay_busyRecording :
    Command.prepareReplay 60 (some (String.ofList busyRecording.json.compact))
      = .ok (busyArchive, oneMinute) := by
  have hread : Recording.ofText busyRecording.json.compact = .ok busyRecording :=
    (Json.roundTrips_of_decode fun _ h => Recording.decode_json h (by decide)).reads_back
      busyRecording (by decide)
  have hload : Archive.load (some (String.ofList busyRecording.json.compact))
      = .ok busyArchive := by
    rw [Archive.load]
    simp only [String.toList_ofList, hread]
    rfl
  rw [Command.prepareReplay, hload]
  rfl

theorem failure_busyRecording :
    (Command.run (.replay "" 60) (some (String.ofList busyRecording.json.compact)) []).failure
      = none := by
  have hnone : (busyArchive.replaySteps oneMinute ⟨busyArchive.tracker, 0, #[]⟩).2 = none := by
    rw [Archive.replaySteps_tracker]
    exact congrArg Prod.fst digest_busyArchive
  rw [Command.run, prepareReplay_busyRecording]
  simp only [Archive.replay, hnone]

theorem summary_agrees_busyRecording :
    ∃ (latest : Json) (requests : List Json),
      (run (.replay "" 60) (some (String.ofList busyRecording.json.compact)) []).lines.getLast?
        = some (Json.object [
            ("updates", .number 2),
            ("latest_block", latest),
            ("changes", .object [
              ("new_requests", .number 1),
              ("fulfilled", .number 1),
              ("cancelled", .number 0),
              ("failed", .number 0),
              ("finished", .number 1),
              ("slots_filled", .number 1),
              ("slots_freed", .number 0)]),
            ("requests", .array requests)]).toPrettyText ∧
      requests.countP (Json.shows "state" "finished") = 1 := by
  obtain ⟨archive, stride, hprepare, hlast, hmatches, _⟩ := summary_agrees failure_busyRecording
  rw [prepareReplay_busyRecording] at hprepare
  cases hprepare
  have hdigest := congrArg Prod.snd digest_busyArchive
  have hupdates : ((busyArchive.allPasses oneMinute).filterMap Pass.outcome?).length = 2 :=
    congrArg Prod.fst hdigest
  have htally : (busyArchive.replaySteps oneMinute ⟨busyArchive.tracker, 0, #[]⟩).1.tracker.tally
      = ⟨1, 1, 0, 0, 1, 1, 0⟩ :=
    (busyArchive.agrees_replaySteps oneMinute).2.1.trans (congrArg Prod.snd hdigest)
  rw [hupdates, htally] at hlast
  rw [htally] at hmatches
  exact ⟨_, _, hlast, hmatches.finished.symm⟩

end Command

end StorageMarket
