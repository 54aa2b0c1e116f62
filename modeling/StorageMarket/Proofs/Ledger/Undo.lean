import StorageMarket.Proofs.Ledger.Soundness

/-!
# Undo logs and snapshots

An undo log keeps the first state of each deal that is touched, and nothing else.
That is as good as a copy of the whole ledger: rolling back gives the ledger from
before, in whatever order the entries of the log are gone through.

`Tracks` says that a log leads back: the names of the old ledger are a prefix of the
names now, the log holds the old deal of each request that was touched, and no other
request has changed. Changes keep it up. `Restoring` is what is left of it while the
entries are put back one by one.
-/

namespace StorageMarket.Ledger

/-! ## Without an undo log -/

theorem commit_of_closed {ledger : Ledger} (h : ledger.undo = none) : ledger.commit = ledger := by
  cases ledger
  cases h
  rfl

theorem note_of_closed {ledger : Ledger} (h : ledger.undo = none) (id : RequestId) :
    ledger.note id = ledger := by
  rw [note, h]

theorem commit_note (ledger : Ledger) (id : RequestId) : (ledger.note id).commit = ledger.commit := by
  rw [commit, deals_note, deadlines_note, commit]

theorem note_commit (ledger : Ledger) (id : RequestId) :
    ledger.commit.note id = (ledger.note id).commit := by
  rw [note_of_closed rfl, commit_note]

theorem revise_commit (ledger : Ledger) (id : RequestId) (rule : Deal → Option Deal) :
    ledger.commit.revise id rule = ((ledger.revise id rule).1, (ledger.revise id rule).2.commit) := by
  have hf : ledger.commit.find? id = ledger.find? id := rfl
  rw [revise, revise, hf, note_commit]
  cases ledger.find? id with
  | none => rfl
  | some deal =>
      cases hnew : rule deal with
      | none => simp only [hnew]
      | some new =>
          simp only [hnew]
          rfl

theorem finishAll_commit (ledger : Ledger) (ids : List RequestId) :
    ledger.commit.finishAll ids = ((ledger.finishAll ids).1, (ledger.finishAll ids).2.commit) := by
  induction ids generalizing ledger with
  | nil => rfl
  | cons id ids ih =>
      have hnote := note_commit ledger id
      cases hf : ledger.find? id with
      | none =>
          have hf' : ledger.commit.find? id = none := hf
          rw [finishAll_cons_of_none hf, finishAll_cons_of_none hf', hnote, ih]
      | some deal =>
          have hf' : ledger.commit.find? id = some deal := hf
          have hput : (ledger.note id).commit.put deal.finish
              = ((ledger.note id).put deal.finish).commit := rfl
          rw [finishAll_cons_of_some hf, finishAll_cons_of_some hf', hnote, hput, ih]

/-- The answer to a change, and the deals and deadlines after it, do not depend on an undo log. -/
theorem change_commit (ledger : Ledger) (change : Change) :
    ledger.commit.change change = ((ledger.change change).1, (ledger.change change).2.commit) := by
  cases change with
  | create request block time =>
      have hids : ledger.commit.ids = ledger.ids := rfl
      rw [Ledger.change, Ledger.change]
      rcases create_cases ledger request block time with ⟨hin, hc⟩ | ⟨hfresh, hc⟩
      · rcases create_cases ledger.commit request block time with ⟨_, hc'⟩ | ⟨hfresh', _⟩
        · rw [hc, hc']
        · exact absurd hin (hids ▸ hfresh')
      · rcases create_cases ledger.commit request block time with ⟨hin', _⟩ | ⟨_, hc'⟩
        · exact absurd (hids ▸ hin') hfresh
        · rw [hc, hc', note_of_closed rfl, ← commit_note ledger request.id]
          rfl
  | transition request stage =>
      simp only [Ledger.change, transition_eq_revise, revise_commit]
      rfl
  | fillSlot request slot host =>
      simp only [Ledger.change, fillSlot_eq_revise, revise_commit]
      rfl
  | freeSlot request slot =>
      simp only [Ledger.change, freeSlot_eq_revise, revise_commit]
      rfl
  | finishDue now =>
      exact congrArg (fun result => result.map Answer.finished id) (finishAll_commit
        { ledger with deadlines := (ledger.deadlines.popUntil now).2 }
        (ledger.deadlines.popUntil now).1)
  | finishBefore now =>
      exact congrArg (fun result => result.map Answer.finished id) (finishAll_commit
        { ledger with deadlines := (ledger.deadlines.popBefore now).2 }
        (ledger.deadlines.popBefore now).1)

theorem changeAll_commit (ledger : Ledger) (changes : List Change) :
    ledger.commit.changeAll changes
      = ((ledger.changeAll changes).1, (ledger.changeAll changes).2.commit) := by
  induction changes generalizing ledger with
  | nil => rfl
  | cons change changes ih =>
      simp only [changeAll]
      rw [change_commit, ih]

/-! ## Under an undo log -/

/-- An undo log leads from a ledger back to an older one. -/
structure Tracks (base ledger : Ledger) (log : UndoLog) : Prop where
  size : log.size = base.deals.length
  names : base.ids <+: ledger.ids
  keys : (log.kept.map Prod.fst).Nodup
  before : ∀ entry ∈ log.kept, entry.2 = base.find? entry.1
  untouched : ∀ x, x ∉ log.kept.map Prod.fst → ledger.find? x = base.find? x

/-- An undo log is open that leads back to an older ledger. -/
def Since (base ledger : Ledger) : Prop := ∃ log, ledger.undo = some log ∧ Tracks base ledger log

theorem since_begin (ledger : Ledger) : Since ledger.commit ledger.begin :=
  ⟨_, rfl, rfl, List.prefix_refl _, List.nodup_nil, fun _ h => absurd h List.not_mem_nil,
    fun _ _ => rfl⟩

theorem Tracks.note {base ledger : Ledger} {log : UndoLog} (h : Tracks base ledger log)
    (hopen : ledger.undo = some log) (id : RequestId) :
    ∃ log', (ledger.note id).undo = some log' ∧ id ∈ log'.kept.map Prod.fst ∧
      Tracks base (ledger.note id) log' := by
  have hfind (x : RequestId) : (ledger.note id).find? x = ledger.find? x := find?_note ..
  -- only the first note under a name is kept, later ones leave the log as it is
  by_cases hin : id ∈ log.kept.map Prod.fst
  · have hany : (log.kept.any fun entry => entry.1 = id) = true := by
      simpa [List.mem_map] using hin
    have hnote : ledger.note id = ledger := by
      simp only [Ledger.note, hopen, hany, if_true]
    rw [hnote]
    exact ⟨log, hopen, hin, h⟩
  · have hany : ¬ (log.kept.any fun entry => entry.1 = id) = true := by
      simpa [List.mem_map] using hin
    refine ⟨{ log with kept := (id, ledger.find? id) :: log.kept }, ?_, ?_, ?_⟩
    · simp only [Ledger.note, hopen, hany]
      rfl
    · exact List.mem_cons_self
    · refine ⟨h.size, (ids_note ledger id).symm ▸ h.names, List.nodup_cons.2 ⟨hin, h.keys⟩, ?_, ?_⟩
      · intro entry hm
        rcases List.mem_cons.1 hm with rfl | hm
        · exact h.untouched id hin
        · exact h.before entry hm
      · intro x hx
        rw [hfind]
        exact h.untouched x fun hx' => hx (List.mem_cons_of_mem _ hx')

theorem Tracks.put {base ledger : Ledger} {log : UndoLog} (h : Tracks base ledger log)
    {deal : Deal} (hin : deal.id ∈ log.kept.map Prod.fst) : Tracks base (ledger.put deal) log where
  size := h.size
  names := (ids_put ledger deal).symm ▸ h.names
  keys := h.keys
  before := h.before
  untouched := by
    intro x hx
    have hne : x ≠ deal.id := fun he => hx (he ▸ hin)
    rw [find?_put, if_neg hne]
    exact h.untouched x hx

theorem Tracks.append {base ledger : Ledger} {log : UndoLog} (h : Tracks base ledger log)
    {deal : Deal} (hin : deal.id ∈ log.kept.map Prod.fst) :
    Tracks base (ledger.append deal) log where
  size := h.size
  names := by
    rw [ids_append]
    exact h.names.trans (List.prefix_append ..)
  keys := h.keys
  before := h.before
  untouched := by
    intro x hx
    have hne : ¬ deal.id = x := fun he => hx (he ▸ hin)
    rw [find?_append, if_neg hne, Option.or_none]
    exact h.untouched x hx

theorem Tracks.withDeadlines {base ledger : Ledger} {log : UndoLog} (h : Tracks base ledger log)
    (deadlines : Deadlines) : Tracks base { ledger with deadlines } log :=
  ⟨h.size, h.names, h.keys, h.before, h.untouched⟩

theorem Since.revise {base ledger : Ledger} (h : Since base ledger) (id : RequestId)
    {rule : Deal → Option Deal} (hrule : KeepsOrigin rule) :
    Since base (ledger.revise id rule).2 := by
  obtain ⟨log, hopen, htracks⟩ := h
  obtain ⟨log', hopen', hin, htracks'⟩ := htracks.note hopen id
  rcases revise_cases ledger id rule with heq | ⟨deal, new, hf, hnew, heq⟩ <;> rw [heq]
  · exact ⟨log', hopen', htracks'⟩
  · have hid : new.id = id := (hrule deal new hnew).id.trans (id_of_find? hf)
    exact ⟨log', hopen', (htracks'.put (hid ▸ hin)).withDeadlines _⟩

theorem Since.finishAll {base ledger : Ledger} (h : Since base ledger) (ids : List RequestId) :
    Since base (ledger.finishAll ids).2 := by
  induction ids generalizing ledger with
  | nil => exact h
  | cons id ids ih =>
      obtain ⟨log, hopen, htracks⟩ := h
      obtain ⟨log', hopen', hin, htracks'⟩ := htracks.note hopen id
      cases hf : ledger.find? id with
      | none =>
          rw [finishAll_cons_of_none hf]
          exact ih ⟨log', hopen', htracks'⟩
      | some deal =>
          have hid : deal.finish.id = id := (id_of_find? hf : deal.id = id)
          rw [finishAll_cons_of_some hf]
          exact ih ⟨log', hopen', htracks'.put (hid ▸ hin)⟩

theorem closed_since (base : Ledger) : Closed (Since base) where
  publish request _ _ h _ := by
    obtain ⟨log, hopen, htracks⟩ := h
    obtain ⟨log', hopen', hin, htracks'⟩ := htracks.note hopen request.id
    exact ⟨log', hopen', htracks'.append hin⟩
  revise id _ h hrule := h.revise id hrule.keepsOrigin
  finishWhile {ledger} due h := by
    obtain ⟨log, hopen, htracks⟩ := h
    have hpopped : Since base { ledger with deadlines := (ledger.deadlines.popWhile due).2 } :=
      ⟨log, hopen, htracks.withDeadlines _⟩
    exact hpopped.finishAll _

/-! ## Putting the entries back -/

/-- The entries of an undo log that are still to be put back lead to an older ledger. Deals that
are to be dropped, and whose entry has been gone through, have no deadline any more. -/
structure Restoring (base ledger : Ledger) (kept : List (RequestId × Option Deal)) : Prop where
  names : base.ids <+: ledger.ids
  nodup : ledger.ids.Nodup
  keys : (kept.map Prod.fst).Nodup
  before : ∀ entry ∈ kept, entry.2 = base.find? entry.1
  untouched : ∀ x ∈ base.ids, x ∉ kept.map Prod.fst → ledger.find? x = base.find? x
  tidy : ledger.deadlines.Tidy
  timed : ledger.TimedBut fun x => x ∉ base.ids ∧ x ∉ kept.map Prod.fst

theorem mem_withdrawn {deadlines : Deadlines} {deal : Deal}
    (hin : deal.deadline ∈ deadlines ↔ deal.isRunning = true) {d : Deadline} :
    d ∈ (if deal.stage = .started then deadlines.cancel deal.finishTime deal.id else deadlines)
      ↔ d ∈ deadlines ∧ d ≠ deal.deadline := by
  rw [Deal.isRunning_iff] at hin
  by_cases hstage : deal.stage = .started
  · rw [if_pos hstage]
    exact Deadlines.mem_cancel
  · rw [if_neg hstage]
    constructor
    · intro hd
      refine ⟨hd, ?_⟩
      rintro rfl
      exact hstage (hin.1 hd)
    · exact And.left

theorem restore_none_of_none {ledger : Ledger} {id : RequestId} (h : ledger.find? id = none) :
    ledger.restore (id, none) = ledger := by
  simp only [restore, h]

theorem restore_none_of_some {ledger : Ledger} {id : RequestId} {current : Deal}
    (h : ledger.find? id = some current) :
    ledger.restore (id, none)
      = { ledger with
          deadlines :=
            if current.stage = .started then
              ledger.deadlines.cancel current.finishTime current.id
            else ledger.deadlines } := by
  simp only [restore, h, id_of_find? h]

theorem restore_some_of_some {ledger : Ledger} {id : RequestId} {current deal : Deal}
    (h : ledger.find? id = some current) :
    ledger.restore (id, some deal)
      = { ledger.put deal with
          deadlines :=
            let left :=
              if current.stage = .started then
                ledger.deadlines.cancel current.finishTime current.id
              else ledger.deadlines
            if deal.stage = .started then left.schedule deal.finishTime id else left } := by
  simp only [restore, h, id_of_find? h, Option.isSome_some, if_true]

theorem tidy_withdrawn {deadlines : Deadlines} (h : deadlines.Tidy) (deal : Deal) :
    Deadlines.Tidy
      (if deal.stage = .started then deadlines.cancel deal.finishTime deal.id else deadlines) := by
  split
  · exact h.cancel _ _
  · exact h

/-- The entry of a request that was created since: its deal, which is to be dropped, loses its
deadline. -/
theorem Restoring.restore_none {base ledger : Ledger} {id : RequestId}
    {rest : List (RequestId × Option Deal)} (h : Restoring base ledger ((id, none) :: rest)) :
    Restoring base (ledger.restore (id, none)) rest := by
  have hkeys := List.nodup_cons.1 h.keys
  have hnew : id ∉ base.ids := find?_eq_none.1 (h.before (id, none) List.mem_cons_self).symm
  have huntouched : ∀ x ∈ base.ids, x ∉ rest.map Prod.fst → ledger.find? x = base.find? x := by
    intro x hx hout
    refine h.untouched x hx fun hin => ?_
    rcases List.mem_cons.1 hin with rfl | hin
    · exact hnew hx
    · exact hout hin
  have hbefore := fun entry hm => h.before entry (List.mem_cons_of_mem _ hm)
  cases hf : ledger.find? id with
  -- an unknown name was asked for, and no deal has come of it
  | none =>
      rw [restore_none_of_none hf]
      refine ⟨h.names, h.nodup, hkeys.2, hbefore, huntouched, h.tidy,
        h.timed.imp fun deal hm => ?_⟩
      have hne : deal.id ≠ id := fun he =>
        find?_eq_none.1 hf (he ▸ List.mem_map_of_mem hm)
      simp [hne]
  | some current =>
      have hid : current.id = id := id_of_find? hf
      have hin := h.timed.mem_deadline h.nodup (mem_of_find? hf) (by simp [hid])
      rw [restore_none_of_some hf]
      refine ⟨h.names, h.nodup, hkeys.2, hbefore, huntouched, tidy_withdrawn h.tidy current,
        fun d => ?_⟩
      show d ∈ (if _ then _ else _) ↔ _
      rw [mem_withdrawn hin, h.timed]
      constructor
      · rintro ⟨⟨deal, hm, hr, ho, rfl⟩, hne⟩
        refine ⟨deal, hm, hr, fun ho' => ho ⟨ho'.1, ?_⟩, rfl⟩
        intro hin'
        rcases List.mem_cons.1 hin' with he | hin'
        -- the deal that is to be dropped: its deadline is the one withdrawn
        · rw [eq_of_id_eq h.nodup hm (mem_of_find? hf) (he.trans hid.symm)] at hne
          exact hne rfl
        · exact ho'.2 hin'
      · rintro ⟨deal, hm, hr, ho, rfl⟩
        refine ⟨⟨deal, hm, hr, fun ho' => ho ⟨ho'.1, fun hin' => ?_⟩, rfl⟩, ?_⟩
        · exact ho'.2 (List.mem_cons_of_mem _ hin')
        · intro he
          have he : deal.id = id := (congrArg Deadline.request he).trans hid
          exact ho ⟨he ▸ hnew, he ▸ hkeys.1⟩

/-- The entry of a request that was there: its old deal takes the place of the current one. -/
theorem Restoring.restore_some {base ledger : Ledger} {id : RequestId} {deal : Deal}
    {rest : List (RequestId × Option Deal)} (h : Restoring base ledger ((id, some deal) :: rest)) :
    Restoring base (ledger.restore (id, some deal)) rest := by
  have hkeys := List.nodup_cons.1 h.keys
  have hbase : base.find? id = some deal := (h.before (id, some deal) List.mem_cons_self).symm
  have hold : id ∈ base.ids := mem_ids_of_find? hbase
  have hdeal : deal.id = id := id_of_find? hbase
  -- no change takes a deal off the ledger, so there still is one under this name
  obtain ⟨current, hf⟩ := Option.isSome_iff_exists.1 (isSome_find?.2 (h.names.subset hold))
  have hin := h.timed.mem_deadline h.nodup (mem_of_find? hf) fun ho =>
    ho.2 (by simp [id_of_find? hf])
  rw [restore_some_of_some hf]
  refine ⟨?_, ?_, hkeys.2, fun entry hm => h.before entry (List.mem_cons_of_mem _ hm), ?_, ?_, ?_⟩
  · show base.ids <+: (ledger.put deal).ids
    rw [ids_put]
    exact h.names
  · show (ledger.put deal).ids.Nodup
    rw [ids_put]
    exact h.nodup
  · intro x hx hout
    show (ledger.put deal).find? x = _
    rw [find?_put, hdeal]
    by_cases hxid : x = id
    · rw [if_pos hxid, hxid, hf, hbase]
      rfl
    · rw [if_neg hxid]
      refine h.untouched x hx fun hin' => ?_
      rcases List.mem_cons.1 hin' with he | hin'
      · exact hxid he
      · exact hout hin'
  · show Deadlines.Tidy (if _ then _ else _)
    split
    · exact (tidy_withdrawn h.tidy current).schedule _ _
    · exact tidy_withdrawn h.tidy current
  -- the current deal gives up its deadline before the old one gets its own back
  · have hf' : ledger.find? deal.id = some current := by rw [hdeal, hf]
    refine TimedBut.imp (h.timed.put h.nodup hf' fun d => ?_) fun d _ => ?_
    · by_cases hstage : deal.stage = .started
      · rw [if_pos hstage, Deadlines.mem_schedule, mem_withdrawn hin, Deal.isRunning_iff, ← hdeal]
        show d = deal.deadline ∨ _ ↔ _
        simp only [hstage, true_and]
        exact or_comm
      · rw [if_neg hstage, mem_withdrawn hin, Deal.isRunning_iff]
        simp [hstage]
    · constructor
      · rintro ⟨⟨ho, hout⟩, _⟩
        exact ⟨ho, fun hin' => hout (List.mem_cons_of_mem _ hin')⟩
      · rintro ⟨ho, hout⟩
        have hne : d.id ≠ id := fun he => ho (he ▸ hold)
        refine ⟨⟨ho, fun hin' => ?_⟩, hdeal ▸ hne⟩
        rcases List.mem_cons.1 hin' with he | hin'
        · exact hne he
        · exact hout hin'

theorem Restoring.foldl {base ledger : Ledger} {kept : List (RequestId × Option Deal)}
    (h : Restoring base ledger kept) : Restoring base (kept.foldl restore ledger) [] := by
  induction kept generalizing ledger with
  | nil => exact h
  | cons entry rest ih =>
      obtain ⟨id, before⟩ := entry
      cases before with
      | none => exact ih h.restore_none
      | some deal => exact ih h.restore_some

/-- With all entries put back, the deals in front are those of the older ledger. -/
theorem Restoring.take {base ledger : Ledger} (h : Restoring base ledger []) :
    ledger.deals.take base.deals.length = base.deals := by
  have hlen : base.ids.length = base.deals.length := List.length_map _
  have hids : (ledger.deals.take base.deals.length).map Deal.id = base.ids := by
    rw [List.map_take, ← hlen]
    exact (List.prefix_iff_eq_take.1 h.names).symm
  have hn : base.ids.Nodup := h.nodup.sublist h.names.sublist
  refine deals_ext (hids ▸ hn) hids fun x hx => ?_
  have hx : x ∈ base.ids := hids ▸ hx
  have hfront : ∃ deal, (ledger.deals.take base.deals.length).find? (fun d => d.id = x)
      = some deal := by
    rw [← hids] at hx
    obtain ⟨deal, hm, hid⟩ := List.mem_map.1 hx
    exact Option.isSome_iff_exists.1 (List.find?_isSome.2 ⟨deal, hm, by simp [hid]⟩)
  obtain ⟨deal, hdeal⟩ := hfront
  have hfind : ledger.find? x = some deal := by
    rw [find?, ← List.take_append_drop base.deals.length ledger.deals, List.find?_append, hdeal]
    rfl
  rw [hdeal, ← hfind]
  exact h.untouched x hx List.not_mem_nil

theorem Restoring.deadlines_eq {base ledger : Ledger} (hbase : base.Sound)
    (h : Restoring base ledger []) : ledger.deadlines = base.deadlines := by
  refine h.tidy.ext hbase.tidy fun d => ?_
  rw [h.timed d, hbase.timed d]
  constructor
  · rintro ⟨deal, hm, hr, ho, hd⟩
    have hin : deal.id ∈ base.ids := by
      by_cases hin : deal.id ∈ base.ids
      · exact hin
      · exact absurd ⟨hin, List.not_mem_nil⟩ ho
    have hf := h.untouched deal.id hin List.not_mem_nil
    rw [find?_of_mem h.nodup hm] at hf
    exact ⟨deal, mem_of_find? hf.symm, hr, hd⟩
  · rintro ⟨deal, hm, hr, hd⟩
    have hin : deal.id ∈ base.ids := List.mem_map_of_mem hm
    have hf := h.untouched deal.id hin List.not_mem_nil
    rw [find?_of_mem hbase.nodup hm] at hf
    exact ⟨deal, mem_of_find? hf, hr, fun ho => ho.1 hin, hd⟩

/-- Rolling back gives the ledger that the log leads back to, in whatever order the entries of
the log are gone through. -/
theorem rollback_of_tracks {base ledger : Ledger} {log : UndoLog} (hbase : base.Sound)
    (hclosed : base.undo = none) (hsound : ledger.Sound) (htracks : Tracks base ledger log)
    {kept : List (RequestId × Option Deal)} (hperm : kept.Perm log.kept) :
    { ledger with undo := some { log with kept } }.rollback = base := by
  have hkeys : (kept.map Prod.fst).Perm (log.kept.map Prod.fst) := hperm.map _
  have hstart : Restoring base { ledger with undo := some { log with kept } } kept := by
    refine ⟨htracks.names, hsound.nodup, hkeys.nodup_iff.2 htracks.keys, ?_, ?_, hsound.tidy, ?_⟩
    · intro entry hm
      exact htracks.before entry (hperm.mem_iff.1 hm)
    · intro x _ hout
      exact htracks.untouched x fun hin => hout (hkeys.mem_iff.2 hin)
    · refine TimedBut.imp (timedBut_none.2 hsound.timed) fun deal hm => ?_
      refine ⟨False.elim, fun ⟨ho, hout⟩ => ho ?_⟩
      have hf := htracks.untouched deal.id fun hin => hout (hkeys.mem_iff.2 hin)
      rw [find?_of_mem hsound.nodup hm] at hf
      exact mem_ids_of_find? hf.symm
  -- from here on the order of the entries does not matter any more
  have hend := hstart.foldl
  have htake := hend.take
  rw [← htracks.size] at htake
  have hdeadlines := hend.deadlines_eq hbase
  calc _ = Ledger.mk base.deals base.deadlines none := by simp only [rollback, htake, hdeadlines]
    _ = base := by rw [← hclosed]

end StorageMarket.Ledger
