import StorageMarket.Proofs.Ledger.Housing

/-!
# Finishing what is due

On a sound ledger, finishing takes just the running deals whose time has come: they are
told in the order in which they are due, and no other deal changes. While it goes from
one request to the next, it finds a running deal under each (`MeetsRunning`).
-/

namespace StorageMarket.Ledger

/-- What finishing does: which deals are told and in what order, and what becomes of all deals. -/
structure Finishes (ledger : Ledger) (due : Instant → Bool) (result : List Deal × Ledger) :
    Prop where
  told : ∀ deal, deal ∈ result.1 ↔
    ∃ before ∈ ledger.deals, before.stage = .started ∧ due before.finishTime = true ∧
      before.finish = deal
  inOrder : result.1.Pairwise fun a b =>
    a.finishTime < b.finishTime ∨ a.finishTime = b.finishTime ∧ compare a.id b.id = .lt
  deals : result.2.deals = ledger.deals.map fun deal =>
    if deal.stage = .started ∧ due deal.finishTime = true then deal.finish else deal

namespace Finishes

variable {ledger : Ledger} {due : Instant → Bool} {result : List Deal × Ledger}
  (h : ledger.Finishes due result) {deal : Deal}
include h

theorem not_due (hm : deal ∈ result.2.deals) (hr : deal.stage = .started) :
    ¬ due deal.finishTime = true := by
  rw [h.deals, List.mem_map] at hm
  obtain ⟨before, _, heq⟩ := hm
  split at heq
  · subst heq
    exact Stage.noConfusion hr
  · next hnot =>
      subst heq
      exact fun hd => hnot ⟨hr, hd⟩

theorem mem_of_not_due (hm : deal ∈ ledger.deals) (hd : ¬ due deal.finishTime = true) :
    deal ∈ result.2.deals := by
  rw [h.deals, List.mem_map]
  exact ⟨deal, hm, if_neg fun hdue => hd hdue.2⟩

theorem finish_mem (hm : deal ∈ ledger.deals) (hr : deal.stage = .started)
    (hd : due deal.finishTime = true) : deal.finish ∈ result.2.deals := by
  rw [h.deals, List.mem_map]
  exact ⟨deal, hm, if_pos ⟨hr, hd⟩⟩

end Finishes

/-- Finishing one request after the other, a running deal is found under each of them. -/
inductive MeetsRunning : Ledger → List RequestId → Prop where
  | nil (ledger : Ledger) : MeetsRunning ledger []
  | cons {ledger : Ledger} {id : RequestId} {ids : List RequestId} {deal : Deal}
      (found : ledger.find? id = some deal) (running : deal.stage = .started)
      (rest : MeetsRunning ((ledger.note id).put deal.finish) ids) :
      MeetsRunning ledger (id :: ids)

/-! ## Who is due -/

section

variable {ledger : Ledger} (h : ledger.Sound) {due : Instant → Bool}
include h

theorem Sound.mem_iff_find? {x : RequestId} {deal : Deal} :
    ledger.find? x = some deal ↔ deal ∈ ledger.deals ∧ deal.id = x := by
  constructor
  · intro hf
    exact ⟨mem_of_find? hf, id_of_find? hf⟩
  · rintro ⟨hm, rfl⟩
    exact find?_of_mem h.nodup hm

/-- Whatever deadline is taken off, it is that of a running deal. -/
theorem Sound.running_of_taken {d : Deadline} (hd : d ∈ ledger.deadlines.taken due) :
    ∃ deal, ledger.find? d.request = some deal ∧ deal.stage = .started ∧ deal.deadline = d := by
  obtain ⟨deal, hm, hr, rfl⟩ := (h.timed d).1 (Deadlines.mem_of_mem_taken hd)
  exact ⟨deal, find?_of_mem h.nodup hm, Deal.isRunning_iff.1 hr, rfl⟩

theorem Sound.mem_taken (hdue : ∀ t u, t < u → due u = true → due t = true) {d : Deadline} :
    d ∈ ledger.deadlines.taken due ↔
      ∃ deal ∈ ledger.deals, deal.stage = .started ∧ due deal.finishTime = true ∧
        deal.deadline = d := by
  rw [Deadlines.mem_taken hdue, h.timed]
  constructor
  · rintro ⟨⟨deal, hm, hr, rfl⟩, hd⟩
    exact ⟨deal, hm, Deal.isRunning_iff.1 hr, hd, rfl⟩
  · rintro ⟨deal, hm, hr, hd, rfl⟩
    exact ⟨⟨deal, hm, Deal.isRunning_iff.2 hr, rfl⟩, hd⟩

theorem Sound.mem_due (hdue : ∀ t u, t < u → due u = true → due t = true) {deal : Deal}
    (hm : deal ∈ ledger.deals) :
    deal.id ∈ (ledger.deadlines.popWhile due).1 ↔
      deal.stage = .started ∧ due deal.finishTime = true := by
  rw [Deadlines.mem_popWhile_fst]
  constructor
  · rintro ⟨d, hd, hid⟩
    obtain ⟨other, hother, hr, hdue, rfl⟩ := (h.mem_taken hdue).1 hd
    rw [eq_of_id_eq h.nodup hm hother hid.symm]
    exact ⟨hr, hdue⟩
  · rintro ⟨hr, hd⟩
    exact ⟨deal.deadline, (h.mem_taken hdue).2 ⟨deal, hm, hr, hd, rfl⟩, rfl⟩

theorem Sound.nodup_due : (ledger.deadlines.popWhile due).1.Nodup := by
  rw [Deadlines.popWhile_fst]
  refine List.pairwise_map.2 ((ledger.deadlines.nodup_taken due).imp_of_mem fun {d e} hd he hne hid => hne ?_)
  obtain ⟨deal, hf, _, rfl⟩ := h.running_of_taken hd
  obtain ⟨other, hf', _, rfl⟩ := h.running_of_taken he
  rw [hid, hf'] at hf
  cases hf
  rfl

/-! ## What is told and what changes -/

omit h in
theorem fst_finishWhile (ledger : Ledger) (due : Instant → Bool) :
    (ledger.finishWhile due).1
      = (ledger.deadlines.taken due).filterMap fun d =>
          (ledger.find? d.request).map Deal.finish := by
  rw [finishWhile, fst_finishAll, Deadlines.popWhile_fst, List.filterMap_map]
  rfl

/-- The deals that are told come in the order of the deadlines that are taken off. -/
theorem Sound.map_deadline_finishWhile :
    (ledger.finishWhile due).1.map Deal.deadline = ledger.deadlines.taken due := by
  rw [fst_finishWhile]
  have hall : ∀ d ∈ ledger.deadlines.taken due, ∃ deal, ledger.find? d.request = some deal ∧
      deal.deadline = d := by
    intro d hd
    obtain ⟨deal, hf, _, hdeadline⟩ := h.running_of_taken hd
    exact ⟨deal, hf, hdeadline⟩
  generalize ledger.deadlines.taken due = taken at hall
  induction taken with
  | nil => rfl
  | cons d rest ih =>
      obtain ⟨deal, hf, hdeadline⟩ := hall d List.mem_cons_self
      rw [List.filterMap_cons_some (b := deal.finish) (by rw [hf]; rfl), List.map_cons,
        ih fun e he => hall e (List.mem_cons_of_mem _ he)]
      exact congrArg (· :: rest) hdeadline

theorem Sound.finishes (hdue : ∀ t u, t < u → due u = true → due t = true) :
    ledger.Finishes due (ledger.finishWhile due) where
  told deal := by
    rw [fst_finishWhile, List.mem_filterMap]
    constructor
    · rintro ⟨d, hd, hf⟩
      obtain ⟨before, hm, hr, hdue, rfl⟩ := (h.mem_taken hdue).1 hd
      have hfound : ledger.find? before.deadline.request = some before :=
        find?_of_mem h.nodup hm
      rw [hfound] at hf
      exact ⟨before, hm, hr, hdue, Option.some.inj hf⟩
    · rintro ⟨before, hm, hr, hd, rfl⟩
      have hfound : ledger.find? before.deadline.request = some before :=
        find?_of_mem h.nodup hm
      exact ⟨before.deadline, (h.mem_taken hdue).2 ⟨before, hm, hr, hd, rfl⟩, by rw [hfound]; rfl⟩
  inOrder := by
    have hascending := ledger.deadlines.ascending_taken due
    rw [← h.map_deadline_finishWhile] at hascending
    exact (List.pairwise_map.1 hascending).imp fun hlt => Deadlines.compare_eq_lt.1 hlt
  deals := by
    rw [deals_finishWhile h.nodup]
    refine List.map_congr_left fun deal hm => ?_
    simp only [h.mem_due hdue hm]

theorem Sound.pendingFinishes_eq :
    ledger.pendingFinishes = (ledger.inStage .started).length := by
  have hnodup : ((ledger.inStage .started).map Deal.deadline).Nodup := by
    have hids : ((ledger.inStage .started).map Deal.id).Nodup :=
      h.nodup.sublist (List.filter_sublist.map _)
    refine List.pairwise_map.2 ((List.pairwise_map.1 hids).imp fun hne hd => hne ?_)
    exact congrArg Deadline.request hd
  have hperm : ledger.deadlines.toList.Perm ((ledger.inStage .started).map Deal.deadline) := by
    refine (List.perm_ext_iff_of_nodup ledger.deadlines.nodup_toList hnodup).2 fun d => ?_
    rw [Deadlines.mem_toList, h.timed, List.mem_map]
    constructor
    · rintro ⟨deal, hm, hr, rfl⟩
      exact ⟨deal, List.mem_filter.2 ⟨hm, hr⟩, rfl⟩
    · rintro ⟨deal, hm, rfl⟩
      obtain ⟨hm, hr⟩ := List.mem_filter.1 hm
      exact ⟨deal, hm, hr, rfl⟩
  rw [pendingFinishes, ← Deadlines.length_toList, hperm.length_eq, List.length_map]

end

/-! ## Going from request to request -/

theorem meetsRunning_of_nodup {ledger : Ledger} {ids : List RequestId} (hn : ids.Nodup)
    (hrunning : ∀ x ∈ ids, ∃ deal, ledger.find? x = some deal ∧ deal.stage = .started) :
    MeetsRunning ledger ids := by
  induction ids generalizing ledger with
  | nil => exact .nil ledger
  | cons id ids ih =>
      obtain ⟨deal, hf, hr⟩ := hrunning id List.mem_cons_self
      rw [List.nodup_cons] at hn
      refine .cons hf hr (ih hn.2 fun x hx => ?_)
      -- a request that is still to come is another one, so its deal has not been touched
      have hne : x ≠ id := fun he => hn.1 (he ▸ hx)
      rw [find?_put_finish hf, if_neg hne]
      exact hrunning x (List.mem_cons_of_mem _ hx)

theorem Sound.meetsRunning {ledger : Ledger} (h : ledger.Sound) (due : Instant → Bool) :
    MeetsRunning { ledger with deadlines := (ledger.deadlines.popWhile due).2 }
      (ledger.deadlines.popWhile due).1 := by
  refine meetsRunning_of_nodup h.nodup_due fun x hx => ?_
  obtain ⟨d, hd, rfl⟩ := Deadlines.mem_popWhile_fst.1 hx
  obtain ⟨deal, hf, hr, _⟩ := h.running_of_taken hd
  exact ⟨deal, hf, hr⟩

theorem Sound.finishes_finishDue {ledger : Ledger} (h : ledger.Sound) (now : Instant) :
    ledger.Finishes (fun t => t ≤ now) (ledger.finishDue now) :=
  h.finishes (Deadlines.le_closed now)

theorem Sound.finishes_finishBefore {ledger : Ledger} (h : ledger.Sound) (now : Instant) :
    ledger.Finishes (fun t => t < now) (ledger.finishBefore now) :=
  h.finishes (Deadlines.lt_closed now)

/-- However a ledger has come about, its deadlines are those of its running deals, no moment is
kept without one, a deal is found under its own name and under no other, and its slots with hosts
are remembered and among those of its request. So finishing takes the running deals whose time has
come, the earliest first, and changes no other deal; on the way it meets no request without a
deal and no deal that is not running; and as many deadlines are pending as deals are running. -/
theorem deadlines_are_of_running_deals {ledger : Ledger} (h : ledger.Reachable) :
    ((∀ d : Deadline, d ∈ ledger.deadlines ↔
        ∃ deal ∈ ledger.deals, deal.stage = .started ∧ d = ⟨deal.finishTime, deal.id⟩) ∧
      (∀ moment ∈ ledger.deadlines.moments.entries, moment.2 ≠ .empty) ∧
      (∀ id deal, ledger.find? id = some deal ↔ deal ∈ ledger.deals ∧ deal.id = id) ∧
      (∀ deal ∈ ledger.deals, deal.Housed)) ∧
    (∀ now,
      ledger.Finishes (fun t => t ≤ now) (ledger.finishDue now) ∧
      ledger.Finishes (fun t => t < now) (ledger.finishBefore now) ∧
      MeetsRunning { ledger with deadlines := (ledger.deadlines.popUntil now).2 }
        (ledger.deadlines.popUntil now).1 ∧
      MeetsRunning { ledger with deadlines := (ledger.deadlines.popBefore now).2 }
        (ledger.deadlines.popBefore now).1) ∧
    ledger.pendingFinishes = (ledger.inStage .started).length := by
  have hsound := h.intact.sound
  refine ⟨⟨fun d => ?_, hsound.tidy, fun id deal => hsound.mem_iff_find?, h.housed⟩, fun now => ?_,
    hsound.pendingFinishes_eq⟩
  · rw [hsound.timed]
    simp only [Deal.isRunning_iff, eq_comm (a := d)]
    rfl
  · exact ⟨hsound.finishes_finishDue now, hsound.finishes_finishBefore now, hsound.meetsRunning _,
      hsound.meetsRunning _⟩

/-- The small market in the middle of its traffic, which is not committed yet. -/
def sampleBustle : Ledger := (sampleMarket.begin.changeAll sampleTraffic).2

theorem deadlines_are_of_running_deals_sampleBustle :
    sampleBustle.Reachable ∧ sampleBustle.pendingFinishes = 1 ∧
      sampleBustle.Finishes (fun t => t ≤ .latest) (sampleBustle.finishDue .latest) ∧
      MeetsRunning { sampleBustle with deadlines := (sampleBustle.deadlines.popUntil .latest).2 }
        [(sampleRequest 2 2 3600).id] := by
  have hmarket : sampleMarket.Reachable := Reachable.empty.changeAll _
  have hreachable : sampleBustle.Reachable := hmarket.begin.changeAll sampleTraffic
  obtain ⟨_, hfinishing, hpending⟩ := deadlines_are_of_running_deals hreachable
  have hone : (sampleBustle.inStage .started).length = 1 := by decide +kernel
  have hdue : (sampleBustle.deadlines.popUntil .latest).1 = [(sampleRequest 2 2 3600).id] := by
    decide +kernel
  exact ⟨hreachable, hpending.trans hone, (hfinishing .latest).1, hdue ▸ (hfinishing .latest).2.2.1⟩

end StorageMarket.Ledger
