import StorageMarket.Proofs.Archive.Order
import StorageMarket.Proofs.Instant.Line

/-!
# Just before the first block

An archive starts a millisecond before its first block, so that the window that is open
at its start has this block in it. In the first millisecond of the calendar there is no
such moment. A recording that starts there starts with its first block.
-/

namespace StorageMarket

namespace Instant

/-- In the first millisecond of the calendar, before which there is no other one. -/
def Primal (t : Instant) : Prop := t.seconds = earliest.seconds ∧ t.nanos < 1000000

instance (t : Instant) : Decidable t.Primal := inferInstanceAs (Decidable (_ ∧ _))

variable {t : Instant}

theorem Primal.regular (h : t.Primal) : t.Regular := Nat.lt_trans h.2 (by decide)

theorem Primal.sub?_milli (h : t.Primal) : t.sub? (.ofMillis 1) = none := by
  have hoff : ¬ (-8334601228800 ≤ (t.line + -1000000) / 1000000000 ∧
      (t.line + -1000000) / 1000000000 ≤ 8210266876799 ∧
      ((t.line + -1000000) % 1000000000).toNat < 2000000000) := by
    have hseconds : t.seconds = -8334601228800 := h.1
    have hnanos := h.2
    rw [line]
    omega
  show t.add? ⟨-1000000⟩ = none
  rw [add?_eq_ofNanos? h.regular, ofNanos?, of?, dif_neg hoff]

theorem exists_sub?_milli (h : ¬ t.Primal) : ∃ u, t.sub? (.ofMillis 1) = some u ∧ u < t := by
  have hcalendar := t.onCalendar
  have hprimal : ¬ (t.seconds = -8334601228800 ∧ t.nanos < 1000000) := h
  show ∃ u, t.add? ⟨-1000000⟩ = some u ∧ u < t
  by_cases hregular : t.nanos < 1000000000
  · rw [add?_eq_ofNanos? hregular, ofNanos?, line]
    dsimp only
    have hon : -8334601228800 ≤ (t.seconds * 1000000000 + t.nanos + -1000000) / 1000000000 ∧
        (t.seconds * 1000000000 + t.nanos + -1000000) / 1000000000 ≤ 8210266876799 ∧
        ((t.seconds * 1000000000 + t.nanos + -1000000) % 1000000000).toNat < 2000000000 := by
      omega
    obtain ⟨u, hu⟩ := exists_of? hon
    obtain ⟨hseconds, hnanos⟩ := of?_eq_some hu
    refine ⟨u, hu, ?_⟩
    rw [lt_def, rank, rank, hseconds, hnanos]
    omega
  · -- inside a leap second, and a millisecond earlier still inside its second
    rw [add?, if_neg hregular]
    dsimp only
    rw [if_neg (by omega), if_neg (by decide)]
    have hon : -8334601228800 ≤ t.seconds ∧ t.seconds ≤ 8210266876799 ∧
        ((t.nanos : Int) + -1000000).toNat < 2000000000 := by
      omega
    obtain ⟨u, hu⟩ := exists_of? hon
    obtain ⟨hseconds, hnanos⟩ := of?_eq_some hu
    refine ⟨u, hu, ?_⟩
    rw [lt_def, rank, rank, hseconds, hnanos]
    omega

end Instant

namespace Archive

variable (archive : Archive)

theorem start_of_primal (h : archive.times.start.Primal) : archive.start = archive.times.start := by
  rw [start, h.sub?_milli, Option.getD_none]

theorem start_lt_of_not_primal (h : ¬ archive.times.start.Primal) :
    archive.start < archive.times.start := by
  obtain ⟨u, hu, hlt⟩ := Instant.exists_sub?_milli h
  rwa [start, hu, Option.getD_some]

theorem start_le : archive.start ≤ archive.times.start := by
  by_cases h : archive.times.start.Primal
  · rw [archive.start_of_primal h]
    exact Instant.le_refl _
  · exact Int.le_of_lt (archive.start_lt_of_not_primal h)

theorem start_le_stop : archive.start ≤ archive.times.stop :=
  Instant.le_trans archive.start_le archive.times.ordered

theorem time_bounds {recording : Recording} {archive : Archive}
    (h : ofRecording recording = .ok archive) {block : BlockStamp}
    (hm : block ∈ recording.blocks) :
    archive.times.start ≤ block.time ∧ block.time ≤ archive.times.stop := by
  have hinOrder := (ofRecording_ok h).2
  obtain ⟨_, harchive⟩ := ofRecording_eq hinOrder
  rw [h] at harchive
  cases harchive
  have hnumbers := Recording.number_bounds hinOrder.ordered
    (List.head?_eq_some_head hinOrder.nonempty) (List.getLast?_eq_some_getLast hinOrder.nonempty) hm
  exact ⟨hinOrder.time_le_of_number_le (List.head_mem _) hm hnumbers.1,
    hinOrder.time_le_of_number_le hm (List.getLast_mem _) hnumbers.2⟩

theorem eventsBetween_eq_events {recording : Recording} {archive : Archive}
    (h : ofRecording recording = .ok archive) {start : Instant}
    (hstart : start < archive.times.start) :
    recording.eventsBetween start archive.times.stop = recording.events := by
  have hinOrder := (ofRecording_ok h).2
  refine List.filter_eq_self.2 fun e he => ?_
  obtain ⟨block, hm, hblock⟩ := hinOrder.known e he
  obtain ⟨hfirst, hlast⟩ := time_bounds h hm
  rw [← hblock, hinOrder.timeOf?_of_mem hm, Option.any_some, decide_eq_true_iff]
  exact ⟨Int.lt_of_lt_of_le hstart hfirst, hlast⟩

end Archive

end StorageMarket
