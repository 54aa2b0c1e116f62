import StorageMarket.Instant

/-!
# Time outside of leap seconds

Moments that are not inside a leap second lie on a straight line. On it differences add
up, order is the order of numbers, and whatever lies between two moments of the calendar
is one as well. Inside a leap second none of this holds.
-/

namespace StorageMarket.Instant

/-- The nanoseconds since the start of 1970, leap seconds left out. -/
def line (t : Instant) : Int := t.seconds * 1000000000 + t.nanos

theorem exists_of? {seconds : Int} {nanos : Nat}
    (h : -8334601228800 ≤ seconds ∧ seconds ≤ 8210266876799 ∧ nanos < 2000000000) :
    ∃ v, of? seconds nanos = some v := by
  rw [of?, dif_pos h]
  exact ⟨_, rfl⟩

variable {t u : Instant}

theorem ofNanos?_line {t : Instant} (h : t.Regular) : ofNanos? t.line = some t := by
  obtain ⟨seconds, nanos, hcalendar⟩ := t
  have hnanos : nanos < 1000000000 := h
  have hdiv : (seconds * 1000000000 + nanos) / 1000000000 = seconds := by omega
  have hmod : ((seconds * 1000000000 + nanos) % 1000000000 : Int).toNat = nanos := by omega
  rw [ofNanos?, line, hdiv, hmod, of?, dif_pos hcalendar]

theorem le_iff_line_le (ht : t.Regular) (hu : u.Regular) : t ≤ u ↔ t.line ≤ u.line := by
  have ht : t.nanos < 1000000000 := ht
  have hu : u.nanos < 1000000000 := hu
  rw [le_def, rank, rank, line, line]
  omega

theorem since_eq_line (ht : t.Regular) (hu : u.Regular) : u.since t = ⟨u.line - t.line⟩ := by
  have ht' : ¬ 1000000000 ≤ t.nanos := Nat.not_le.2 ht
  have hu' : ¬ 1000000000 ≤ u.nanos := Nat.not_le.2 hu
  simp only [since, if_neg ht', if_neg hu', ite_self, line]
  congr 1
  omega

theorem add?_eq_ofNanos? (ht : t.Regular) (d : Duration) :
    t.add? d = ofNanos? (t.line + d.nanos) := by
  rw [add?, if_pos (show t.nanos < 1000000000 from ht), line]

theorem regular_latest : latest.Regular := by decide

theorem line_le_latest (h : t.Regular) : t.line ≤ latest.line := by
  have hnanos : t.nanos < 1000000000 := h
  have hcalendar := t.onCalendar
  show t.seconds * 1000000000 + t.nanos ≤ 8210266876799 * 1000000000 + 999999999
  omega

theorem line_earliest_le (t : Instant) : earliest.line ≤ t.line := by
  have hcalendar := t.onCalendar
  show -8334601228800 * 1000000000 + 0 ≤ t.seconds * 1000000000 + t.nanos
  omega

/-- What lies between two moments is a moment. -/
theorem exists_ofNanos? (ht : t.Regular) (hu : u.Regular) {nanos : Int} (hlo : t.line ≤ nanos)
    (hhi : nanos ≤ u.line) : ∃ v, ofNanos? nanos = some v ∧ v.Regular ∧ v.line = nanos := by
  have ht : t.nanos < 1000000000 := ht
  have hu : u.nanos < 1000000000 := hu
  have htc := t.onCalendar
  have huc := u.onCalendar
  rw [line] at hlo hhi
  have hcalendar : -8334601228800 ≤ nanos / 1000000000 ∧ nanos / 1000000000 ≤ 8210266876799 ∧
      (nanos % 1000000000).toNat < 2000000000 := by omega
  refine ⟨⟨_, _, hcalendar⟩, ?_, ?_, ?_⟩
  · rw [ofNanos?, of?, dif_pos hcalendar]
  · show (nanos % 1000000000).toNat < 1000000000
    omega
  · show nanos / 1000000000 * 1000000000 + ((nanos % 1000000000).toNat : Int) = nanos
    omega

/-- A step that does not lead beyond a later moment is made on the line. -/
theorem addOrLatest_of_le (ht : t.Regular) (hu : u.Regular) {d : Duration} (hd : 0 ≤ d.nanos)
    (hle : t.line + d.nanos ≤ u.line) :
    (t.addOrLatest d).Regular ∧ (t.addOrLatest d).line = t.line + d.nanos := by
  obtain ⟨v, hv, hregular, hline⟩ := exists_ofNanos? ht hu (by omega) hle
  rw [addOrLatest, add?_eq_ofNanos? ht, hv]
  exact ⟨hregular, hline⟩

/-- A step of no length leads nowhere, also inside a leap second. -/
theorem addOrLatest_zero (t : Instant) : t.addOrLatest (.ofMillis 0) = t := by
  have hadd : t.add? ⟨0⟩ = some t := by
    by_cases ht : t.nanos < 1000000000
    · rw [add?_eq_ofNanos? ht, Int.add_zero, ofNanos?_line ht]
    · have hnanos := t.onCalendar.2.2
      have hfar : ¬ (2000000000 : Int) ≤ t.nanos + 0 := by omega
      have hsame : ((t.nanos : Int) + 0).toNat = t.nanos := by omega
      rw [add?, if_neg ht, if_neg hfar, if_neg (by decide), hsame, of?, dif_pos t.onCalendar]
  show (t.add? ⟨0⟩).getD latest = t
  rw [hadd, Option.getD_some]

end StorageMarket.Instant
