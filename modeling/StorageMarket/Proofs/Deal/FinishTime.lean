import StorageMarket.Proofs.Chronicle.FixedWidth
import StorageMarket.Proofs.Ledger.Snapshot

/-!
# When a deal is over

A running deal is over when its storage time has gone by since its creation, and no later than
at the last moment of the calendar. On the line of moments (`Instant.line`) that is the lesser
of two whole numbers.

On the way to it three things can be too large: the number of seconds for a signed number of 64
bits, the seconds for a duration, and the sum for the calendar. Each time something else is
taken in the place of what does not fit: the longest duration, which reaches beyond the calendar
from wherever it starts, or the last moment. So there is no gap between the three.
-/

namespace StorageMarket

/-! ## Steps that may be too long -/

namespace Duration

/-- Some seconds as a duration, by way of a signed number of 64 bits. -/
def fixedSeconds? (seconds : Nat) : Option Duration :=
  (signed? 64 seconds).bind fun number => (ofSeconds number).held?

/-- Nothing gets lost between the most seconds of a duration and those of a number of 64 bits. -/
theorem fixedSeconds?_eq (seconds : Nat) : fixedSeconds? seconds = ofSeconds? seconds := by
  have hnanos : (ofSeconds seconds).nanos = seconds * 1000000000 := rfl
  have hlongest : longest.nanos = 9223372036854775807000000 := rfl
  have hmost : mostSeconds = 9223372036854775 := rfl
  rw [fixedSeconds?, ofSeconds?]
  by_cases hnumber : seconds < 2 ^ 63
  · rw [signed?_bind (by omega) (by omega)]
    by_cases hle : seconds ≤ mostSeconds
    · rw [if_pos hle, held?_eq_some (by omega) (by omega)]
    · rw [if_neg hle, held?, if_neg (by omega)]
  · have hlarge : ¬ (-2 ^ (64 - 1) ≤ (seconds : Int) ∧ (seconds : Int) < 2 ^ (64 - 1)) := by omega
    rw [signed?, if_neg hlarge, if_neg (by omega), Option.bind_none]

end Duration

theorem Terms.nanos_storageTime (terms : Terms) :
    terms.storageTime.nanos
      = min ((terms.duration.toNat : Int) * 1000000000) Duration.longest.nanos := by
  have hlongest : Duration.longest.nanos = 9223372036854775807000000 := rfl
  have hmost : Duration.mostSeconds = 9223372036854775 := rfl
  rw [storageTime, Duration.ofSeconds?]
  split
  · show (terms.duration.toNat : Int) * 1000000000 = _
    omega
  · show Duration.longest.nanos = _
    omega

namespace Instant

variable {t : Instant}

/-- A step forwards is made on the line, as far as the calendar goes. -/
theorem addOrLatest_line (h : t.Regular) {d : Duration} (hd : 0 ≤ d.nanos) :
    (t.addOrLatest d).Regular ∧ (t.addOrLatest d).line = min (t.line + d.nanos) latest.line := by
  by_cases hle : t.line + d.nanos ≤ latest.line
  · rw [min_eq_left hle]
    exact addOrLatest_of_le h regular_latest hd hle
  · have hlatest : latest.line = 8210266876799 * 1000000000 + 999999999 := rfl
    have hbeyond : t.add? d = none := by
      rw [add?_eq_ofNanos? h, ofNanos?, of?, dif_neg (by omega)]
    rw [addOrLatest, hbeyond, Option.getD_none, min_eq_right (Int.le_of_lt (Int.not_le.1 hle))]
    exact ⟨regular_latest, rfl⟩

end Instant

/-! ## Finish times -/

namespace Deal

/-- When a running deal is over, worked out in numbers of fixed width: where the seconds do not fit
into a number or a duration, the longest duration is taken, and where the sum is off the calendar,
its last moment. -/
def fixedFinishTime (deal : Deal) : Instant :=
  (deal.createdAt.add? ((Duration.fixedSeconds? deal.request.terms.duration.toNat).getD
    Duration.longest)).getD Instant.latest

theorem fixedFinishTime_eq (deal : Deal) : deal.fixedFinishTime = deal.finishTime := by
  rw [fixedFinishTime, Duration.fixedSeconds?_eq]
  rfl

/-- The longest duration leads beyond the calendar, so that it makes no difference where a storage
time was cut off. -/
theorem finishTime_line {deal : Deal} (h : deal.createdAt.Regular) :
    deal.finishTime.Regular ∧
      deal.finishTime.line
        = min (deal.createdAt.line + deal.request.terms.duration.toNat * 1000000000)
          Instant.latest.line := by
  have hnanos := deal.request.terms.nanos_storageTime
  have hlongest : Duration.longest.nanos = 9223372036854775807000000 := rfl
  have hearliest := deal.createdAt.line_earliest_le
  have hends : Instant.latest.line ≤ Instant.earliest.line + Duration.longest.nanos := by decide
  obtain ⟨hregular, hline⟩ := Instant.addOrLatest_line h
    (d := deal.request.terms.storageTime) (by omega)
  refine ⟨hregular, ?_⟩
  rw [finishTime, hline]
  omega

/-- A deal, be it one of a ledger or one that is shown in a notice, is over at the exact sum of its
creation and its duration, or at the last moment of the calendar if the sum lies beyond it; only its
creation must not be inside a leap second. That is also what comes out in numbers of fixed width. No
deal is over before it was created, and one that was created no earlier and lasts no shorter is over
no earlier. -/
theorem finish_time_is_exact_sum (deal : Deal) (h : deal.createdAt.Regular) :
    deal.finishTime.Regular ∧
    deal.finishTime.line
      = min (deal.createdAt.line + deal.request.terms.duration.toNat * 1000000000)
        Instant.latest.line ∧
    deal.fixedFinishTime = deal.finishTime ∧
    deal.createdAt ≤ deal.finishTime ∧
    ∀ other : Deal, other.createdAt.Regular → deal.createdAt ≤ other.createdAt →
      deal.request.terms.duration ≤ other.request.terms.duration →
      deal.finishTime ≤ other.finishTime := by
  obtain ⟨hregular, hline⟩ := finishTime_line h
  refine ⟨hregular, hline, fixedFinishTime_eq deal, ?_, ?_⟩
  · have hlatest := Instant.line_le_latest h
    rw [Instant.le_iff_line_le h hregular, hline]
    omega
  · intro other hother hcreated hduration
    obtain ⟨hregular', hline'⟩ := finishTime_line hother
    rw [Instant.le_iff_line_le h hother] at hcreated
    rw [UInt64.le_iff_toNat_le] at hduration
    rw [Instant.le_iff_line_le hregular hregular', hline, hline']
    omega

/-- A deal that was created a quarter of a second after a noon. -/
def noonDeal (duration : UInt64) : Deal :=
  .publish (Ledger.sampleRequest 7 1 duration) 12 ⟨1577880000, 250000000, by decide⟩

/-- A deal that is just over within the last second of the calendar, beside one that lasts for as
long as can be asked for. -/
theorem finish_time_is_exact_sum_noonDeal :
    (noonDeal 8208688996799).createdAt.Regular ∧
    (noonDeal 8208688996799).finishTime.line = 8210266876799250000000 ∧
    (noonDeal 18446744073709551615).finishTime.line = Instant.latest.line ∧
    (noonDeal 8208688996799).finishTime ≤ (noonDeal 18446744073709551615).finishTime := by
  have hregular (duration : UInt64) : (noonDeal duration).createdAt.Regular := by
    show 250000000 < 1000000000
    decide
  obtain ⟨_, hline, _, _, hmono⟩ := finish_time_is_exact_sum (noonDeal 8208688996799) (hregular _)
  obtain ⟨_, hlongest, _⟩ := finish_time_is_exact_sum (noonDeal 18446744073709551615) (hregular _)
  refine ⟨hregular _, hline.trans (by decide), hlongest.trans (by decide), ?_⟩
  exact hmono _ (hregular _) (Instant.le_refl _) (by decide)

end Deal

end StorageMarket
