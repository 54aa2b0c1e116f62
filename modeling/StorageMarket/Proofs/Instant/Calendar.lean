import StorageMarket.Instant.Calendar

/-!
# Counting days back and forth

The date of a day exists, and counting its days gives the day again. Both rest on the
parts of a cycle: four centuries of 36524 days, the last one a day longer, each of 25
spans of four years with 1461 days, the last one a day shorter, each of four years with
365 days, the last one a day longer.
-/

namespace StorageMarket.Date

/-! ## The year of a day -/

def yearOfCycle (dayOfCycle : Nat) : Nat :=
  (dayOfCycle - dayOfCycle / 1460 + dayOfCycle / 36524 - dayOfCycle / 146096) / 365

/-- A day of a cycle, by its century, the four years it is in, its year among them and its place in
that year. A year has a day 365 only at the end of four years, and a century that is not the last
of its cycle ends with a year that has none. -/
structure Place where
  century : Nat
  span : Nat
  year : Nat
  day : Nat
  century_le : century ≤ 3
  span_le : span ≤ 24
  year_le : year ≤ 3
  day_le : day < 365 ∨ day = 365 ∧ year = 3 ∧ (span < 24 ∨ century = 3)

namespace Place

def dayOfCycle (place : Place) : Nat :=
  36524 * place.century + 1461 * place.span + 365 * place.year + place.day

def yearOfCycle (place : Place) : Nat := 100 * place.century + 4 * place.span + place.year

theorem exists_place {d : Nat} (hd : d < 146097) : ∃ place : Place, place.dayOfCycle = d := by
  -- only the last century of a cycle has a day 36524
  obtain ⟨c, r, hc, hr, rfl⟩ :
      ∃ c r, c ≤ 3 ∧ (r < 36524 ∨ r = 36524 ∧ c = 3) ∧ d = 36524 * c + r := by
    by_cases hlast : d = 146096
    · exact ⟨3, 36524, by omega, by omega, by omega⟩
    · exact ⟨d / 36524, d % 36524, by omega, by omega, by omega⟩
  obtain ⟨y, t, hy, ht, hyt⟩ :
      ∃ y t, y ≤ 3 ∧ (t < 365 ∨ t = 365 ∧ y = 3) ∧ r % 1461 = 365 * y + t := by
    by_cases hleap : r % 1461 = 1460
    · exact ⟨3, 365, by omega, by omega, by omega⟩
    · exact ⟨r % 1461 / 365, r % 1461 % 365, by omega, by omega, by omega⟩
  refine ⟨⟨c, r / 1461, y, t, hc, by omega, hy, by omega⟩, ?_⟩
  simp only [dayOfCycle]
  omega

theorem yearOfCycle_dayOfCycle (place : Place) :
    Date.yearOfCycle place.dayOfCycle = place.yearOfCycle := by
  obtain ⟨c, q, y, t, hc, hq, hy, ht⟩ := place
  simp only [Date.yearOfCycle, dayOfCycle, yearOfCycle]
  have hcentury : (36524 * c + 1461 * q + 365 * y + t) / 36524
      - (36524 * c + 1461 * q + 365 * y + t) / 146096 = c := by
    have hr : 1461 * q + 365 * y + t < 36524 ∨ c = 3 ∧ 1461 * q + 365 * y + t = 36524 := by omega
    rcases hr with hr | ⟨rfl, hr⟩ <;> omega
  have hspan : (36524 * c + 1461 * q + 365 * y + t) / 1460
      = 25 * c + q + (24 * c + q + 365 * y + t) / 1460 := by omega
  omega

theorem yearStart_yearOfCycle (place : Place) :
    yearStart place.yearOfCycle + place.day = place.dayOfCycle := by
  obtain ⟨c, q, y, t, hc, hq, hy, ht⟩ := place
  simp only [yearStart, dayOfCycle, yearOfCycle]
  omega

theorem yearOfCycle_lt (place : Place) : place.yearOfCycle < 400 := by
  obtain ⟨c, q, y, t, hc, hq, hy, ht⟩ := place
  simp only [yearOfCycle]
  omega

theorem day_lt (place : Place) : place.day < 366 := by
  have := place.day_le
  omega

/-- As the year starts in March, its last day is the leap day of the calendar year that began in
it. -/
theorem isLeapYear_of_day_eq {place : Place} (h : place.day = 365) (cycle : Int) :
    isLeapYear (cycle * 400 + place.yearOfCycle + 1) = true := by
  obtain ⟨c, q, y, t, hc, hq, hy, ht⟩ := place
  change t = 365 at h
  simp only [yearOfCycle, isLeapYear, Bool.and_eq_true, Bool.or_eq_true, beq_iff_eq, bne_iff_ne]
  omega

end Place

/-! ## The month of a day -/

/-- The month, in a year that starts in March, of a day of the year. -/
def marchOf (dayOfYear : Nat) : Nat := (5 * dayOfYear + 2) / 153

def monthOf (march : Nat) : Nat := if march < 10 then march + 3 else march - 9

theorem monthStart_marchOf_le (day : Nat) : monthStart (marchOf day) ≤ day := by
  simp only [monthStart, marchOf]
  omega

theorem lt_monthStart_marchOf (day : Nat) : day < monthStart (marchOf day + 1) := by
  simp only [monthStart, marchOf]
  omega

/-- A month ends where the next one starts; only February ends with its year. -/
theorem monthLength_monthOf {march : Nat} (h : march < 11) (year : Int) :
    monthLength year (monthOf march) = monthStart (march + 1) - monthStart march := by
  rcases (by omega : march = 0 ∨ march = 1 ∨ march = 2 ∨ march = 3 ∨ march = 4 ∨ march = 5 ∨
      march = 6 ∨ march = 7 ∨ march = 8 ∨ march = 9 ∨ march = 10)
    with rfl | rfl | rfl | rfl | rfl | rfl | rfl | rfl | rfl | rfl | rfl <;> rfl

theorem marchOf_lt {day : Nat} (h : day < 366) : marchOf day < 12 := by
  simp only [marchOf]
  omega

theorem march_of_monthOf {march : Nat} (h : march < 12) : (monthOf march + 9) % 12 = march := by
  by_cases hmarch : march < 10
  · rw [monthOf, if_pos hmarch]
    omega
  · rw [monthOf, if_neg hmarch]
    omega

/-! ## Dates -/

def Place.date (place : Place) (cycle : Int) : Date where
  year :=
    if monthOf (marchOf place.day) ≤ 2 then cycle * 400 + place.yearOfCycle + 1
    else cycle * 400 + place.yearOfCycle
  month := monthOf (marchOf place.day)
  day := place.day - monthStart (marchOf place.day) + 1

/-- Every day has its place in a cycle, and its date is the date of that place. -/
theorem exists_ofDays_eq_date (days : Int) :
    ∃ (place : Place) (cycle : Int), days + 719468 = cycle * 146097 + place.dayOfCycle ∧
      ofDays days = place.date cycle := by
  obtain ⟨place, hplace⟩ := Place.exists_place (d := ((days + 719468) % 146097).toNat) (by omega)
  refine ⟨place, (days + 719468) / 146097, by omega, ?_⟩
  have hday : place.dayOfCycle - yearStart place.yearOfCycle = place.day := by
    rw [← place.yearStart_yearOfCycle]
    omega
  have hyear := place.yearOfCycle_dayOfCycle
  rw [Date.yearOfCycle] at hyear
  simp only [ofDays, ← hplace, hyear, hday]
  rfl

theorem Place.valid_date (place : Place) (cycle : Int) : (place.date cycle).Valid := by
  have hstart := monthStart_marchOf_le place.day
  have hnext := lt_monthStart_marchOf place.day
  refine ⟨Nat.succ_le_succ (Nat.zero_le _), ?_⟩
  by_cases hfebruary : marchOf place.day < 11
  · simp only [date, monthLength_monthOf hfebruary]
    omega
  · have hmarch : marchOf place.day = 11 := by
      have := marchOf_lt place.day_lt
      omega
    have hmonth : (place.date cycle).month = 2 := by
      simp only [date, hmarch]
      rfl
    have hyear : (place.date cycle).year = cycle * 400 + place.yearOfCycle + 1 := by
      simp [date, hmarch, monthOf]
    have hday : (place.date cycle).day = place.day - 337 + 1 := by
      simp only [date, hmarch]
      rfl
    have hlt := place.day_lt
    rw [hmonth, hyear, hday, monthLength]
    -- day 365 of the year would be the 29th
    cases hleap : isLeapYear (cycle * 400 + place.yearOfCycle + 1) with
    | true =>
        rw [if_pos rfl]
        omega
    | false =>
        have hne : place.day ≠ 365 := by
          intro hlast
          rw [isLeapYear_of_day_eq hlast] at hleap
          cases hleap
        rw [if_neg Bool.false_ne_true]
        omega

/-- The first two months of a calendar year belong to the year that started in March before. -/
theorem Place.year_date (place : Place) (cycle : Int) :
    (if (place.date cycle).month ≤ 2 then (place.date cycle).year - 1 else (place.date cycle).year)
      = cycle * 400 + place.yearOfCycle := by
  simp only [date]
  split <;> omega

theorem Place.toDays_date (place : Place) (cycle : Int) :
    (place.date cycle).toDays = cycle * 146097 + place.dayOfCycle - 719468 := by
  have hmarch : ((place.date cycle).month + 9) % 12 = marchOf place.day :=
    march_of_monthOf (marchOf_lt place.day_lt)
  have hday : (place.date cycle).day = place.day - monthStart (marchOf place.day) + 1 := rfl
  have hstart := monthStart_marchOf_le place.day
  have hsum := place.yearStart_yearOfCycle
  have hlt := place.yearOfCycle_lt
  have hcycle : (cycle * 400 + place.yearOfCycle : Int) / 400 = cycle := by omega
  have hyear : ((cycle * 400 + place.yearOfCycle : Int) % 400).toNat = place.yearOfCycle := by
    omega
  simp only [toDays, place.year_date, hmarch, hday, hcycle, hyear]
  omega

theorem Valid.lt_hundred {date : Date} (h : date.Valid) : date.month < 100 ∧ date.day < 100 := by
  obtain ⟨hfirst, hlast⟩ := h
  unfold monthLength at hlast
  split at hlast
  case h_12 => split at hlast <;> omega
  all_goals omega

theorem valid_ofDays (days : Int) : (ofDays days).Valid := by
  obtain ⟨place, cycle, -, hdate⟩ := exists_ofDays_eq_date days
  rw [hdate]
  exact place.valid_date cycle

theorem toDays_ofDays (days : Int) : (ofDays days).toDays = days := by
  obtain ⟨place, cycle, hdays, hdate⟩ := exists_ofDays_eq_date days
  rw [hdate, place.toDays_date]
  omega

end StorageMarket.Date
