import Mathlib
import BlockDocument.Time.Instant

/-!
# The calendar

Every day has a date of the calendar, and counting the days to that date gives the day back. Inside a
cycle of 400 years, counted from March, the only question is in which year a day falls: `yearGauge`
answers it, as it grows with the day and reaches a multiple of 365 just where a year starts.
-/

namespace BlockDocument.Time

/-! ## Years within a cycle -/

/-- The days from the start of a cycle of 400 years to the start of one of its years. -/
def yearStart (y : Int) : Int := 365 * y + y / 4 - y / 100

/-- The days of a cycle without those that leap years add. -/
def yearGauge (day : Int) : Int := day - day / 1460 + day / 36524 - day / 146096

theorem yearGauge_mono : Monotone yearGauge := by
  refine monotone_int_of_le_succ fun day => ?_
  -- a day that completes a cycle completes a century too
  have hcentury : (day + 1) / 146096 = day / 146096 ∨
      (day + 1) / 146096 = day / 146096 + 1 ∧ (day + 1) / 36524 = day / 36524 + 1 := by
    omega
  rw [yearGauge, yearGauge]
  rcases hcentury with h | ⟨h, h'⟩ <;> omega

/-- Where years start, the gauge reaches a multiple of 365, and not a day before. -/
theorem yearGauge_yearStart {y : Nat} (h : y < 400) :
    365 * (y : Int) ≤ yearGauge (yearStart y) ∧
      (y ≠ 0 → yearGauge (yearStart y - 1) < 365 * y) := by
  have hall : ∀ y ∈ List.range 400, 365 * (y : Int) ≤ yearGauge (yearStart y) ∧
      (y ≠ 0 → yearGauge (yearStart y - 1) < 365 * y) := by
    decide +kernel
  exact hall y (List.mem_range.mpr h)

/-- A year has 365 days, or 366 if it ends in a leap day. The last year of a cycle always does. -/
theorem yearStart_succ_le (y : Int) :
    yearStart (y + 1) ≤ yearStart y + 366 ∧
      (yearStart y + 366 ≤ yearStart (y + 1) → (y + 1) % 4 = 0 ∧ (y + 1) % 100 ≠ 0) := by
  have hfour : (y + 1) / 4 = y / 4 ∨ (y + 1) / 4 = y / 4 + 1 ∧ (y + 1) % 4 = 0 := by omega
  have hhundred : (y + 1) / 100 = y / 100 ∧ (y + 1) % 100 ≠ 0 ∨ (y + 1) / 100 = y / 100 + 1 := by
    omega
  rw [yearStart, yearStart]
  rcases hfour with h | ⟨h, h'⟩
  · rcases hhundred with k | k <;> omega
  · rcases hhundred with k | k <;> omega

/-- The year in which a day of a cycle falls, and the day within that year. The last year of a cycle
has its leap day beyond the start of the next one. -/
theorem year_bounds {day : Int} (h₀ : 0 ≤ day) (h₁ : day < 146097) :
    0 ≤ yearGauge day / 365 ∧ yearGauge day / 365 < 400 ∧ yearStart (yearGauge day / 365) ≤ day ∧
      (yearGauge day / 365 < 399 → day < yearStart (yearGauge day / 365 + 1)) := by
  have hlow : yearGauge 0 ≤ yearGauge day := yearGauge_mono h₀
  have hhigh : yearGauge day ≤ yearGauge 146096 := yearGauge_mono (by omega)
  rw [show yearGauge 0 = 0 by decide] at hlow
  rw [show yearGauge 146096 = 145999 by decide] at hhigh
  obtain ⟨y, hy⟩ : ∃ y : Nat, yearGauge day / 365 = y :=
    ⟨(yearGauge day / 365).toNat, by omega⟩
  rw [hy]
  refine ⟨by omega, by omega, ?_, fun hlt => ?_⟩
  · by_contra hstart
    have hne : y ≠ 0 := by
      rintro rfl
      exact hstart (by simpa [yearStart] using h₀)
    have hmono : yearGauge day ≤ yearGauge (yearStart y - 1) := yearGauge_mono (by omega)
    have hend : yearGauge (yearStart y - 1) < 365 * y := (yearGauge_yearStart (by omega)).2 hne
    omega
  · by_contra hstart
    have hmono : yearGauge (yearStart (y + 1)) ≤ yearGauge day := yearGauge_mono (by omega)
    have hend := (yearGauge_yearStart (show y + 1 < 400 by omega)).1
    push_cast at hend
    omega

/-! ## Dates -/

/-- The date of a day within a year that is counted from March. -/
def Date.ofYearDay (year : Int) (day : Nat) : Date :=
  let marchMonth := (5 * day + 2) / 153
  let month := if marchMonth < 10 then marchMonth + 3 else marchMonth - 9
  ⟨year + (if month ≤ 2 then 1 else 0), month, day - (153 * marchMonth + 2) / 5 + 1⟩

/-- A day number taken apart. -/
theorem Date.exists_ofDayNumber (n : Int) : ∃ (cycle y : Int) (day : Nat),
    n = cycle * 146097 + (yearStart y + day) - epochDay ∧ 0 ≤ y ∧ y < 400 ∧ day ≤ 365 ∧
      (day = 365 → (y + 1) % 4 = 0 ∧ ((y + 1) % 100 = 0 → (y + 1) % 400 = 0)) ∧
      ofDayNumber n = ofYearDay (y + cycle * 400) day := by
  have hday₀ := Int.emod_nonneg (n + epochDay) (show (146097 : Int) ≠ 0 by decide)
  have hday₁ := Int.emod_lt_of_pos (n + epochDay) (show (0 : Int) < 146097 by decide)
  have hsplit := Int.ediv_mul_add_emod (n + epochDay) 146097
  obtain ⟨hy, hy', hstart, hend⟩ := year_bounds hday₀ hday₁
  obtain ⟨hlength, hleap⟩ := yearStart_succ_le (yearGauge ((n + epochDay) % 146097) / 365)
  refine ⟨(n + epochDay) / 146097, yearGauge ((n + epochDay) % 146097) / 365,
    ((n + epochDay) % 146097 - yearStart (yearGauge ((n + epochDay) % 146097) / 365)).toNat,
    ?_, hy, hy', ?_, ?_, rfl⟩
  all_goals
    generalize yearGauge ((n + epochDay) % 146097) / 365 = y at *
    by_cases hlast : y = 399
    · subst hlast
      rw [show yearStart 399 = 145731 by decide] at *
      omega
    · have hbefore := hend (by omega)
      omega

theorem isLeap_iff {year : Int} :
    isLeap year = true ↔ year % 4 = 0 ∧ (year % 100 = 0 → year % 400 = 0) := by
  simp only [isLeap, Bool.and_eq_true, Bool.or_eq_true, beq_iff_eq, bne_iff_ne]
  omega

/-- The day of a year that is counted from March is a day of the calendar. -/
theorem Date.isValid_ofYearDay {year : Int} {day : Nat} (hday : day ≤ 365)
    (hleap : day = 365 → isLeap (year + 1) = true) : (ofYearDay year day).isValid = true := by
  obtain ⟨k, hk, hk', hk''⟩ : ∃ k, (5 * day + 2) / 153 = k ∧ 153 * k ≤ 5 * day + 2 ∧
      5 * day + 2 < 153 * (k + 1) := ⟨_, rfl, by omega, by omega⟩
  have hmonth : k ≤ 11 := by omega
  rw [isValid, decide_eq_true_eq, ofYearDay, hk]
  by_cases hfebruary : k = 11
  · subst hfebruary
    cases hl : isLeap (year + 1) with
    | true =>
      simp [monthLength, hl]
      omega
    | false =>
      have hne : day ≠ 365 := by
        rintro rfl
        rw [hleap rfl] at hl
        cases hl
      simp [monthLength, hl]
      omega
  · interval_cases k <;> (simp [monthLength]; omega)

/-- Counting the days to the day of a year that is counted from March. -/
theorem Date.dayNumber_ofYearDay {y : Int} (hy : 0 ≤ y) (hy' : y < 400) (cycle : Int) {day : Nat}
    (hday : day ≤ 365) : (ofYearDay (y + cycle * 400) day).dayNumber =
      cycle * 146097 + (yearStart y + day) - epochDay := by
  obtain ⟨k, hk, hk', hk''⟩ : ∃ k, (5 * day + 2) / 153 = k ∧ 153 * k ≤ 5 * day + 2 ∧
      5 * day + 2 < 153 * (k + 1) := ⟨_, rfl, by omega, by omega⟩
  have hmonth : k ≤ 11 := by omega
  have hback : ((if k < 10 then k + 3 else k - 9) + 9) % 12 = k := by split <;> omega
  have hyear : (if (if k < 10 then k + 3 else k - 9) ≤ 2 then
      y + cycle * 400 + (if (if k < 10 then k + 3 else k - 9) ≤ 2 then 1 else 0) - 1
      else y + cycle * 400 + (if (if k < 10 then k + 3 else k - 9) ≤ 2 then 1 else 0)) =
      y + cycle * 400 := by
    split <;> omega
  rw [dayNumber, ofYearDay, hk]
  dsimp only
  rw [hback, hyear, yearStart]
  omega

theorem isLeap_add_cycles (year cycle : Int) : isLeap (year + cycle * 400) = isLeap year := by
  rw [Bool.eq_iff_iff, isLeap_iff, isLeap_iff]
  omega

/-- **Every day has a date**, and it is the number of that date. -/
theorem Date.isValid_ofDayNumber (n : Int) : (ofDayNumber n).isValid = true := by
  obtain ⟨cycle, y, day, -, -, -, hday, hleap, h⟩ := exists_ofDayNumber n
  rw [h]
  refine isValid_ofYearDay hday fun hlast => ?_
  rw [Int.add_right_comm, isLeap_add_cycles, isLeap_iff]
  exact hleap hlast

theorem Date.dayNumber_ofDayNumber (n : Int) : (ofDayNumber n).dayNumber = n := by
  obtain ⟨cycle, y, day, hn, hy, hy', hday, -, h⟩ := exists_ofDayNumber n
  rw [h, dayNumber_ofYearDay hy hy' cycle hday, hn]

end BlockDocument.Time
