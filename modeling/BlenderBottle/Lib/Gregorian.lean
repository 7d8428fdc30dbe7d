/-
# The proleptic Gregorian calendar on the integers

Days are counted from 1 January 1970, months from 0 (January), days of the
month from 1; years run over all of `ℤ`. A `Civil` date carries its own
validity, `Civil.day` numbers it and `Civil.ofDay` finds the date of a day
number; the two are inverse to each other (`civilEquiv`).

`yearStart` is a closed form, so the year of a day number is a guess by the
mean length of a year, corrected by at most one (`yearGuess_bounds`); every
fact about a year then follows from `yearStart_succ`, and every fact about a
month from `monthStart_succ`.

Key definitions: `yearStart`, `monthStart`, `dayNumber`, `Civil`.
Key theorems: `yearOf_spec`, `monthAt_spec`, `civilEquiv`.
-/
import Mathlib.Tactic

namespace Gregorian

/-! ### Years -/

def IsLeap (y : ℤ) : Prop := y % 4 = 0 ∧ (y % 100 ≠ 0 ∨ y % 400 = 0)

instance : DecidablePred IsLeap := fun y => by unfold IsLeap; infer_instance

/-- The days a year has over 365. -/
def leapDay (y : ℤ) : ℤ := if IsLeap y then 1 else 0

theorem leapDay_cases (y : ℤ) : leapDay y = 0 ∨ leapDay y = 1 := by
  unfold leapDay; split_ifs <;> simp

theorem leapDay_eq_one {y : ℤ} : leapDay y = 1 ↔ IsLeap y := by
  unfold leapDay; split_ifs <;> simp_all

/-- The day number of 1 January of year `y`. -/
def yearStart (y : ℤ) : ℤ := 365 * (y - 1970) + (y - 1) / 4 - (y - 1) / 100 + (y - 1) / 400 - 477

theorem yearStart_succ (y : ℤ) : yearStart (y + 1) = yearStart y + 365 + leapDay y := by
  unfold yearStart leapDay IsLeap
  split_ifs <;> omega

theorem yearStart_mono {y y' : ℤ} (h : y ≤ y') : yearStart y ≤ yearStart y' := by
  induction y', h using Int.leInduction with
  | base => exact le_rfl
  | succ k _ ih =>
    have hk := leapDay_cases k
    calc yearStart y ≤ yearStart k := ih
      _ ≤ yearStart k + 365 + leapDay k := by omega
      _ = yearStart (k + 1) := (yearStart_succ k).symm

/-- The year of day `n`, up to one. -/
def yearGuess (n : ℤ) : ℤ := 1970 + 400 * n / 146097

theorem yearGuess_bounds (n : ℤ) :
    yearStart (yearGuess n - 1) ≤ n ∧ n < yearStart (yearGuess n + 2) := by
  unfold yearStart yearGuess
  constructor <;> omega

/-- The year that day `n` lies in. -/
def yearOf (n : ℤ) : ℤ :=
  if n < yearStart (yearGuess n) then yearGuess n - 1
  else if yearStart (yearGuess n + 1) ≤ n then yearGuess n + 1
  else yearGuess n

theorem yearOf_spec (n : ℤ) : yearStart (yearOf n) ≤ n ∧ n < yearStart (yearOf n + 1) := by
  have h := yearGuess_bounds n
  unfold yearOf
  by_cases h1 : n < yearStart (yearGuess n)
  · rw [if_pos h1]
    exact ⟨h.1, by simpa using h1⟩
  by_cases h2 : yearStart (yearGuess n + 1) ≤ n
  · rw [if_neg h1, if_pos h2]
    exact ⟨h2, by simpa [add_assoc] using h.2⟩
  · rw [if_neg h1, if_neg h2]
    omega

theorem yearOf_eq {y n : ℤ} (h1 : yearStart y ≤ n) (h2 : n < yearStart (y + 1)) : yearOf n = y := by
  obtain ⟨s1, s2⟩ := yearOf_spec n
  rcases lt_trichotomy (yearOf n) y with h | h | h
  · have := yearStart_mono (show yearOf n + 1 ≤ y by omega)
    omega
  · exact h
  · have := yearStart_mono (show y + 1 ≤ yearOf n by omega)
    omega

/-! ### Months -/

/-- The days of month `m` (from 0) of year `y`. -/
def monthLen (y m : ℤ) : ℤ :=
  if m = 1 then 28 + leapDay y else if m = 3 ∨ m = 5 ∨ m = 8 ∨ m = 10 then 30 else 31

/-- The days of year `y` before month `m`: months are 30 or 31 days long in
the pattern of `(367 m + 5) / 12`, but for February. -/
def monthStart (y m : ℤ) : ℤ := (367 * m + 5) / 12 + if m ≤ 1 then 0 else leapDay y - 2

theorem monthLen_bounds (y m : ℤ) : 28 ≤ monthLen y m ∧ monthLen y m ≤ 31 := by
  have := leapDay_cases y
  unfold monthLen
  split_ifs <;> omega

theorem monthStart_zero (y : ℤ) : monthStart y 0 = 0 := by simp [monthStart]

theorem monthStart_succ {y m : ℤ} (h0 : 0 ≤ m) (h1 : m ≤ 10) :
    monthStart y (m + 1) = monthStart y m + monthLen y m := by
  interval_cases m <;> simp [monthStart, monthLen] <;> ring

/-- December ends the year. -/
theorem monthStart_december (y : ℤ) : monthStart y 11 + monthLen y 11 = 365 + leapDay y := by
  simp [monthStart, monthLen]; ring

theorem monthStart_mono {y m m' : ℤ} (h0 : 0 ≤ m) (h : m ≤ m') :
    m' ≤ 11 → monthStart y m ≤ monthStart y m' := by
  induction m', h using Int.leInduction with
  | base => exact fun _ => le_rfl
  | succ k hk ih =>
    intro h1
    have hlen := monthLen_bounds y k
    calc monthStart y m ≤ monthStart y k := ih (by omega)
      _ ≤ monthStart y k + monthLen y k := by omega
      _ = monthStart y (k + 1) := (monthStart_succ (by omega) (by omega)).symm

theorem monthStart_nonneg {y m : ℤ} (m0 : 0 ≤ m) (m1 : m ≤ 11) : 0 ≤ monthStart y m :=
  monthStart_zero y ▸ monthStart_mono le_rfl m0 m1

/-- Every month lies in its year. -/
theorem monthEnd_le {y m : ℤ} (m0 : 0 ≤ m) (m1 : m ≤ 11) :
    monthStart y m + monthLen y m ≤ 365 + leapDay y := by
  rcases eq_or_lt_of_le m1 with rfl | h
  · exact (monthStart_december y).le
  · have hlen := monthLen_bounds y 11
    calc monthStart y m + monthLen y m = monthStart y (m + 1) := (monthStart_succ m0 (by omega)).symm
      _ ≤ monthStart y 11 := monthStart_mono (by omega) (by omega) le_rfl
      _ ≤ monthStart y 11 + monthLen y 11 := by omega
      _ = 365 + leapDay y := monthStart_december y

/-- The month of year `y` that holds the `k`-th day (from 0) of the year. -/
def monthAt (y k : ℤ) : ℤ := (12 * (k + if k < 59 + leapDay y then 0 else 2 - leapDay y) + 6) / 367

theorem monthAt_range {y k : ℤ} (h0 : 0 ≤ k) (h1 : k < 365 + leapDay y) :
    0 ≤ monthAt y k ∧ monthAt y k ≤ 11 := by
  have := leapDay_cases y
  unfold monthAt
  split_ifs <;> omega

theorem monthAt_spec {y k : ℤ} (h0 : 0 ≤ k) (h1 : k < 365 + leapDay y) :
    monthStart y (monthAt y k) ≤ k ∧ k < monthStart y (monthAt y k) + monthLen y (monthAt y k) := by
  obtain ⟨m0, m1⟩ := monthAt_range h0 h1
  have hl := leapDay_cases y
  have hm : monthAt y k = (12 * (k + if k < 59 + leapDay y then 0 else 2 - leapDay y) + 6) / 367 := rfl
  generalize monthAt y k = m at *
  -- in a given month both bounds are linear in `k`
  interval_cases m <;> simp only [monthStart, monthLen] <;> norm_num <;> split_ifs at hm <;> omega

theorem monthAt_eq {y m k : ℤ} (m0 : 0 ≤ m) (m1 : m ≤ 11) (h1 : monthStart y m ≤ k)
    (h2 : k < monthStart y m + monthLen y m) : monthAt y k = m := by
  have hk := monthStart_nonneg (y := y) m0 m1
  have hk' := monthEnd_le (y := y) m0 m1
  obtain ⟨r0, r1⟩ := monthAt_range (y := y) (k := k) (by omega) (by omega)
  obtain ⟨s1, s2⟩ := monthAt_spec (y := y) (k := k) (by omega) (by omega)
  rcases lt_trichotomy (monthAt y k) m with h | h | h
  · have := monthStart_mono (y := y) (show 0 ≤ monthAt y k + 1 by omega) (show monthAt y k + 1 ≤ m by omega) m1
    rw [monthStart_succ r0 (by omega)] at this
    omega
  · exact h
  · have := monthStart_mono (y := y) (show 0 ≤ m + 1 by omega) (show m + 1 ≤ monthAt y k by omega) r1
    rw [monthStart_succ m0 (by omega)] at this
    omega

/-! ### Dates -/

/-- The day number of day `d` of month `m` of year `y`. The day may lie
outside the month: it is counted from the month's first. -/
def dayNumber (y m d : ℤ) : ℤ := yearStart y + monthStart y m + (d - 1)

def dayOfYear (n : ℤ) : ℤ := n - yearStart (yearOf n)

/-- The month (from 0) of day `n`. -/
def monthOf (n : ℤ) : ℤ := monthAt (yearOf n) (dayOfYear n)

/-- The day of the month (from 1) of day `n`. -/
def mdayOf (n : ℤ) : ℤ := dayOfYear n - monthStart (yearOf n) (monthOf n) + 1

/-- The day of the week of day `n`, Sunday 0; day 0 is a Thursday. -/
def weekday (n : ℤ) : ℤ := (n + 4) % 7

/-- `y`, `m`, `d` is a date of the calendar. -/
def ValidDate (y m d : ℤ) : Prop := 0 ≤ m ∧ m ≤ 11 ∧ 1 ≤ d ∧ d ≤ monthLen y m

instance (y m d : ℤ) : Decidable (ValidDate y m d) := by unfold ValidDate; infer_instance

theorem dayOfYear_bounds (n : ℤ) : 0 ≤ dayOfYear n ∧ dayOfYear n < 365 + leapDay (yearOf n) := by
  have h := yearOf_spec n
  rw [yearStart_succ] at h
  unfold dayOfYear
  omega

theorem validDate_of_day (n : ℤ) : ValidDate (yearOf n) (monthOf n) (mdayOf n) := by
  obtain ⟨h0, h1⟩ := dayOfYear_bounds n
  obtain ⟨r0, r1⟩ := monthAt_range h0 h1
  obtain ⟨s1, s2⟩ := monthAt_spec h0 h1
  refine ⟨r0, r1, ?_, ?_⟩
  · unfold mdayOf monthOf; omega
  · unfold mdayOf monthOf; omega

theorem dayNumber_of_day (n : ℤ) : dayNumber (yearOf n) (monthOf n) (mdayOf n) = n := by
  unfold dayNumber mdayOf dayOfYear; ring

theorem yearOf_dayNumber {y m d : ℤ} (h : ValidDate y m d) : yearOf (dayNumber y m d) = y := by
  obtain ⟨m0, m1, d0, d1⟩ := h
  have h0 := monthStart_nonneg (y := y) m0 m1
  have h1 := monthEnd_le (y := y) m0 m1
  apply yearOf_eq
  · unfold dayNumber; omega
  · rw [yearStart_succ]; unfold dayNumber; omega

theorem dayOfYear_dayNumber {y m d : ℤ} (h : ValidDate y m d) :
    dayOfYear (dayNumber y m d) = monthStart y m + (d - 1) := by
  rw [dayOfYear, yearOf_dayNumber h, dayNumber]; ring

theorem monthOf_dayNumber {y m d : ℤ} (h : ValidDate y m d) : monthOf (dayNumber y m d) = m := by
  rw [monthOf, dayOfYear_dayNumber h, yearOf_dayNumber h]
  obtain ⟨m0, m1, d0, d1⟩ := h
  exact monthAt_eq m0 m1 (by omega) (by omega)

theorem mdayOf_dayNumber {y m d : ℤ} (h : ValidDate y m d) : mdayOf (dayNumber y m d) = d := by
  rw [mdayOf, monthOf_dayNumber h, dayOfYear_dayNumber h, yearOf_dayNumber h]; ring

/-- A date of the calendar. -/
@[ext]
structure Civil where
  year : ℤ
  month : ℤ
  mday : ℤ
  valid : ValidDate year month mday

namespace Civil

def day (c : Civil) : ℤ := dayNumber c.year c.month c.mday

def ofDay (n : ℤ) : Civil := ⟨yearOf n, monthOf n, mdayOf n, validDate_of_day n⟩

end Civil

/-- **Dates and day numbers are the same thing.** -/
def civilEquiv : Civil ≃ ℤ where
  toFun := Civil.day
  invFun := Civil.ofDay
  left_inv c := Civil.ext (yearOf_dayNumber c.valid) (monthOf_dayNumber c.valid) (mdayOf_dayNumber c.valid)
  right_inv := dayNumber_of_day

end Gregorian
