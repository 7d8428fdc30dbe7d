/-
# Weeks of the Gregorian calendar

Two ways to number the weeks of a year. One counts the Sundays (or Mondays)
of the year so far: `weekdaysInYear`. The other is that of ISO 8601: weeks run
from Monday to Sunday, week 1 of a year is the week that holds 4 January, and
the days before it, or from the next year's week 1 on, belong to the
neighbouring year.

Both are arithmetic in the weekday of 1 January and the day of the year
(`weekdaysInYear_eq`, `isoWeek_eq`).

Key definitions: `weekdaysInYear`, `isoWeek`.
-/
import BlenderBottle.Lib.Gregorian

namespace Gregorian

/-! ### Counting one weekday -/

/-- How many of the `k` days from day `a` on have weekday `w`. -/
def countWeekday (w a : ℤ) (k : ℕ) : ℕ := (List.range k).countP fun i => weekday (a + i) = w

theorem countWeekday_succ (w a : ℤ) (k : ℕ) :
    countWeekday w a (k + 1) = countWeekday w a k + if weekday (a + k) = w then 1 else 0 := by
  simp [countWeekday, List.range_succ, List.countP_append, List.countP_cons]

theorem countWeekday_eq {w : ℤ} (w0 : 0 ≤ w) (w1 : w ≤ 6) (a : ℤ) (k : ℕ) :
    (countWeekday w a k : ℤ) = (a + k + 3 - w) / 7 - (a + 3 - w) / 7 := by
  induction k with
  | zero => simp [countWeekday]
  | succ k ih =>
    rw [countWeekday_succ]
    push_cast
    rw [ih, weekday]
    -- the count goes up just when the new day has the weekday
    split_ifs <;> omega

/-- The weekday of 1 January of the year of day `n`. -/
def newYear (n : ℤ) : ℤ := weekday (yearStart (yearOf n))

theorem newYear_bounds (n : ℤ) : 0 ≤ newYear n ∧ newYear n ≤ 6 := by
  unfold newYear weekday
  omega

theorem weekday_eq_newYear (n : ℤ) : weekday n = (newYear n + dayOfYear n) % 7 := by
  unfold newYear dayOfYear weekday
  omega

/-- The days of weekday `w` from 1 January of its year through day `n`. -/
def weekdaysInYear (w n : ℤ) : ℕ := countWeekday w (yearStart (yearOf n)) (dayOfYear n + 1).toNat

/-- The same count by the weekday `a` of 1 January and the day `k` of the
year. -/
def weekdayCount (w a k : ℤ) : ℤ := (k + 7 - ((a + k) % 7 + 7 - w) % 7) / 7

theorem weekdaysInYear_eq {w : ℤ} (w0 : 0 ≤ w) (w1 : w ≤ 6) (n : ℤ) :
    (weekdaysInYear w n : ℤ) = weekdayCount w (newYear n) (dayOfYear n) := by
  have h := (dayOfYear_bounds n).1
  rw [weekdaysInYear, countWeekday_eq w0 w1, Int.toNat_of_nonneg (by omega), weekdayCount]
  unfold newYear dayOfYear weekday
  omega

/-! ### The weeks of ISO 8601 -/

/-- The Monday of the week of day `n`. -/
def monday (n : ℤ) : ℤ := n - (weekday n + 6) % 7

/-- The first day of week 1 of year `y`. -/
def isoWeekOne (y : ℤ) : ℤ := monday (dayNumber y 0 4)

/-- The year that the week of day `n` belongs to. -/
def isoYear (n : ℤ) : ℤ :=
  if n < isoWeekOne (yearOf n) then yearOf n - 1
  else if isoWeekOne (yearOf n + 1) ≤ n then yearOf n + 1
  else yearOf n

def isoWeek (n : ℤ) : ℤ := (n - isoWeekOne (isoYear n)) / 7 + 1

/-- Week 1 begins between three days before and three days after 1 January. -/
theorem isoWeekOne_eq (y : ℤ) : isoWeekOne y = yearStart y + 3 - (weekday (yearStart y) + 2) % 7 := by
  rw [isoWeekOne, dayNumber, monthStart_zero, monday, weekday, weekday]
  omega

/-- The ISO week by the weekday `a` of 1 January, the day `k` of the year,
and the leap days `l'` of the year before and `l` of the year. -/
def isoWeekAt (l' l a k : ℤ) : ℤ :=
  if k < 3 - (a + 2) % 7 then (k + 362 + l' + (a - 363 - l') % 7) / 7 + 1
  else if 368 + l - (a + 367 + l) % 7 ≤ k then 1
  else (k - 3 + (a + 2) % 7) / 7 + 1

theorem isoWeekAt_pos {l' l a k : ℤ} (hl' : 0 ≤ l') (k0 : 0 ≤ k) : 1 ≤ isoWeekAt l' l a k := by
  unfold isoWeekAt
  split_ifs <;> omega

theorem isoWeek_eq (n : ℤ) :
    isoWeek n = isoWeekAt (leapDay (yearOf n - 1)) (leapDay (yearOf n)) (newYear n) (dayOfYear n) := by
  have hk := dayOfYear_bounds n
  have hnext := yearStart_succ (yearOf n)
  have hprev := yearStart_succ (yearOf n - 1)
  rw [sub_add_cancel] at hprev
  have hone : isoWeekOne (yearOf n) = yearStart (yearOf n) + 3 - (newYear n + 2) % 7 := isoWeekOne_eq _
  have hnextOne : isoWeekOne (yearOf n + 1) =
      yearStart (yearOf n) + 368 + leapDay (yearOf n) - (newYear n + 367 + leapDay (yearOf n)) % 7 := by
    rw [isoWeekOne_eq, hnext, newYear, weekday, weekday]
    omega
  have hprevOne : isoWeekOne (yearOf n - 1) = yearStart (yearOf n) - 362 - leapDay (yearOf n - 1) -
      (newYear n - 363 - leapDay (yearOf n - 1)) % 7 := by
    rw [isoWeekOne_eq, newYear, hprev, weekday, weekday]
    omega
  have hday : n = yearStart (yearOf n) + dayOfYear n := by rw [dayOfYear]; ring
  rw [isoWeek, isoYear, hone, hnextOne, isoWeekAt]
  by_cases h1 : dayOfYear n < 3 - (newYear n + 2) % 7
  · rw [if_pos (by omega), if_pos h1, hprevOne]
    congr 2
    omega
  by_cases h2 : 368 + leapDay (yearOf n) - (newYear n + 367 + leapDay (yearOf n)) % 7 ≤ dayOfYear n
  · rw [if_neg (by omega), if_pos (by omega), if_neg h1, if_pos h2, hnextOne]
    omega
  · rw [if_neg (by omega), if_neg (by omega), if_neg h1, if_neg h2, hone]
    congr 2
    omega

/-- 1 January 2021 is in week 53 of 2020, 30 December 2024 in week 1 of 2025. -/
example : isoWeek 18628 = 53 ∧ isoYear 18628 = 2020 ∧ isoWeek 20087 = 1 ∧ isoYear 20087 = 2025 := by decide

end Gregorian
