/-
# `fmt_dttime`: week numbers

`%U`, `%V` and `%W` reckon the days before the first week of the year from
`tm_yday % 7 + tm_wday`. The weekday of 1 January is the difference of the
two, not their sum, so each directive is right on some days only. Which days
these are depends on the weekday of 1 January and on the day of a week
counted from there, once for the first seven days of the year and once for
all later ones; the tables below list them. For `%V` there is one day more,
a Saturday 1 January, that is right after a leap year.

Key theorems: `fmtDttime_weekOfYear_iff`, `fmtDttime_isoWeek_iff`.
-/
import BlenderBottle.FmtScan
import BlenderBottle.Lib.Weeks

namespace BlenderBottle

open Gregorian CText

/-! ### The days on which a directive is right -/

/-- Days of a week counted from 1 January, a list for each weekday of
1 January from Sunday on. -/
abbrev DayTable := List (List ℤ)

def Listed (T : DayTable) (newYear day : ℤ) : Prop := day ∈ T.getD newYear.toNat []

instance (T : DayTable) (a y : ℤ) : Decidable (Listed T a y) := by unfold Listed; infer_instance

/-- `%U` in the first seven days of the year. -/
def sundaysFirst : DayTable :=
  [[3, 5, 6], [0, 1, 3, 4, 6], [0, 1, 3, 5], [0, 1, 2, 3, 4, 5, 6], [0, 2, 4, 6], [0, 1, 3, 4, 6], [0, 3, 5, 6]]

/-- `%U` later in the year. -/
def sundaysLater : DayTable :=
  [[2, 3, 5, 6], [0, 1, 3, 6], [0, 1, 3, 5, 6], [0, 2, 3, 4, 5, 6], [0, 2, 3, 4, 6], [0, 1, 3, 4, 5, 6], [3, 5, 6]]

/-- `%W` in the first seven days of the year. -/
def mondaysFirst : DayTable :=
  [[0, 3, 5, 6], [5, 6], [0, 1, 3, 4], [0, 1, 2, 3, 5], [0, 1, 2, 3, 4, 6], [0, 1, 2, 4, 6], [0, 1, 3, 6]]

/-- `%W` later in the year. -/
def mondaysLater : DayTable :=
  [[0, 3, 5, 6], [2, 5, 6], [0, 1, 3, 6], [0, 1, 2, 3, 5, 6], [0, 2, 3, 4, 6], [0, 1, 2, 3, 4, 6], [0, 1, 3, 5, 6]]

/-- `%V` in the first seven days of the year, whatever the year before. -/
def isoFirst : DayTable :=
  [[1, 2, 3, 4, 5, 6], [0, 1, 3, 4, 5, 6], [0, 1, 2, 3, 4, 5], [0, 2, 3, 4], [0, 2, 3], [0, 3, 4, 5, 6],
    [2, 3, 4, 5, 6]]

/-- `%V` later in the year. -/
def isoLater : DayTable :=
  [[0, 3, 5, 6], [2, 5, 6], [2, 4, 5], [4], [1], [0, 1, 2, 3, 4, 6], [0, 1, 3, 5, 6]]

/-! ### Weeks from the first week on -/

/-- The common form of `%U` and `%W`: `z` days, then whole weeks. -/
def weekFrom (z yday : ℤ) : ℤ := if yday < z then 0 else (yday + 1 - z).tdiv 7 + 1

theorem weekU_eq_weekFrom (tm : Tm) : weekU tm = weekFrom (7 - (tm.yday.tmod 7 + tm.wday).tmod 7) tm.yday := rfl

theorem weekW_eq_weekFrom (tm : Tm) : weekW tm = weekFrom (zeroweekDays tm) tm.yday := rfl

/-- From the eighth day on the count is that of whole weeks, up to one. -/
theorem tdiv_later {z k : ℤ} (hk : 7 ≤ k) (z1 : z ≤ 7) :
    (k + 1 - z).tdiv 7 + 1 = k / 7 + 1 + (k % 7 + 1 - z) / 7 := by
  rw [Int.tdiv_eq_ediv_of_nonneg (by omega)]
  omega

theorem weekFrom_later {z k : ℤ} (hk : 7 ≤ k) (z1 : z ≤ 7) :
    weekFrom z k = k / 7 + 1 + (k % 7 + 1 - z) / 7 := by
  rw [weekFrom, if_neg (by omega), tdiv_later hk z1]

/-- The days before the first week, by the weekday `a` of 1 January and the
day `k` of the year. -/
def zeroU (a k : ℤ) : ℤ := 7 - (k % 7 + (a + k) % 7) % 7

def zeroW (a k : ℤ) : ℤ := if (k % 7 + (a + k) % 7) % 7 = 0 then 7 else 8 - (k % 7 + (a + k) % 7) % 7

section Later

variable (a k : ℤ)

theorem zeroU_le : zeroU a k ≤ 7 := by unfold zeroU; omega

theorem zeroW_le : zeroW a k ≤ 7 := by unfold zeroW; split_ifs <;> omega

theorem zeroU_mod : zeroU a (k % 7) = zeroU a k := by simp [zeroU]

theorem zeroW_mod : zeroW a (k % 7) = zeroW a k := by simp [zeroW]

end Later

/-- A property of weekdays and days of a week, checked on all of them. -/
theorem forall_week {P : ℤ → ℤ → Prop} (h : ∀ a < 7, ∀ k < 7, P (a : ℕ) (k : ℕ)) {a k : ℤ}
    (a0 : 0 ≤ a) (a1 : a ≤ 6) (k0 : 0 ≤ k) (k1 : k < 7) : P a k := by
  lift a to ℕ using a0
  lift k to ℕ using k0
  exact h a (by omega) k (by omega)

section Tables

variable {a k : ℤ} (a0 : 0 ≤ a) (a1 : a ≤ 6) (k0 : 0 ≤ k)
include a0 a1 k0

/-- `%U` and `%W` against their tables: the first seven days one by one, the
later ones by their place in the week. -/
theorem weekFrom_eq_iff {z : ℤ → ℤ → ℤ} {w : ℤ} {first later : DayTable}
    (hz : ∀ a k, z a k ≤ 7) (hmod : ∀ a k, z a (k % 7) = z a k)
    (hfirst : ∀ a < 7, ∀ k < 7,
      weekFrom (z (a : ℕ) (k : ℕ)) k = weekdayCount w a k ↔ Listed first a k)
    (hlater : ∀ a < 7, ∀ y < 7,
      1 + ((y : ℕ) + 1 - z (a : ℕ) y) / 7 = weekdayCount w a y ↔ Listed later a y) :
    weekFrom (z a k) k = weekdayCount w a k ↔ Listed (if k < 7 then first else later) a (k % 7) := by
  by_cases hk : k < 7
  · rw [if_pos hk, Int.emod_eq_of_lt k0 hk]
    exact forall_week (P := fun a k => weekFrom (z a k) k = weekdayCount w a k ↔ Listed first a k)
      hfirst a0 a1 k0 hk
  · have hday := forall_week (P := fun a y => 1 + (y + 1 - z a y) / 7 = weekdayCount w a y ↔ Listed later a y)
      hlater a0 a1 (show 0 ≤ k % 7 by omega) (by omega)
    rw [if_neg hk, ← hday, weekFrom_later (by omega) (hz a k), hmod]
    unfold weekdayCount
    omega

theorem weekFrom_sundays : weekFrom (zeroU a k) k = weekdayCount 0 a k ↔
    Listed (if k < 7 then sundaysFirst else sundaysLater) a (k % 7) :=
  weekFrom_eq_iff a0 a1 k0 zeroU_le zeroU_mod (by decide) (by decide)

theorem weekFrom_mondays : weekFrom (zeroW a k) k = weekdayCount 1 a k ↔
    Listed (if k < 7 then mondaysFirst else mondaysLater) a (k % 7) :=
  weekFrom_eq_iff a0 a1 k0 zeroW_le zeroW_mod (by decide) (by decide)

end Tables

/-! ### `%V` -/

/-- `%V`, by the weekday of 1 January and the day of the year. -/
def weekVAt (a k : ℤ) : ℤ :=
  if k < zeroW a k ∧ zeroW a k < 4 then 53 else (k + 1 - zeroW a k).tdiv 7 + 1

section Iso

variable {l' l a k : ℤ} (a0 : 0 ≤ a) (a1 : a ≤ 6) (k0 : 0 ≤ k)
include a0 a1

include k0 in
theorem weekVAt_first (hl' : l' = 0 ∨ l' = 1) (hl : l = 0 ∨ l = 1) (hk : k < 7) :
    weekVAt a k = isoWeekAt l' l a k ↔ Listed isoFirst a k ∨ (k = 0 ∧ a = 6 ∧ l' = 1) := by
  have hfirst : ∀ l' ∈ [(0 : ℤ), 1], ∀ l ∈ [(0 : ℤ), 1], ∀ a < 7, ∀ k < 7,
      weekVAt (a : ℕ) (k : ℕ) = isoWeekAt l' l a k ↔
        Listed isoFirst a k ∨ ((k : ℤ) = 0 ∧ (a : ℤ) = 6 ∧ l' = 1) := by decide
  exact forall_week (P := fun a k => weekVAt a k = isoWeekAt l' l a k ↔
    Listed isoFirst a k ∨ (k = 0 ∧ a = 6 ∧ l' = 1)) (hfirst l' (by simpa using hl') l (by simpa using hl))
    a0 a1 k0 hk

/-- The days of December in week 1 are all missed. -/
theorem not_listed_december (hl : l = 0 ∨ l = 1) (h : 368 + l - (a + 367 + l) % 7 ≤ k) (hk : k < 365 + l) :
    ¬ Listed isoLater a (k % 7) := by
  have hend : ∀ l ∈ [(0 : ℤ), 1], ∀ a < 7, ∀ i < 7,
      368 + l - ((a : ℕ) + 367 + l) % 7 ≤ 362 + (i : ℕ) → 362 + i < 365 + l →
        ¬ Listed isoLater a ((362 + i) % 7) := by decide
  have := forall_week (P := fun a i => 368 + l - (a + 367 + l) % 7 ≤ 362 + i → 362 + i < 365 + l →
      ¬ Listed isoLater a ((362 + i) % 7)) (hend l (by simpa using hl)) a0 a1
    (show 0 ≤ k - 362 by omega) (by omega)
  rw [add_sub_cancel] at this
  exact this h hk

theorem weekVAt_later (hl : l = 0 ∨ l = 1) (hk : 7 ≤ k) (hk' : k < 365 + l) :
    weekVAt a k = isoWeekAt l' l a k ↔ Listed isoLater a (k % 7) := by
  have hz := zeroW_le a k
  have hV : weekVAt a k = k / 7 + 1 + (k % 7 + 1 - zeroW a k) / 7 := by
    rw [weekVAt, if_neg (by omega), tdiv_later hk hz]
  rw [hV, isoWeekAt, if_neg (by omega)]
  by_cases hend : 368 + l - (a + 367 + l) % 7 ≤ k
  · rw [if_pos hend]
    exact iff_of_false (by omega) (not_listed_december a0 a1 hl hend hk')
  · have hday := forall_week (P := fun a y => (y + 1 - zeroW a y) / 7 = (y - 3 + (a + 2) % 7) / 7 ↔
      Listed isoLater a y) (by decide) a0 a1 (show 0 ≤ k % 7 by omega) (by omega)
    rw [if_neg hend, ← hday, zeroW_mod]
    omega

end Iso

/-! ### What is printed -/

/-- The local date, as a day number, in the zone of offset `c`. -/
def localDay (c t : ℤ) : ℤ := (t + c) / 86400

section Fixed

variable (c t : ℤ) (tzname : Bool → List Char)

theorem localtime_wday : ((fixedZone c tzname).localtime t).wday =
    (newYear (localDay c t) + dayOfYear (localDay c t)) % 7 :=
  weekday_eq_newYear (localDay c t)

/-- The sum the code takes, by the weekday of 1 January. -/
theorem localtime_weekSum :
    (((fixedZone c tzname).localtime t).yday.tmod 7 + ((fixedZone c tzname).localtime t).wday).tmod 7 =
      (dayOfYear (localDay c t) % 7 + (newYear (localDay c t) + dayOfYear (localDay c t)) % 7) % 7 := by
  have h0 := (dayOfYear_bounds (localDay c t)).1
  rw [localtime_wday, show ((fixedZone c tzname).localtime t).yday = dayOfYear (localDay c t) from rfl,
    Int.tmod_eq_emod_of_nonneg h0, Int.tmod_eq_emod_of_nonneg (by omega)]

theorem weekU_localtime : weekU ((fixedZone c tzname).localtime t) =
    weekFrom (zeroU (newYear (localDay c t)) (dayOfYear (localDay c t))) (dayOfYear (localDay c t)) := by
  rw [weekU_eq_weekFrom, localtime_weekSum]
  rfl

theorem zeroweekDays_localtime : zeroweekDays ((fixedZone c tzname).localtime t) =
    zeroW (newYear (localDay c t)) (dayOfYear (localDay c t)) := by
  simp only [zeroweekDays, localtime_weekSum]
  rfl

theorem weekW_localtime : weekW ((fixedZone c tzname).localtime t) =
    weekFrom (zeroW (newYear (localDay c t)) (dayOfYear (localDay c t))) (dayOfYear (localDay c t)) := by
  rw [weekW_eq_weekFrom, zeroweekDays_localtime]
  rfl

theorem weekV_localtime : weekV ((fixedZone c tzname).localtime t) =
    weekVAt (newYear (localDay c t)) (dayOfYear (localDay c t)) := by
  rw [weekV, zeroweekDays_localtime]
  rfl

/-- **Week of the year.** `%U` prints the number of Sundays, and `%W` that of
Mondays, from 1 January through the local date, just on the days of the
tables. -/
theorem fmtDttime_weekOfYear_iff :
    (fmtDttime (fixedZone c tzname) t (cstr "%U") = some (decZ 2 (weekdaysInYear 0 (localDay c t))) ↔
      Listed (if dayOfYear (localDay c t) < 7 then sundaysFirst else sundaysLater)
        (newYear (localDay c t)) (dayOfYear (localDay c t) % 7)) ∧
    (fmtDttime (fixedZone c tzname) t (cstr "%W") = some (decZ 2 (weekdaysInYear 1 (localDay c t))) ↔
      Listed (if dayOfYear (localDay c t) < 7 then mondaysFirst else mondaysLater)
        (newYear (localDay c t)) (dayOfYear (localDay c t) % 7)) := by
  obtain ⟨a0, a1⟩ := newYear_bounds (localDay c t)
  have k0 := (dayOfYear_bounds (localDay c t)).1
  constructor
  · have hprint : fmtDttime (fixedZone c tzname) t (cstr "%U") = some (decZ 2 _) := fmtDttime_single _ t 'U'
    rw [hprint, Option.some.injEq, decZ_eq_iff (Int.natCast_nonneg _), weekU_localtime,
      weekdaysInYear_eq le_rfl (by norm_num), weekFrom_sundays a0 a1 k0]
  · have hprint : fmtDttime (fixedZone c tzname) t (cstr "%W") = some (decZ 2 _) := fmtDttime_single _ t 'W'
    rw [hprint, Option.some.injEq, decZ_eq_iff (Int.natCast_nonneg _), weekW_localtime,
      weekdaysInYear_eq (by norm_num) (by norm_num), weekFrom_mondays a0 a1 k0]

/-- **ISO weeks.** `%V` prints the ISO 8601 week of the local date just on the
days of the tables, and on a Saturday 1 January after a leap year. -/
theorem fmtDttime_isoWeek_iff :
    fmtDttime (fixedZone c tzname) t (cstr "%V") = some (decZ 2 (isoWeek (localDay c t))) ↔
      Listed (if dayOfYear (localDay c t) < 7 then isoFirst else isoLater)
        (newYear (localDay c t)) (dayOfYear (localDay c t) % 7) ∨
      (dayOfYear (localDay c t) = 0 ∧ newYear (localDay c t) = 6 ∧ IsLeap (yearOf (localDay c t) - 1)) := by
  have hl' := leapDay_cases (yearOf (localDay c t) - 1)
  have hl := leapDay_cases (yearOf (localDay c t))
  obtain ⟨a0, a1⟩ := newYear_bounds (localDay c t)
  obtain ⟨k0, k1⟩ := dayOfYear_bounds (localDay c t)
  have hweek := isoWeekAt_pos (l := leapDay (yearOf (localDay c t))) (a := newYear (localDay c t))
    (show 0 ≤ leapDay (yearOf (localDay c t) - 1) by omega) k0
  have hprint : fmtDttime (fixedZone c tzname) t (cstr "%V") = some (decZ 2 _) := fmtDttime_single _ t 'V'
  rw [hprint, Option.some.injEq, isoWeek_eq, decZ_eq_iff (by omega), weekV_localtime]
  by_cases hk : dayOfYear (localDay c t) < 7
  · rw [weekVAt_first a0 a1 k0 hl' hl hk, if_pos hk, Int.emod_eq_of_lt k0 hk, leapDay_eq_one]
  · rw [weekVAt_later a0 a1 hl (by omega) k1, if_neg hk]
    constructor
    · exact Or.inl
    · rintro (h | ⟨h, -⟩)
      · exact h
      · omega

end Fixed

/-- On 2 January 1970, a Friday before any Sunday of the year, `%U` prints 1. -/
theorem fmtDttime_weekOfYear_early :
    fmtDttime utc 86400 (cstr "%U") = some "01".toList ∧ weekdaysInYear 0 (localDay 0 86400) = 0 := by
  decide +kernel

/-- 1 and 2 January 1970 lie in one week, week 1, and print 1 and 53. -/
theorem fmtDttime_isoWeek_split :
    fmtDttime utc 0 (cstr "%V") = some "01".toList ∧ fmtDttime utc 86400 (cstr "%V") = some "53".toList ∧
      isoWeek (localDay 0 0) = 1 ∧ isoWeek (localDay 0 86400) = 1 := by
  decide +kernel

end BlenderBottle
