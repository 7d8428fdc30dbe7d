/-
# `datetime.c`: the bounds of a month and of a week

`get_month_end` asks for day 0 of the next month and `get_week_start` for a
day of the month that may be 0 or negative; `mktime` finds the day meant. In
a zone of fixed offset the month functions are `Moment.first` and
`Moment.last` (`getMonthStart_moment`, `getMonthEnd_moment`), and the week
functions move by whole days (`getWeekStart_eq`, `getWeekEnd_eq`).

Key theorems: `month_bounds`, `week_bounds`.
-/
import BlenderBottle.Increments

namespace BlenderBottle

open Gregorian CInt

/-- `t'` is day `d` of the local month of `t`, at the time of day of `t`. -/
structure OnDay (Z : Zone) (t d t' : ℤ) : Prop where
  year : (Z.localtime t').year = (Z.localtime t).year
  mon : (Z.localtime t').mon = (Z.localtime t).mon
  mday : (Z.localtime t').mday = d
  time : (Z.localtime t').SameTime (Z.localtime t)

section Fixed

variable (c : ℤ) (tzname : Bool → List Char)

/-! ### Months -/

theorem getMonthStart_moment (p : Moment) :
    getMonthStart (fixedZone c tzname) (p.count - c) = p.first.count - c := by
  have h := relocal_moment c tzname p (fun tm => tm.mon) (fun _ => 1)
  rw [breakdown_mon, sub_self, add_zero] at h
  exact h

theorem getMonthEnd_moment (p : Moment) :
    getMonthEnd (fixedZone c tzname) (p.count - c) = p.last.count - c := by
  have h := relocal_moment c tzname p (fun tm => int32 (tm.mon + 1)) (fun _ => 0)
  have hr : IsInt32 (p.month % 12 + 1) := ⟨by omega, by omega⟩
  rw [breakdown_mon, int32_eq hr, add_sub_cancel_left] at h
  have hl := p.last_count_succ
  calc getMonthEnd (fixedZone c tzname) (p.count - c)
      = 86400 * (monthFirst (p.month + 1) + (0 - 1)) + p.second - c := h
    _ = p.last.count - c := by omega

/-- A day of a moment's own month. -/
theorem onDay_moment (p : Moment) {d : ℤ} (hd : 1 ≤ d ∧ d ≤ monthDays p.month) :
    OnDay (fixedZone c tzname) (p.count - c) d ((p.onDay p.month d hd).count - c) where
  year := by
    have h := breakdown_year (p.onDay p.month d hd)
    have h' := breakdown_year p
    rw [localtime_moment, localtime_moment]
    exact add_right_cancel (h.trans h'.symm)
  mon := by
    rw [localtime_moment, localtime_moment, breakdown_mon, breakdown_mon]
    rfl
  mday := by
    rw [localtime_moment, breakdown_mday]
    rfl
  time := by
    rw [localtime_moment, localtime_moment]
    exact breakdown_sameTime rfl

theorem monthLen_moment (p : Moment) :
    monthLen ((fixedZone c tzname).localYear (p.count - c)) ((fixedZone c tzname).localtime (p.count - c)).mon =
      monthDays p.month := by
  rw [Zone.localYear, localtime_moment, breakdown_year, breakdown_mon, monthDays]

/-- The day after the end of a month is a month after its start. -/
theorem addDays_getMonthEnd (p : Moment) :
    addDays (fixedZone c tzname) (p.last.count - c) 1 =
      addMonths (fixedZone c tzname) (p.first.count - c) 1 := by
  have hd := mday_bounds c tzname (p.last.count - c)
  have hr : IsInt32 (p.first.month % 12 + 1) := ⟨by omega, by omega⟩
  rw [addDays_of_isInt32 c tzname ⟨by omega, by omega⟩, addMonths_moment, int32_eq hr, add_sub_cancel_left]
  have hl := p.last_count_succ
  calc p.last.count - c + 86400 * 1 = 86400 * monthFirst (p.month + 1) + p.second - c := by omega
    _ = 86400 * (monthFirst (p.first.month + 1) + (p.first.mday - 1)) + p.first.second - c := by
        simp only [Moment.first, Moment.onDay]
        ring

/-- **The bounds of a month.** They are the first and the last day of the
month of `t` at the time of day of `t`, on either side of `t`, and each
function undoes the other. -/
theorem month_bounds (t : ℤ) :
    OnDay (fixedZone c tzname) t 1 (getMonthStart (fixedZone c tzname) t) ∧
      OnDay (fixedZone c tzname) t
        (monthLen ((fixedZone c tzname).localYear t) ((fixedZone c tzname).localtime t).mon)
        (getMonthEnd (fixedZone c tzname) t) ∧
      getMonthStart (fixedZone c tzname) t ≤ t ∧ t ≤ getMonthEnd (fixedZone c tzname) t ∧
      getMonthStart (fixedZone c tzname) (getMonthStart (fixedZone c tzname) t) =
        getMonthStart (fixedZone c tzname) t ∧
      getMonthEnd (fixedZone c tzname) (getMonthEnd (fixedZone c tzname) t) =
        getMonthEnd (fixedZone c tzname) t ∧
      getMonthStart (fixedZone c tzname) (getMonthEnd (fixedZone c tzname) t) =
        getMonthStart (fixedZone c tzname) t ∧
      getMonthEnd (fixedZone c tzname) (getMonthStart (fixedZone c tzname) t) =
        getMonthEnd (fixedZone c tzname) t ∧
      addDays (fixedZone c tzname) (getMonthEnd (fixedZone c tzname) t) 1 =
        addMonths (fixedZone c tzname) (getMonthStart (fixedZone c tzname) t) 1 := by
  obtain ⟨p, rfl⟩ := exists_moment c t
  have hf := p.first_le
  have hl := p.le_last
  rw [monthLen_moment, getMonthStart_moment, getMonthEnd_moment]
  refine ⟨onDay_moment c tzname p _, onDay_moment c tzname p _, by omega, by omega, ?_, ?_, ?_, ?_,
    addDays_getMonthEnd c tzname p⟩
  · rw [getMonthStart_moment]; rfl
  · rw [getMonthEnd_moment]; rfl
  · rw [getMonthStart_moment]; rfl
  · rw [getMonthEnd_moment]; rfl

/-! ### Weeks -/

theorem getWeekStart_addDays (Z : Zone) (t : ℤ) : getWeekStart Z t = addDays Z t (-getDow Z t) := by
  simp only [getWeekStart, addDays, relocal, getDow, sub_eq_add_neg]

theorem getWeekEnd_addDays (Z : Zone) (t : ℤ) : getWeekEnd Z t = addDays Z t (6 - getDow Z t) := by
  simp only [getWeekEnd, addDays, relocal, getDow, sub_add_eq_add_sub, add_sub_assoc]

/-- Days a week or so away are in the range of `int`. -/
theorem addDays_near (t : ℤ) {n : ℤ} (h0 : -7 ≤ n) (h1 : n ≤ 7) :
    addDays (fixedZone c tzname) t n = t + 86400 * n := by
  have hd := mday_bounds c tzname t
  exact addDays_of_isInt32 c tzname ⟨by omega, by omega⟩

theorem getWeekStart_eq (t : ℤ) :
    getWeekStart (fixedZone c tzname) t = t + 86400 * -getDow (fixedZone c tzname) t := by
  have hw := getDow_bounds c tzname t
  rw [getWeekStart_addDays, addDays_near c tzname t (by omega) (by omega)]

theorem getWeekEnd_eq (t : ℤ) :
    getWeekEnd (fixedZone c tzname) t = t + 86400 * (6 - getDow (fixedZone c tzname) t) := by
  have hw := getDow_bounds c tzname t
  rw [getWeekEnd_addDays, addDays_near c tzname t (by omega) (by omega)]

/-- **The bounds of a week.** They are its Sunday and its Saturday at the
time of day of `t`, and every day of the week has the same ones. -/
theorem week_bounds (t : ℤ) :
    getDow (fixedZone c tzname) (getWeekStart (fixedZone c tzname) t) = 0 ∧
      getDow (fixedZone c tzname) (getWeekEnd (fixedZone c tzname) t) = 6 ∧
      t - getWeekStart (fixedZone c tzname) t = 86400 * getDow (fixedZone c tzname) t ∧
      getWeekEnd (fixedZone c tzname) t = getWeekStart (fixedZone c tzname) t + 6 * 86400 ∧
      getWeekStart (fixedZone c tzname) (getWeekStart (fixedZone c tzname) t) =
        getWeekStart (fixedZone c tzname) t ∧
      getWeekEnd (fixedZone c tzname) (getWeekEnd (fixedZone c tzname) t) =
        getWeekEnd (fixedZone c tzname) t ∧
      ∀ k, 0 ≤ k → k ≤ 6 →
        getWeekStart (fixedZone c tzname)
            (addDays (fixedZone c tzname) (getWeekStart (fixedZone c tzname) t) k) =
          getWeekStart (fixedZone c tzname) t := by
  have hs := getWeekStart_eq c tzname t
  have he := getWeekEnd_eq c tzname t
  have sunday : getDow (fixedZone c tzname) (getWeekStart (fixedZone c tzname) t) = 0 := by
    rw [hs, getDow_add_days]
    simp
  have saturday : getDow (fixedZone c tzname) (getWeekEnd (fixedZone c tzname) t) = 6 := by
    rw [he, getDow_add_days]
    simp
  refine ⟨sunday, saturday, by omega, by omega, ?_, ?_, fun k k0 k1 => ?_⟩
  · rw [getWeekStart_eq, sunday, neg_zero, mul_zero, add_zero]
  · rw [getWeekEnd_eq, saturday, sub_self, mul_zero, add_zero]
  · -- `k` days after a Sunday the day of the week is `k`
    rw [addDays_near c tzname _ (by omega) (by omega), getWeekStart_eq, getDow_add_days, sunday, zero_add,
      Int.emod_eq_of_lt k0 (by omega)]
    ring

/-- The week of 1 January 1970, a Thursday, begins in the year before. -/
theorem week_bounds_new_year :
    getWeekStart utc (addDays utc (getWeekStart utc 0) 5) = getWeekStart utc 0 :=
  (week_bounds 0 (fun _ => ['U', 'T', 'C']) 0).2.2.2.2.2.2 5 (by decide) (by decide)

end Fixed

end BlenderBottle
