/-
# `datetime.c`: what the increments add

`add_minutes` and `add_hours` are `add_seconds` of a multiple, `add_years` is
`add_months` of twelve times as many; the wrapping of the multiple disappears
in the wrapping of the sum. In a zone of fixed offset each increment is exact
as long as that one sum is an `int` (`increments_iff`).

`add_months` keeps the day of the month, also where the month it comes to has
no such day; the instant then falls in the month after
(`monthIndex_addMonths`). On the days every month has, it is an action of the
integers on instants (`addMonths_action`).

Key theorems: `increments_iff`, `month_landing_iff`, `addMonths_action`,
`addDays_exact`.
-/
import BlenderBottle.LocalTime

namespace BlenderBottle

open Gregorian CInt

/-! ### Multiples -/

theorem addYears_eq (Z : Zone) (t n : ℤ) : addYears Z t n = addMonths Z t (12 * n) := by
  simp only [addYears, addMonths, int32_add_int32, mul_comm n 12]

theorem addMinutes_eq (Z : Zone) (t n : ℤ) : addMinutes Z t n = addSeconds Z t (60 * n) := by
  simp only [addMinutes, addSeconds, int32_add_int32, mul_comm n 60]

theorem addHours_eq (Z : Zone) (t n : ℤ) : addHours Z t n = addSeconds Z t (3600 * n) := by
  have hn : n * 60 * 60 = 3600 * n := by ring
  simp only [addHours, addSeconds, int32_add_int32, hn]

/-- `n` months added to the local fields in unbounded arithmetic. -/
def shiftMonths (Z : Zone) (time n : ℤ) : ℤ := relocal Z time fun tm => { tm with mon := tm.mon + n }

section Fixed

variable (c : ℤ) (tzname : Bool → List Char)

/-! ### What is added, wrapping included -/

theorem addSeconds_fixed (t n : ℤ) :
    addSeconds (fixedZone c tzname) t n = t +
      (int32 (((fixedZone c tzname).localtime t).sec + n) - ((fixedZone c tzname).localtime t).sec) := by
  show timegm { breakdown (t + c) with sec := _, isdst := -1 } - c = _
  rw [timegm_sec, timegm_breakdown]
  simp only [fixedZone]
  ring

theorem addDays_fixed (t n : ℤ) :
    addDays (fixedZone c tzname) t n = t +
      86400 *
        (int32 (((fixedZone c tzname).localtime t).mday + n) - ((fixedZone c tzname).localtime t).mday) := by
  have h := timegm_breakdown (t + c)
  show timegm { breakdown (t + c) with mday := _, isdst := -1 } - c = _
  rw [timegm_eq] at h ⊢
  simp only [fixedZone]
  linarith

theorem shiftMonths_moment (p : Moment) (n : ℤ) :
    shiftMonths (fixedZone c tzname) (p.count - c) n =
      86400 * (monthFirst (p.month + n) + (p.mday - 1)) + p.second - c := by
  have h := relocal_moment c tzname p (fun tm => tm.mon + n) (fun tm => tm.mday)
  rw [breakdown_mon, breakdown_mday, add_sub_cancel_left] at h
  exact h

theorem addMonths_moment (p : Moment) (n : ℤ) :
    addMonths (fixedZone c tzname) (p.count - c) n =
      86400 * (monthFirst (p.month + (int32 (p.month % 12 + n) - p.month % 12)) + (p.mday - 1)) +
        p.second - c := by
  have h := relocal_moment c tzname p (fun tm => int32 (tm.mon + n)) (fun tm => tm.mday)
  rw [breakdown_mon, breakdown_mday] at h
  exact h

/-! ### Overflow -/

theorem addSeconds_eq_add_iff (t n : ℤ) :
    addSeconds (fixedZone c tzname) t n = t + n ↔
      IsInt32 (((fixedZone c tzname).localtime t).sec + n) := by
  rw [addSeconds_fixed, ← int32_eq_iff]
  omega

/-- Different numbers of months lead to different instants. -/
theorem addMonths_eq_shiftMonths_iff (t n : ℤ) :
    addMonths (fixedZone c tzname) t n = shiftMonths (fixedZone c tzname) t n ↔
      (fixedZone c tzname).MonthFits t n := by
  obtain ⟨p, rfl⟩ := exists_moment c t
  rw [addMonths_moment, shiftMonths_moment, monthFits_moment, ← int32_eq_iff]
  constructor
  · intro h
    have hf : monthFirst (p.month + (int32 (p.month % 12 + n) - p.month % 12)) = monthFirst (p.month + n) := by
      omega
    have := monthFirst_strictMono.injective hf
    omega
  · intro h
    rw [h, add_sub_cancel_left]

/-- **The increments and the range of `int`.** Each increment is exact if and
only if the one sum it is computed by stays in range. -/
theorem increments_iff (t n : ℤ) :
    (addSeconds (fixedZone c tzname) t n = t + n ↔
        IsInt32 (((fixedZone c tzname).localtime t).sec + n)) ∧
      (addMinutes (fixedZone c tzname) t n = t + 60 * n ↔
        IsInt32 (((fixedZone c tzname).localtime t).sec + 60 * n)) ∧
      (addHours (fixedZone c tzname) t n = t + 3600 * n ↔
        IsInt32 (((fixedZone c tzname).localtime t).sec + 3600 * n)) ∧
      (addYears (fixedZone c tzname) t n = shiftMonths (fixedZone c tzname) t (12 * n) ↔
        (fixedZone c tzname).MonthFits t (12 * n)) := by
  rw [addMinutes_eq, addHours_eq, addYears_eq]
  exact ⟨addSeconds_eq_add_iff c tzname t n, addSeconds_eq_add_iff c tzname t (60 * n),
    addSeconds_eq_add_iff c tzname t (3600 * n), addMonths_eq_shiftMonths_iff c tzname t (12 * n)⟩

/-- The seconds of 596524 hours, some 68 years, are over the range of `int`:
the clock goes back. -/
theorem addHours_wraps :
    addHours utc 0 596524 = -2147480896 ∧ addHours utc 0 596524 ≠ 0 + 3600 * 596524 := by
  decide

/-! ### The month `add_months` comes to -/

/-- The month is the one asked for, or the one after if that is too short. -/
theorem monthIndex_addMonths (p : Moment) (n : ℤ) :
    (fixedZone c tzname).monthIndex (addMonths (fixedZone c tzname) (p.count - c) n) =
      if p.mday ≤ monthDays (p.month + (int32 (p.month % 12 + n) - p.month % 12))
      then p.month + (int32 (p.month % 12 + n) - p.month % 12)
      else p.month + (int32 (p.month % 12 + n) - p.month % 12) + 1 := by
  have hd := p.mday_mem
  have hb := monthDays_bounds p.month
  rw [addMonths_moment, monthIndex_day c tzname p.second_mem.1 p.second_mem.2]
  exact monthIndex_carry hd.1 (by omega)

theorem addMonths_lands_iff (t n : ℤ) :
    (fixedZone c tzname).monthIndex (addMonths (fixedZone c tzname) t n) =
        (fixedZone c tzname).monthIndex t + n ↔
      (fixedZone c tzname).MonthFits t n ∧
        ((fixedZone c tzname).localtime t).mday ≤ monthDays ((fixedZone c tzname).monthIndex t + n) := by
  obtain ⟨p, rfl⟩ := exists_moment c t
  rw [monthIndex_addMonths, monthIndex_moment, monthFits_moment, localtime_moment, breakdown_mday]
  by_cases h : IsInt32 (p.month % 12 + n)
  · rw [int32_eq h, add_sub_cancel_left]
    split_ifs with hd
    · exact ⟨fun _ => ⟨h, hd⟩, fun _ => rfl⟩
    · exact ⟨fun he => by omega, fun he => absurd he.2 hd⟩
  · -- the wrapped sum is further off than the one month a carry makes up for
    have hfar : int32 (p.month % 12 + n) ≠ p.month % 12 + n ∧
        int32 (p.month % 12 + n) + 1 ≠ p.month % 12 + n := by
      unfold IsInt32 at h
      unfold int32
      omega
    constructor
    · intro he
      split_ifs at he <;> omega
    · exact fun he => absurd he.1 h

/-- **Landing in the month asked for.** Within the range of `int`, month and
year increments do so if and only if that month has the day of `t`. -/
theorem month_landing_iff (t n : ℤ) :
    ((fixedZone c tzname).monthIndex (addMonths (fixedZone c tzname) t n) =
          (fixedZone c tzname).monthIndex t + n ↔
        (fixedZone c tzname).MonthFits t n ∧
          ((fixedZone c tzname).localtime t).mday ≤ monthDays ((fixedZone c tzname).monthIndex t + n)) ∧
      ((fixedZone c tzname).monthIndex (addYears (fixedZone c tzname) t n) =
          (fixedZone c tzname).monthIndex t + 12 * n ↔
        (fixedZone c tzname).MonthFits t (12 * n) ∧
          ((fixedZone c tzname).localtime t).mday ≤
            monthDays ((fixedZone c tzname).monthIndex t + 12 * n)) := by
  rw [addYears_eq]
  exact ⟨addMonths_lands_iff c tzname t n, addMonths_lands_iff c tzname t (12 * n)⟩

/-- A month after 31 January 1970 is 3 March. -/
theorem month_landing_january :
    utc.MonthFits 2592000 1 ∧ utc.monthIndex (addMonths utc 2592000 1) ≠ utc.monthIndex 2592000 + 1 := by
  decide

/-! ### Days that every month has -/

/-- `add_months` is the action of the integers on early moments. -/
theorem addMonths_early (p : EarlyMoment) {n : ℤ} (hn : (fixedZone c tzname).MonthFits (p.count - c) n) :
    addMonths (fixedZone c tzname) (p.count - c) n = (n +ᵥ p).count - c := by
  rw [monthFits_moment] at hn
  rw [addMonths_moment, int32_eq hn, add_sub_cancel_left, add_comm p.month]
  rfl

theorem monthsLater_early (p : EarlyMoment) (n : ℤ) :
    MonthsLater (fixedZone c tzname) (p.count - c) n ((n +ᵥ p).count - c) where
  month := by
    rw [monthIndex_moment, monthIndex_moment, EarlyMoment.vadd_month, add_comm]
  mday := by
    rw [localtime_moment, localtime_moment, breakdown_mday, breakdown_mday, EarlyMoment.vadd_mday]
  time := by
    rw [localtime_moment, localtime_moment]
    exact breakdown_sameTime rfl

/-- **Month addition is an action of the integers** on the instants whose
local day is at most the 28th. -/
theorem addMonths_action (t : ℤ) (hd : ((fixedZone c tzname).localtime t).mday ≤ 28) :
    (∀ a, (fixedZone c tzname).MonthFits t a →
      MonthsLater (fixedZone c tzname) t a (addMonths (fixedZone c tzname) t a)) ∧
    (∀ a b, (fixedZone c tzname).MonthFits t a →
      (fixedZone c tzname).MonthFits (addMonths (fixedZone c tzname) t a) b →
      (fixedZone c tzname).MonthFits t (a + b) →
      addMonths (fixedZone c tzname) (addMonths (fixedZone c tzname) t a) b =
        addMonths (fixedZone c tzname) t (a + b)) ∧
    addMonths (fixedZone c tzname) t 0 = t ∧
    (∀ a, (fixedZone c tzname).MonthFits t a →
      (fixedZone c tzname).MonthFits (addMonths (fixedZone c tzname) t a) (-a) →
      addMonths (fixedZone c tzname) (addMonths (fixedZone c tzname) t a) (-a) = t) ∧
    ∀ a, (fixedZone c tzname).MonthFits t (12 * a) →
      (fixedZone c tzname).localYear (addYears (fixedZone c tzname) t a) =
          (fixedZone c tzname).localYear t + a ∧
        ((fixedZone c tzname).localtime (addYears (fixedZone c tzname) t a)).mon =
          ((fixedZone c tzname).localtime t).mon ∧
        MonthsLater (fixedZone c tzname) t (12 * a) (addYears (fixedZone c tzname) t a) := by
  obtain ⟨p, rfl⟩ : ∃ p : EarlyMoment, t = p.count - c := by
    obtain ⟨p, rfl⟩ := exists_moment c t
    rw [localtime_moment, breakdown_mday] at hd
    exact ⟨⟨p, hd⟩, rfl⟩
  have zero : (fixedZone c tzname).MonthFits (p.count - c) 0 := by
    rw [monthFits_moment, IsInt32]
    omega
  refine ⟨fun a ha => ?_, fun a b ha hb hab => ?_, ?_, fun a ha hb => ?_, fun a ha => ?_⟩
  · rw [addMonths_early c tzname p ha]
    exact monthsLater_early c tzname p a
  · rw [addMonths_early c tzname p ha] at hb ⊢
    rw [addMonths_early c tzname _ hb, addMonths_early c tzname p hab, vadd_vadd, add_comm b]
  · rw [addMonths_early c tzname p zero, zero_vadd]
  · rw [addMonths_early c tzname p ha] at hb ⊢
    rw [addMonths_early c tzname _ hb, neg_vadd_vadd]
  · rw [addYears_eq, addMonths_early c tzname p ha]
    refine ⟨?_, ?_, monthsLater_early c tzname p (12 * a)⟩
    · simp only [Zone.localYear, localtime_moment, breakdown_year, EarlyMoment.vadd_month]
      omega
    · simp only [localtime_moment, breakdown_mon, EarlyMoment.vadd_month]
      omega

/-- From 1 January 1970 back to December 1968 and on to January 1971, and a
year further on. -/
theorem addMonths_action_new_year :
    MonthsLater utc 0 (-13) (addMonths utc 0 (-13)) ∧
      addMonths utc (addMonths utc 0 (-13)) 25 = addMonths utc 0 (-13 + 25) ∧
      addMonths utc (addMonths utc 0 (-13)) (- -13) = 0 ∧
      utc.localYear (addYears utc 0 1) = utc.localYear 0 + 1 := by
  obtain ⟨later, comp, -, inv, years⟩ := addMonths_action 0 (fun _ => ['U', 'T', 'C']) 0 (by decide)
  exact ⟨later _ (by decide), comp _ _ (by decide) (by decide) (by decide), inv _ (by decide) (by decide),
    (years 1 (by decide)).1⟩

/-! ### Days -/

theorem addDays_of_isInt32 {t n : ℤ} (hn : IsInt32 (((fixedZone c tzname).localtime t).mday + n)) :
    addDays (fixedZone c tzname) t n = t + 86400 * n := by
  rw [addDays_fixed, int32_eq hn, add_sub_cancel_left]

/-- **Day addition is exact** as long as the day of the month and the
increment add up to an `int`; the time of day stays and the day of the week
moves on. -/
theorem addDays_exact (t n : ℤ) (hn : IsInt32 (((fixedZone c tzname).localtime t).mday + n)) :
    addDays (fixedZone c tzname) t n = t + 86400 * n ∧
      (∀ s, (getDatetime (fixedZone c tzname) (addDays (fixedZone c tzname) t n) s).time =
        (getDatetime (fixedZone c tzname) t s).time) ∧
      getDow (fixedZone c tzname) (addDays (fixedZone c tzname) t n) =
        (getDow (fixedZone c tzname) t + n) % 7 := by
  rw [addDays_of_isInt32 c tzname hn]
  refine ⟨rfl, fun s => ?_, getDow_add_days c tzname t n⟩
  obtain ⟨hh, hm, hs⟩ := sameTime_add_days c tzname t n
  simp only [getDatetime, hh, hm, hs]

/-- 400 days before the epoch, a Thursday, was a Wednesday. -/
theorem addDays_exact_back :
    addDays utc 0 (-400) = 0 + 86400 * -400 ∧
      getDow utc (addDays utc 0 (-400)) = (getDow utc 0 + -400) % 7 :=
  have h := addDays_exact 0 (fun _ => ['U', 'T', 'C']) 0 (-400) (by decide)
  ⟨h.1, h.2.2⟩

end Fixed

end BlenderBottle
