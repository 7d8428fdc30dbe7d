/-
# Local fields as moments

In a zone of fixed offset `c` every instant is `p.count - c` for one moment
`p` (`exists_moment`), and the fields `localtime` gives are those of `p`.
`mktime` counts any fields from the first of their month (`timegm_eq`). Both
together turn the functions of `datetime.c` that change the month or the day
into arithmetic on moments (`relocal_moment`).
-/
import BlenderBottle.Datetime
import BlenderBottle.Lib.Months

namespace BlenderBottle

open Gregorian CInt

/-- The zone of offset 0. -/
def utc : Zone := fixedZone 0 fun _ => ['U', 'T', 'C']

/-- The local month of `t`, counted through the years. -/
def Zone.monthIndex (Z : Zone) (t : ℤ) : ℤ := 12 * Z.localYear t + (Z.localtime t).mon

/-- The local month of `t` and `n` add up to an `int`. -/
def Zone.MonthFits (Z : Zone) (t n : ℤ) : Prop := IsInt32 ((Z.localtime t).mon + n)

instance (Z : Zone) (t n : ℤ) : Decidable (Z.MonthFits t n) := by unfold Zone.MonthFits; infer_instance

/-- Two readings of a clock show the same time of day. -/
structure Tm.SameTime (tm tm' : Tm) : Prop where
  hour : tm.hour = tm'.hour
  min : tm.min = tm'.min
  sec : tm.sec = tm'.sec

/-- `t'` lies `n` local months after `t`, on the same day of the month at the
same time of day. -/
structure MonthsLater (Z : Zone) (t n t' : ℤ) : Prop where
  month : Z.monthIndex t' = Z.monthIndex t + n
  mday : (Z.localtime t').mday = (Z.localtime t).mday
  time : (Z.localtime t').SameTime (Z.localtime t)

/-- `mktime` counts days and seconds from the first of a month. -/
theorem timegm_eq (tm : Tm) :
    timegm tm = 86400 * (monthFirst (12 * (tm.year + 1900) + tm.mon) + (tm.mday - 1)) +
      (3600 * tm.hour + 60 * tm.min + tm.sec) := by
  have hq : (12 * (tm.year + 1900) + tm.mon) / 12 = tm.year + 1900 + tm.mon / 12 := by omega
  have hr : (12 * (tm.year + 1900) + tm.mon) % 12 = tm.mon % 12 := by omega
  rw [timegm, monthFirst, hq, hr, dayNumber, dayNumber]
  ring

/-! ### The fields of a moment -/

section Fields

variable (p : Moment)

theorem breakdown_month : 12 * ((breakdown p.count).year + 1900) + (breakdown p.count).mon = p.month := by
  rw [← p.monthIndex_count, monthIndex]
  simp only [breakdown, Civil.ofDay]
  ring

theorem breakdown_mon : (breakdown p.count).mon = p.month % 12 := by
  have := breakdown_month p
  obtain ⟨m0, m1, -, -⟩ := (breakdown_inRange p.count).date
  omega

theorem breakdown_year : (breakdown p.count).year + 1900 = p.month / 12 := by
  have := breakdown_month p
  obtain ⟨m0, m1, -, -⟩ := (breakdown_inRange p.count).date
  omega

theorem breakdown_mday : (breakdown p.count).mday = p.mday := p.mdayOf_count

theorem breakdown_second :
    3600 * (breakdown p.count).hour + 60 * (breakdown p.count).min + (breakdown p.count).sec = p.second := by
  rw [← p.count_mod]
  simp only [breakdown]
  omega

/-- The time of day of a moment is in its second. -/
theorem breakdown_sameTime {p q : Moment} (h : p.second = q.second) :
    (breakdown p.count).SameTime (breakdown q.count) := by
  have hp := p.count_mod
  have hq := q.count_mod
  constructor <;> simp only [breakdown] <;> omega

end Fields

/-! ### Zones of fixed offset -/

section Fixed

variable (c : ℤ) (tzname : Bool → List Char)

theorem exists_moment (t : ℤ) : ∃ p : Moment, t = p.count - c := by
  obtain ⟨p, hp⟩ := momentEquiv.surjective (t + c)
  exact ⟨p, eq_sub_of_add_eq hp.symm⟩

theorem localtime_moment (p : Moment) : (fixedZone c tzname).localtime (p.count - c) = breakdown p.count := by
  simp [fixedZone]

theorem monthIndex_moment (p : Moment) : (fixedZone c tzname).monthIndex (p.count - c) = p.month := by
  rw [Zone.monthIndex, Zone.localYear, localtime_moment]
  exact breakdown_month p

theorem monthFits_moment (p : Moment) (n : ℤ) :
    (fixedZone c tzname).MonthFits (p.count - c) n ↔ IsInt32 (p.month % 12 + n) := by
  rw [Zone.MonthFits, localtime_moment, breakdown_mon]

/-- The local month of the instant `s` seconds into day `n`. -/
theorem monthIndex_day {n s : ℤ} (h0 : 0 ≤ s) (h1 : s < 86400) :
    (fixedZone c tzname).monthIndex (86400 * n + s - c) = Gregorian.monthIndex n := by
  have hp := Moment.count_ofCount (86400 * n + s)
  rw [← hp, monthIndex_moment]
  show Gregorian.monthIndex ((86400 * n + s) / 86400) = _
  congr 1
  omega

/-- Whole days do not change the time of day. -/
theorem sameTime_add_days (t n : ℤ) :
    ((fixedZone c tzname).localtime (t + 86400 * n)).SameTime ((fixedZone c tzname).localtime t) := by
  constructor <;> simp only [fixedZone, breakdown] <;> omega

/-- The days of the week go round. -/
theorem getDow_add_days (t n : ℤ) :
    getDow (fixedZone c tzname) (t + 86400 * n) = (getDow (fixedZone c tzname) t + n) % 7 := by
  simp only [getDow, fixedZone, breakdown, weekday]
  omega

theorem getDow_bounds (t : ℤ) : 0 ≤ getDow (fixedZone c tzname) t ∧ getDow (fixedZone c tzname) t ≤ 6 := by
  simp only [getDow, fixedZone, breakdown, weekday]
  omega

theorem mday_bounds (t : ℤ) :
    1 ≤ ((fixedZone c tzname).localtime t).mday ∧ ((fixedZone c tzname).localtime t).mday ≤ 31 := by
  obtain ⟨p, rfl⟩ := exists_moment c t
  have hd := p.mday_mem
  have hb := monthDays_bounds p.month
  rw [localtime_moment, breakdown_mday]
  omega

/-- A changed month and day, converted back. -/
theorem relocal_moment (p : Moment) (mon mday : Tm → ℤ) :
    relocal (fixedZone c tzname) (p.count - c) (fun tm => { tm with mon := mon tm, mday := mday tm }) =
      86400 * (monthFirst (p.month + (mon (breakdown p.count) - p.month % 12)) +
        (mday (breakdown p.count) - 1)) + p.second - c := by
  have hy := breakdown_year p
  have hk : 12 * ((breakdown p.count).year + 1900) + mon (breakdown p.count) =
      p.month + (mon (breakdown p.count) - p.month % 12) := by omega
  rw [relocal, localtime_moment, ← breakdown_second p, ← hk]
  simp only [fixedZone, timegm_eq]

end Fixed

end BlenderBottle
