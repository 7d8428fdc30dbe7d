/-
# Broken-down time and time zones

`struct tm`, and what the C library makes of it: `localtime` and `mktime` of
a time zone. A `Zone` is a pair of such functions; `datetime.c` is modelled
over any of them. In a zone of fixed offset `c` (`fixedZone`), `localtime t`
is the Gregorian breakdown of `t + c` and `mktime` first brings
out-of-range fields into range, as `timegm` does, and then takes the offset
back off.

`time_t` and the fields of `struct tm` are integers here; arithmetic that
`datetime.c` itself does in `int` is wrapped where it is done.
-/
import BlenderBottle.Lib.Gregorian

namespace BlenderBottle

open Gregorian

/-- `struct tm`. Months count from 0, years from 1900, weekdays from Sunday. -/
structure Tm where
  sec : ℤ := 0
  min : ℤ := 0
  hour : ℤ := 0
  mday : ℤ := 0
  mon : ℤ := 0
  year : ℤ := 0
  wday : ℤ := 0
  yday : ℤ := 0
  isdst : ℤ := 0
  deriving DecidableEq, Repr

/-- The Gregorian breakdown of a count of seconds since the epoch. -/
def breakdown (n : ℤ) : Tm :=
  let date := Civil.ofDay (n / 86400)
  { sec := n % 60, min := n / 60 % 60, hour := n / 3600 % 24
    mday := date.mday, mon := date.month, year := date.year - 1900
    wday := weekday (n / 86400), yday := dayOfYear (n / 86400), isdst := 0 }

/-- The seconds since the epoch of the fields of `tm`, whatever their ranges:
months carry into years, and days, hours, minutes and seconds are counted
from the first of the month. -/
def timegm (tm : Tm) : ℤ :=
  86400 * dayNumber (tm.year + 1900 + tm.mon / 12) (tm.mon % 12) tm.mday +
    3600 * tm.hour + 60 * tm.min + tm.sec

/-- The fields `mktime` reads are those of a date and a time of day. -/
structure Tm.InRange (tm : Tm) : Prop where
  date : ValidDate (tm.year + 1900) tm.mon tm.mday
  hour : 0 ≤ tm.hour ∧ tm.hour < 24
  min : 0 ≤ tm.min ∧ tm.min < 60
  sec : 0 ≤ tm.sec ∧ tm.sec < 60

theorem timegm_of_mon {tm : Tm} (h0 : 0 ≤ tm.mon) (h1 : tm.mon ≤ 11) :
    timegm tm = 86400 * dayNumber (tm.year + 1900) tm.mon tm.mday +
      3600 * tm.hour + 60 * tm.min + tm.sec := by
  have hd : tm.mon / 12 = 0 := by omega
  have hm : tm.mon % 12 = tm.mon := by omega
  rw [timegm, hd, hm, add_zero]

/-- Seconds are counted as they are; the daylight flag is not read. -/
theorem timegm_sec (tm : Tm) (sec isdst : ℤ) :
    timegm { tm with sec := sec, isdst := isdst } = timegm tm + (sec - tm.sec) := by
  simp only [timegm]; ring

theorem breakdown_inRange (n : ℤ) : (breakdown n).InRange := by
  refine ⟨?_, ?_, ?_, ?_⟩
  · have := (Civil.ofDay (n / 86400)).valid
    simpa [breakdown] using this
  all_goals simp only [breakdown]; omega

theorem dayNumber_breakdown (n : ℤ) :
    dayNumber ((breakdown n).year + 1900) (breakdown n).mon (breakdown n).mday = n / 86400 := by
  simp only [breakdown, sub_add_cancel]
  exact civilEquiv.right_inv (n / 86400)

theorem clock_eq (n : ℤ) : 3600 * (n / 3600 % 24) + 60 * (n / 60 % 60) + n % 60 = n % 86400 := by
  omega

theorem timegm_breakdown (n : ℤ) : timegm (breakdown n) = n := by
  obtain ⟨m0, m1, -, -⟩ := (breakdown_inRange n).date
  have hc := clock_eq n
  rw [timegm_of_mon m0 m1, dayNumber_breakdown]
  simp only [breakdown]
  omega

theorem breakdown_timegm {tm : Tm} (h : tm.InRange) :
    breakdown (timegm tm) =
      { tm with
        wday := weekday (dayNumber (tm.year + 1900) tm.mon tm.mday)
        yday := dayOfYear (dayNumber (tm.year + 1900) tm.mon tm.mday)
        isdst := 0 } := by
  obtain ⟨hdate, hh, hm, hs⟩ := h
  rw [timegm_of_mon hdate.1 hdate.2.1]
  set day := dayNumber (tm.year + 1900) tm.mon tm.mday with hday
  have hq : (86400 * day + 3600 * tm.hour + 60 * tm.min + tm.sec) / 86400 = day := by omega
  have hc : Civil.ofDay day = ⟨tm.year + 1900, tm.mon, tm.mday, hdate⟩ := civilEquiv.left_inv ⟨_, _, _, hdate⟩
  simp only [breakdown, hq, hc, Tm.mk.injEq, true_and, and_true]
  refine ⟨?_, ?_, ?_, ?_⟩ <;> omega

/-- A time zone, as the C library shows it to the program. -/
structure Zone where
  localtime : ℤ → Tm
  mktime : Tm → ℤ
  /-- `tzname[0]` and, for `true`, `tzname[1]`. -/
  tzname : Bool → List Char

/-- The zone that is `c` seconds ahead of the epoch's at all times. -/
def fixedZone (c : ℤ) (tzname : Bool → List Char) : Zone where
  localtime t := breakdown (t + c)
  mktime tm := timegm tm - c
  tzname := tzname

/-- The local calendar year of `t`. -/
def Zone.localYear (Z : Zone) (t : ℤ) : ℤ := (Z.localtime t).year + 1900

end BlenderBottle
