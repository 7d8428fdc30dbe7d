/-
# `datetime.c`: instants, their local fields and their packed form

The functions of `lib/datetime.c` that go from `time_t` to local fields and
back, over any `Zone`. The increments and the bounds of a month or a week
are one shape, `relocal`: take the local fields, change some of them, clear
the daylight flag and convert back.

`struct datetime` packs a date as `YYYYMMDD` and a time of day as `HHMM` or
`HHMMSS` into one `int` each; `set_datetime` tells the two forms of the time
apart by its size. In a zone of fixed offset the packed form with seconds
therefore decodes to the same instant exactly when the local hour is not 0
or the time is midnight (`setDatetime_getDatetime_iff`).
-/
import BlenderBottle.Lib.CInt
import BlenderBottle.Tm

namespace BlenderBottle

open Gregorian CInt

/-! ### The increments and bounds -/

/-- The instant whose local fields are those of `time` changed by `f`; the
zone decides about daylight saving. -/
def relocal (Z : Zone) (time : ℤ) (f : Tm → Tm) : ℤ :=
  Z.mktime { f (Z.localtime time) with isdst := -1 }

def addMonths (Z : Zone) (time increment : ℤ) : ℤ :=
  relocal Z time fun tm => { tm with mon := int32 (tm.mon + increment) }

def addYears (Z : Zone) (time increment : ℤ) : ℤ := addMonths Z time (int32 (increment * 12))

def addDays (Z : Zone) (time increment : ℤ) : ℤ :=
  relocal Z time fun tm => { tm with mday := int32 (tm.mday + increment) }

def addSeconds (Z : Zone) (time increment : ℤ) : ℤ :=
  relocal Z time fun tm => { tm with sec := int32 (tm.sec + increment) }

def addMinutes (Z : Zone) (time increment : ℤ) : ℤ := addSeconds Z time (int32 (increment * 60))

def addHours (Z : Zone) (time increment : ℤ) : ℤ := addSeconds Z time (int32 (increment * 60 * 60))

def getMonthStart (Z : Zone) (time : ℤ) : ℤ := relocal Z time fun tm => { tm with mday := 1 }

/-- Day 0 of the next month. -/
def getMonthEnd (Z : Zone) (time : ℤ) : ℤ :=
  relocal Z time fun tm => { tm with mon := int32 (tm.mon + 1), mday := 0 }

/-- Back to the week's Sunday. -/
def getWeekStart (Z : Zone) (time : ℤ) : ℤ :=
  relocal Z time fun tm => { tm with mday := int32 (tm.mday - tm.wday) }

/-- From the week's Sunday on to its Saturday. -/
def getWeekEnd (Z : Zone) (time : ℤ) : ℤ :=
  relocal Z time fun tm => { tm with mday := int32 (tm.mday - tm.wday + 6) }

def getDow (Z : Zone) (time : ℤ) : ℤ := (Z.localtime time).wday

/-! ### The packed form -/

/-- `struct datetime`. -/
structure Datetime where
  date : ℤ
  time : ℤ
  deriving DecidableEq, Repr

/-- The fields `set_datetime` hands to `mktime`. A time over 9999 is read as
`HHMMSS`, any other as `HHMM`. -/
def datetimeTm (idt : Datetime) : Tm :=
  let date := idt.date.tmod 10000
  let time := if 9999 < idt.time then idt.time.tdiv 100 else idt.time
  { year := idt.date.tdiv 10000 - 1900
    mon := date.tdiv 100 - 1
    mday := date.tmod 100
    hour := time.tdiv 100
    min := time.tmod 100
    sec := if 9999 < idt.time then idt.time.tmod 100 else 0
    isdst := -1 }

def setDatetime (Z : Zone) (idt : Datetime) : ℤ :=
  if idt.date = 0 then -1 else Z.mktime (datetimeTm idt)

def getDatetime (Z : Zone) (time getSeconds : ℤ) : Datetime :=
  let tm := Z.localtime time
  let hhmm := tm.hour * 100 + tm.min
  { date := int32 ((tm.year + 1900) * 10000 + (tm.mon + 1) * 100 + tm.mday)
    time := int32 (if getSeconds ≠ 0 then hhmm * 100 + tm.sec else hhmm) }

/-- The date of a year from 0 to 214748, packed, is positive, fits `int` and
is unpacked to itself. -/
theorem pack_date {y m d : ℤ} (h : ValidDate y m d) (h0 : 0 ≤ y) (h1 : y ≤ 214748) :
    0 < int32 (y * 10000 + (m + 1) * 100 + d) ∧
      (int32 (y * 10000 + (m + 1) * 100 + d)).tdiv 10000 = y ∧
      ((int32 (y * 10000 + (m + 1) * 100 + d)).tmod 10000).tdiv 100 = m + 1 ∧
      ((int32 (y * 10000 + (m + 1) * 100 + d)).tmod 10000).tmod 100 = d := by
  obtain ⟨m0, m1, d0, d1⟩ := h
  have := monthLen_bounds y m
  have hr : IsInt32 (y * 10000 + (m + 1) * 100 + d) := ⟨by omega, by omega⟩
  rw [int32_eq hr]
  have hp : 0 ≤ y * 10000 + (m + 1) * 100 + d := by omega
  rw [Int.tmod_eq_emod_of_nonneg hp, Int.tdiv_eq_ediv_of_nonneg hp,
    Int.tdiv_eq_ediv_of_nonneg (by omega), Int.tmod_eq_emod_of_nonneg (by omega)]
  omega

/-- The seconds of the day `set_datetime` reads out of a packed time. -/
def packedSeconds (time : ℤ) : ℤ :=
  3600 * (datetimeTm ⟨0, time⟩).hour + 60 * (datetimeTm ⟨0, time⟩).min + (datetimeTm ⟨0, time⟩).sec

/-- Four digits are hours and minutes. -/
theorem packedSeconds_hhmm {h mi : ℤ} (h0 : 0 ≤ h) (h1 : h < 100) (m0 : 0 ≤ mi) (m1 : mi < 100) :
    packedSeconds (h * 100 + mi) = 3600 * h + 60 * mi := by
  have hle : ¬ 9999 < h * 100 + mi := by omega
  have hp : 0 ≤ h * 100 + mi := by omega
  simp only [packedSeconds, datetimeTm, hle, if_false]
  rw [Int.tdiv_eq_ediv_of_nonneg hp, Int.tmod_eq_emod_of_nonneg hp]
  omega

/-- Five or six digits are hours, minutes and seconds. -/
theorem packedSeconds_hhmmss {h mi s : ℤ} (h0 : 1 ≤ h) (m0 : 0 ≤ mi) (m1 : mi < 100) (s0 : 0 ≤ s)
    (s1 : s < 100) : packedSeconds ((h * 100 + mi) * 100 + s) = 3600 * h + 60 * mi + s := by
  have hlt : 9999 < (h * 100 + mi) * 100 + s := by omega
  have hp : 0 ≤ (h * 100 + mi) * 100 + s := by omega
  simp only [packedSeconds, datetimeTm, hlt, if_true]
  rw [Int.tdiv_eq_ediv_of_nonneg hp, Int.tmod_eq_emod_of_nonneg hp,
    Int.tdiv_eq_ediv_of_nonneg (by omega), Int.tmod_eq_emod_of_nonneg (by omega)]
  omega

section Fixed

variable (c : ℤ) (tzname : Bool → List Char)

/-- What `set_datetime` makes of a packed date and any packed time. -/
theorem setDatetime_packed {y m d : ℤ} (h : ValidDate y m d) (h0 : 0 ≤ y) (h1 : y ≤ 214748) (time : ℤ) :
    setDatetime (fixedZone c tzname) ⟨int32 (y * 10000 + (m + 1) * 100 + d), time⟩ =
      86400 * dayNumber y m d + packedSeconds time - c := by
  obtain ⟨p0, p1, p2, p3⟩ := pack_date h h0 h1
  rw [setDatetime, if_neg p0.ne']
  have hm : (datetimeTm ⟨int32 (y * 10000 + (m + 1) * 100 + d), time⟩).mon = m := by
    simp only [datetimeTm, p2]; ring
  show timegm _ - c = _
  rw [timegm_of_mon (by rw [hm]; exact h.1) (by rw [hm]; exact h.2.1), hm]
  have hy : (datetimeTm ⟨int32 (y * 10000 + (m + 1) * 100 + d), time⟩).year + 1900 = y := by
    simp only [datetimeTm, p1]; ring
  have hd : (datetimeTm ⟨int32 (y * 10000 + (m + 1) * 100 + d), time⟩).mday = d := p3
  rw [hy, hd, packedSeconds]
  simp only [datetimeTm]
  ring

/-- The packed date is decoded to the local day, whatever the time. -/
theorem setDatetime_getDatetime (t s : ℤ) (h0 : 0 ≤ (fixedZone c tzname).localYear t)
    (h1 : (fixedZone c tzname).localYear t ≤ 214748) :
    setDatetime (fixedZone c tzname) (getDatetime (fixedZone c tzname) t s) =
      86400 * ((t + c) / 86400) + packedSeconds (getDatetime (fixedZone c tzname) t s).time - c := by
  have h := setDatetime_packed c tzname (breakdown_inRange (t + c)).date h0 h1
    (getDatetime (fixedZone c tzname) t s).time
  rw [dayNumber_breakdown] at h
  exact h

theorem getDatetime_hhmm (t : ℤ) :
    (getDatetime (fixedZone c tzname) t 0).time = (t + c) / 3600 % 24 * 100 + (t + c) / 60 % 60 := by
  have hr : IsInt32 ((t + c) / 3600 % 24 * 100 + (t + c) / 60 % 60) := ⟨by omega, by omega⟩
  exact int32_eq hr

theorem getDatetime_hhmmss (t : ℤ) :
    (getDatetime (fixedZone c tzname) t 1).time =
      ((t + c) / 3600 % 24 * 100 + (t + c) / 60 % 60) * 100 + (t + c) % 60 := by
  have hr : IsInt32 (((t + c) / 3600 % 24 * 100 + (t + c) / 60 % 60) * 100 + (t + c) % 60) :=
    ⟨by omega, by omega⟩
  exact int32_eq hr

/-- **The packed form with seconds, decoded.** Between 00:00:01 and 00:59:59
the packed time has at most four digits and is read as hours and minutes; at
every other time of day decoding undoes encoding. -/
theorem setDatetime_getDatetime_iff (t : ℤ) (h0 : 0 ≤ (fixedZone c tzname).localYear t)
    (h1 : (fixedZone c tzname).localYear t ≤ 214748) :
    setDatetime (fixedZone c tzname) (getDatetime (fixedZone c tzname) t 1) = t ↔
      (t + c) % 86400 = 0 ∨ 3600 ≤ (t + c) % 86400 := by
  have hc := clock_eq (t + c)
  have hm : 0 ≤ (t + c) / 60 % 60 ∧ (t + c) / 60 % 60 < 60 := by omega
  have hs : 0 ≤ (t + c) % 60 ∧ (t + c) % 60 < 60 := by omega
  rw [setDatetime_getDatetime c tzname t 1 h0 h1, getDatetime_hhmmss]
  generalize (t + c) / 60 % 60 = mi at *
  generalize (t + c) % 60 = s at *
  rcases eq_or_lt_of_le (show 0 ≤ (t + c) / 3600 % 24 by omega) with hz | hpos
  · -- the hour vanishes from the packed time, which is then read as `HHMM`
    rw [← hz, zero_mul, zero_add, packedSeconds_hhmm hm.1 (by omega) hs.1 (by omega)]
    omega
  · rw [packedSeconds_hhmmss (by omega) hm.1 (by omega) hs.1 (by omega)]
    omega

end Fixed

/-- 00:01:00 on the first day, packed as 100, is read as 01:00. -/
theorem setDatetime_getDatetime_past_midnight :
    0 ≤ (fixedZone 0 fun _ => ['U', 'T', 'C']).localYear 60 ∧
      (fixedZone 0 fun _ => ['U', 'T', 'C']).localYear 60 ≤ 214748 ∧
      setDatetime (fixedZone 0 fun _ => ['U', 'T', 'C'])
        (getDatetime (fixedZone 0 fun _ => ['U', 'T', 'C']) 60 1) ≠ 60 := by
  decide

/-- One in the afternoon of the first day, in the zone one hour ahead. -/
theorem setDatetime_getDatetime_afternoon :
    setDatetime (fixedZone 3600 fun _ => ['C', 'E', 'T'])
      (getDatetime (fixedZone 3600 fun _ => ['C', 'E', 'T']) 43200 1) = 43200 :=
  (setDatetime_getDatetime_iff 3600 _ 43200 (by decide) (by decide)).mpr (by decide)

end BlenderBottle
