/-
# `datetime.c`: dates as text

`fmt_dttime` prints the local fields of an instant under a format string, and
`set_yyyymmdd_datetime` reads `YYYYMMDD`, `YYYYMMDD HHMM` or
`YYYYMMDD HHMMSS`. The reader cuts its copy of the text from the right with
NULs and calls `atoi` at fixed offsets; each call sees exactly one field
(`yyyymmddTm_stamp`), so printer and reader are inverse to each other on the
years of four digits (`fmtDttime_setYyyymmddDatetime`).

The format is read from memory: its bytes, the NUL and whatever follows it.
A scan that runs out of the memory given has no result.
-/
import BlenderBottle.Lib.CInt
import BlenderBottle.Lib.CText
import BlenderBottle.Tm

namespace BlenderBottle

open Gregorian CInt CText

/-! ### The printer -/

def abbDays : List String := ["Sun", "Mon", "Tue", "Wed", "Thu", "Fri", "Sat"]

def fullDays : List String :=
  ["Sunday", "Monday", "Tuesday", "Wednesday", "Thursday", "Friday", "Saturday"]

def abbMonths : List String :=
  ["Jan", "Feb", "Mar", "Apr", "May", "Jun", "Jul", "Aug", "Sep", "Oct", "Nov", "Dec"]

def fullMonths : List String :=
  ["January", "February", "March", "April", "May", "June",
    "July", "August", "September", "October", "November", "December"]

/-- The entry of a table of names at an index of the fields of `localtime`. -/
def nameAt (names : List String) (i : ℤ) : List Char := (names.getD i.toNat "").toList

/-- The year of four digits of `tm`. -/
def fullYear (tm : Tm) : ℤ := int32 (tm.year + 1900)

/-- `%U`: the days of the year before its first week, then whole weeks. -/
def weekU (tm : Tm) : ℤ :=
  let zeroweekDays := 7 - (tm.yday.tmod 7 + tm.wday).tmod 7
  if tm.yday < zeroweekDays then 0 else (tm.yday + 1 - zeroweekDays).tdiv 7 + 1

/-- The days before the first week, as `%V` and `%W` reckon it. -/
def zeroweekDays (tm : Tm) : ℤ :=
  let z := (tm.yday.tmod 7 + tm.wday).tmod 7
  if z = 0 then 7 else 8 - z

/-- `%V`. -/
def weekV (tm : Tm) : ℤ :=
  if tm.yday < zeroweekDays tm ∧ zeroweekDays tm < 4 then 53
  else (tm.yday + 1 - zeroweekDays tm).tdiv 7 + 1

/-- `%W`. -/
def weekW (tm : Tm) : ℤ :=
  if tm.yday < zeroweekDays tm then 0 else (tm.yday + 1 - zeroweekDays tm).tdiv 7 + 1

/-- `HH:MM`. -/
def clockText (tm : Tm) : List Char := decZ 2 tm.hour ++ ':' :: decZ 2 tm.min

/-- `YYYYMMDD`. -/
def dateText (tm : Tm) : List Char := decZ 4 (fullYear tm) ++ decZ 2 (tm.mon + 1) ++ decZ 2 tm.mday

/-- What the `switch` of `fmt_dttime` writes for the byte after a `%`. -/
def directive (Z : Zone) (tm : Tm) (d : Char) : List Char :=
  match d with
  | 'a' => nameAt abbDays tm.wday
  | 'A' => nameAt fullDays tm.wday
  | 'b' => nameAt abbMonths tm.mon
  | 'B' => nameAt fullMonths tm.mon
  | 'c' => dateText tm ++ ' ' :: (decZ 2 tm.hour ++ decZ 2 tm.min)
  | 'C' => decZ 2 ((fullYear tm).tdiv 100)
  | 'd' => decZ 2 tm.mday
  | 'e' => padLeft 2 (dec tm.mday)
  | 'H' => decZ 2 tm.hour
  | 'I' => decZ 2 (if tm.hour = 0 then 12 else tm.hour.tmod 12)
  | 'j' => decZ 3 (tm.yday + 1)
  | 'm' => decZ 2 (tm.mon + 1)
  | 'M' => decZ 2 tm.min
  | 'n' => ['\n']
  | 'p' => if tm.hour < 12 then ['A', 'M'] else ['P', 'M']
  -- no `break` after this case: it runs on into `R`
  | 'Q' => decZ 4 (fullYear tm) ++ '-' :: (decZ 2 (tm.mon + 1) ++ '-' :: decZ 2 tm.mday) ++ clockText tm
  | 'R' => clockText tm
  | 'S' => decZ 2 tm.sec
  | 't' => ['\t']
  | 'u' => dec (if tm.wday = 0 then 7 else tm.wday)
  | 'U' => decZ 2 (weekU tm)
  | 'V' => decZ 2 (weekV tm)
  | 'w' => dec tm.wday
  | 'W' => decZ 2 (weekW tm)
  | 'x' => dateText tm
  | 'X' => decZ 2 tm.hour ++ decZ 2 tm.min
  | 'y' => decZ 2 (tm.year.tmod 100)
  | 'Y' => decZ 4 (fullYear tm)
  | 'Z' => padLeft 3 (Z.tzname (decide (tm.isdst = 1)))
  | _ => []

/-- The scanning loop: literal bytes are copied, a `%` takes the next byte as
its directive, whichever byte that is. -/
def fmtScan (Z : Zone) (tm : Tm) : List Char → Option (List Char)
  | [] => none
  | c :: ip =>
    if c = '\x00' then some []
    else if c ≠ '%' then (fmtScan Z tm ip).map (c :: ·)
    else match ip with
      | [] => none
      | d :: ip => (fmtScan Z tm ip).map (directive Z tm d ++ ·)

/-- The text `fmt_dttime` writes before its NUL. -/
def fmtDttime (Z : Zone) (time : ℤ) (format : List Char) : Option (List Char) :=
  fmtScan Z (Z.localtime time) format

/-! ### The reader -/

/-- The fields `set_yyyymmdd_datetime` hands to `mktime`. `datetime` is the
copy it cuts; the seconds are read from the original. -/
def yyyymmddTm (dt : List Char) : Tm :=
  let datetime := dt ++ ['\x00']
  let sec := if dt.length = 15 then atoi ((dt ++ ['\x00']).drop 13) else 0
  let datetime := if dt.length = 15 then datetime.set 13 '\x00' else datetime
  let min := if 8 < dt.length then atoi (datetime.drop 11) else 0
  let datetime := if 8 < dt.length then datetime.set 11 '\x00' else datetime
  let hour := if 8 < dt.length then atoi (datetime.drop 9) else 0
  let datetime := if 8 < dt.length then datetime.set 8 '\x00' else datetime
  let mday := atoi (datetime.drop 6)
  let datetime := datetime.set 6 '\x00'
  let mon := atoi (datetime.drop 4) - 1
  let datetime := datetime.set 4 '\x00'
  { sec, min, hour, mday, mon, year := atoi datetime - 1900, isdst := -1 }

/-- `dt` is the string without its NUL. Its length is kept in an `int`; a
longer text that passes the test is copied past the end of `datetime`. -/
def setYyyymmddDatetime (Z : Zone) (dt : List Char) : Option ℤ :=
  let len := int32 dt.length
  if len ≠ 8 ∧ len ≠ 13 ∧ len ≠ 15 then some (-1)
  else if 16 ≤ dt.length then none
  else some (Z.mktime (yyyymmddTm dt))

section Length

variable (Z : Zone) {dt : List Char}

theorem setYyyymmddDatetime_of_length (h : dt.length = 8 ∨ dt.length = 13 ∨ dt.length = 15) :
    setYyyymmddDatetime Z dt = some (Z.mktime (yyyymmddTm dt)) := by
  have hr : IsInt32 dt.length := ⟨by omega, by omega⟩
  simp only [setYyyymmddDatetime, int32_eq hr]
  rw [if_neg (by omega), if_neg (by omega)]

theorem setYyyymmddDatetime_refused
    (h : int32 dt.length ≠ 8 ∧ int32 dt.length ≠ 13 ∧ int32 dt.length ≠ 15) :
    setYyyymmddDatetime Z dt = some (-1) := by
  simp only [setYyyymmddDatetime]
  rw [if_pos h]

/-- A text of another length is refused, or taken for one of the three and
copied too far. -/
theorem setYyyymmddDatetime_overrun (h : ¬ (dt.length = 8 ∨ dt.length = 13 ∨ dt.length = 15))
    (hp : ¬ (int32 dt.length ≠ 8 ∧ int32 dt.length ≠ 13 ∧ int32 dt.length ≠ 15)) :
    setYyyymmddDatetime Z dt = none := by
  have hlong : 16 ≤ dt.length := by
    by_contra hlt
    rw [int32_eq ⟨by omega, by omega⟩] at hp
    omega
  simp only [setYyyymmddDatetime]
  rw [if_neg hp, if_pos hlong]

end Length

/-! ### One field for each call of `atoi` -/

theorem length_eq_four {s : List Char} (h : s.length = 4) : ∃ a b c d, s = [a, b, c, d] := by
  match s, h with
  | [a, b, c, d], _ => exact ⟨a, b, c, d, rfl⟩

theorem atoi_two (a b : Char) (r : List Char) : atoi (a :: b :: '\x00' :: r) = atoi [a, b] :=
  atoi_append_nul [a, b] r

theorem atoi_four (a b c d : Char) (r : List Char) :
    atoi (a :: b :: c :: d :: '\x00' :: r) = atoi [a, b, c, d] :=
  atoi_append_nul [a, b, c, d] r

section Reader

variable {Y M D H I S : List Char} (hY : Y.length = 4) (hM : M.length = 2) (hD : D.length = 2)
include hY hM hD

theorem yyyymmddTm_date :
    yyyymmddTm (Y ++ M ++ D) =
      { mday := atoi D, mon := atoi M - 1, year := atoi Y - 1900, isdst := -1 } := by
  obtain ⟨y1, y2, y3, y4, rfl⟩ := length_eq_four hY
  obtain ⟨m1, m2, rfl⟩ := List.length_eq_two.mp hM
  obtain ⟨d1, d2, rfl⟩ := List.length_eq_two.mp hD
  simp [yyyymmddTm, atoi_two, atoi_four]

variable (hH : H.length = 2) (hI : I.length = 2) (sep : Char)
include hH hI

theorem yyyymmddTm_minute :
    yyyymmddTm (Y ++ M ++ D ++ sep :: (H ++ I)) =
      { min := atoi I, hour := atoi H, mday := atoi D, mon := atoi M - 1, year := atoi Y - 1900
        isdst := -1 } := by
  obtain ⟨y1, y2, y3, y4, rfl⟩ := length_eq_four hY
  obtain ⟨m1, m2, rfl⟩ := List.length_eq_two.mp hM
  obtain ⟨d1, d2, rfl⟩ := List.length_eq_two.mp hD
  obtain ⟨h1, h2, rfl⟩ := List.length_eq_two.mp hH
  obtain ⟨i1, i2, rfl⟩ := List.length_eq_two.mp hI
  simp [yyyymmddTm, atoi_two, atoi_four]

theorem yyyymmddTm_stamp (hS : S.length = 2) :
    yyyymmddTm (Y ++ M ++ D ++ sep :: (H ++ I ++ S)) =
      { sec := atoi S, min := atoi I, hour := atoi H, mday := atoi D, mon := atoi M - 1
        year := atoi Y - 1900, isdst := -1 } := by
  obtain ⟨y1, y2, y3, y4, rfl⟩ := length_eq_four hY
  obtain ⟨m1, m2, rfl⟩ := List.length_eq_two.mp hM
  obtain ⟨d1, d2, rfl⟩ := List.length_eq_two.mp hD
  obtain ⟨h1, h2, rfl⟩ := List.length_eq_two.mp hH
  obtain ⟨i1, i2, rfl⟩ := List.length_eq_two.mp hI
  obtain ⟨s1, s2, rfl⟩ := List.length_eq_two.mp hS
  simp [yyyymmddTm, atoi_two, atoi_four]

end Reader

/-! ### The reader undoes the printer -/

theorem fmtDttime_stamp (Z : Zone) (t : ℤ) :
    fmtDttime Z t (cstr "%x %X%S") = some (dateText (Z.localtime t) ++
      ' ' :: (decZ 2 (Z.localtime t).hour ++ decZ 2 (Z.localtime t).min ++ decZ 2 (Z.localtime t).sec)) := by
  simp [fmtDttime, fmtScan, cstr, directive]

theorem fmtDttime_minute (Z : Zone) (t : ℤ) :
    fmtDttime Z t (cstr "%c") = some (dateText (Z.localtime t) ++
      ' ' :: (decZ 2 (Z.localtime t).hour ++ decZ 2 (Z.localtime t).min)) := by
  simp [fmtDttime, fmtScan, cstr, directive]

theorem fmtDttime_date (Z : Zone) (t : ℤ) :
    fmtDttime Z t (cstr "%x") = some (dateText (Z.localtime t)) := by
  simp [fmtDttime, fmtScan, cstr, directive]

section RoundTrip

variable {tm : Tm} (h : tm.InRange) (h0 : 0 ≤ tm.year + 1900) (h1 : tm.year + 1900 ≤ 9999)

include h0 h1 in
theorem fullYear_eq : fullYear tm = tm.year + 1900 := int32_eq ⟨by omega, by omega⟩

include h h0 h1

/-- The printed fields of a year of four digits, read back: every width is
the one the reader's offsets expect. -/
theorem setYyyymmddDatetime_printed (Z : Zone) :
    setYyyymmddDatetime Z (dateText tm ++ ' ' :: (decZ 2 tm.hour ++ decZ 2 tm.min ++ decZ 2 tm.sec)) =
        some (Z.mktime { tm with wday := 0, yday := 0, isdst := -1 }) ∧
      setYyyymmddDatetime Z (dateText tm ++ ' ' :: (decZ 2 tm.hour ++ decZ 2 tm.min)) =
        some (Z.mktime { tm with sec := 0, wday := 0, yday := 0, isdst := -1 }) ∧
      setYyyymmddDatetime Z (dateText tm) =
        some (Z.mktime { tm with sec := 0, min := 0, hour := 0, wday := 0, yday := 0, isdst := -1 }) := by
  obtain ⟨⟨m0, m1, d0, d1⟩, hh, hm, hs⟩ := h
  have := monthLen_bounds (tm.year + 1900) tm.mon
  have hY : (decZ 4 (tm.year + 1900)).length = 4 := length_decZ (by norm_num) h0 (by omega)
  have hM := length_twoDigits (n := tm.mon + 1) (by omega) (by omega)
  have hD := length_twoDigits (n := tm.mday) (by omega) (by omega)
  have hH := length_twoDigits hh.1 (by omega)
  have hI := length_twoDigits hm.1 (by omega)
  have hS := length_twoDigits hs.1 (by omega)
  simp only [dateText, fullYear_eq h0 h1]
  rw [setYyyymmddDatetime_of_length Z (by simp [hY, hM, hD, hH, hI, hS]),
    setYyyymmddDatetime_of_length Z (by simp [hY, hM, hD, hH, hI]),
    setYyyymmddDatetime_of_length Z (by simp [hY, hM, hD])]
  rw [yyyymmddTm_stamp hY hM hD hH hI _ hS, yyyymmddTm_minute hY hM hD hH hI, yyyymmddTm_date hY hM hD]
  simp [atoi_decZ h0, atoi_decZ (show 0 ≤ tm.mon + 1 by omega),
    atoi_decZ (show 0 ≤ tm.mday by omega), atoi_decZ hh.1, atoi_decZ hm.1, atoi_decZ hs.1]

end RoundTrip

/-- A text `YYYYMMDD HHMMSS` of digits that name a date and a time of day. -/
structure Stamp where
  year : List Char
  mon : List Char
  mday : List Char
  hour : List Char
  min : List Char
  sec : List Char
  year_len : year.length = 4
  len : ∀ f ∈ [mon, mday, hour, min, sec], f.length = 2
  digits : ∀ f ∈ [year, mon, mday, hour, min, sec], AllDigits f
  date : ValidDate (Nat.ofDigitChars 10 year 0) (Nat.ofDigitChars 10 mon 0 - 1) (Nat.ofDigitChars 10 mday 0)
  hour_lt : Nat.ofDigitChars 10 hour 0 < 24
  min_lt : Nat.ofDigitChars 10 min 0 < 60
  sec_lt : Nat.ofDigitChars 10 sec 0 < 60

namespace Stamp

variable (s : Stamp)

def text : List Char := s.year ++ s.mon ++ s.mday ++ ' ' :: (s.hour ++ s.min ++ s.sec)

/-- The fields a stamp names. -/
def tm : Tm where
  sec := Nat.ofDigitChars 10 s.sec 0
  min := Nat.ofDigitChars 10 s.min 0
  hour := Nat.ofDigitChars 10 s.hour 0
  mday := Nat.ofDigitChars 10 s.mday 0
  mon := Nat.ofDigitChars 10 s.mon 0 - 1
  year := Nat.ofDigitChars 10 s.year 0 - 1900
  isdst := -1

theorem tm_inRange : s.tm.InRange where
  date := by simpa [tm] using s.date
  hour := ⟨Int.natCast_nonneg _, by simp only [tm]; exact_mod_cast s.hour_lt⟩
  min := ⟨Int.natCast_nonneg _, by simp only [tm]; exact_mod_cast s.min_lt⟩
  sec := ⟨Int.natCast_nonneg _, by simp only [tm]; exact_mod_cast s.sec_lt⟩

theorem lengths : s.mon.length = 2 ∧ s.mday.length = 2 ∧ s.hour.length = 2 ∧ s.min.length = 2 ∧
    s.sec.length = 2 := by
  simpa only [List.forall_mem_cons, List.not_mem_nil, false_imp_iff, forall_const, and_true] using s.len

theorem allDigits : AllDigits s.year ∧ AllDigits s.mon ∧ AllDigits s.mday ∧ AllDigits s.hour ∧
    AllDigits s.min ∧ AllDigits s.sec := by
  simpa only [List.forall_mem_cons, List.not_mem_nil, false_imp_iff, forall_const, and_true] using s.digits

theorem length_text : s.text.length = 15 := by
  obtain ⟨l1, l2, l3, l4, l5⟩ := s.lengths
  simp [text, s.year_len, l1, l2, l3, l4, l5]

theorem yyyymmddTm_text : yyyymmddTm s.text = s.tm := by
  obtain ⟨l1, l2, l3, l4, l5⟩ := s.lengths
  obtain ⟨d0, d1, d2, d3, d4, d5⟩ := s.allDigits
  rw [text, yyyymmddTm_stamp s.year_len l1 l2 l3 l4 _ l5, atoi_digits d0, atoi_digits d1, atoi_digits d2,
    atoi_digits d3, atoi_digits d4, atoi_digits d5]
  rfl

/-- The fields of a stamp print as its text. -/
theorem printed :
    decZ 4 (s.tm.year + 1900) ++ decZ 2 (s.tm.mon + 1) ++ decZ 2 s.tm.mday ++
      ' ' :: (decZ 2 s.tm.hour ++ decZ 2 s.tm.min ++ decZ 2 s.tm.sec) = s.text := by
  obtain ⟨l1, l2, l3, l4, l5⟩ := s.lengths
  obtain ⟨d0, d1, d2, d3, d4, d5⟩ := s.allDigits
  have field : ∀ {w : ℕ} {f : List Char}, AllDigits f → f.length = w + 1 →
      decZ (w + 1) (Nat.ofDigitChars 10 f 0) = f := by
    intro w f hf hw
    rw [← hw]
    exact decZ_ofDigitChars hf (by rintro rfl; simp at hw)
  simp only [tm, text, sub_add_cancel, field d0 s.year_len, field d1 l1, field d2 l2, field d3 l3,
    field d4 l4, field d5 l5]

end Stamp

/-- **Printed dates and the reader are inverse to each other** in every zone
of fixed offset, on the years of four digits. -/
theorem fmtDttime_setYyyymmddDatetime (c : ℤ) (tzname : Bool → List Char) :
    (∀ t, 0 ≤ (fixedZone c tzname).localYear t → (fixedZone c tzname).localYear t ≤ 9999 →
      (fmtDttime (fixedZone c tzname) t (cstr "%x %X%S")).bind (setYyyymmddDatetime (fixedZone c tzname)) =
          some t ∧
        (fmtDttime (fixedZone c tzname) t (cstr "%c")).bind (setYyyymmddDatetime (fixedZone c tzname)) =
          some (t - ((fixedZone c tzname).localtime t).sec) ∧
        (fmtDttime (fixedZone c tzname) t (cstr "%x")).bind (setYyyymmddDatetime (fixedZone c tzname)) =
          some (t - (t + c) % 86400)) ∧
    ∀ s : Stamp, ((setYyyymmddDatetime (fixedZone c tzname) s.text).bind fun t =>
      fmtDttime (fixedZone c tzname) t (cstr "%x %X%S")) = some s.text := by
  refine ⟨fun t h0 h1 => ?_, fun s => ?_⟩
  · have hR := breakdown_inRange (t + c)
    have hn := timegm_breakdown (t + c)
    rw [timegm_of_mon hR.date.1 hR.date.2.1] at hn
    obtain ⟨p1, p2, p3⟩ := setYyyymmddDatetime_printed hR h0 h1 (fixedZone c tzname)
    obtain ⟨⟨m0, m1, -, -⟩, hh, hm, hs⟩ := hR
    have hloc : (fixedZone c tzname).localtime t = breakdown (t + c) := rfl
    rw [fmtDttime_stamp, fmtDttime_minute, fmtDttime_date, Option.bind_some, Option.bind_some,
      Option.bind_some, hloc, p1, p2, p3]
    simp only [Option.some.injEq]
    -- the instants differ by the fields the text leaves out
    refine ⟨?_, ?_, ?_⟩ <;> simp only [fixedZone] <;> rw [timegm_of_mon (by exact m0) (by exact m1)] <;>
      simp only <;> omega
  · have hset : setYyyymmddDatetime (fixedZone c tzname) s.text = some (timegm s.tm - c) := by
      have hl := s.length_text
      rw [setYyyymmddDatetime_of_length _ (by omega), s.yyyymmddTm_text]
      rfl
    have hloc : (fixedZone c tzname).localtime (timegm s.tm - c) = breakdown (timegm s.tm) := by
      simp [fixedZone]
    have hy : fullYear s.tm = s.tm.year + 1900 := by
      have := ofDigitChars_lt s.allDigits.1
      rw [s.year_len] at this
      apply fullYear_eq <;> simp only [Stamp.tm] <;> omega
    rw [hset, Option.bind_some, fmtDttime_stamp, hloc, breakdown_timegm s.tm_inRange, ← s.printed, ← hy]
    rfl

/-- 29 February 2024, 23:59:58 in the zone one hour ahead. -/
theorem fmtDttime_setYyyymmddDatetime_leap_day :
    (fmtDttime (fixedZone 3600 fun _ => ['C', 'E', 'T']) 1709247598 (cstr "%x %X%S")).bind
      (setYyyymmddDatetime (fixedZone 3600 fun _ => ['C', 'E', 'T'])) = some 1709247598 :=
  ((fmtDttime_setYyyymmddDatetime 3600 fun _ => ['C', 'E', 'T']).1 1709247598 (by decide) (by decide)).1

example : fmtDttime (fixedZone 3600 fun _ => ['C', 'E', 'T']) 1709247598 (cstr "%x %X%S") =
    some "20240229 235958".toList := by decide +kernel

end BlenderBottle
