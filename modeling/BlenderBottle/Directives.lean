/-
# `fmt_dttime`: what the directives print

The comments of the `switch` document each directive. A format of literal
bytes and documented directives is a list of `Item`s, and
`Directive.documented` is the expansion the comments promise. Three of the
twenty-five cases break the promise: `Q` runs on into `R`, `I` prints `00` at
noon, and `y` takes the remainder of a count from 1900, which is negative in
the years before. No text printed is shorter than the documented one, so one
slip cannot make up for another, and a whole format prints as documented just
when none of its directives slips.

Key definitions: `Item`, `Directive.documented`, `Tm.Normal`.
Key theorems: `directive_eq_documented_iff`, `fmtDttime_documented_iff`.
-/
import BlenderBottle.FmtScan

namespace BlenderBottle

open Gregorian CText

/-- The ranges of the fields of `struct tm` that the C standard gives. -/
structure Tm.Normal (tm : Tm) : Prop where
  sec : 0 ≤ tm.sec ∧ tm.sec ≤ 61
  min : 0 ≤ tm.min ∧ tm.min ≤ 59
  hour : 0 ≤ tm.hour ∧ tm.hour ≤ 23
  mday : 1 ≤ tm.mday ∧ tm.mday ≤ 31
  mon : 0 ≤ tm.mon ∧ tm.mon ≤ 11
  wday : 0 ≤ tm.wday ∧ tm.wday ≤ 6
  yday : 0 ≤ tm.yday ∧ tm.yday ≤ 365

/-- The documented directives. -/
inductive Directive
  | abbDay | fullDay | abbMonth | fullMonth | complete | century | mday | mdayFilled | hour24 | hour12
  | yday | month | minute | newline | amPm | dashedDate | clock | second | tab | wdayMonday | wdaySunday
  | date | time | yearOfCentury | year
  deriving DecidableEq, Repr

namespace Directive

/-- The byte after the `%`. -/
def byte : Directive → Char
  | abbDay => 'a'
  | fullDay => 'A'
  | abbMonth => 'b'
  | fullMonth => 'B'
  | complete => 'c'
  | century => 'C'
  | mday => 'd'
  | mdayFilled => 'e'
  | hour24 => 'H'
  | hour12 => 'I'
  | yday => 'j'
  | month => 'm'
  | minute => 'M'
  | newline => 'n'
  | amPm => 'p'
  | dashedDate => 'Q'
  | clock => 'R'
  | second => 'S'
  | tab => 't'
  | wdayMonday => 'u'
  | wdaySunday => 'w'
  | date => 'x'
  | time => 'X'
  | yearOfCentury => 'y'
  | year => 'Y'

/-- `YYYY`, the four digits of the year. -/
def yyyy (tm : Tm) : List Char := decZ 4 (tm.year + 1900)

/-- The expansion the comments of the `switch` promise. -/
def documented (tm : Tm) : Directive → List Char
  | abbDay => (nameAt fullDays tm.wday).take 3
  | fullDay => nameAt fullDays tm.wday
  | abbMonth => (nameAt fullMonths tm.mon).take 3
  | fullMonth => nameAt fullMonths tm.mon
  | complete => yyyy tm ++ decZ 2 (tm.mon + 1) ++ decZ 2 tm.mday ++ ' ' :: (decZ 2 tm.hour ++ decZ 2 tm.min)
  | century => (yyyy tm).take 2
  | mday => decZ 2 tm.mday
  | mdayFilled => if tm.mday < 10 then ' ' :: dec tm.mday else dec tm.mday
  | hour24 => decZ 2 tm.hour
  -- 12, 1, …, 11 twice a day
  | hour12 => decZ 2 ((tm.hour + 11) % 12 + 1)
  | yday => decZ 3 (tm.yday + 1)
  | month => decZ 2 (tm.mon + 1)
  | minute => decZ 2 tm.min
  | newline => ['\n']
  | amPm => if tm.hour / 12 = 0 then "AM".toList else "PM".toList
  | dashedDate => yyyy tm ++ '-' :: (decZ 2 (tm.mon + 1) ++ '-' :: decZ 2 tm.mday)
  | clock => decZ 2 tm.hour ++ ':' :: decZ 2 tm.min
  | second => decZ 2 tm.sec
  | tab => ['\t']
  -- 1 to 7 from Monday to Sunday
  | wdayMonday => dec ((tm.wday + 6) % 7 + 1)
  | wdaySunday => dec tm.wday
  | date => yyyy tm ++ decZ 2 (tm.mon + 1) ++ decZ 2 tm.mday
  | time => decZ 2 tm.hour ++ decZ 2 tm.min
  | yearOfCentury => (yyyy tm).drop 2
  | year => yyyy tm

/-- Where a directive keeps its promise. -/
def Kept (tm : Tm) : Directive → Prop
  | dashedDate => False
  | hour12 => tm.hour ≠ 12
  | yearOfCentury => 1900 ≤ tm.year + 1900 ∨ (tm.year + 1900) % 100 = 0
  | _ => True

end Directive

/-! ### One directive -/

/-- A table of abbreviations against the table of full names. -/
theorem nameAt_take {abb full : List String}
    (h : ∀ k < full.length, (abb.getD k "").toList = (full.getD k "").toList.take 3)
    {i : ℤ} (h0 : 0 ≤ i) (h1 : i < full.length) : nameAt abb i = (nameAt full i).take 3 :=
  h i.toNat (by omega)

section Kept

variable (Z : Zone) {tm : Tm} (h : tm.Normal) (h0 : 0 ≤ tm.year + 1900) (h1 : tm.year + 1900 ≤ 9999)

/-- `%2d` of a day of the month. -/
theorem padLeft_mday (m0 : 1 ≤ tm.mday) (m1 : tm.mday ≤ 31) :
    padLeft 2 (dec tm.mday) = if tm.mday < 10 then ' ' :: dec tm.mday else dec tm.mday := by
  obtain ⟨n, hn⟩ : ∃ n, tm.mday = n := ⟨_, rfl⟩
  rw [hn] at m0 m1 ⊢
  interval_cases n <;> rfl

/-- The remainder of the count from 1900 is the year of the century, from
1900 on and in the first year of a century. -/
theorem tmod_year_iff (tm : Tm) :
    tm.year.tmod 100 = (tm.year + 1900) % 100 ↔ 1900 ≤ tm.year + 1900 ∨ (tm.year + 1900) % 100 = 0 := by
  rcases le_or_gt 0 tm.year with hy | hy
  · rw [Int.tmod_eq_emod_of_nonneg hy]
    omega
  · have hneg : tm.year.tmod 100 = -((-tm.year) % 100) := by
      rw [← Int.tmod_eq_emod_of_nonneg (by omega), Int.neg_tmod, neg_neg]
    rw [hneg]
    omega

theorem hour12_iff (hh : 0 ≤ tm.hour ∧ tm.hour ≤ 23) :
    directive Z tm 'I' = Directive.hour12.documented tm ↔ Directive.hour12.Kept tm := by
  have heq : (if tm.hour = 0 then 12 else tm.hour.tmod 12) = (tm.hour + 11) % 12 + 1 ↔ tm.hour ≠ 12 := by
    rw [Int.tmod_eq_emod_of_nonneg hh.1]
    split_ifs <;> omega
  rw [Directive.documented, Directive.Kept, ← heq]
  exact decZ_eq_iff (by omega)

include h0 h1

/-- The two halves of the year. -/
theorem yyyy_eq : Directive.yyyy tm =
    decZ 2 ((tm.year + 1900) / 100) ++ decZ 2 ((tm.year + 1900) % 100) :=
  decZ_two (by norm_num) h0 (by omega)

theorem yyyy_take : (Directive.yyyy tm).take 2 = decZ 2 ((tm.year + 1900) / 100) := by
  rw [yyyy_eq h0 h1, List.take_left' (length_decZ (by norm_num) (by omega) (by omega))]

theorem yyyy_drop : (Directive.yyyy tm).drop 2 = decZ 2 ((tm.year + 1900) % 100) := by
  rw [yyyy_eq h0 h1, List.drop_left' (length_decZ (by norm_num) (by omega) (by omega))]

theorem yearOfCentury_iff : directive Z tm 'y' = Directive.yearOfCentury.documented tm ↔
    Directive.yearOfCentury.Kept tm := by
  rw [Directive.documented, yyyy_drop h0 h1, Directive.Kept, ← tmod_year_iff]
  exact decZ_eq_iff (by omega)

include h

/-- **One directive.** It prints its documented expansion just where
`Directive.Kept` says. -/
theorem directive_eq_documented_iff (d : Directive) :
    directive Z tm d.byte = d.documented tm ↔ d.Kept tm := by
  have hY := fullYear_eq h0 h1
  cases d with
  | hour12 => exact hour12_iff Z h.hour
  | yearOfCentury => exact yearOfCentury_iff Z h0 h1
  | dashedDate =>
    simp [Directive.byte, directive, Directive.documented, Directive.Kept, Directive.yyyy, hY, clockText]
  | abbDay =>
    exact iff_of_true (nameAt_take (by decide) h.wday.1 (by have := h.wday.2; simp [fullDays]; omega)) trivial
  | abbMonth =>
    exact iff_of_true (nameAt_take (by decide) h.mon.1 (by have := h.mon.2; simp [fullMonths]; omega)) trivial
  | century =>
    refine iff_of_true ?_ trivial
    rw [Directive.documented, yyyy_take h0 h1, Directive.byte, directive, hY, Int.tdiv_eq_ediv_of_nonneg h0]
  | mdayFilled => exact iff_of_true (padLeft_mday h.mday.1 h.mday.2) trivial
  | amPm =>
    refine iff_of_true ?_ trivial
    have hh : tm.hour < 12 ↔ tm.hour / 12 = 0 := by have := h.hour; omega
    simp [Directive.byte, directive, Directive.documented, hh]
  | wdayMonday =>
    refine iff_of_true (congrArg dec ?_) trivial
    have := h.wday
    split_ifs <;> omega
  | complete | date | year =>
    refine iff_of_true ?_ trivial
    simp [Directive.byte, directive, Directive.documented, Directive.yyyy, dateText, hY]
  | _ => exact iff_of_true rfl trivial

/-- What is printed is never shorter than what is documented. -/
theorem length_documented_le (d : Directive) :
    (d.documented tm).length ≤ (directive Z tm d.byte).length := by
  by_cases hk : d.Kept tm
  · rw [(directive_eq_documented_iff Z h h0 h1 d).mpr hk]
  cases d with
  | dashedDate =>
    simp [Directive.byte, directive, Directive.documented, Directive.yyyy, fullYear_eq h0 h1]
  | hour12 =>
    rw [Directive.documented, length_decZ (by norm_num) (by omega) (by omega)]
    exact le_length_decZ 2 _
  | yearOfCentury =>
    rw [Directive.documented, yyyy_drop h0 h1, length_decZ (by norm_num) (by omega) (by omega)]
    exact le_length_decZ 2 _
  | _ => exact absurd trivial hk

end Kept

/-- `localtime` of a zone of fixed offset keeps the ranges. -/
theorem breakdown_normal (n : ℤ) : (breakdown n).Normal := by
  obtain ⟨⟨m0, m1, d0, d1⟩, hh, hm, hs⟩ := breakdown_inRange n
  have hlen := monthLen_bounds ((breakdown n).year + 1900) (breakdown n).mon
  have hy := dayOfYear_bounds (n / 86400)
  have hleap := leapDay_cases (yearOf (n / 86400))
  have hw : 0 ≤ weekday (n / 86400) ∧ weekday (n / 86400) ≤ 6 := by
    rw [weekday]
    omega
  exact ⟨by omega, by omega, by omega, by omega, by omega, hw, by simp only [breakdown]; omega⟩

/-! ### A whole format -/

/-- A piece of a format: a byte that is copied, or a documented directive. -/
inductive Item
  | lit (c : Char) (ne_nul : c ≠ '\x00') (ne_percent : c ≠ '%')
  | dir (d : Directive)
  deriving DecidableEq

namespace Item

def bytes : Item → List Char
  | lit c _ _ => [c]
  | dir d => ['%', d.byte]

/-- What the code writes for a piece. -/
def printed (Z : Zone) (tm : Tm) : Item → List Char
  | lit c _ _ => [c]
  | dir d => directive Z tm d.byte

def documented (tm : Tm) : Item → List Char
  | lit c _ _ => [c]
  | dir d => d.documented tm

end Item

theorem fmtScan_items (Z : Zone) (tm : Tm) (items : List Item) (rest : List Char) :
    fmtScan Z tm (items.flatMap Item.bytes ++ '\x00' :: rest) = some (items.flatMap (Item.printed Z tm)) := by
  induction items with
  | nil => simp
  | cons item items ih =>
    rw [List.flatMap_cons, List.flatMap_cons, List.append_assoc]
    cases item with
    | lit c h0 hc => simp [Item.bytes, Item.printed, h0, hc, ih]
    | dir d => simp [Item.bytes, Item.printed, ih]

/-- **What a format prints.** In a year of four digits, a format of literal
bytes and documented directives prints the documented text just when it has no
`Q`, no `I` while the local hour is 12, and no `y` in a year before 1900 that
does not begin a century. -/
theorem fmtDttime_documented_iff (Z : Zone) (t : ℤ) (h : (Z.localtime t).Normal)
    (h0 : 0 ≤ (Z.localtime t).year + 1900) (h1 : (Z.localtime t).year + 1900 ≤ 9999)
    (items : List Item) (rest : List Char) :
    fmtDttime Z t (items.flatMap Item.bytes ++ '\x00' :: rest) =
        some (items.flatMap (Item.documented (Z.localtime t))) ↔
      .dir .dashedDate ∉ items ∧
      (.dir .hour12 ∈ items → (Z.localtime t).hour ≠ 12) ∧
      (.dir .yearOfCentury ∈ items →
        1900 ≤ (Z.localtime t).year + 1900 ∨ ((Z.localtime t).year + 1900) % 100 = 0) := by
  rw [fmtDttime, fmtScan_items, Option.some.injEq, flatMap_eq_flatMap_iff]
  · constructor
    · intro hall
      have hdir : ∀ d, .dir d ∈ items → d.Kept (Z.localtime t) := fun d hd =>
        (directive_eq_documented_iff Z h h0 h1 d).mp (hall _ hd)
      exact ⟨hdir .dashedDate, hdir .hour12, hdir .yearOfCentury⟩
    · rintro ⟨hQ, hI, hy⟩ item hitem
      cases item with
      | lit c _ _ => rfl
      | dir d =>
        refine (directive_eq_documented_iff Z h h0 h1 d).mpr ?_
        cases d with
        | dashedDate => exact hQ hitem
        | hour12 => exact hI hitem
        | yearOfCentury => exact hy hitem
        | _ => trivial
  · intro item _
    cases item with
    | lit c _ _ => rfl
    | dir d => exact length_documented_le Z h h0 h1 d

/-- `%a %I%p` one hour after the epoch. -/
theorem fmtDttime_documented_iff_one :
    ((utc.localtime 3600).Normal ∧ (utc.localtime 3600).year + 1900 = 1970) ∧
      fmtDttime utc 3600 (cstr "%a %I%p") = some "Thu 01AM".toList := by
  refine ⟨⟨breakdown_normal _, by decide⟩, ?_⟩
  exact (fmtDttime_documented_iff utc 3600 (breakdown_normal _) (by decide) (by decide)
    [.dir .abbDay, .lit ' ' (by decide) (by decide), .dir .hour12, .dir .amPm] []).mpr (by decide)

/-- At noon `%I` prints `00`, `%Q` prints the time behind the date, and in
1899 `%y` prints `-1`. -/
theorem fmtDttime_undocumented :
    fmtDttime utc 43200 (cstr "%I") = some "00".toList ∧
      Directive.hour12.documented (utc.localtime 43200) = "12".toList ∧
      fmtDttime utc 0 (cstr "%Q") = some "1970-01-0100:00".toList ∧
      Directive.dashedDate.documented (utc.localtime 0) = "1970-01-01".toList ∧
      fmtDttime utc (-2208988801) (cstr "%y") = some "-1".toList ∧
      Directive.yearOfCentury.documented (utc.localtime (-2208988801)) = "99".toList := by
  decide +kernel

end BlenderBottle
