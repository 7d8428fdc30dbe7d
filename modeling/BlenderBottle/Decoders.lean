/-
# `datetime.c`: the two decoders of dates

`set_datetime` takes a date apart by division, `set_yyyymmdd_datetime` by
`atoi` at fixed offsets of a text. On printed numbers, dates of the calendar
or not, they hand the same fields to `mktime` (`decoders_agree`).

`set_yyyymmdd_datetime` tests the length of a text only: `atoi` reads some
number out of any bytes and `mktime` brings any fields into range. `InFormat`
is the format meant; `accepts_format_iff` says for which texts the answer is
-1 exactly outside it.
-/
import BlenderBottle.Datetime
import BlenderBottle.Fmt
import BlenderBottle.LocalTime

namespace BlenderBottle

open Gregorian CInt CText

/-! ### Printed numbers -/

/-- Both decoders call `mktime`, on the same fields. -/
structure SameTm (dt : List Char) (idt : Datetime) : Prop where
  text : ∀ Z, setYyyymmddDatetime Z dt = some (Z.mktime (yyyymmddTm dt))
  packed : ∀ Z, setDatetime Z idt = Z.mktime (datetimeTm idt)
  tm : yyyymmddTm dt = datetimeTm idt

section Printed

variable {D T : ℤ}

theorem datetimeTm_hhmm (hD : 0 ≤ D) (h0 : 0 ≤ T) (h1 : T ≤ 9999) :
    datetimeTm ⟨D, T⟩ =
      { year := D / 10000 - 1900, mon := D / 100 % 100 - 1, mday := D % 100, hour := T / 100
        min := T % 100, isdst := -1 } := by
  have hle : ¬ 9999 < T := by omega
  have hmon : D % 10000 / 100 = D / 100 % 100 := by omega
  have hday : D % 10000 % 100 = D % 100 := by omega
  simp (disch := omega) only [datetimeTm, hle, if_false, Int.tmod_eq_emod_of_nonneg,
    Int.tdiv_eq_ediv_of_nonneg, hmon, hday]

theorem datetimeTm_hhmmss (hD : 0 ≤ D) (h0 : 9999 < T) :
    datetimeTm ⟨D, T⟩ =
      { year := D / 10000 - 1900, mon := D / 100 % 100 - 1, mday := D % 100, hour := T / 10000
        min := T / 100 % 100, sec := T % 100, isdst := -1 } := by
  have hmon : D % 10000 / 100 = D / 100 % 100 := by omega
  have hday : D % 10000 % 100 = D % 100 := by omega
  have hhour : T / 100 / 100 = T / 10000 := by omega
  simp (disch := omega) only [datetimeTm, h0, if_true, Int.tmod_eq_emod_of_nonneg,
    Int.tdiv_eq_ediv_of_nonneg, hmon, hday, hhour]

theorem SameTm.of_tm {dt : List Char} (hl : dt.length = 8 ∨ dt.length = 13 ∨ dt.length = 15) (hD : 1 ≤ D)
    (htm : yyyymmddTm dt = datetimeTm ⟨D, T⟩) : SameTm dt ⟨D, T⟩ where
  text Z := setYyyymmddDatetime_of_length Z hl
  packed Z := if_neg (show ¬ D = 0 by omega)
  tm := htm

/-- **The two decoders agree** on every date and time of their digits, on a
date of the calendar or not, whatever the separator. -/
theorem decoders_agree (D T T6 : ℤ) (sep : Char) (hD0 : 1 ≤ D) (hD1 : D ≤ 99999999) (hT0 : 0 ≤ T)
    (hT1 : T ≤ 9999) (hT60 : 10000 ≤ T6) (hT61 : T6 ≤ 999999) :
    SameTm (decZ 8 D) ⟨D, 0⟩ ∧ SameTm (decZ 8 D ++ sep :: decZ 4 T) ⟨D, T⟩ ∧
      SameTm (decZ 8 D ++ sep :: decZ 6 T6) ⟨D, T6⟩ := by
  have hY : (decZ 4 (D / 10000)).length = 4 := length_decZ (by norm_num) (by omega) (by omega)
  have hM := length_twoDigits (n := D / 100 % 100) (by omega) (by omega)
  have hd := length_twoDigits (n := D % 100) (by omega) (by omega)
  have h8 : (decZ 8 D).length = 8 := length_decZ (by norm_num) (by omega) (by omega)
  have h4 : (decZ 4 T).length = 4 := length_decZ (by norm_num) hT0 (by omega)
  have h6 : (decZ 6 T6).length = 6 := length_decZ (by norm_num) (by omega) (by omega)
  have hdate := decZ_two_two (w := 4) (n := D) (by norm_num) (by omega) (by omega)
  refine ⟨.of_tm (by omega) hD0 ?_, .of_tm (by simp [h8, h4]) hD0 ?_, .of_tm (by simp [h8, h6]) hD0 ?_⟩
  · rw [hdate, yyyymmddTm_date hY hM hd, datetimeTm_hhmm (by omega) le_rfl (by norm_num)]
    simp (disch := omega) only [atoi_decZ]
    rfl
  · rw [hdate, decZ_two (w := 2) (by norm_num) hT0 (by omega),
      yyyymmddTm_minute hY hM hd (length_twoDigits (by omega) (by omega))
        (length_twoDigits (by omega) (by omega)),
      datetimeTm_hhmm (by omega) hT0 hT1]
    simp (disch := omega) only [atoi_decZ]
  · rw [hdate, decZ_two_two (w := 2) (by norm_num) (by omega) (by omega),
      yyyymmddTm_stamp hY hM hd (length_twoDigits (by omega) (by omega))
        (length_twoDigits (by omega) (by omega)) sep (length_twoDigits (by omega) (by omega)),
      datetimeTm_hhmmss (by omega) (by omega)]
    simp (disch := omega) only [atoi_decZ]

theorem decoders_agree_february :
    SameTm (decZ 8 20240231) ⟨20240231, 0⟩ ∧ SameTm (decZ 8 20240231 ++ 'T' :: decZ 4 2575) ⟨20240231, 2575⟩ ∧
      SameTm (decZ 8 20240231 ++ 'T' :: decZ 6 996199) ⟨20240231, 996199⟩ :=
  decoders_agree 20240231 2575 996199 'T' (by norm_num) (by norm_num) (by norm_num) (by norm_num) (by norm_num)
    (by norm_num)

end Printed

/-! ### The format -/

/-- The `n` bytes of `dt` from offset `i` on, as far as there are any. -/
def field (i n : ℕ) (dt : List Char) : List Char := (dt.drop i).take n

/-- The value of a text of digits; nothing counts as 0. -/
def value (s : List Char) : ℕ := Nat.ofDigitChars 10 s 0

/-- `YYYYMMDD`, and after a separator `HHMM` or `HHMMSS`, of a date of the
calendar and a time of day. -/
structure InFormat (dt : List Char) : Prop where
  length : dt.length = 8 ∨ dt.length = 13 ∨ dt.length = 15
  date_digits : AllDigits (dt.take 8)
  time_digits : AllDigits (dt.drop 9)
  date : ValidDate (value (field 0 4 dt)) (value (field 4 2 dt) - 1) (value (field 6 2 dt))
  hour : value (field 9 2 dt) < 24
  min : value (field 11 2 dt) < 60
  sec : value (field 13 2 dt) < 60

instance (dt : List Char) : Decidable (InFormat dt) :=
  decidable_of_iff
    ((dt.length = 8 ∨ dt.length = 13 ∨ dt.length = 15) ∧ AllDigits (dt.take 8) ∧ AllDigits (dt.drop 9) ∧
      ValidDate (value (field 0 4 dt)) (value (field 4 2 dt) - 1) (value (field 6 2 dt)) ∧
      value (field 9 2 dt) < 24 ∧ value (field 11 2 dt) < 60 ∧ value (field 13 2 dt) < 60)
    ⟨fun ⟨a, b, c, d, e, f, g⟩ => ⟨a, b, c, d, e, f, g⟩, fun ⟨a, b, c, d, e, f, g⟩ => ⟨a, b, c, d, e, f, g⟩⟩

/-- The numbers `atoi` finds at the offsets of the format. -/
def fieldsTm (dt : List Char) : Tm where
  sec := atoi (field 13 2 dt)
  min := atoi (field 11 2 dt)
  hour := atoi (field 9 2 dt)
  mday := atoi (field 6 2 dt)
  mon := atoi (field 4 2 dt) - 1
  year := atoi (field 0 4 dt) - 1900
  isdst := -1

/-- The reader's cuts leave each call of `atoi` its own field. -/
theorem yyyymmddTm_eq_fieldsTm {dt : List Char} (h : dt.length = 8 ∨ dt.length = 13 ∨ dt.length = 15) :
    yyyymmddTm dt = fieldsTm dt := by
  rcases h with h | h | h
  · match dt, h with
    | [y1, y2, y3, y4, m1, m2, d1, d2], _ =>
      exact yyyymmddTm_date (Y := [y1, y2, y3, y4]) (M := [m1, m2]) (D := [d1, d2]) rfl rfl rfl
  · match dt, h with
    | [y1, y2, y3, y4, m1, m2, d1, d2, sep, h1, h2, i1, i2], _ =>
      exact yyyymmddTm_minute (Y := [y1, y2, y3, y4]) (M := [m1, m2]) (D := [d1, d2]) (H := [h1, h2])
        (I := [i1, i2]) rfl rfl rfl rfl rfl sep
  · match dt, h with
    | [y1, y2, y3, y4, m1, m2, d1, d2, sep, h1, h2, i1, i2, s1, s2], _ =>
      exact yyyymmddTm_stamp (Y := [y1, y2, y3, y4]) (M := [m1, m2]) (D := [d1, d2]) (H := [h1, h2])
        (I := [i1, i2]) (S := [s1, s2]) rfl rfl rfl rfl rfl sep rfl

/-- The fields of `dt`, its months counted on from the year's first and its
days from the month's, name the second before the epoch on a clock that is `c`
seconds ahead. -/
def BeforeEpoch (c : ℤ) (dt : List Char) : Prop :=
  86400 * (monthFirst (12 * atoi (field 0 4 dt) + (atoi (field 4 2 dt) - 1)) + (atoi (field 6 2 dt) - 1)) +
    (3600 * atoi (field 9 2 dt) + 60 * atoi (field 11 2 dt) + atoi (field 13 2 dt)) = c - 1

section Fixed

variable (c : ℤ) (tzname : Bool → List Char) {dt : List Char}

theorem setYyyymmddDatetime_fixed (h : dt.length = 8 ∨ dt.length = 13 ∨ dt.length = 15) :
    ∃ v, setYyyymmddDatetime (fixedZone c tzname) dt = some v ∧ (v = -1 ↔ BeforeEpoch c dt) := by
  refine ⟨_, setYyyymmddDatetime_of_length _ h, ?_⟩
  rw [yyyymmddTm_eq_fieldsTm h]
  show timegm (fieldsTm dt) - c = -1 ↔ _
  rw [timegm_eq, BeforeEpoch]
  simp only [fieldsTm, sub_add_cancel]
  omega

/-- **Telling the format from other texts.** The answer is other than -1 just
for the texts of the format if and only if the text is refused for its length,
or is in the format and does not name the second before the epoch, or is not
in the format but its fields happen to name that second. -/
theorem accepts_format_iff (dt : CString) :
    (∃ v, setYyyymmddDatetime (fixedZone c tzname) dt.bytes = some v ∧ (v ≠ -1 ↔ InFormat dt.bytes)) ↔
      (int32 dt.bytes.length ≠ 8 ∧ int32 dt.bytes.length ≠ 13 ∧ int32 dt.bytes.length ≠ 15) ∨
        (InFormat dt.bytes ∧ ¬ BeforeEpoch c dt.bytes) ∨
        ((dt.bytes.length = 8 ∨ dt.bytes.length = 13 ∨ dt.bytes.length = 15) ∧ ¬ InFormat dt.bytes ∧
          BeforeEpoch c dt.bytes) := by
  generalize dt.bytes = dt
  by_cases hl : dt.length = 8 ∨ dt.length = 13 ∨ dt.length = 15
  · have hr : IsInt32 dt.length := ⟨by omega, by omega⟩
    obtain ⟨v, hv, hm⟩ := setYyyymmddDatetime_fixed c tzname hl
    rw [hv, int32_eq hr]
    simp only [Option.some.injEq, exists_eq_left', ne_eq, hm]
    constructor
    · intro h
      by_cases hf : InFormat dt
      · exact Or.inr (Or.inl ⟨hf, h.mpr hf⟩)
      · exact Or.inr (Or.inr ⟨hl, hf, not_not.mp fun hb => hf (h.mp hb)⟩)
    · rintro (h | ⟨hf, hb⟩ | ⟨-, hf, hb⟩)
      · omega
      · exact ⟨fun _ => hf, fun _ => hb⟩
      · exact ⟨fun h => absurd hb h, fun h => absurd h hf⟩
  · have hf : ¬ InFormat dt := fun h => hl h.length
    by_cases hp : int32 dt.length ≠ 8 ∧ int32 dt.length ≠ 13 ∧ int32 dt.length ≠ 15
    · rw [setYyyymmddDatetime_refused _ hp]
      exact ⟨fun _ => Or.inl hp, fun _ => ⟨-1, rfl, fun h => absurd rfl h, fun h => absurd h hf⟩⟩
    · -- no answer at all, and none of the three conditions
      rw [setYyyymmddDatetime_overrun _ hl hp]
      constructor
      · rintro ⟨v, hv, -⟩
        cases hv
      · rintro (h | ⟨h, -⟩ | ⟨h, -⟩)
        · exact absurd h hp
        · exact absurd h hf
        · exact absurd h hl

end Fixed

/-- 31 February is accepted. -/
theorem accepts_february :
    ¬ ∃ v, setYyyymmddDatetime utc "20240231".toList = some v ∧ (v ≠ -1 ↔ InFormat "20240231".toList) := by
  have h : setYyyymmddDatetime utc "20240231".toList = some 1709337600 := by decide +kernel
  have hf : ¬ InFormat "20240231".toList := by decide +kernel
  rintro ⟨v, hv, hiff⟩
  rw [h, Option.some.injEq] at hv
  exact hf (hiff.mp (by omega))

/-- The last second of 1969 is in the format and taken for the error value. -/
example : InFormat "19691231 235959".toList ∧
    setYyyymmddDatetime utc "19691231 235959".toList = some (-1) := by decide +kernel

end BlenderBottle
