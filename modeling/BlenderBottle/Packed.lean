/-
# `datetime.c`: the packed form

`get_datetime` packs local fields into a date `YYYYMMDD` and a time `HHMM` or
`HHMMSS`. For the years whose dates fit an `int`, decoding the form without
seconds cuts the instant to its minute (`setDatetime_getDatetime_minute`),
and the pairs of date and time, compared date first, are ordered as the
instants are (`getDatetime_order`).
-/
import BlenderBottle.LocalTime
import Mathlib.Data.Prod.Lex

namespace BlenderBottle

open Gregorian CInt

/-- The order of packed forms: the date first, then the time. -/
def Datetime.key (d : Datetime) : ℤ ×ₗ ℤ := toLex (d.date, d.time)

section Fixed

variable (c : ℤ) (tzname : Bool → List Char)

/-- **The form without seconds cuts to the minute** and nothing else, in the
zones that are whole minutes off. -/
theorem setDatetime_getDatetime_minute (k t : ℤ) (h0 : 0 ≤ (fixedZone (60 * k) tzname).localYear t)
    (h1 : (fixedZone (60 * k) tzname).localYear t ≤ 214748) :
    setDatetime (fixedZone (60 * k) tzname) (getDatetime (fixedZone (60 * k) tzname) t 0) = t - t % 60 := by
  have hc := clock_eq (t + 60 * k)
  rw [setDatetime_getDatetime _ tzname t 0 h0 h1, getDatetime_hhmm,
    packedSeconds_hhmm (by omega) (by omega) (by omega) (by omega)]
  omega

/-- 00:01:59 on the first day, in the zone half an hour ahead. -/
theorem setDatetime_getDatetime_minute_past_midnight :
    setDatetime (fixedZone (60 * 30) fun _ => ['X'])
      (getDatetime (fixedZone (60 * 30) fun _ => ['X']) (-1681) 0) = -1681 - -1681 % 60 :=
  setDatetime_getDatetime_minute (fun _ => ['X']) 30 (-1681) (by decide) (by decide)

/-! ### The order of the packed forms -/

theorem hhmmss_lt {h mi s h' mi' s' : ℤ} (hm : 0 ≤ mi ∧ mi < 60) (hs : 0 ≤ s ∧ s < 60)
    (hm' : 0 ≤ mi' ∧ mi' < 60) (hs' : 0 ≤ s' ∧ s' < 60)
    (hlt : 3600 * h + 60 * mi + s < 3600 * h' + 60 * mi' + s') :
    (h * 100 + mi) * 100 + s < (h' * 100 + mi') * 100 + s' := by
  omega

theorem getDatetime_key {t : ℤ} (h0 : 0 ≤ (fixedZone c tzname).localYear t)
    (h1 : (fixedZone c tzname).localYear t ≤ 214748) (s : ℤ) :
    (getDatetime (fixedZone c tzname) t s).key =
      toLex (dateCode ((t + c) / 86400), (getDatetime (fixedZone c tzname) t s).time) := by
  have hy : (fixedZone c tzname).localYear t = yearOf ((t + c) / 86400) := sub_add_cancel _ _
  obtain ⟨m0, m1, d0, d1⟩ := validDate_of_day ((t + c) / 86400)
  have hl := monthLen_bounds (yearOf ((t + c) / 86400)) (monthOf ((t + c) / 86400))
  have hr : IsInt32 (dateCode ((t + c) / 86400)) := by
    unfold dateCode
    exact ⟨by omega, by omega⟩
  have hd : (getDatetime (fixedZone c tzname) t s).date = dateCode ((t + c) / 86400) := by
    calc (getDatetime (fixedZone c tzname) t s).date
        = int32 ((fixedZone c tzname).localYear t * 10000 + (monthOf ((t + c) / 86400) + 1) * 100 +
            mdayOf ((t + c) / 86400)) := rfl
      _ = int32 (dateCode ((t + c) / 86400)) := by rw [hy, dateCode]
      _ = dateCode ((t + c) / 86400) := int32_eq hr
  rw [Datetime.key, hd]

section Order

variable {t t' : ℤ} (h0 : 0 ≤ (fixedZone c tzname).localYear t)
  (h1 : (fixedZone c tzname).localYear t ≤ 214748) (h0' : 0 ≤ (fixedZone c tzname).localYear t')
  (h1' : (fixedZone c tzname).localYear t' ≤ 214748)
include h0 h1 h0' h1'

theorem key_lt_key (h : t < t') :
    (getDatetime (fixedZone c tzname) t 1).key < (getDatetime (fixedZone c tzname) t' 1).key := by
  rw [getDatetime_key c tzname h0 h1, getDatetime_key c tzname h0' h1', Prod.Lex.toLex_lt_toLex]
  rcases lt_or_eq_of_le (show (t + c) / 86400 ≤ (t' + c) / 86400 by omega) with hd | hd
  · exact Or.inl (dateCode_strictMono hd)
  · -- on one day the times of day are compared
    refine Or.inr ⟨congrArg dateCode hd, ?_⟩
    have hc := clock_eq (t + c)
    have hc' := clock_eq (t' + c)
    dsimp only
    rw [getDatetime_hhmmss, getDatetime_hhmmss]
    exact hhmmss_lt (by omega) (by omega) (by omega) (by omega) (by rw [hc, hc']; omega)

theorem key_le_key (h : t ≤ t') :
    (getDatetime (fixedZone c tzname) t 0).key ≤ (getDatetime (fixedZone c tzname) t' 0).key := by
  rw [getDatetime_key c tzname h0 h1, getDatetime_key c tzname h0' h1', Prod.Lex.toLex_le_toLex]
  rcases lt_or_eq_of_le (show (t + c) / 86400 ≤ (t' + c) / 86400 by omega) with hd | hd
  · exact Or.inl (dateCode_strictMono hd)
  · refine Or.inr ⟨congrArg dateCode hd, ?_⟩
    dsimp only
    rw [getDatetime_hhmm, getDatetime_hhmm]
    omega

end Order

/-- **The packed form is an order embedding** with seconds, and monotone
without. -/
theorem getDatetime_order (t t' : ℤ) (h0 : 0 ≤ (fixedZone c tzname).localYear t)
    (h1 : (fixedZone c tzname).localYear t ≤ 214748) (h0' : 0 ≤ (fixedZone c tzname).localYear t')
    (h1' : (fixedZone c tzname).localYear t' ≤ 214748) :
    (t < t' ↔ (getDatetime (fixedZone c tzname) t 1).key < (getDatetime (fixedZone c tzname) t' 1).key) ∧
      (t ≤ t' →
        (getDatetime (fixedZone c tzname) t 0).key ≤ (getDatetime (fixedZone c tzname) t' 0).key) := by
  refine ⟨⟨key_lt_key c tzname h0 h1 h0' h1', fun hk => ?_⟩, key_le_key c tzname h0 h1 h0' h1'⟩
  by_contra hle
  rcases eq_or_lt_of_le (not_lt.mp hle) with rfl | hlt
  · exact lt_irrefl _ hk
  · exact lt_asymm hk (key_lt_key c tzname h0' h1' h0 h1 hlt)

/-- The last second of 1969 and the first of 1970. -/
theorem getDatetime_order_new_year :
    (getDatetime utc (-1) 1).key < (getDatetime utc 0 1).key ∧
      (getDatetime utc (-1) 0).key ≤ (getDatetime utc 0 0).key :=
  have h := getDatetime_order 0 (fun _ => ['U', 'T', 'C']) (-1) 0 (by decide) (by decide) (by decide)
    (by decide)
  ⟨h.1.mp (by decide), h.2 (by decide)⟩

end Fixed

end BlenderBottle
