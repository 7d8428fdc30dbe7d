/-
# `fmt_dttime`: the size of the text

The writes of `fmt_dttime` are not checked against the buffer. What bounds
them is the format: a literal byte writes one character, and the two bytes of
a directive write at most fifteen (`length_directive_le`). Fifteen is what
`Q` needs, a date of ten characters with the time of five it runs on into, and
what the zone names are allowed. So the text is at most seven and a half times
as long as the format (`length_expand_le`), and a format of 136 bytes fits the
static buffer.

Key theorems: `length_directive_le`, `fmtDttime_fits`.
-/
import BlenderBottle.Directives
import BlenderBottle.WeekNumbers
import Mathlib.Data.List.GetD

namespace BlenderBottle

open CText

/-! ### The fields -/

theorem length_nameAt_le {names : List String} {k : ℕ} (h : ∀ s ∈ names, s.toList.length ≤ k) (i : ℤ) :
    (nameAt names i).length ≤ k := by
  rw [nameAt]
  by_cases hi : i.toNat < names.length
  · rw [List.getD_eq_getElem _ _ hi]
    exact h _ (List.getElem_mem hi)
  · rw [List.getD_eq_default _ _ (not_lt.mp hi)]
    exact Nat.zero_le k

section Fields

variable {tm : Tm} (h : tm.Normal)
include h

theorem weekSum_bounds : 0 ≤ (tm.yday.tmod 7 + tm.wday).tmod 7 ∧ (tm.yday.tmod 7 + tm.wday).tmod 7 ≤ 6 := by
  have hd := h.yday
  have hw := h.wday
  rw [Int.tmod_eq_emod_of_nonneg hd.1, Int.tmod_eq_emod_of_nonneg (by omega)]
  omega

theorem zeroweekDays_bounds : 1 ≤ zeroweekDays tm ∧ zeroweekDays tm ≤ 7 := by
  have := weekSum_bounds h
  unfold zeroweekDays
  dsimp only
  split_ifs <;> omega

/-- The weeks since a day of the year's first week. -/
theorem tdiv_week_bounds {z : ℤ} (z0 : 1 ≤ z) (z1 : z ≤ 7) :
    0 ≤ (tm.yday + 1 - z).tdiv 7 + 1 ∧ (tm.yday + 1 - z).tdiv 7 + 1 ≤ 53 := by
  have hd := h.yday
  rcases le_or_gt 0 (tm.yday + 1 - z) with hz | hz
  · rw [Int.tdiv_eq_ediv_of_nonneg hz]
    omega
  · -- short of a week: the quotient is rounded to zero
    have hneg : (tm.yday + 1 - z).tdiv 7 = -((-(tm.yday + 1 - z)) / 7) := by
      rw [← Int.tdiv_eq_ediv_of_nonneg (by omega), Int.neg_tdiv, neg_neg]
    omega

theorem weekFrom_bounds {z : ℤ} (z0 : 1 ≤ z) (z1 : z ≤ 7) :
    0 ≤ weekFrom z tm.yday ∧ weekFrom z tm.yday ≤ 53 := by
  have hq := tdiv_week_bounds h z0 z1
  unfold weekFrom
  split_ifs <;> omega

theorem weekU_bounds : 0 ≤ weekU tm ∧ weekU tm ≤ 53 := by
  have hs := weekSum_bounds h
  rw [weekU_eq_weekFrom]
  exact weekFrom_bounds h (by omega) (by omega)

theorem weekW_bounds : 0 ≤ weekW tm ∧ weekW tm ≤ 53 := by
  obtain ⟨z0, z1⟩ := zeroweekDays_bounds h
  rw [weekW_eq_weekFrom]
  exact weekFrom_bounds h z0 z1

theorem weekV_bounds : 0 ≤ weekV tm ∧ weekV tm ≤ 53 := by
  obtain ⟨z0, z1⟩ := zeroweekDays_bounds h
  have hq := tdiv_week_bounds h z0 z1
  unfold weekV
  split_ifs <;> omega

end Fields

/-- The remainder of a year before 1900 keeps its sign. -/
theorem length_yearOfCentury_le (y : ℤ) : (decZ 2 (y.tmod 100)).length ≤ 3 := by
  have hlt : (y.tmod 100).natAbs < 10 ^ 2 := by
    rw [Int.natAbs_tmod]
    exact Nat.mod_lt _ (by norm_num)
  have := length_decZ_le (w := 2) (by norm_num) hlt
  split_ifs at this <;> omega

/-! ### One directive -/

section Size

variable {Z : Zone} {tm : Tm} (h : tm.Normal) (h0 : 0 ≤ tm.year + 1900) (h1 : tm.year + 1900 ≤ 9999)
  (hz : ∀ dst, (Z.tzname dst).length ≤ 15)
include h h0 h1 hz

/-- **One directive** writes at most fifteen characters, whichever byte stands
behind the `%`. -/
theorem length_directive_le (d : Char) : (directive Z tm d).length ≤ 15 := by
  have digits : ∀ {n : ℤ}, 0 ≤ n → n ≤ 99 → (dec n).length ≤ 2 := fun {n} a b => by
    have := length_decZ_le (w := 0) (n := n) (k := 2) (by norm_num) (by omega)
    rwa [if_neg (by omega)] at this
  have hU := weekU_bounds h
  have hV := weekV_bounds h
  have hW := weekW_bounds h
  obtain ⟨hs, hm, hh, hd, hM, hw, hj⟩ := h
  have lY : (decZ 4 (fullYear tm)).length = 4 := by
    rw [fullYear_eq h0 h1]
    exact length_decZ (by norm_num) h0 (by omega)
  have lC : (decZ 2 ((fullYear tm).tdiv 100)).length = 2 := by
    rw [fullYear_eq h0 h1, Int.tdiv_eq_ediv_of_nonneg h0]
    exact length_twoDigits (by omega) (by omega)
  have lM := length_twoDigits (n := tm.mon + 1) (by omega) (by omega)
  have lD := length_twoDigits (n := tm.mday) (by omega) (by omega)
  have lH := length_twoDigits hh.1 (by omega)
  have lI := length_twoDigits hm.1 (by omega)
  have lS := length_twoDigits hs.1 (by omega)
  have lU := length_twoDigits hU.1 (by omega)
  have lV := length_twoDigits hV.1 (by omega)
  have lW := length_twoDigits hW.1 (by omega)
  have lDate : (dateText tm).length = 8 := by simp [dateText, lY, lM, lD]
  have lClock : (clockText tm).length = 5 := by simp [clockText, lH, lI]
  have lj : (decZ 3 (tm.yday + 1)).length = 3 := length_decZ (by norm_num) (by omega) (by omega)
  have l12 : (decZ 2 (if tm.hour = 0 then 12 else tm.hour.tmod 12)).length = 2 := by
    rw [Int.tmod_eq_emod_of_nonneg hh.1]
    exact length_twoDigits (by split_ifs <;> omega) (by split_ifs <;> omega)
  have le := digits (n := tm.mday) (by omega) (by omega)
  have lw := digits hw.1 (by omega)
  have lu := digits (n := if tm.wday = 0 then 7 else tm.wday) (by split_ifs <;> omega)
    (by split_ifs <;> omega)
  have ly := length_yearOfCentury_le tm.year
  have lp : (if tm.hour < 12 then ['A', 'M'] else ['P', 'M']).length = 2 := by split_ifs <;> rfl
  have lZ := hz (decide (tm.isdst = 1))
  have la := length_nameAt_le (by decide : ∀ s ∈ abbDays, s.toList.length ≤ 3) tm.wday
  have lA := length_nameAt_le (by decide : ∀ s ∈ fullDays, s.toList.length ≤ 9) tm.wday
  have lb := length_nameAt_le (by decide : ∀ s ∈ abbMonths, s.toList.length ≤ 3) tm.mon
  have lB := length_nameAt_le (by decide : ∀ s ∈ fullMonths, s.toList.length ≤ 9) tm.mon
  unfold directive
  split <;> first
    | omega
    | simp only [List.length_append, List.length_cons, List.length_nil, length_padLeft]
      omega

/-- **The text of a format** that ends outside a directive is at most seven
and a half times as long as the format. -/
theorem length_expand_le {f : List Char} (hf : cut f = false) :
    2 * (expand Z tm f).length ≤ 15 * f.length := by
  fun_induction cut f with
  | case1 => simp [expand]
  | case2 c f hc ih =>
    have := ih hf
    rw [expand_literal Z tm f hc, List.length_cons, List.length_cons]
    omega
  | case3 c hc => cases hf
  | case4 c hc d f ih =>
    obtain rfl := not_not.mp hc
    have := ih hf
    have := length_directive_le h h0 h1 hz d
    rw [expand_directive, List.length_append, List.length_cons, List.length_cons]
    omega

end Size

/-- **The size of the text.** In a year of four digits and with zone names of
at most fifteen characters, a format that ends in an even number of `%`, so in
no directive cut off, is printed in at most seven and a half times its length.
A format of at most 136 bytes fits the 1024 bytes of the static buffer, NUL
included. -/
theorem fmtDttime_fits (Z : Zone) (t : ℤ) (h : (Z.localtime t).Normal)
    (h0 : 0 ≤ (Z.localtime t).year + 1900) (h1 : (Z.localtime t).year + 1900 ≤ 9999)
    (hz : ∀ dst, (Z.tzname dst).length ≤ 15)
    (f : CString) (hf : (f.bytes.rtakeWhile (· = '%')).length % 2 = 0) (rest : List Char) :
    ∃ output, fmtDttime Z t (f.bytes ++ '\x00' :: rest) = some output ∧
      2 * output.length ≤ 15 * f.bytes.length ∧
      (f.bytes.length ≤ 136 → (⟨0, output ++ ['\x00']⟩ : Write).Within 1024) := by
  have hc : cut f.bytes = false := by
    rw [← Bool.not_eq_true, cut_iff]
    omega
  have hlen := length_expand_le h h0 h1 hz hc
  refine ⟨_, fmtScan_format Z _ f.nul_notMem hc rest, hlen, fun hn => ⟨le_rfl, ?_⟩⟩
  rw [List.length_append, List.length_singleton, zero_add]
  omega

/-- `%Q` at the epoch: fifteen characters for two bytes. -/
theorem fmtDttime_fits_dashedDate :
    (utc.localtime 0).Normal ∧ (∀ dst, (utc.tzname dst).length ≤ 15) ∧
      fmtDttime utc 0 (cstr "%Q") = some "1970-01-0100:00".toList ∧
      ∃ output, fmtDttime utc 0 (cstr "%Q") = some output ∧ 2 * output.length ≤ 15 * 2 := by
  refine ⟨breakdown_normal 0, by decide, by decide +kernel, ?_⟩
  obtain ⟨output, hout, hlen, -⟩ := fmtDttime_fits utc 0 (breakdown_normal 0) (by decide) (by decide)
    (by decide) ⟨['%', 'Q'], by decide, by decide⟩ (by decide) []
  exact ⟨output, hout, hlen⟩

end BlenderBottle
