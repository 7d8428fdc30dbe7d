/-
# `fmt_dttime`: how far the scan reads

Behind a `%` the loop takes the next byte as a directive, whichever byte it
is, and goes on after it. A format whose last directive is complete is
scanned up to its NUL, and what follows it in memory does not matter
(`fmtScan_append`). If the format ends inside a directive, the NUL is taken
for the directive's byte and the scan goes on behind it. That is so just when
the format ends in an odd number of `%` (`cut_iff`).

Key theorems: `fmtScan_append`, `fmtDttime_stops_iff`.
-/
import BlenderBottle.Fmt
import BlenderBottle.LocalTime
import Mathlib.Data.List.DropRight

namespace BlenderBottle

open CText

/-- Whether the scan of `f` ends inside a directive. -/
def cut : List Char → Bool
  | [] => false
  | c :: f =>
    if c ≠ '%' then cut f
    else match f with
      | [] => true
      | _ :: f => cut f

/-- What the literals and directives of `f` print. -/
def expand (Z : Zone) (tm : Tm) : List Char → List Char
  | [] => []
  | c :: f =>
    if c ≠ '%' then c :: expand Z tm f
    else match f with
      | [] => []
      | d :: f => directive Z tm d ++ expand Z tm f

section Step

variable (Z : Zone) (tm : Tm) {c : Char} (d : Char) (f : List Char)

@[simp] theorem cut_literal (hc : c ≠ '%') : cut (c :: f) = cut f := by
  cases f <;> simp [cut, hc]

@[simp] theorem cut_directive : cut ('%' :: d :: f) = cut f := rfl

@[simp] theorem expand_literal (hc : c ≠ '%') : expand Z tm (c :: f) = c :: expand Z tm f := by
  cases f <;> simp [expand, hc]

@[simp] theorem expand_directive : expand Z tm ('%' :: d :: f) = directive Z tm d ++ expand Z tm f := rfl

@[simp] theorem fmtScan_nul : fmtScan Z tm ('\x00' :: f) = some [] := by
  cases f <;> simp [fmtScan]

@[simp] theorem fmtScan_literal (h0 : c ≠ '\x00') (hc : c ≠ '%') :
    fmtScan Z tm (c :: f) = (fmtScan Z tm f).map (c :: ·) := by
  cases f <;> simp [fmtScan, h0, hc]

@[simp] theorem fmtScan_directive :
    fmtScan Z tm ('%' :: d :: f) = (fmtScan Z tm f).map (directive Z tm d ++ ·) := rfl

end Step

/-! ### Formats that end inside a directive -/

theorem cut_concat (f : List Char) (c : Char) : cut (f ++ [c]) = (decide (c = '%') && !cut f) := by
  fun_induction cut f with
  | case1 => by_cases hc : c = '%' <;> simp [cut, hc]
  | case2 a f ha ih => rw [List.cons_append, cut_literal _ ha, ih]
  | case3 a ha =>
    obtain rfl := not_not.mp ha
    simp [cut]
  | case4 a ha b f ih =>
    obtain rfl := not_not.mp ha
    rw [List.cons_append, List.cons_append, cut_directive, ih]

/-- A format ends inside a directive just when it ends in an odd number of
`%`. -/
theorem cut_iff (f : List Char) : cut f = true ↔ (f.rtakeWhile (· = '%')).length % 2 = 1 := by
  induction f using List.reverseRecOn with
  | nil => simp [cut]
  | append_singleton f c ih =>
    rw [cut_concat]
    by_cases hc : c = '%'
    · rw [List.rtakeWhile_concat_pos _ _ _ (by simpa using hc), List.length_append]
      cases hf : cut f <;> simp [hf, hc] at ih ⊢ <;> omega
    · rw [List.rtakeWhile_concat_neg _ _ _ (by simpa using hc)]
      simp [hc]

/-! ### The scan -/

section Scan

variable (Z : Zone) (tm : Tm) {f : List Char}

/-- **The scan goes piece by piece.** Behind `f` it stands as at the start,
or with a `%` already read if `f` ends inside a directive. -/
theorem fmtScan_append (hn : '\x00' ∉ f) (g : List Char) :
    fmtScan Z tm (f ++ g) = (fmtScan Z tm (if cut f then '%' :: g else g)).map (expand Z tm f ++ ·) := by
  fun_induction cut f with
  | case1 => simp [expand]
  | case2 c f hc ih =>
    have h0 : c ≠ '\x00' := fun h => hn (h ▸ List.mem_cons_self)
    rw [List.cons_append, fmtScan_literal Z tm _ h0 hc, ih (fun h => hn (List.mem_cons_of_mem _ h)),
      expand_literal Z tm _ hc]
    simp [Function.comp_def]
  | case3 c hc =>
    obtain rfl := not_not.mp hc
    simp [expand]
  | case4 c hc d f ih =>
    obtain rfl := not_not.mp hc
    have hn' : '\x00' ∉ f := fun h => hn (List.mem_cons_of_mem _ (List.mem_cons_of_mem _ h))
    rw [List.cons_append, List.cons_append, fmtScan_directive, ih hn', expand_directive]
    simp [Function.comp_def]

/-- A format that ends inside a directive has its NUL taken for the
directive, and the scan goes on in the memory behind it. -/
theorem fmtScan_cut (hn : '\x00' ∉ f) (hf : cut f = true) (rest : List Char) :
    fmtScan Z tm (f ++ '\x00' :: rest) = (fmtScan Z tm rest).map (expand Z tm f ++ ·) := by
  rw [fmtScan_append Z tm hn, if_pos hf, fmtScan_directive]
  simp [directive]

theorem fmtScan_format (hn : '\x00' ∉ f) (hf : cut f = false) (rest : List Char) :
    fmtScan Z tm (f ++ '\x00' :: rest) = some (expand Z tm f) := by
  rw [fmtScan_append Z tm hn, if_neg (by simp [hf]), fmtScan_nul]
  simp

end Scan

/-- A format of one directive. -/
theorem fmtDttime_single (Z : Zone) (t : ℤ) (d : Char) :
    fmtDttime Z t ['%', d, '\x00'] = some (directive Z (Z.localtime t) d) := by
  simp [fmtDttime]

/-- **What the scan reads.** It stops at the NUL of its format, and what lies
behind has no part in the text, just when the format ends in an even number of
`%`. The text of a format that ends outside a directive, followed by another,
is the one text followed by the other. -/
theorem fmtDttime_stops_iff (Z : Zone) (t : ℤ) :
    (∀ f : CString,
      ((fmtDttime Z t (f.bytes ++ ['\x00'])).isSome ∧ ∀ rest,
          fmtDttime Z t (f.bytes ++ '\x00' :: rest) = fmtDttime Z t (f.bytes ++ ['\x00'])) ↔
        (f.bytes.rtakeWhile (· = '%')).length % 2 = 0) ∧
    ∀ f₁ f₂ : CString, (f₁.bytes.rtakeWhile (· = '%')).length % 2 = 0 → ∀ rest,
      fmtDttime Z t (f₁.bytes ++ f₂.bytes ++ '\x00' :: rest) =
        (fmtDttime Z t (f₁.bytes ++ ['\x00'])).bind fun o =>
          (fmtDttime Z t (f₂.bytes ++ '\x00' :: rest)).map (o ++ ·) := by
  have even_iff : ∀ f : List Char, (f.rtakeWhile (· = '%')).length % 2 = 0 ↔ cut f = false := by
    intro f
    rw [← Bool.not_eq_true, cut_iff]
    omega
  refine ⟨fun f => ?_, fun f₁ f₂ h₁ rest => ?_⟩
  · rw [even_iff]
    constructor
    · rintro ⟨hs, -⟩
      by_contra hc
      rw [fmtDttime, fmtScan_cut Z _ f.nul_notMem (by simpa using hc)] at hs
      simp [fmtScan] at hs
    · intro hc
      simp only [fmtDttime, fmtScan_format Z _ f.nul_notMem hc]
      simp
  · have hc := (even_iff _).mp h₁
    simp only [fmtDttime]
    rw [List.append_assoc, fmtScan_append Z _ f₁.nul_notMem, if_neg (by simp [hc]),
      fmtScan_format Z _ f₁.nul_notMem hc, Option.bind_some]

/-- `%Y` followed by `-%m` on 1 January 1970. -/
theorem fmtDttime_stops_iff_epoch :
    (("%Y".toList).rtakeWhile (· = '%')).length % 2 = 0 ∧
      fmtDttime utc 0 ("%Y".toList ++ "-%m".toList ++ ['\x00']) = some "1970-01".toList := by
  refine ⟨by decide, ?_⟩
  have h := (fmtDttime_stops_iff utc 0).2 ⟨"%Y".toList, by decide, by decide⟩
    ⟨"-%m".toList, by decide, by decide⟩ (by decide) []
  rw [h]
  decide +kernel

/-- A single `%`: without memory behind the NUL there is no text, and what
lies there is printed. -/
theorem fmtDttime_lone_percent :
    fmtDttime utc 0 (cstr "%") = none ∧
      fmtDttime utc 0 (cstr "%" ++ cstr "secret") = some "secret".toList := by
  decide +kernel

end BlenderBottle
