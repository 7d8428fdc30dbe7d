/-
# Numbers as C text

The decimal conversions of `printf` and the decimal reader `atoi`, on
character lists. A C string in memory ends at its first NUL; `cstr` puts it
there.

Printing and reading are inverse to each other: `atoi` reads back what
`%0wd` prints (`atoi_decZ`), and a text of `w` digits is what `%0wd` prints
of its value (`decZ_ofDigitChars`).

`snprintf` and `strncpy` are writes to an object in memory; whether they stay
in it is a matter of its size (`Write.Within`).

Key definitions: `cstr`, `CString`, `decZ`, `padLeft`, `atoi`, `Write`.
Key theorems: `atoi_append_nul`, `atoi_decZ`, `decZ_ofDigitChars`.
-/
import Mathlib.Data.List.TakeWhile
import Mathlib.Tactic

namespace CText

/-- The bytes of a string literal in memory, with its NUL. -/
def cstr (s : String) : List Char := s.toList ++ ['\x00']

/-- A C string: no NUL before its end, and no longer than an object can be. -/
structure CString where
  bytes : List Char
  nul_notMem : '\x00' ∉ bytes := by decide
  size : bytes.length < 9223372036854775808 := by decide

/-- `%0wd`: at least `w` characters, a sign included, filled with zeros. -/
def decZ (w : ℕ) (n : ℤ) : List Char :=
  let ds := Nat.toDigits 10 n.natAbs
  if n < 0 then '-' :: (List.replicate (w - 1 - ds.length) '0' ++ ds)
  else List.replicate (w - ds.length) '0' ++ ds

/-- `%d`. -/
def dec (n : ℤ) : List Char := decZ 0 n

/-- `%ws`: at least `w` characters, filled with spaces on the left. -/
def padLeft (w : ℕ) (s : List Char) : List Char := List.replicate (w - s.length) ' ' ++ s

theorem length_padLeft (w : ℕ) (s : List Char) : (padLeft w s).length = max w s.length := by
  rw [padLeft, List.length_append, List.length_replicate]
  omega

/-- `isspace` in the C locale: a blank, or tab to carriage return. -/
def isSpace (c : Char) : Bool := c.toNat = 32 ∨ (9 ≤ c.toNat ∧ c.toNat ≤ 13)

/-- The value of the leading decimal digits. -/
def leadingNat (s : List Char) : ℕ := Nat.ofDigitChars 10 (s.takeWhile Char.isDigit) 0

/-- A sign, then digits up to the first other byte. -/
def signedInt : List Char → ℤ
  | [] => 0
  | c :: r => if c = '-' then -(leadingNat r : ℤ) else if c = '+' then leadingNat r else leadingNat (c :: r)

/-- `atoi`: white space, then a signed number. -/
def atoi (s : List Char) : ℤ := signedInt (s.dropWhile isSpace)

/-- Every character of the text is a decimal digit. -/
def AllDigits (s : List Char) : Prop := ∀ c ∈ s, c.isDigit = true

instance (s : List Char) : Decidable (AllDigits s) := List.decidableBAll (fun c : Char => c.isDigit = true) s

/-! ### Reading -/

theorem leadingNat_append_nul (p r : List Char) : leadingNat (p ++ '\x00' :: r) = leadingNat p := by
  unfold leadingNat
  congr 1
  induction p with
  | nil => rfl
  | cons c p ih =>
    simp only [List.cons_append, List.takeWhile_cons]
    rw [ih]

/-- `atoi` stops at a NUL. -/
theorem atoi_append_nul (p r : List Char) : atoi (p ++ '\x00' :: r) = atoi p := by
  induction p with
  | nil => rfl
  | cons c p ih =>
    by_cases hc : isSpace c
    · have h1 : ∀ q, atoi (c :: q) = atoi q := fun q => by simp [atoi, hc]
      rw [List.cons_append, h1, h1, ih]
    · simp only [atoi, List.cons_append, List.dropWhile_cons, hc, Bool.false_eq_true, if_false, signedInt]
      rw [leadingNat_append_nul, ← List.cons_append, leadingNat_append_nul]

theorem digit_toNat {c : Char} (h : c.isDigit = true) : 48 ≤ c.toNat ∧ c.toNat ≤ 57 :=
  Char.isDigit_iff_toNat.mp h

theorem isSpace_digit {c : Char} (h : c.isDigit = true) : isSpace c = false := by
  have := digit_toNat h
  simp only [isSpace, decide_eq_false_iff_not]
  omega

theorem atoi_digits {s : List Char} (h : AllDigits s) : atoi s = Nat.ofDigitChars 10 s 0 := by
  have hl : leadingNat s = Nat.ofDigitChars 10 s 0 := by
    rw [leadingNat, List.takeWhile_eq_self_iff.mpr h]
  cases s with
  | nil => rfl
  | cons c s =>
    have hc := h c List.mem_cons_self
    have hm : c ≠ '-' := by rintro rfl; exact absurd hc (by decide)
    have hp : c ≠ '+' := by rintro rfl; exact absurd hc (by decide)
    simp [atoi, isSpace_digit hc, signedInt, hm, hp, hl]

/-! ### Texts of digits -/

theorem AllDigits.of_cons {c : Char} {s : List Char} (h : AllDigits (c :: s)) : AllDigits s :=
  fun x hx => h x (List.mem_cons_of_mem _ hx)

theorem ofDigitChars_cons_zero (c : Char) (s : List Char) :
    Nat.ofDigitChars 10 (c :: s) 0 = 10 ^ s.length * (c.toNat - 48) + Nat.ofDigitChars 10 s 0 := by
  rw [Nat.ofDigitChars_cons, Nat.ofDigitChars_eq_ofDigitChars_zero]
  simp

theorem ofDigitChars_lt : ∀ {s : List Char}, AllDigits s → Nat.ofDigitChars 10 s 0 < 10 ^ s.length
  | [], _ => by simp
  | c :: s, h => by
    have hc := digit_toNat (h c List.mem_cons_self)
    have ih := ofDigitChars_lt h.of_cons
    rw [ofDigitChars_cons_zero]
    calc 10 ^ s.length * (c.toNat - 48) + Nat.ofDigitChars 10 s 0
        < 10 ^ s.length * (c.toNat - 48) + 10 ^ s.length := by omega
      _ = 10 ^ s.length * (c.toNat - 48 + 1) := by ring
      _ ≤ 10 ^ s.length * 10 := Nat.mul_le_mul_left _ (by omega)
      _ = 10 ^ (c :: s).length := by rw [List.length_cons, pow_succ]

/-- Texts of digits of one length are told apart by their values. -/
theorem digits_ext : ∀ {s s' : List Char}, AllDigits s → AllDigits s' → s.length = s'.length →
    Nat.ofDigitChars 10 s 0 = Nat.ofDigitChars 10 s' 0 → s = s'
  | [], [], _, _, _, _ => rfl
  | c :: s, c' :: s', h, h', hl, hv => by
    have hc := digit_toNat (h c List.mem_cons_self)
    have hc' := digit_toNat (h' c' List.mem_cons_self)
    have hlt := ofDigitChars_lt h.of_cons
    have hlt' := ofDigitChars_lt h'.of_cons
    have hl' : s.length = s'.length := by simpa using hl
    rw [ofDigitChars_cons_zero, ofDigitChars_cons_zero, ← hl'] at hv
    rw [← hl'] at hlt'
    -- the leading digit is the quotient by the power of ten below it
    have hq : c.toNat - 48 = c'.toNat - 48 := by
      have h1 := congrArg (· / 10 ^ s.length) hv
      simpa [Nat.mul_add_div (Nat.pow_pos (n := s.length) (show 0 < 10 by norm_num)),
        Nat.div_eq_of_lt hlt, Nat.div_eq_of_lt hlt'] using h1
    have hcc : c = c' := Char.toNat_inj.mp (by omega)
    rw [hq] at hv
    rw [hcc, digits_ext h.of_cons h'.of_cons hl' (by omega)]

/-! ### Printing -/

section Print

variable {w : ℕ} {n : ℤ}

theorem decZ_nonneg (h : 0 ≤ n) :
    decZ w n = List.replicate (w - (Nat.toDigits 10 n.natAbs).length) '0' ++ Nat.toDigits 10 n.natAbs := by
  rw [decZ, if_neg (by omega)]

theorem decZ_ne_nil (w : ℕ) (n : ℤ) : decZ w n ≠ [] := by
  unfold decZ
  dsimp only
  split_ifs <;> simp

theorem allDigits_decZ (h : 0 ≤ n) : AllDigits (decZ w n) := by
  rw [decZ_nonneg h]
  intro c hc
  rcases List.mem_append.mp hc with hc | hc
  · rw [List.eq_of_mem_replicate hc]; decide
  · exact Nat.isDigit_of_mem_toDigits (by norm_num) le_rfl hc

theorem notMem_decZ (h : 0 ≤ n) {c : Char} (hc : c.isDigit = false) : c ∉ decZ w n := fun hm => by
  have := allDigits_decZ h c hm
  simp [hc] at this

theorem le_length_decZ (w : ℕ) (n : ℤ) : w ≤ (decZ w n).length := by
  unfold decZ
  dsimp only
  split_ifs <;> simp <;> omega

theorem length_decZ (hw : 0 < w) (h0 : 0 ≤ n) (h1 : n < 10 ^ w) : (decZ w n).length = w := by
  have hn : n.natAbs < 10 ^ w := by
    zify; rw [abs_of_nonneg h0]; exact h1
  have := (Nat.length_toDigits_le_iff (b := 10) (by norm_num) hw).mpr hn
  rw [decZ_nonneg h0, List.length_append, List.length_replicate]
  omega

theorem length_twoDigits (h0 : 0 ≤ n) (h1 : n < 100) : (decZ 2 n).length = 2 := length_decZ (by norm_num) h0 h1

/-- Below `10 ^ k`, sign aside, a number takes no more than its field or `k`
digits, and the sign. -/
theorem length_decZ_le {k : ℕ} (hk : 0 < k) (h : n.natAbs < 10 ^ k) :
    (decZ w n).length ≤ max w k + if n < 0 then 1 else 0 := by
  have := (Nat.length_toDigits_le_iff (b := 10) (by norm_num) hk).mpr h
  unfold decZ
  dsimp only
  split_ifs <;> simp only [List.length_cons, List.length_append, List.length_replicate] <;> omega

/-- A number of `w + 1` digits or more needs no zeros in front. -/
theorem decZ_eq_dec (hw : 0 < w) (h : 10 ^ w ≤ n) : decZ (w + 1) n = dec n := by
  have h0 : 0 ≤ n := le_trans (by positivity) h
  have hlen : w < (Nat.toDigits 10 n.natAbs).length := by
    by_contra hle
    have hlt := (Nat.length_toDigits_le_iff (b := 10) (by norm_num) hw).mp (not_lt.mp hle)
    zify at hlt
    rw [abs_of_nonneg h0] at hlt
    omega
  rw [dec, decZ_nonneg h0, decZ_nonneg h0, Nat.sub_eq_zero_of_le hlen, Nat.zero_sub]

theorem ofDigitChars_decZ (h : 0 ≤ n) : Nat.ofDigitChars 10 (decZ w n) 0 = n.natAbs := by
  rw [decZ_nonneg h, Nat.ofDigitChars_append, Nat.ofDigitChars_replicate_zero, mul_zero,
    Nat.ofDigitChars_ten_toDigits]

/-- **Reading undoes printing.** -/
theorem atoi_decZ (h : 0 ≤ n) : atoi (decZ w n) = n := by
  rw [atoi_digits (allDigits_decZ h), ofDigitChars_decZ h]
  omega

/-- A number that prints like a count is that count. -/
theorem decZ_eq_iff {m : ℤ} (h : 0 ≤ n) : decZ w m = decZ w n ↔ m = n := by
  refine ⟨fun hmn => ?_, congrArg (decZ w)⟩
  by_cases hm : 0 ≤ m
  · rw [← atoi_decZ (w := w) hm, hmn, atoi_decZ h]
  · have hd := allDigits_decZ (w := w) h
    rw [← hmn, decZ, if_pos (by omega)] at hd
    exact absurd (hd '-' List.mem_cons_self) (by decide)

/-- **Printing undoes reading** on a text of `w` digits. -/
theorem decZ_ofDigitChars {s : List Char} (h : AllDigits s) (hs : s ≠ []) :
    decZ s.length (Nat.ofDigitChars 10 s 0) = s := by
  have h0 : (0 : ℤ) ≤ Nat.ofDigitChars 10 s 0 := Int.natCast_nonneg _
  have h1 : (Nat.ofDigitChars 10 s 0 : ℤ) < 10 ^ s.length := by exact_mod_cast ofDigitChars_lt h
  apply digits_ext (allDigits_decZ h0) h (length_decZ (List.length_pos_iff.mpr hs) h0 h1)
  rw [ofDigitChars_decZ h0, Int.natAbs_natCast]

/-- A printed number, cut at a power of ten. -/
theorem decZ_append {w v : ℕ} {a b : ℤ} (hw : 0 < w) (hv : 0 < v) (a0 : 0 ≤ a) (a1 : a < 10 ^ w)
    (b0 : 0 ≤ b) (b1 : b < 10 ^ v) : decZ (w + v) (10 ^ v * a + b) = decZ w a ++ decZ v b := by
  have hn : 0 ≤ 10 ^ v * a + b := by positivity
  have hlt : 10 ^ v * a + b < 10 ^ (w + v) := by
    calc 10 ^ v * a + b < 10 ^ v * a + 10 ^ v := by omega
      _ = 10 ^ v * (a + 1) := by ring
      _ ≤ 10 ^ v * 10 ^ w := Int.mul_le_mul_of_nonneg_left a1 (by positivity)
      _ = 10 ^ (w + v) := by ring
  have ha := allDigits_decZ (w := w) a0
  have hb := allDigits_decZ (w := v) b0
  apply digits_ext (allDigits_decZ hn)
  · intro c hc
    exact (List.mem_append.mp hc).elim (ha c) (hb c)
  · rw [List.length_append, length_decZ (by omega) hn hlt, length_decZ hw a0 a1, length_decZ hv b0 b1]
  · rw [ofDigitChars_decZ hn, Nat.ofDigitChars_append, ofDigitChars_decZ a0,
      Nat.ofDigitChars_eq_ofDigitChars_zero, length_decZ hv b0 b1, ofDigitChars_decZ b0]
    zify
    rw [abs_of_nonneg hn, abs_of_nonneg a0, abs_of_nonneg b0]

/-- The last two digits of a printed number. -/
theorem decZ_two (hw : 0 < w) (h0 : 0 ≤ n) (h1 : n < 10 ^ (w + 2)) :
    decZ (w + 2) n = decZ w (n / 100) ++ decZ 2 (n % 100) := by
  have ha : n / 100 < 10 ^ w := Int.ediv_lt_of_lt_mul (by norm_num) (by rw [pow_add] at h1; exact h1)
  have hn : 10 ^ 2 * (n / 100) + n % 100 = n := by omega
  rw [← decZ_append hw (by norm_num) (by omega) ha (by omega) (by omega), hn]

/-- The last two pairs of digits of a printed number. -/
theorem decZ_two_two (hw : 0 < w) (h0 : 0 ≤ n) (h1 : n < 10 ^ (w + 4)) :
    decZ (w + 4) n = decZ w (n / 10000) ++ decZ 2 (n / 100 % 100) ++ decZ 2 (n % 100) := by
  have hlt : n / 100 < 10 ^ (w + 2) :=
    Int.ediv_lt_of_lt_mul (by norm_num) (by rw [show w + 4 = w + 2 + 2 by ring, pow_add] at h1; exact h1)
  have hq : n / 100 / 100 = n / 10000 := by omega
  rw [decZ_two (w := w + 2) (by omega) h0 h1, decZ_two hw (by omega) hlt, hq]

end Print

/-! ### Texts in pieces -/

section Pieces

variable {α β : Type*} {f g : α → List β}

theorem length_flatMap_le {l : List α} (h : ∀ x ∈ l, (g x).length ≤ (f x).length) :
    (l.flatMap g).length ≤ (l.flatMap f).length := by
  rw [List.length_flatMap, List.length_flatMap]
  exact List.sum_le_sum h

/-- Two texts put together of as many pieces, none of them longer in the
second, are equal only piece by piece. -/
theorem flatMap_eq_flatMap_iff {l : List α} (h : ∀ x ∈ l, (g x).length ≤ (f x).length) :
    l.flatMap f = l.flatMap g ↔ ∀ x ∈ l, f x = g x := by
  refine ⟨fun heq => ?_, List.flatMap_congr⟩
  induction l with
  | nil => simp
  | cons a l ih =>
    rw [List.forall_mem_cons] at h ⊢
    rw [List.flatMap_cons, List.flatMap_cons] at heq
    have hlen := congrArg List.length heq
    rw [List.length_append, List.length_append] at hlen
    have hrest := length_flatMap_le h.2
    obtain ⟨ha, hl⟩ := List.append_inj heq (by omega)
    exact ⟨ha, ih h.2 hl⟩

end Pieces

/-! ### Writes to memory -/

/-- A write of `bytes` to an object, from index `start` on. -/
structure Write where
  start : ℤ
  bytes : List Char

/-- The write stays in an object of `size` bytes. -/
def Write.Within (size : ℕ) (w : Write) : Prop := 0 ≤ w.start ∧ w.start + w.bytes.length ≤ size

instance (size : ℕ) (w : Write) : Decidable (w.Within size) := by unfold Write.Within; infer_instance

/-- The string that the bytes hold. -/
def strAt (bytes : List Char) : List Char := bytes.takeWhile (· ≠ '\x00')

theorem strAt_append_nul (s r : List Char) : strAt (s ++ '\x00' :: r) = strAt s := by
  induction s with
  | nil => rfl
  | cons c s ih =>
    simp only [strAt, List.cons_append, List.takeWhile_cons] at ih ⊢
    rw [ih]

theorem strAt_eq_self {s : List Char} (h : '\x00' ∉ s) : strAt s = s :=
  List.takeWhile_eq_self_iff.mpr fun c hc => by
    simp only [ne_eq, decide_eq_true_eq]
    rintro rfl
    exact h hc

/-- `snprintf` of the text `s`, with room for `size` bytes at `start`. -/
def snprintf (start : ℤ) (size : ℕ) (s : List Char) : Write := ⟨start, s.take (size - 1) ++ ['\x00']⟩

/-- What `snprintf` returns: the length of the whole text, if an `int` can
tell. -/
def snprintfResult (s : List Char) : ℤ := if s.length ≤ 2147483647 then s.length else -1

/-- `strncpy` of the string `s`: `n` bytes, filled up with NULs. -/
def strncpy (s : List Char) (n : ℕ) : Write := ⟨0, s.take n ++ List.replicate (n - s.length) '\x00'⟩

theorem length_strncpy (s : List Char) (n : ℕ) : (strncpy s n).bytes.length = n := by
  rw [strncpy, List.length_append, List.length_take, List.length_replicate]
  omega

end CText
