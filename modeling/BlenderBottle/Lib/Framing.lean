/-
# Framing records on a byte stream

Two ways to put records on a stream and to get them back.

A record that ends in a separator is found by splitting the stream after
each separator (`splitAfter`): that gives back the records sent if and only
if none of them has the separator inside (`splitAfter_frames`,
`length_splitAfter_frames`).

A record behind its length in decimal and a space is found by reading the
number and then so many bytes (`decode`): that gives back the records if and
only if every announced length is the true one (`decode_cons_iff`).
-/
import BlenderBottle.Lib.CText

namespace Framing

/-! ### A separator after each record -/

section Split

variable {α : Type*} [DecidableEq α] (sep : α)

/-- Split a stream after each separator. -/
def splitAfter : List α → List (List α)
  | [] => []
  | a :: l =>
    if a = sep then [a] :: splitAfter l
    else match splitAfter l with
      | [] => [[a]]
      | p :: ps => (a :: p) :: ps

/-- Send each record with a separator behind it. -/
def frames (bs : List (List α)) : List α := bs.flatMap (· ++ [sep])

theorem splitAfter_append {b : List α} (h : sep ∉ b) (l : List α) :
    splitAfter sep (b ++ sep :: l) = (b ++ [sep]) :: splitAfter sep l := by
  induction b with
  | nil => simp [splitAfter]
  | cons a b ih =>
    rw [List.mem_cons, not_or] at h
    rw [List.cons_append, splitAfter, if_neg (Ne.symm h.1), ih h.2]
    rfl

/-- Each separator inside a record splits it once more. -/
theorem length_splitAfter_append (l : List α) : ∀ b : List α,
    (splitAfter sep (b ++ sep :: l)).length = b.count sep + 1 + (splitAfter sep l).length
  | [] => by simp [splitAfter]; omega
  | a :: b => by
    have ih := length_splitAfter_append l b
    rw [List.cons_append, splitAfter]
    by_cases ha : a = sep
    · rw [if_pos ha, List.length_cons, ih, ha, List.count_cons_self]
      omega
    · rw [if_neg ha, List.count_cons_of_ne ha, ← ih]
      cases h : splitAfter sep (b ++ sep :: l) with
      | nil => rw [h] at ih; simp at ih; omega
      | cons p ps => rfl

/-- Records without the separator are found again. -/
theorem splitAfter_frames : ∀ {bs : List (List α)}, (∀ b ∈ bs, sep ∉ b) →
    splitAfter sep (frames sep bs) = bs.map (· ++ [sep])
  | [], _ => rfl
  | b :: bs, h => by
    have ih := splitAfter_frames fun x hx => h x (List.mem_cons_of_mem _ hx)
    calc splitAfter sep (frames sep (b :: bs)) = splitAfter sep (b ++ sep :: frames sep bs) := by simp [frames]
      _ = (b ++ [sep]) :: splitAfter sep (frames sep bs) := splitAfter_append sep (h b List.mem_cons_self) _
      _ = (b :: bs).map (· ++ [sep]) := by rw [ih, List.map_cons]

theorem length_splitAfter_frames (bs : List (List α)) :
    (splitAfter sep (frames sep bs)).length = bs.length + (bs.map (List.count sep)).sum := by
  induction bs with
  | nil => rfl
  | cons b bs ih =>
    calc (splitAfter sep (frames sep (b :: bs))).length
        = (splitAfter sep (b ++ sep :: frames sep bs)).length := by simp [frames]
      _ = b.count sep + 1 + (splitAfter sep (frames sep bs)).length := length_splitAfter_append sep _ b
      _ = b.count sep + 1 + (bs.length + (bs.map (List.count sep)).sum) := by rw [ih]
      _ = (b :: bs).length + ((b :: bs).map (List.count sep)).sum := by simp; omega

/-- As many pieces as records: no record holds the separator. -/
theorem notMem_of_length_eq {bs : List (List α)} (h : (splitAfter sep (frames sep bs)).length = bs.length) :
    ∀ b ∈ bs, sep ∉ b := by
  intro b hb
  rw [length_splitAfter_frames] at h
  have hle := List.single_le_sum (fun _ _ => Nat.zero_le _) _ (List.mem_map_of_mem (f := List.count sep) hb)
  rw [← List.count_eq_zero]
  omega

end Split

/-! ### The length before each record -/

open CText

/-- A record behind the number `n` and a space. -/
def announce (n : ℕ) (b : List Char) : List Char := dec n ++ ' ' :: b

/-- Read a decimal number up to a space. -/
def readCount (s : List Char) : Option (ℕ × List Char) :=
  let ds := s.takeWhile (· ≠ ' ')
  match s.dropWhile (· ≠ ' ') with
  | [] => none
  | _ :: r => if ds ≠ [] ∧ ds.all Char.isDigit = true then some (Nat.ofDigitChars 10 ds 0, r) else none

/-- Read a number and that many bytes, until nothing is left. -/
def decodeFrames : ℕ → List Char → Option (List (List Char))
  | _, [] => some []
  | 0, _ :: _ => none
  | fuel + 1, c :: s => do
    let (n, r) ← readCount (c :: s)
    if n ≤ r.length then (decodeFrames fuel (r.drop n)).map (r.take n :: ·) else none

/-- Every record takes a byte at least, so the length of the stream is
fuel enough. -/
def decode (s : List Char) : Option (List (List Char)) := decodeFrames s.length s

theorem readCount_announce (n : ℕ) (b : List Char) : readCount (announce n b) = some (n, b) := by
  have hd : AllDigits (dec n) := allDigits_decZ (Int.natCast_nonneg n)
  have hs : ∀ c ∈ dec n, decide (c ≠ ' ') = true := fun c hc => by
    have := hd c hc
    simp only [decide_eq_true_eq]
    rintro rfl
    exact absurd this (by decide)
  unfold readCount announce
  rw [List.takeWhile_append_of_pos hs, List.dropWhile_append_of_pos hs]
  have hv : Nat.ofDigitChars 10 (dec n) 0 = n := by
    rw [dec, ofDigitChars_decZ (Int.natCast_nonneg n), Int.natAbs_natCast]
  have hne : dec n ≠ [] := decZ_ne_nil 0 n
  simpa [hne, hv, AllDigits] using hd

theorem length_of_readCount {s r : List Char} {n : ℕ} (h : readCount s = some (n, r)) : r.length < s.length := by
  unfold readCount at h
  have hle := (List.dropWhile_suffix (l := s) (fun c => decide (c ≠ ' '))).length_le
  dsimp only at h
  split at h
  · cases h
  · next c r' hs =>
    split_ifs at h
    obtain ⟨-, rfl⟩ := Prod.mk.inj (Option.some.inj h)
    rw [hs, List.length_cons] at hle
    exact hle

/-- Fuel beyond the number of bytes changes nothing. -/
theorem decodeFrames_fuel : ∀ (fuel fuel' : ℕ) (s : List Char), s.length ≤ fuel → s.length ≤ fuel' →
    decodeFrames fuel s = decodeFrames fuel' s
  | fuel, fuel', [], _, _ => by cases fuel <;> cases fuel' <;> rfl
  | fuel + 1, fuel' + 1, c :: s, h, h' => by
    rw [decodeFrames, decodeFrames]
    cases hr : readCount (c :: s) with
    | none => rfl
    | some p =>
      obtain ⟨n, r⟩ := p
      have hlt := length_of_readCount hr
      rw [List.length_cons] at h h' hlt
      have ih := decodeFrames_fuel fuel fuel' (r.drop n) (by rw [List.length_drop]; omega)
        (by rw [List.length_drop]; omega)
      simp only [bind, Option.bind, ih]

theorem decode_announce (n : ℕ) (r : List Char) :
    decode (announce n r) = if n ≤ r.length then (decode (r.drop n)).map (r.take n :: ·) else none := by
  have hr := readCount_announce n r
  have hlt := length_of_readCount hr
  cases hs : announce n r with
  | nil => rw [hs] at hlt; cases hlt
  | cons c s =>
    rw [hs] at hr hlt
    rw [List.length_cons] at hlt
    have hd : decodeFrames s.length (r.drop n) = decode (r.drop n) :=
      decodeFrames_fuel _ _ _ (by rw [List.length_drop]; omega) le_rfl
    rw [decode, List.length_cons, decodeFrames, hr]
    simp only [bind, Option.bind, hd]

/-- **The first record.** It is found if and only if its announced length is
the true one, and then the rest is decoded. -/
theorem decode_cons_iff {n : ℕ} {b rest : List Char} {bs : List (List Char)} :
    decode (announce n (b ++ rest)) = some (b :: bs) ↔ n = b.length ∧ decode rest = some bs := by
  rw [decode_announce]
  constructor
  · intro h
    split_ifs at h with hn
    obtain ⟨bs', hd, heq⟩ := Option.map_eq_some_iff.mp h
    obtain ⟨hb, rfl⟩ := List.cons.inj heq
    have hlen : n = b.length := by
      have := congrArg List.length hb
      simp only [List.length_take] at this
      omega
    subst hlen
    exact ⟨rfl, by simpa using hd⟩
  · rintro ⟨rfl, hd⟩
    simp [hd]

end Framing
