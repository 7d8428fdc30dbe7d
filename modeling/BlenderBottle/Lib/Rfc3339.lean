/-
# Timestamps of RFC 3339

A timestamp with microseconds and a numeric offset, printed from its fields
(`Stamp.text`) and read back (`parse`). Every reader takes its part from the
front of the text and returns the rest, so each undoes the printer of its part
in front of any tail, and `parse_text` chains them: what is read back is the
moment that the stamp names.

Key definitions: `Stamp`, `Stamp.text`, `parse`.
Key theorem: `parse_text`.
-/
import BlenderBottle.Lib.CText
import BlenderBottle.Lib.Gregorian

namespace Rfc3339

open CText Gregorian

/-! ### Printing -/

/-- The fields of a timestamp; months count from 0, and the offset is in
minutes. -/
structure Stamp where
  year : ℤ
  month : ℤ
  mday : ℤ
  hour : ℤ
  min : ℤ
  sec : ℤ
  usec : ℤ
  offset : ℤ
  year_four : 0 ≤ year ∧ year ≤ 9999
  date : ValidDate year month mday
  hour_lt : 0 ≤ hour ∧ hour < 24
  min_lt : 0 ≤ min ∧ min < 60
  sec_lt : 0 ≤ sec ∧ sec < 60
  usec_lt : 0 ≤ usec ∧ usec < 1000000
  offset_lt : -1440 < offset ∧ offset < 1440

namespace Stamp

variable (s : Stamp)

/-- `YYYY-MM-DD` -/
def dateText : List Char := decZ 4 s.year ++ '-' :: (decZ 2 (s.month + 1) ++ '-' :: decZ 2 s.mday)

/-- `HH:MM:SS` -/
def timeText : List Char := decZ 2 s.hour ++ ':' :: (decZ 2 s.min ++ ':' :: decZ 2 s.sec)

/-- `+HH:MM` or `-HH:MM` -/
def offsetText : List Char :=
  (if s.offset < 0 then '-' else '+') :: (decZ 2 (s.offset.natAbs / 60 : ℕ) ++ ':' ::
    decZ 2 (s.offset.natAbs % 60 : ℕ))

/-- `YYYY-MM-DDTHH:MM:SS.uuuuuu±HH:MM` -/
def text : List Char := s.dateText ++ 'T' :: (s.timeText ++ '.' :: (decZ 6 s.usec ++ s.offsetText))

/-- The seconds since the epoch that the stamp names. -/
def seconds : ℤ :=
  86400 * dayNumber s.year s.month s.mday + (3600 * s.hour + 60 * s.min + s.sec) - 60 * s.offset

end Stamp

/-! ### Reading -/

/-- A number of exactly `n` digits. -/
def digits (n : ℕ) (s : List Char) : Option (ℤ × List Char) :=
  if n ≤ s.length ∧ AllDigits (s.take n) then some (Nat.ofDigitChars 10 (s.take n) 0, s.drop n) else none

/-- The character `c`. -/
def lit (c : Char) : List Char → Option (List Char)
  | [] => none
  | d :: s => if d = c then some s else none

/-- A date, as a day number. -/
def readDate (s : List Char) : Option (ℤ × List Char) := do
  let (y, s) ← digits 4 s
  let s ← lit '-' s
  let (m, s) ← digits 2 s
  let s ← lit '-' s
  let (d, s) ← digits 2 s
  if ValidDate y (m - 1) d then some (dayNumber y (m - 1) d, s) else none

/-- A time of day in seconds. -/
def readTime (s : List Char) : Option (ℤ × List Char) := do
  let (h, s) ← digits 2 s
  let s ← lit ':' s
  let (m, s) ← digits 2 s
  let s ← lit ':' s
  let (sec, s) ← digits 2 s
  if h < 24 ∧ m < 60 ∧ sec < 60 then some (3600 * h + 60 * m + sec, s) else none

/-- An offset in minutes. -/
def readOffset : List Char → Option (ℤ × List Char)
  | [] => none
  | sign :: s => do
    let (h, s) ← digits 2 s
    let s ← lit ':' s
    let (m, s) ← digits 2 s
    if 24 ≤ h ∨ 60 ≤ m then none
    else if sign = '+' then some (60 * h + m, s)
    else if sign = '-' then some (-(60 * h + m), s)
    else none

/-- Seconds since the epoch, and microseconds. -/
def parse (s : List Char) : Option (ℤ × ℤ) := do
  let (day, s) ← readDate s
  let s ← lit 'T' s
  let (clock, s) ← readTime s
  let s ← lit '.' s
  let (usec, s) ← digits 6 s
  let (offset, s) ← readOffset s
  if s = [] then some (86400 * day + clock - 60 * offset, usec) else none

/-! ### Reading undoes printing -/

@[simp] theorem lit_cons (c : Char) (r : List Char) : lit c (c :: r) = some r := if_pos rfl

theorem digits_decZ {n : ℕ} (hn : 0 < n) {v : ℤ} (h0 : 0 ≤ v) (h1 : v < 10 ^ n) (r : List Char) :
    digits n (decZ n v ++ r) = some (v, r) := by
  have hlen := length_decZ hn h0 h1
  have hv : ((Nat.ofDigitChars 10 (decZ n v) 0 : ℕ) : ℤ) = v := by
    rw [ofDigitChars_decZ h0]
    omega
  rw [digits, List.take_left' hlen, List.drop_left' hlen, if_pos ⟨by simp [hlen], allDigits_decZ h0⟩, hv]

theorem digits_two {v : ℤ} (h0 : 0 ≤ v) (h1 : v < 100) (r : List Char) :
    digits 2 (decZ 2 v ++ r) = some (v, r) := digits_decZ (by norm_num) h0 (by omega) r

section RoundTrip

variable (s : Stamp) (r : List Char)

theorem readDate_text : readDate (s.dateText ++ r) = some (dayNumber s.year s.month s.mday, r) := by
  obtain ⟨m0, m1, d0, d1⟩ := id s.date
  have hlen := monthLen_bounds s.year s.month
  have hy := s.year_four
  simp only [readDate, Stamp.dateText, List.append_assoc, List.cons_append, Option.bind_eq_bind]
  rw [digits_decZ (by norm_num) hy.1 (by omega), Option.bind_some]
  dsimp only
  rw [lit_cons, Option.bind_some, digits_two (by omega) (by omega), Option.bind_some]
  dsimp only
  rw [lit_cons, Option.bind_some, digits_two (by omega) (by omega), Option.bind_some]
  dsimp only
  rw [add_sub_cancel_right, if_pos s.date]

theorem readTime_text : readTime (s.timeText ++ r) = some (3600 * s.hour + 60 * s.min + s.sec, r) := by
  have hh := s.hour_lt
  have hm := s.min_lt
  have hs := s.sec_lt
  simp only [readTime, Stamp.timeText, List.append_assoc, List.cons_append, Option.bind_eq_bind]
  rw [digits_two hh.1 (by omega), Option.bind_some]
  dsimp only
  rw [lit_cons, Option.bind_some, digits_two hm.1 (by omega), Option.bind_some]
  dsimp only
  rw [lit_cons, Option.bind_some, digits_two hs.1 (by omega), Option.bind_some]
  dsimp only
  rw [if_pos ⟨hh.2, hm.2, hs.2⟩]

theorem readOffset_text : readOffset (s.offsetText ++ r) = some (s.offset, r) := by
  have ho := s.offset_lt
  simp only [readOffset, Stamp.offsetText, List.append_assoc, List.cons_append, Option.bind_eq_bind]
  rw [digits_two (by omega) (by omega), Option.bind_some]
  dsimp only
  rw [lit_cons, Option.bind_some, digits_two (by omega) (by omega), Option.bind_some]
  dsimp only
  rw [if_neg (by omega)]
  by_cases hneg : s.offset < 0
  · rw [if_pos hneg, if_neg (by decide), if_pos rfl]
    congr 2
    omega
  · rw [if_neg hneg, if_pos rfl]
    congr 2
    omega

/-- **A printed stamp is read back.** -/
theorem parse_text : parse s.text = some (s.seconds, s.usec) := by
  have hu := s.usec_lt
  have hoff := readOffset_text s []
  rw [List.append_nil] at hoff
  simp only [parse, Stamp.text, Option.bind_eq_bind]
  rw [readDate_text, Option.bind_some]
  dsimp only
  rw [lit_cons, Option.bind_some, readTime_text, Option.bind_some]
  dsimp only
  rw [lit_cons, Option.bind_some, digits_decZ (by norm_num) hu.1 (by omega), Option.bind_some]
  dsimp only
  rw [hoff, Option.bind_some]
  rfl

end RoundTrip

end Rfc3339
