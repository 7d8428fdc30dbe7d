/-
# Topics and subscriptions of the broker

The broker (`broker/mosquitto`) names messages by topics, levels between `/`.
A subscription may have `+` for a level and `#` for the last levels.
`subTopicCheck` and `pubTopicCheck` (`lib/util_mosq.c`) scan the text a client
sends; what they accept is a condition on its levels (`subTopicCheck_iff`,
`pubTopicCheck_iff`). `subTopicTokenise` (`src/subs.c`) cuts the text into the
tokens of the subscription tree, and no two texts have the same tokens
(`subTopicTokenise_injective`).

Two parts of the broker decide whether a topic matches: the subscription tree
goes by tokens, `topicMatchesSub` scans both texts with two cursors. They agree
on all that the checks accept, but for subscriptions that end in `+/#`: the
scan does not let that `#` stand for no level (`topicMatchesSub_eq`).

Key definitions: `subTopicCheck`, `subTopicTokenise`, `topicMatchesSub`.
-/
import BlenderBottle.Lib.Wildcard

namespace BlenderBottle
namespace Broker

/-- The return codes of the library that are used here. -/
inductive MosqErr
  | success
  | inval
  deriving DecidableEq, Repr

abbrev Token := List Char

/-- The text between the slashes. -/
def levels (s : List Char) : List Token := s.splitOn '/'

def plus : Token := ['+']

def hash : Token := ['#']

/-! ### Levels -/

@[simp] theorem levels_nil : levels [] = [[]] := rfl

@[simp] theorem levels_slash (s : List Char) : levels ('/' :: s) = [] :: levels s := by
  simp [levels, List.splitOn, List.splitOnP_cons_eq_if_modifyHead]

theorem levels_cons {x : Char} (hx : x ≠ '/') (s : List Char) :
    levels (x :: s) = (levels s).modifyHead (x :: ·) := by
  simp [levels, List.splitOn, List.splitOnP_cons_eq_if_modifyHead, hx]

theorem exists_levels (s : List Char) : ∃ l ls, levels s = l :: ls :=
  List.exists_cons_of_ne_nil (List.splitOn_ne_nil '/' s)

theorem intercalate_levels (s : List Char) : ['/'].intercalate (levels s) = s := List.intercalate_splitOn '/'

theorem levels_injective : Function.Injective levels := fun s s' h => by
  rw [← intercalate_levels s, h, intercalate_levels]

theorem levels_eq_nil_iff {s : List Char} : levels s = [[]] ↔ s = [] :=
  ⟨fun h => levels_injective (h.trans levels_nil.symm), fun h => by simp [h]⟩

/-- A level without wildcards. -/
def Plain (l : Token) : Prop := '+' ∉ l ∧ '#' ∉ l

instance (l : Token) : Decidable (Plain l) := inferInstanceAs (Decidable (_ ∧ _))

theorem plain_nil : Plain [] := by simp [Plain]

theorem plain_cons {x : Char} {l : Token} : Plain (x :: l) ↔ x ≠ '+' ∧ x ≠ '#' ∧ Plain l := by
  simp only [Plain, List.mem_cons, not_or]
  tauto

theorem not_plain_plus : ¬ Plain plus := by decide

theorem not_plain_hash : ¬ Plain hash := by decide

/-- Wildcards stand alone in their level, and `#` in the last one only. -/
def ValidLevels : List Token → Prop
  | [] => False
  | [l] => Plain l ∨ l = plus ∨ l = hash
  | l :: ls => (Plain l ∨ l = plus) ∧ ValidLevels ls

theorem validLevels_cons {l : Token} {ls : List Token} (hls : ls ≠ []) :
    ValidLevels (l :: ls) ↔ (Plain l ∨ l = plus) ∧ ValidLevels ls := by
  cases ls with
  | nil => exact absurd rfl hls
  | cons l' ls => rfl

/-- The levels after a level that has no wildcard. -/
theorem validLevels_plain {l : Token} {ls : List Token} (hl : Plain l) :
    ValidLevels (l :: ls) ↔ ls = [] ∨ ValidLevels ls := by
  by_cases h : ls = []
  · simp [h, ValidLevels, hl]
  · simp [validLevels_cons h, hl, h]

/-- The text has no wildcard. -/
theorem forall_plain_levels {s : List Char} : (∀ l ∈ levels s, Plain l) ↔ Plain s := by
  induction s with
  | nil => simp [plain_nil]
  | cons x s ih =>
    obtain ⟨l, ls, hls⟩ := exists_levels s
    by_cases hx : x = '/'
    · subst hx
      rw [levels_slash, List.forall_mem_cons, ih]
      simp [plain_cons, plain_nil]
    · rw [levels_cons hx, plain_cons, ← ih, hls]
      simp [plain_cons, and_assoc]

/-! ### The checks of the text a client sends -/

/-- `mosquitto_pub_topic_check`, `len` characters in. -/
def pubTopicCheckLoop : List Char → ℕ → MosqErr
  | [], len => if len > 65535 then .inval else .success
  | x :: str, len => if x = '+' ∨ x = '#' then .inval else pubTopicCheckLoop str (len + 1)

def pubTopicCheck (str : List Char) : MosqErr := pubTopicCheckLoop str 0

/-- `mosquitto_sub_topic_check`, `len` characters in, with the one before. -/
def subTopicCheckLoop : Option Char → List Char → ℕ → MosqErr
  | _, [], len => if len > 65535 then .inval else .success
  | c, x :: str, len =>
    if x = '+' then
      if (c ≠ none ∧ c ≠ some '/') ∨ (str.head? ≠ none ∧ str.head? ≠ some '/') then .inval
      else subTopicCheckLoop (some x) str (len + 1)
    else if x = '#' then
      if (c ≠ none ∧ c ≠ some '/') ∨ str.head? ≠ none then .inval
      else subTopicCheckLoop (some x) str (len + 1)
    else subTopicCheckLoop (some x) str (len + 1)

def subTopicCheck (str : List Char) : MosqErr := subTopicCheckLoop none str 0

theorem pubTopicCheckLoop_iff {s : List Char} {len : ℕ} :
    pubTopicCheckLoop s len = .success ↔ Plain s ∧ s.length + len ≤ 65535 := by
  induction s generalizing len with
  | nil => simp [pubTopicCheckLoop, plain_nil]
  | cons x s ih =>
    by_cases hx : x = '+' ∨ x = '#'
    · have : ¬ Plain (x :: s) := fun h => by
        rw [plain_cons] at h
        tauto
      simp [pubTopicCheckLoop, hx, this]
    · rw [not_or] at hx
      have hlen : s.length + (len + 1) ≤ 65535 ↔ (x :: s).length + len ≤ 65535 := by
        rw [List.length_cons]
        omega
      rw [pubTopicCheckLoop, if_neg (by tauto), ih, plain_cons, hlen]
      tauto

theorem pubTopicCheck_iff {s : List Char} : pubTopicCheck s = .success ↔ Plain s ∧ s.length ≤ 65535 :=
  pubTopicCheckLoop_iff

/-- A level starts after nothing or a slash. -/
def LevelStart (c : Option Char) : Prop := c = none ∨ c = some '/'

instance (c : Option Char) : Decidable (LevelStart c) := inferInstanceAs (Decidable (_ ∨ _))

theorem levelStart_none : LevelStart none := Or.inl rfl

theorem levelStart_slash : LevelStart (some '/') := Or.inr rfl

/-- What the check of a subscription demands of the text after `c`: at the
start of a level valid levels, in the middle of one no wildcard up to its end. -/
def Rest (c : Option Char) (s : List Char) : Prop :=
  ∃ l ls, levels s = l :: ls ∧
    if LevelStart c then ValidLevels (l :: ls) else Plain l ∧ (ls = [] ∨ ValidLevels ls)

theorem rest_iff {c : Option Char} {s : List Char} {l : Token} {ls : List Token} (h : levels s = l :: ls) :
    Rest c s ↔ if LevelStart c then ValidLevels (l :: ls) else Plain l ∧ (ls = [] ∨ ValidLevels ls) := by
  constructor
  · rintro ⟨l', ls', h', hr⟩
    cases h.symm.trans h'
    exact hr
  · exact fun hr => ⟨l, ls, h, hr⟩

theorem rest_none {s : List Char} : Rest none s ↔ ValidLevels (levels s) := by
  obtain ⟨l, ls, h⟩ := exists_levels s
  rw [rest_iff h, h, if_pos levelStart_none]

theorem rest_nil (c : Option Char) : Rest c [] := by
  refine ⟨[], [], levels_nil, ?_⟩
  split
  · exact Or.inl plain_nil
  · exact ⟨plain_nil, Or.inl rfl⟩

/-- A slash ends a level and starts the next. -/
theorem rest_slash {c : Option Char} {s : List Char} : Rest c ('/' :: s) ↔ Rest (some '/') s := by
  obtain ⟨l, ls, h⟩ := exists_levels s
  rw [rest_iff (levels_slash s), rest_iff h, if_pos levelStart_slash, validLevels_plain plain_nil, h]
  simp [plain_nil]

theorem levels_head_eq_nil {s : List Char} {l : Token} {ls : List Token} (h : levels s = l :: ls) :
    l = [] ↔ LevelStart s.head? := by
  cases s with
  | nil =>
    obtain ⟨rfl, rfl⟩ : [] = l ∧ [] = ls := by simpa using h
    simp [LevelStart]
  | cons x s =>
    by_cases hx : x = '/'
    · subst hx
      obtain ⟨rfl, -⟩ : [] = l ∧ levels s = ls := by simpa using h
      simp [LevelStart]
    · obtain ⟨l', ls', h'⟩ := exists_levels s
      rw [levels_cons hx, h'] at h
      obtain ⟨rfl, -⟩ : x :: l' = l ∧ ls' = ls := by simpa using h
      simp [LevelStart, hx]

theorem levels_cons_eq {x : Char} (hx : x ≠ '/') {s : List Char} {l : Token} {ls : List Token}
    (h : levels s = l :: ls) : levels (x :: s) = (x :: l) :: ls := by
  rw [levels_cons hx, h]
  rfl

theorem rest_plus {c : Option Char} {s : List Char} :
    Rest c ('+' :: s) ↔ LevelStart c ∧ LevelStart s.head? ∧ Rest (some '+') s := by
  obtain ⟨l, ls, h⟩ := exists_levels s
  have hp : ¬ Plain ('+' :: l) := by simp [Plain]
  have hm : ¬ LevelStart (some '+') := by simp [LevelStart]
  rw [rest_iff (levels_cons_eq (by decide) h), rest_iff h, if_neg hm, ← levels_head_eq_nil h]
  by_cases hc : LevelStart c
  · have hval : ValidLevels (('+' :: l) :: ls) ↔ l = [] ∧ (ls = [] ∨ ValidLevels ls) := by
      by_cases he : ls = []
      · simp [he, ValidLevels, hp, plus, hash]
      · simp [validLevels_cons he, hp, he, plus]
    rw [if_pos hc, hval]
    constructor
    · rintro ⟨rfl, hls⟩
      exact ⟨hc, rfl, plain_nil, hls⟩
    · rintro ⟨-, rfl, -, hls⟩
      exact ⟨rfl, hls⟩
  · simp [hc, hp]

theorem rest_hash {c : Option Char} {s : List Char} : Rest c ('#' :: s) ↔ LevelStart c ∧ s = [] := by
  obtain ⟨l, ls, h⟩ := exists_levels s
  have hp : ¬ Plain ('#' :: l) := by simp [Plain]
  rw [rest_iff (levels_cons_eq (by decide) h), ← levels_eq_nil_iff, h]
  by_cases hc : LevelStart c
  · have hval : ValidLevels (('#' :: l) :: ls) ↔ l = [] ∧ ls = [] := by
      by_cases he : ls = []
      · simp [he, ValidLevels, hp, plus, hash]
      · simp [validLevels_cons he, hp, he, plus]
    rw [if_pos hc, hval]
    simp [hc]
  · simp [hc, hp]

/-- Any other character belongs to its level. -/
theorem rest_char {c : Option Char} {x : Char} {s : List Char} (hslash : x ≠ '/') (hplus : x ≠ '+')
    (hhash : x ≠ '#') : Rest c (x :: s) ↔ Rest (some x) s := by
  obtain ⟨l, ls, h⟩ := exists_levels s
  have hp : Plain (x :: l) ↔ Plain l := by simp [plain_cons, hplus, hhash]
  have hm : ¬ LevelStart (some x) := by simp [LevelStart, hslash]
  rw [rest_iff (levels_cons_eq hslash h), rest_iff h, if_neg hm]
  by_cases hc : LevelStart c
  · have hval : ValidLevels ((x :: l) :: ls) ↔ Plain l ∧ (ls = [] ∨ ValidLevels ls) := by
      by_cases he : ls = []
      · simp [he, ValidLevels, hp, plus, hash, hplus, hhash]
      · simp [validLevels_cons he, hp, he, plus, hplus]
    rw [if_pos hc, hval]
  · rw [if_neg hc, hp]

theorem subTopicCheckLoop_iff {s : List Char} {c : Option Char} {len : ℕ} :
    subTopicCheckLoop c s len = .success ↔ Rest c s ∧ s.length + len ≤ 65535 := by
  induction s generalizing c len with
  | nil => simp [subTopicCheckLoop, rest_nil]
  | cons x s ih =>
    have hlen : s.length + (len + 1) ≤ 65535 ↔ (x :: s).length + len ≤ 65535 := by
      rw [List.length_cons]
      omega
    have hstart : ∀ o : Option Char, (o ≠ none ∧ o ≠ some '/') ↔ ¬ LevelStart o := by
      simp [LevelStart]
    simp only [subTopicCheckLoop, hstart]
    by_cases hplus : x = '+'
    · subst hplus
      rw [if_pos rfl, rest_plus]
      by_cases h : LevelStart c ∧ LevelStart s.head?
      · simp [h, ih, hlen]
      · rw [if_pos (by rw [← not_and_or]; exact h)]
        simp only [reduceCtorEq, false_iff, not_and]
        exact fun h' => absurd ⟨h'.1, h'.2.1⟩ h
    · by_cases hhash : x = '#'
      · subst hhash
        rw [if_neg (by decide), if_pos rfl, rest_hash, ← List.head?_eq_none_iff]
        by_cases h : LevelStart c ∧ s.head? = none
        · obtain rfl := List.head?_eq_none_iff.mp h.2
          simp only [h.1, not_true_eq_false, List.head?_nil, ne_eq, or_self, if_false, ih, rest_nil, hlen,
            and_true]
        · rw [if_pos (by rw [← not_and_or]; exact h)]
          simp only [reduceCtorEq, false_iff, not_and]
          exact fun h' => absurd h' h
      · rw [if_neg hplus, if_neg hhash, ih, hlen]
        by_cases hslash : x = '/'
        · subst hslash
          rw [rest_slash]
        · rw [rest_char hslash hplus hhash]

/-- **The subscriptions the check accepts.** Wildcards alone in their levels,
`#` in the last, and no more text than a length of sixteen bits can give. -/
theorem subTopicCheck_iff {s : List Char} :
    subTopicCheck s = .success ↔ ValidLevels (levels s) ∧ s.length ≤ 65535 := by
  rw [subTopicCheck, subTopicCheckLoop_iff, rest_none, Nat.add_zero]

/-! ### The tokens of the subscription tree -/

/-- The loop of `_sub_topic_tokenise` from `start`, with the characters since
then in `piece`, last first. -/
def subTopicTokeniseLoop (piece : List Char) : List Char → List Token
  | [] => [piece.reverse]
  | x :: s => if x = '/' then piece.reverse :: subTopicTokeniseLoop [] s else subTopicTokeniseLoop (x :: piece) s

/-- `_sub_topic_tokenise`. A topic outside `$` gets an empty token first, and
one for the level before a leading slash. -/
def subTopicTokenise (subtopic : List Char) : List Token :=
  (if subtopic.head? ≠ some '$' then [[]] else []) ++
    (if subtopic.head? = some '/' then [] :: subTopicTokeniseLoop [] subtopic.tail
    else subTopicTokeniseLoop [] subtopic)

theorem subTopicTokeniseLoop_eq (piece s : List Char) :
    subTopicTokeniseLoop piece s = (levels s).modifyHead (piece.reverse ++ ·) := by
  induction s generalizing piece with
  | nil => simp [subTopicTokeniseLoop]
  | cons x s ih =>
    obtain ⟨l, ls, h⟩ := exists_levels s
    by_cases hx : x = '/'
    · subst hx
      rw [subTopicTokeniseLoop, if_pos rfl, ih, levels_slash, h]
      simp
    · rw [subTopicTokeniseLoop, if_neg hx, ih, levels_cons_eq hx h, h]
      simp

/-- The tokens are the levels, after an empty one outside `$`. -/
theorem subTopicTokenise_eq (s : List Char) :
    subTopicTokenise s = (if s.head? ≠ some '$' then [[]] else []) ++ levels s := by
  have hloop : ∀ s, subTopicTokeniseLoop [] s = levels s := fun s => by
    obtain ⟨l, ls, h⟩ := exists_levels s
    simp [subTopicTokeniseLoop_eq, h]
  rw [subTopicTokenise]
  congr 1
  cases s with
  | nil => exact hloop []
  | cons x s =>
    by_cases hx : x = '/'
    · subst hx
      simp [hloop]
    · simp [hx, hloop]

theorem subTopicTokenise_dollar (s : List Char) : subTopicTokenise ('$' :: s) = levels ('$' :: s) := by
  rw [subTopicTokenise_eq]
  rfl

theorem subTopicTokenise_plain {s : List Char} (h : s.head? ≠ some '$') : subTopicTokenise s = [] :: levels s := by
  rw [subTopicTokenise_eq, if_pos h]
  rfl

/-- The first token of a topic in `$` is not empty. -/
theorem levels_dollar (s : List Char) : ∃ l ls, levels ('$' :: s) = ('$' :: l) :: ls := by
  obtain ⟨l, ls, h⟩ := exists_levels s
  exact ⟨l, ls, levels_cons_eq (by decide) h⟩

theorem subTopicTokenise_cases (s : List Char) :
    (s.head? ≠ some '$' ∧ subTopicTokenise s = [] :: levels s) ∨
      (s.head? = some '$' ∧ subTopicTokenise s = levels s ∧ ∃ l ls, levels s = ('$' :: l) :: ls) := by
  by_cases h : s.head? = some '$'
  · obtain ⟨s, rfl⟩ : ∃ s', s = '$' :: s' := by
      cases s with
      | nil => simp at h
      | cons x s =>
        obtain rfl : x = '$' := by simpa using h
        exact ⟨s, rfl⟩
    exact Or.inr ⟨h, subTopicTokenise_dollar s, levels_dollar s⟩
  · exact Or.inl ⟨h, subTopicTokenise_plain h⟩

theorem subTopicTokenise_injective : Function.Injective subTopicTokenise := by
  intro s s' h
  rcases subTopicTokenise_cases s with ⟨-, h1⟩ | ⟨-, h1, l, ls, hl⟩ <;>
    rcases subTopicTokenise_cases s' with ⟨-, h2⟩ | ⟨-, h2, l', ls', hl'⟩
  · exact levels_injective (List.cons.inj (h1.symm.trans (h.trans h2))).2
  · rw [h1, h2, hl'] at h
    simp at h
  · rw [h1, h2, hl] at h
    simp at h
  · exact levels_injective (h1.symm.trans (h.trans h2))

/-! ### Does a topic match a subscription? -/

/-- The loop of `mosquitto_topic_matches_sub`: what is left of both texts, and
the character of `sub` before. The second value is what `*result` is set to. -/
def topicMatchesSubLoop : Option Char → List Char → List Char → MosqErr × Option Bool
  | _, [], topic => (.success, if topic = [] then none else some false)
  | c, x :: sub, topic =>
    if some x = topic.head? then
      -- foo matching foo/#
      if topic.tail = [] ∧ sub = ['/', '#'] then (.success, some true)
      else if sub = [] ∧ topic.tail = [] then (.success, some true)
      else if topic.tail = [] ∧ sub = ['+'] then
        if x ≠ '/' then (.inval, some false) else (.success, some true)
      else topicMatchesSubLoop (some x) sub topic.tail
    else if x = '+' then
      if c ≠ none ∧ c ≠ some '/' then (.inval, some false)
      else if sub ≠ [] ∧ sub.head? ≠ some '/' then (.inval, some false)
      else if topic.dropWhile (· ≠ '/') = [] ∧ sub = [] then (.success, some true)
      else topicMatchesSubLoop (some x) sub (topic.dropWhile (· ≠ '/'))
    else if x = '#' then
      if c ≠ none ∧ c ≠ some '/' then (.inval, some false)
      else if sub ≠ [] then (.inval, some false)
      else (.success, some true)
    else (.success, some false)

/-- `mosquitto_topic_matches_sub`. -/
def topicMatchesSub (sub topic : List Char) : MosqErr × Option Bool :=
  if sub = [] ∨ topic = [] then (.inval, some false)
  else if (sub.head? = some '$' ∧ topic.head? ≠ some '$') ∨ (topic.head? = some '$' ∧ sub.head? ≠ some '$') then
    (.success, some false)
  else topicMatchesSubLoop none sub topic

/-- The topics that the scan finds to match, by levels: as `Matches`, but a
`#` after a `+` is not taken for no level. -/
def ScanMatches : List Token → List Token → Prop
  | [], ts => ts = []
  | f :: fs, [] => f = hash ∧ fs = []
  | f :: fs, t :: ts =>
    if f = hash ∧ fs = [] then True
    else if f = plus then ¬ (fs = [hash] ∧ ts = []) ∧ ScanMatches fs ts
    else f = t ∧ ScanMatches fs ts

instance decScanMatches : (fs ts : List Token) → Decidable (ScanMatches fs ts)
  | [], ts => decidable_of_iff (ts.isEmpty = true) (by simp [ScanMatches])
  | f :: fs, [] => inferInstanceAs (Decidable (f = hash ∧ fs = []))
  | f :: fs, t :: ts =>
    haveI := decScanMatches fs ts
    inferInstanceAs (Decidable (if f = hash ∧ fs = [] then True
      else if f = plus then ¬ (fs = [hash] ∧ ts = []) ∧ ScanMatches fs ts
      else f = t ∧ ScanMatches fs ts))

theorem scanMatches_plain_cons {f t : Token} {fs ts : List Token} (hf : Plain f) :
    ScanMatches (f :: fs) (t :: ts) ↔ f = t ∧ ScanMatches fs ts := by
  have h1 : f ≠ hash := fun h => not_plain_hash (h ▸ hf)
  have h2 : f ≠ plus := fun h => not_plain_plus (h ▸ hf)
  simp [ScanMatches, h1, h2]

/-- An ordinary character that both texts have next does not matter. -/
theorem scanMatches_levels_cons {x : Char} {s t : List Char} (hr : Rest (some x) s) (hplus : x ≠ '+')
    (hhash : x ≠ '#') : ScanMatches (levels (x :: s)) (levels (x :: t)) ↔ ScanMatches (levels s) (levels t) := by
  obtain ⟨f, fs, hs⟩ := exists_levels s
  obtain ⟨l, ls, ht⟩ := exists_levels t
  by_cases hslash : x = '/'
  · subst hslash
    rw [levels_slash, levels_slash, scanMatches_plain_cons plain_nil]
    simp
  · have hf : Plain f := by
      rw [rest_iff hs, if_neg (by simp [LevelStart, hslash])] at hr
      exact hr.1
    rw [levels_cons_eq hslash hs, levels_cons_eq hslash ht, hs, ht, scanMatches_plain_cons hf,
      scanMatches_plain_cons (plain_cons.mpr ⟨hplus, hhash, hf⟩)]
    simp

/-- An ordinary character that the topic does not have next is a mismatch,
unless all that is left is `/#`. -/
theorem not_scanMatches_levels {x : Char} {s t : List Char} (hr : Rest (some x) s) (hplus : x ≠ '+')
    (hhash : x ≠ '#') (hx : some x ≠ t.head?) (hend : ¬ (t = [] ∧ x :: s = ['/', '#'])) :
    ¬ ScanMatches (levels (x :: s)) (levels t) := by
  obtain ⟨f, fs, hs⟩ := exists_levels s
  obtain ⟨l, ls, ht⟩ := exists_levels t
  by_cases hslash : x = '/'
  · subst hslash
    rw [levels_slash, ht, scanMatches_plain_cons plain_nil, eq_comm, levels_head_eq_nil ht]
    rintro ⟨h | h, hm⟩
    · -- the topic is used up
      obtain rfl := List.head?_eq_none_iff.mp h
      obtain ⟨-, rfl⟩ : [] = l ∧ [] = ls := by simpa using ht
      rw [hs] at hm
      have hhash : levels s = levels ['#'] := by
        rw [hs, hm.1, hm.2]
        rfl
      exact hend ⟨rfl, by rw [levels_injective hhash]⟩
    · exact hx h.symm
  · have hf : Plain f := by
      rw [rest_iff hs, if_neg (by simp [LevelStart, hslash])] at hr
      exact hr.1
    rw [levels_cons_eq hslash hs, ht, scanMatches_plain_cons (plain_cons.mpr ⟨hplus, hhash, hf⟩)]
    rintro ⟨rfl, -⟩
    cases t with
    | nil => simp at ht
    | cons y t =>
      by_cases hy : y = '/'
      · subst hy
        simp at ht
      · obtain ⟨l', ls', ht'⟩ := exists_levels t
        rw [levels_cons_eq hy ht'] at ht
        obtain ⟨⟨rfl, -⟩, -⟩ : (y = x ∧ l' = f) ∧ ls' = ls := by simpa using ht
        exact hx rfl

/-- The answer of the loop is whether what is left matches. -/
def Scans (c : Option Char) (s t : List Char) : Prop :=
  topicMatchesSubLoop c s t = (.success, some (decide (ScanMatches (levels s) (levels t))))

/-- A step of the loop over a character that both texts have next. -/
theorem scans_same {c : Option Char} {x : Char} {s t : List Char} (hr : Rest (some x) s) (hplus : x ≠ '+')
    (hhash : x ≠ '#')
    (ih : ¬ (s = [] ∧ t = []) → ¬ (t = [] ∧ s = ['/', '#']) → Scans (some x) s t) :
    Scans c (x :: s) (x :: t) := by
  have hstep : topicMatchesSubLoop c (x :: s) (x :: t) =
      if t = [] ∧ s = ['/', '#'] then (.success, some true)
      else if s = [] ∧ t = [] then (.success, some true)
      else if t = [] ∧ s = ['+'] then if x ≠ '/' then (.inval, some false) else (.success, some true)
      else topicMatchesSubLoop (some x) s t := by
    rw [topicMatchesSubLoop]
    exact if_pos rfl
  unfold Scans
  simp only [scanMatches_levels_cons hr hplus hhash]
  rw [hstep]
  by_cases h1 : t = [] ∧ s = ['/', '#']
  · obtain ⟨rfl, rfl⟩ := h1
    rfl
  by_cases h2 : s = [] ∧ t = []
  · obtain ⟨rfl, rfl⟩ := h2
    rfl
  rw [if_neg h1, if_neg h2]
  by_cases h3 : t = [] ∧ s = ['+']
  · obtain ⟨rfl, rfl⟩ := h3
    obtain rfl : x = '/' := by
      have := (rest_plus.mp hr).1
      simpa [LevelStart] using this
    rfl
  · rw [if_neg h3]
    exact ih h2 h1

theorem levels_dropWhile {t : List Char} {l : Token} {ls : List Token} (h : levels t = l :: ls) :
    levels (t.dropWhile (· ≠ '/')) = [] :: ls := by
  induction t generalizing l with
  | nil =>
    obtain ⟨-, rfl⟩ : [] = l ∧ [] = ls := by simpa using h
    rfl
  | cons x t ih =>
    by_cases hx : x = '/'
    · subst hx
      obtain ⟨-, rfl⟩ : [] = l ∧ levels t = ls := by simpa using h
      simp
    · obtain ⟨l', ls', h'⟩ := exists_levels t
      rw [levels_cons_eq hx h'] at h
      obtain ⟨-, rfl⟩ : x :: l' = l ∧ ls' = ls := by simpa using h
      simpa [hx] using ih h'

theorem Plain.dropWhile {t : List Char} (h : Plain t) (p : Char → Bool) : Plain (t.dropWhile p) :=
  ⟨fun hm => h.1 ((List.dropWhile_sublist p).mem hm), fun hm => h.2 ((List.dropWhile_sublist p).mem hm)⟩

/-- **What the scan decides.** Anywhere in a valid subscription the answer is
that of the levels left; after a `+` both texts are at the end of a level. -/
theorem scans (s : List Char) :
    (∀ c t, Rest c s → Plain t → ¬ (s = [] ∧ t = []) → ¬ (t = [] ∧ s = ['/', '#']) → Scans c s t) ∧
    (∀ t fs ts, Rest (some '+') s → Plain t → ¬ (s = [] ∧ t = []) →
      levels s = [] :: fs → levels t = [] :: ts →
      topicMatchesSubLoop (some '+') s t =
        (.success, some (decide (¬ (fs = [hash] ∧ ts = []) ∧ ScanMatches fs ts)))) := by
  induction s with
  | nil =>
    constructor
    · intro c t _ _ h _
      have ht : t ≠ [] := fun h' => h ⟨rfl, h'⟩
      obtain ⟨l, ls, hl⟩ := exists_levels t
      have : ¬ ScanMatches [[]] (levels t) := by
        rw [hl, scanMatches_plain_cons plain_nil]
        rintro ⟨rfl, hls⟩
        obtain rfl : ls = [] := hls
        exact ht (levels_eq_nil_iff.mp hl)
      simp [Scans, topicMatchesSubLoop, ht, this]
    · intro t fs ts _ _ h hs ht
      obtain rfl : fs = [] := by simpa using hs.symm
      have ht' : t ≠ [] := fun h' => h ⟨rfl, h'⟩
      have : ts ≠ [] := by
        rintro rfl
        exact ht' (levels_eq_nil_iff.mp ht)
      simp [topicMatchesSubLoop, ht', ScanMatches, this]
  | cons x s ih =>
    obtain ⟨ihMid, ihPlus⟩ := ih
    constructor
    · intro c t hr ht _ hend
      by_cases hplus : x = '+'
      · subst hplus
        obtain ⟨hc, hs, hr⟩ := rest_plus.mp hr
        obtain ⟨f, fs, hfs⟩ := exists_levels s
        obtain ⟨l, ls, hls⟩ := exists_levels t
        obtain rfl : f = [] := (levels_head_eq_nil hfs).mpr hs
        have hx : some '+' ≠ t.head? := by
          cases t with
          | nil => simp
          | cons y t => simpa using (plain_cons.mp ht).1.symm
        have hlv : levels ('+' :: s) = plus :: fs := levels_cons_eq (by decide) hfs
        have hmatch : ScanMatches (levels ('+' :: s)) (levels t) ↔
            ¬ (fs = [hash] ∧ ls = []) ∧ ScanMatches fs ls := by
          rw [hlv, hls, ScanMatches, if_neg (by simp [plus, hash]), if_pos rfl]
        have hc' : ¬ (c ≠ none ∧ c ≠ some '/') := by
          unfold LevelStart at hc
          tauto
        have hs' : ¬ (s ≠ [] ∧ s.head? ≠ some '/') := by
          unfold LevelStart at hs
          rw [List.head?_eq_none_iff] at hs
          tauto
        unfold Scans
        simp only [hmatch]
        rw [topicMatchesSubLoop, if_neg hx, if_pos rfl, if_neg hc', if_neg hs']
        by_cases hboth : t.dropWhile (· ≠ '/') = [] ∧ s = []
        · -- both texts end with this level
          have hd := levels_dropWhile hls
          rw [hboth.1] at hd
          obtain rfl : ls = [] := by simpa using hd.symm
          rw [hboth.2] at hfs
          obtain rfl : fs = [] := by simpa using hfs.symm
          rw [if_pos hboth]
          simp [ScanMatches]
        · rw [if_neg hboth]
          exact ihPlus _ fs ls hr (ht.dropWhile _) (fun h => hboth h.symm) hfs (levels_dropWhile hls)
      · by_cases hhash : x = '#'
        · subst hhash
          obtain ⟨hc, rfl⟩ := rest_hash.mp hr
          obtain ⟨l, ls, hls⟩ := exists_levels t
          have hx : some '#' ≠ t.head? := by
            cases t with
            | nil => simp
            | cons y t => simpa using (plain_cons.mp ht).2.1.symm
          have hc' : ¬ (c ≠ none ∧ c ≠ some '/') := by
            unfold LevelStart at hc
            tauto
          have hmatch : ScanMatches (levels ['#']) (levels t) := by
            rw [show levels ['#'] = [hash] from levels_cons_eq (by decide) levels_nil, hls]
            simp [ScanMatches]
          simp [Scans, topicMatchesSubLoop, hx, hc', hmatch]
        · have hr' : Rest (some x) s := by
            by_cases hslash : x = '/'
            · subst hslash
              exact rest_slash.mp hr
            · exact (rest_char hslash hplus hhash).mp hr
          by_cases hx : some x = t.head?
          · obtain ⟨t, rfl⟩ : ∃ t', t = x :: t' := by
              cases t with
              | nil => simp at hx
              | cons y t =>
                obtain rfl : x = y := by simpa using hx
                exact ⟨t, rfl⟩
            exact scans_same hr' hplus hhash (ihMid (some x) t hr' (plain_cons.mp ht).2.2)
          · have hmatch := not_scanMatches_levels hr' hplus hhash hx hend
            simp [Scans, topicMatchesSubLoop, hx, hplus, hhash, hmatch]
    · intro t fs ts hr ht _ hs hts
      -- after `+` the subscription goes on with a slash
      obtain rfl : x = '/' := by
        have := (levels_head_eq_nil hs).mp rfl
        simpa [LevelStart] using this
      obtain rfl : levels s = fs := by simpa using hs
      have hr' : Rest (some '/') s := rest_slash.mp hr
      obtain ⟨f, fs, hfs⟩ := exists_levels s
      cases t with
      | nil =>
        obtain rfl : ts = [] := by simpa using hts.symm
        have hmatch : ¬ (¬ (levels s = [hash] ∧ ([] : List Token) = []) ∧ ScanMatches (levels s) []) := by
          rw [hfs]
          simp only [List.cons.injEq, and_true, ScanMatches]
          exact fun h => h.1 h.2
        rw [decide_eq_false hmatch]
        rfl
      | cons y t =>
        obtain rfl : y = '/' := by
          have := (levels_head_eq_nil hts).mp rfl
          simpa [LevelStart] using this
        obtain rfl : levels t = ts := by simpa using hts
        have := scans_same (c := some '+') hr' (by decide) (by decide)
          (ihMid (some '/') t hr' (plain_cons.mp ht).2.2)
        unfold Scans at this
        rw [this]
        obtain ⟨l, ls, hl⟩ := exists_levels t
        simp [scanMatches_plain_cons plain_nil, hl]

/-! ### The scan and the tokens -/

open Wildcard

/-- The subscriptions for which the scan differs from the tree: they end in
`+/#`, and the topic ends at the `+`. -/
def EndsAtPlus (sub topic : List Token) : Prop := [plus, hash] <:+ sub ∧ topic.length + 1 = sub.length

theorem endsAtPlus_cons {f t : Token} {fs ts : List Token} :
    EndsAtPlus (f :: fs) (t :: ts) ↔ (f = plus ∧ fs = [hash] ∧ ts = []) ∨ EndsAtPlus fs ts := by
  simp only [EndsAtPlus, List.suffix_cons_iff, List.length_cons, List.cons.injEq]
  constructor
  · rintro ⟨⟨rfl, rfl⟩ | h, hlen⟩
    · exact Or.inl ⟨rfl, rfl, List.length_eq_zero_iff.mp (by simpa using hlen)⟩
    · exact Or.inr ⟨h, by omega⟩
  · rintro (⟨rfl, rfl, rfl⟩ | ⟨h, hlen⟩)
    · exact ⟨Or.inl ⟨rfl, rfl⟩, rfl⟩
    · exact ⟨Or.inr h, by omega⟩

theorem not_endsAtPlus_nil {fs : List Token} : ¬ EndsAtPlus fs [] := by
  rintro ⟨h, hlen⟩
  have := h.length_le
  simp at this hlen
  omega

theorem scanMatches_iff (fs ts : List Token) :
    ScanMatches fs ts ↔ Matches plus hash fs ts ∧ ¬ EndsAtPlus fs ts := by
  induction fs generalizing ts with
  | nil => simp [ScanMatches, Matches, EndsAtPlus]
  | cons f fs ih =>
    cases ts with
    | nil => simp [ScanMatches, Matches, not_endsAtPlus_nil]
    | cons t ts =>
      rw [ScanMatches, Matches, endsAtPlus_cons, ih]
      by_cases h1 : f = hash ∧ fs = []
      · obtain ⟨rfl, rfl⟩ := h1
        have : ¬ EndsAtPlus [] ts := by simp [EndsAtPlus]
        simp [plus, hash, this]
      · rw [if_neg h1]
        by_cases h2 : f = plus
        · subst h2
          have : plus ≠ hash := by decide
          simp only [if_true, this, false_and, true_or, true_and, false_or, not_or]
          tauto
        · simp only [h2, if_false, h1, false_or, false_and]
          tauto

/-- A topic in `$` is matched by subscriptions in `$` only. -/
theorem matches_subTopicTokenise (sub topic : List Char) :
    Matches plus hash (subTopicTokenise sub) (subTopicTokenise topic) ↔
      (sub.head? = some '$' ↔ topic.head? = some '$') ∧ Matches plus hash (levels sub) (levels topic) := by
  have hnil : ([] : Token) ≠ hash ∧ ([] : Token) ≠ plus := by decide
  have hd : ∀ l : List Char, '$' :: l ≠ hash ∧ '$' :: l ≠ plus := fun l => by simp [hash, plus]
  rcases subTopicTokenise_cases sub with ⟨h1, e1⟩ | ⟨h1, e1, l, ls, hl⟩ <;>
    rcases subTopicTokenise_cases topic with ⟨h2, e2⟩ | ⟨h2, e2, l', ls', hl'⟩
  · rw [e1, e2, Matches]
    simp [hnil, h1, h2]
  · rw [e1, e2, hl', Matches]
    simp [hnil, h1, h2]
  · rw [e1, e2, hl, Matches]
    simp [hd, h1, h2]
  · rw [e1, e2]
    simp [h1, h2]

/-- **The scan decides as the tree does.** For a subscription and a topic that
the checks accept, `mosquitto_topic_matches_sub` succeeds, and its answer is
whether the tokens match, but for a subscription that ends in `+/#` with a
topic that ends at the `+`: there it says no. -/
theorem topicMatchesSub_eq {sub topic : List Char} (hs : subTopicCheck sub = .success)
    (ht : pubTopicCheck topic = .success) (hs0 : sub ≠ []) (ht0 : topic ≠ []) :
    ∃ b, topicMatchesSub sub topic = (.success, some b) ∧
      (b = true ↔ Matches plus hash (subTopicTokenise sub) (subTopicTokenise topic) ∧
        ¬ EndsAtPlus (levels sub) (levels topic)) := by
  rw [subTopicCheck, subTopicCheckLoop_iff] at hs
  rw [pubTopicCheck, pubTopicCheckLoop_iff] at ht
  rw [topicMatchesSub, if_neg (by simp [hs0, ht0]), matches_subTopicTokenise]
  by_cases hd : sub.head? = some '$' ↔ topic.head? = some '$'
  · have hd' : ¬ ((sub.head? = some '$' ∧ topic.head? ≠ some '$') ∨
        (topic.head? = some '$' ∧ sub.head? ≠ some '$')) := by tauto
    rw [if_neg hd']
    refine ⟨_, (scans sub).1 none topic hs.1 ht.1 (by simp [hs0]) (by simp [ht0]), ?_⟩
    rw [decide_eq_true_iff, scanMatches_iff]
    simp [hd]
  · have hd' : (sub.head? = some '$' ∧ topic.head? ≠ some '$') ∨
        (topic.head? = some '$' ∧ sub.head? ≠ some '$') := by tauto
    rw [if_pos hd']
    exact ⟨false, rfl, by simp [hd]⟩

theorem topicMatchesSub_eq_plusHash :
    ∃ b, topicMatchesSub ['+', '/', '#'] ['a'] = (.success, some b) ∧
      (b = true ↔ Matches plus hash (subTopicTokenise ['+', '/', '#']) (subTopicTokenise ['a']) ∧
        ¬ EndsAtPlus (levels ['+', '/', '#']) (levels ['a'])) :=
  topicMatchesSub_eq (by decide) (by decide) (by decide) (by decide)

end Broker
end BlenderBottle
