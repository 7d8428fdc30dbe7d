/-
# Filters with wildcards

A filter is a list of levels, over any type of levels, in which `one` stands
for any one level and a last `many` for any number of levels, none included.
`Matches` says which topics a filter matches. In a trie whose paths are
filters, those that match a topic are found level by level
(`Trie.filter_matches_node`), as long as nothing stands below `many`.

Key definitions: `Wildcard.Matches`, `Wildcard.ManyLast`.
-/
import BlenderBottle.Lib.Trie

namespace Wildcard

variable {κ : Type*} [DecidableEq κ] (one many : κ)

/-- The topics that a filter matches. -/
def Matches : List κ → List κ → Prop
  | [], ts => ts = []
  | f :: fs, [] => f = many ∧ fs = []
  | f :: fs, t :: ts => (f = many ∧ fs = []) ∨ ((f = one ∨ f = t) ∧ Matches fs ts)

instance decMatches : (fs ts : List κ) → Decidable (Matches one many fs ts)
  | [], ts => decidable_of_iff (ts.isEmpty = true) (by simp [Matches])
  | f :: fs, [] => inferInstanceAs (Decidable (f = many ∧ fs = []))
  | f :: fs, t :: ts =>
    haveI := decMatches fs ts
    inferInstanceAs (Decidable ((f = many ∧ fs = []) ∨ ((f = one ∨ f = t) ∧ Matches one many fs ts)))

/-- The topics that a filter matches if `many` stands for one level at least. -/
def MatchesSome : List κ → List κ → Prop
  | [], ts => ts = []
  | _ :: _, [] => False
  | f :: fs, t :: ts => (f = many ∧ fs = []) ∨ ((f = one ∨ f = t) ∧ MatchesSome fs ts)

/-- `many` stands at the end of a filter only. -/
def ManyLast (fs : List κ) : Prop := ∀ p q, fs = p ++ many :: q → q = []

omit [DecidableEq κ] in
theorem manyLast_nil : ManyLast many ([] : List κ) := fun p q h => by simp at h

omit [DecidableEq κ] in
theorem manyLast_cons {f : κ} {fs : List κ} :
    ManyLast many (f :: fs) ↔ (f = many → fs = []) ∧ ManyLast many fs := by
  constructor
  · intro h
    refine ⟨fun hf => h [] fs (by simp [hf]), fun p q hp => h (f :: p) q (by simp [hp])⟩
  · rintro ⟨h1, h2⟩ p q hp
    cases p with
    | nil =>
      obtain ⟨rfl, rfl⟩ : f = many ∧ fs = q := by simpa using hp
      exact h1 rfl
    | cons a p =>
      exact h2 p q (List.cons.inj hp).2

omit [DecidableEq κ] in
/-- The beginnings of such a filter are such filters. -/
theorem ManyLast.of_isPrefix {fs gs : List κ} (h : ManyLast many gs) (hp : fs <+: gs) : ManyLast many fs := by
  obtain ⟨r, rfl⟩ := hp
  intro p q hq
  have := h p (q ++ r) (by simp [hq])
  exact (List.append_eq_nil_iff.mp this).1

variable {one many}

omit [DecidableEq κ] in
/-- The topics that `many` adds with no level are those of the filter without it. -/
theorem matches_iff_matchesSome {fs ts : List κ} (h : ManyLast many fs) :
    Matches one many fs ts ↔
      MatchesSome one many fs ts ∨ ∃ gs, fs = gs ++ [many] ∧ MatchesSome one many gs ts := by
  induction fs generalizing ts with
  | nil => simp [Matches, MatchesSome]
  | cons f fs ih =>
    obtain ⟨hf, hfs⟩ := (manyLast_cons many).mp h
    cases ts with
    | nil =>
      simp only [Matches, MatchesSome, false_or]
      constructor
      · rintro ⟨rfl, rfl⟩
        exact ⟨[], rfl, rfl⟩
      · rintro ⟨gs, heq, hgs⟩
        cases gs with
        | nil => simpa using heq
        | cons g gs => exact absurd hgs (by simp [MatchesSome])
    | cons t ts =>
      simp only [Matches, MatchesSome, ih hfs]
      constructor
      · rintro (hm | ⟨hft, hm | ⟨gs, rfl, hgs⟩⟩)
        · exact Or.inl (Or.inl hm)
        · exact Or.inl (Or.inr ⟨hft, hm⟩)
        · exact Or.inr ⟨f :: gs, rfl, Or.inr ⟨hft, hgs⟩⟩
      · rintro ((hm | ⟨hft, hm⟩) | ⟨gs, heq, hgs⟩)
        · exact Or.inl hm
        · exact Or.inr ⟨hft, Or.inl hm⟩
        · cases gs with
          | nil => simp [MatchesSome] at hgs
          | cons g gs =>
            obtain ⟨rfl, rfl⟩ := List.cons.inj heq
            rcases hgs with ⟨rfl, rfl⟩ | ⟨hft, hgs⟩
            · simpa using hf rfl
            · exact Or.inr ⟨hft, Or.inr ⟨gs, rfl, hgs⟩⟩

omit [DecidableEq κ] in
/-- A filter without wildcards matches its own topic only. -/
theorem matchesSome_iff_eq {fs ts : List κ} (h1 : one ∉ fs) (hm : many ∉ fs) :
    MatchesSome one many fs ts ↔ fs = ts := by
  induction fs generalizing ts with
  | nil => simp [MatchesSome, eq_comm]
  | cons f fs ih =>
    obtain ⟨hf1, h1⟩ := not_or.mp (List.mem_cons.not.mp h1)
    obtain ⟨hfm, hm⟩ := not_or.mp (List.mem_cons.not.mp hm)
    cases ts with
    | nil => simp [MatchesSome]
    | cons t ts => simp [MatchesSome, ih h1 hm, Ne.symm hf1, Ne.symm hfm]

/-- Nothing stands below `many` in a trie. -/
def Closed (many : κ) {ν : Type*} : Trie κ ν → Prop
  | .nil => True
  | .node k _ c n => (k = many → c = .nil) ∧ Closed many c ∧ Closed many n

theorem closed_of_has {ν : Type*} {d : ν} {t : Trie κ ν} (ht : t.Distinct)
    (h : ∀ p, Trie.Has p (d, t) → ManyLast many p) : Closed many t := by
  induction t with
  | nil => trivial
  | node k v c n ihc ihn =>
    refine ⟨fun hk => ?_, ihc ht.2.1 fun p hp => ?_, ihn ht.2.2 fun p hp => ?_⟩
    · cases c with
      | nil => rfl
      | node k' v' c' n' =>
        have := h [k, k'] ⟨(v, .node k' v' c' n'), by simp [Trie.find], (v', c'), by simp [Trie.find], trivial⟩
        rw [manyLast_cons] at this
        exact absurd (this.1 hk) (by simp)
    · have hk : Trie.Has (k :: p) (d, Trie.node k v c n) := by
        refine ⟨(v, c), by simp [Trie.find], ?_⟩
        cases p with
        | nil => trivial
        | cons a p => exact hp
      exact ((manyLast_cons many).mp (h (k :: p) hk)).2
    · cases p with
      | nil => exact manyLast_nil many
      | cons a p =>
        obtain ⟨m, hf, hp⟩ := hp
        have ha : k ≠ a := by
          rintro rfl
          rw [Trie.find_eq_none_iff.mpr ht.1] at hf
          cases hf
        exact h (a :: p) ⟨m, by simpa [Trie.find, ha] using hf, hp⟩

end Wildcard

open Wildcard in
/-- The nodes of a trie that match a topic: below the first sibling if it
matches the first level, that sibling if the topic ends there, and those among
its next siblings. -/
theorem Trie.filter_matches_node {κ ν : Type*} [DecidableEq κ] {one many k : κ} {v : ν} {c n : Trie κ ν}
    {ts : List κ} (hone : one ≠ many) (hts : many ∉ ts) :
    (node k v c n).entries.filter (fun e => Matches one many e.1 ts) =
      (match ts with
        | [] => if k = many then [([k], v)] else []
        | t :: ts =>
          if k = t ∨ k = one then
            (c.entries.filter fun e => Matches one many e.1 ts).map (fun e => (k :: e.1, e.2)) ++
              (if ts = [] then [([k], v)] else [])
          else if k = many then [([k], v)] else []) ++
        n.entries.filter (fun e => Matches one many e.1 ts) := by
  have hbelow : ∀ (ts' : List κ), (∀ e ∈ c.entries,
      (Matches one many (k :: e.1) ts ↔ Matches one many e.1 ts')) →
      (c.entries.map (fun e => (k :: e.1, e.2))).filter (fun e => Matches one many e.1 ts) =
        (c.entries.filter fun e => Matches one many e.1 ts').map (fun e => (k :: e.1, e.2)) := by
    intro ts' h
    rw [List.filter_map]
    congr 1
    exact List.filter_congr fun e he => by simpa using h e he
  have hnone : (∀ e ∈ c.entries, ¬ Matches one many (k :: e.1) ts) →
      (c.entries.map (fun e => (k :: e.1, e.2))).filter (fun e => Matches one many e.1 ts) = [] := by
    intro h
    rw [List.filter_eq_nil_iff]
    intro e he
    obtain ⟨e', he', rfl⟩ := List.mem_map.mp he
    simpa using h e' he'
  have hne : ∀ e ∈ c.entries, e.1 ≠ [] := fun e he h => by
    obtain ⟨p, w⟩ := e
    simp only at h
    subst h
    exact entries_ne_nil he
  rw [entries, List.filter_append, List.filter_cons]
  cases ts with
  | nil =>
    rw [hnone fun e he => by simp [Matches, hne e he]]
    by_cases hk : k = many <;> simp [Matches, hk]
  | cons t ts =>
    have ht : t ≠ many := fun h => hts (by simp [h])
    by_cases hk : k = t ∨ k = one
    · have hkm : k ≠ many := by
        rcases hk with rfl | rfl
        · exact ht
        · exact hone
      rw [hbelow ts fun e _ => by simp only [Matches, hkm, false_and, false_or, or_comm.mp hk, true_and]]
      by_cases hts : ts = [] <;> simp [Matches, hk, hkm, hts, or_comm.mp hk]
    · have hk' : ¬ (k = one ∨ k = t) := fun h => hk h.symm
      rw [hnone fun e he => by
        simp only [Matches, hk', false_and, or_false, not_and]
        exact fun _ => hne e he]
      by_cases hkm : k = many
      · subst hkm
        simp [Matches, hk]
      · simp [Matches, hk, hk', hkm]
