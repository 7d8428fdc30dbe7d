/-
# Singly linked lists in memory

`Follows next p l`: from the link `p`, following `next` visits the addresses
`l` in order and then ends. The list a link leads to is unique
(`Follows.unique`), so it never meets an address twice (`Follows.nodup`) and
is no longer than the cells are many (`Follows.length_le`). Linking a fresh
last cell to the old one appends it (`Follows.snoc`).
-/
import Mathlib.Data.List.Nodup
import Mathlib.Data.List.Perm.Subperm
import Mathlib.Tactic

namespace LinkedList

variable {α : Type*}

/-- From `p`, `next` leads through `l` to the end. -/
inductive Follows (next : α → Option α) : Option α → List α → Prop
  | nil : Follows next none []
  | cons {a : α} {l : List α} : Follows next (next a) l → Follows next (some a) (a :: l)

namespace Follows

variable {next next' : α → Option α} {p : Option α} {l l' : List α} {a b : α}

theorem unique (h : Follows next p l) : ∀ {l'}, Follows next p l' → l = l' := by
  induction h with
  | nil => intro l' h'; cases h'; rfl
  | cons _ ih => intro l' h'; cases h' with | cons h' => rw [ih h']

/-- A link into the middle of a list leads to the rest of it. -/
theorem of_mem (h : Follows next p l) (ha : a ∈ l) :
    ∃ l₁ l₂, l = l₁ ++ a :: l₂ ∧ Follows next (some a) (a :: l₂) := by
  induction h with
  | nil => cases ha
  | @cons b l h ih =>
    rcases List.mem_cons.mp ha with rfl | ha
    · exact ⟨[], l, rfl, .cons h⟩
    · obtain ⟨l₁, l₂, rfl, h'⟩ := ih ha
      exact ⟨b :: l₁, l₂, rfl, h'⟩

theorem nodup (h : Follows next p l) : l.Nodup := by
  induction h with
  | nil => exact List.nodup_nil
  | @cons a l h ih =>
    refine List.nodup_cons.mpr ⟨fun ha => ?_, ih⟩
    -- meeting `a` again would lead to a shorter list from the same link
    obtain ⟨l₁, l₂, rfl, h'⟩ := h.of_mem ha
    have := congrArg List.length ((Follows.cons h).unique h')
    simp at this
    omega

/-- A list of cells among the first `n` is no longer than that. -/
theorem length_le {next : ℕ → Option ℕ} {p : Option ℕ} {l : List ℕ} {n : ℕ} (h : Follows next p l)
    (hn : ∀ a ∈ l, 1 ≤ a ∧ a ≤ n) : l.length ≤ n := by
  have hsub : l ⊆ List.range' 1 n := by
    intro a ha
    have := hn a ha
    rw [List.mem_range'_1]
    omega
  have hle := (h.nodup.subperm hsub).length_le
  rwa [List.length_range'] at hle

theorem snoc (h : Follows next p (l ++ [a])) (ha : next' a = some b) (hb : next' b = none)
    (hn : ∀ x ∈ l, next' x = next x) : Follows next' p (l ++ [a, b]) := by
  induction l generalizing p with
  | nil =>
    cases h with
    | cons _ =>
      apply Follows.cons
      rw [ha]
      apply Follows.cons
      rw [hb]
      exact .nil
  | cons c l ih =>
    cases h with
    | cons h =>
      apply Follows.cons
      rw [hn c List.mem_cons_self]
      exact ih h fun x hx => hn x (List.mem_cons_of_mem _ hx)

end Follows

end LinkedList
