/-
# Tries of linked siblings

A trie whose nodes hold a value and whose children are a linked list, each
with its key: a node is a value and the list of its children. A node without
a value of its own holds a default `d`, so a node stands for a function from
paths to values that is `d` almost everywhere (`val`).

`upsert` changes the value at a path and makes the nodes on the way that are
missing, `prune` changes it and frees the nodes on the way that are left
without a value and without children, `modify` changes it only if the node is
there. All three are the update of one path of that function (`val_upsert`,
`val_prune`, `val_modify`) on tries whose siblings have different keys, which
they keep (`distinct_upsert`, `distinct_prune`, `distinct_modify`). `entries`
lists the nodes, a node after those below it; it has the nodes of the trie and
their values, each once (`mem_entries`, `nodup_entries`).

Key definitions: `Trie`, `Trie.val`, `Trie.Has`, `Trie.upsert`, `Trie.prune`, `Trie.entries`.
-/
import Mathlib.Data.List.Infix
import Mathlib.Data.List.Nodup
import Mathlib.Logic.Function.Basic
import Mathlib.Tactic

/-- A list of siblings: the first with its key, its value and its children,
then the rest. -/
inductive Trie (κ ν : Type*)
  | nil
  | node (key : κ) (val : ν) (children next : Trie κ ν)

namespace Trie

variable {κ ν : Type*}

def isNil : Trie κ ν → Bool
  | nil => true
  | node .. => false

@[simp] theorem isNil_iff {t : Trie κ ν} : t.isNil = true ↔ t = nil := by
  cases t <;> simp [isNil]

/-- The keys of the siblings. -/
def keys : Trie κ ν → List κ
  | nil => []
  | node k _ _ n => k :: n.keys

/-- Siblings have different keys, at every level. -/
def Distinct : Trie κ ν → Prop
  | nil => True
  | node k _ c n => k ∉ n.keys ∧ c.Distinct ∧ n.Distinct

/-- The nodes below a list of siblings, each after those below it, with the
path of keys that leads to it. -/
def entries : Trie κ ν → List (List κ × ν)
  | nil => []
  | node k v c n => c.entries.map (fun e => (k :: e.1, e.2)) ++ ([k], v) :: n.entries

theorem entries_ne_nil {t : Trie κ ν} {v : ν} : ([], v) ∉ t.entries := by
  induction t with
  | nil => simp [entries]
  | node k w c n _ ih => simp [entries, ih]

section Find

variable [DecidableEq κ]

/-- The first sibling with key `a`: its value and its children. -/
def find : Trie κ ν → κ → Option (ν × Trie κ ν)
  | nil, _ => none
  | node k v c n, a => if k = a then some (v, c) else n.find a

/-- Walk along the siblings to the one with key `a` and do `g` to it; `g`
gets `none` at the end of the list, and what it makes is linked there. -/
def alter (a : κ) (g : Option (ν × Trie κ ν) → Option (ν × Trie κ ν)) : Trie κ ν → Trie κ ν
  | nil =>
    match g none with
    | none => nil
    | some (v, c) => node a v c nil
  | node k v c n =>
    if k = a then
      match g (some (v, c)) with
      | none => n
      | some (v', c') => node k v' c' n
    else node k v c (alter a g n)

theorem find_eq_none_iff {t : Trie κ ν} {a : κ} : t.find a = none ↔ a ∉ t.keys := by
  induction t with
  | nil => simp [find, keys]
  | node k v c n _ ih =>
    by_cases h : k = a
    · simp [find, keys, h]
    · simp [find, keys, h, ih, Ne.symm h]

theorem Distinct.of_find {t : Trie κ ν} {a : κ} {m : ν × Trie κ ν} (h : t.Distinct)
    (hf : t.find a = some m) : m.2.Distinct := by
  induction t with
  | nil => simp [find] at hf
  | node k v c n _ ih =>
    by_cases hk : k = a
    · simp only [find, hk, if_true, Option.some.injEq] at hf
      subst hf
      exact h.2.1
    · simp only [find, hk, if_false] at hf
      exact ih h.2.2 hf

theorem find_alter_ne {a b : κ} (hb : b ≠ a) (g : Option (ν × Trie κ ν) → Option (ν × Trie κ ν))
    (t : Trie κ ν) : (t.alter a g).find b = t.find b := by
  induction t with
  | nil =>
    rw [alter]
    split <;> simp [find, hb.symm]
  | node k v c n _ ih =>
    by_cases hk : k = a
    · subst hk
      rw [alter, if_pos rfl]
      split <;> simp [find, hb.symm]
    · rw [alter, if_neg hk]
      simp [find, ih]

/-- What is found at `a` afterwards is what `g` made of what was there. -/
theorem find_alter_self {a : κ} {t : Trie κ ν} (h : t.Distinct)
    (g : Option (ν × Trie κ ν) → Option (ν × Trie κ ν)) : (t.alter a g).find a = g (t.find a) := by
  induction t with
  | nil =>
    rw [alter]
    split <;> simp_all [find]
  | node k v c n _ ih =>
    by_cases hk : k = a
    · subst hk
      simp only [alter, find, if_true]
      cases hg : g (some (v, c)) with
      | none => simpa using find_eq_none_iff.mpr h.1
      | some m => simp [find]
    · simp [alter, find, hk, ih h.2.2]

theorem mem_keys_alter {a b : κ} {g : Option (ν × Trie κ ν) → Option (ν × Trie κ ν)} {t : Trie κ ν}
    (h : b ∈ (t.alter a g).keys) : b = a ∨ b ∈ t.keys := by
  by_cases hb : b = a
  · exact Or.inl hb
  · right
    by_contra hn
    have := find_eq_none_iff.mpr hn
    rw [← find_alter_ne hb g t] at this
    exact find_eq_none_iff.mp this h

theorem alter_map_eq_self {a : κ} {g : ν × Trie κ ν → ν × Trie κ ν} {t : Trie κ ν}
    (h : ∀ m, t.find a = some m → g m = m) : t.alter a (Option.map g) = t := by
  induction t with
  | nil => rfl
  | node k v c n _ ih =>
    by_cases hk : k = a
    · have := h (v, c) (by simp [find, hk])
      simp [alter, hk, this]
    · simp only [find, hk, if_false] at h
      simp [alter, hk, ih h]

theorem Distinct.alter {a : κ} {t : Trie κ ν} {g : Option (ν × Trie κ ν) → Option (ν × Trie κ ν)}
    (h : t.Distinct) (hg : ∀ m, g (t.find a) = some m → m.2.Distinct) : (t.alter a g).Distinct := by
  induction t with
  | nil =>
    rw [Trie.alter]
    split
    · trivial
    · rename_i v c hv
      exact ⟨by simp [keys], hg (v, c) hv, trivial⟩
  | node k v c n _ ih =>
    by_cases hk : k = a
    · subst hk
      simp only [find, if_true] at hg
      rw [Trie.alter, if_pos rfl]
      split
      · exact h.2.2
      · rename_i v' c' hv
        exact ⟨h.1, hg (v', c') hv, h.2.2⟩
    · simp only [find, hk, if_false] at hg
      rw [Trie.alter, if_neg hk]
      refine ⟨fun hm => ?_, h.2.1, ih h.2.2 hg⟩
      rcases mem_keys_alter hm with rfl | hm
      · exact hk rfl
      · exact h.1 hm

end Find

/-! ### A node as a function from paths to values -/

section Val

variable [DecidableEq κ] (d : ν)

/-- The value at a path below a node; `d` where there is no node. -/
def val : List κ → ν × Trie κ ν → ν
  | [], m => m.1
  | a :: p, m =>
    match m.2.find a with
    | none => d
    | some m' => val p m'

/-- There is a node at this path. -/
def Has : List κ → ν × Trie κ ν → Prop
  | [], _ => True
  | a :: p, m => ∃ m', m.2.find a = some m' ∧ Has p m'

/-- The last of the siblings has key `a`. -/
def lastIs (a : κ) (t : Trie κ ν) : Bool := t.keys.getLast? = some a

/-- The node at this path is the last of its siblings. -/
def Last : List κ → ν × Trie κ ν → Prop
  | [], _ => False
  | [a], m => m.2.lastIs a = true
  | a :: b :: p, m => ∃ m', m.2.find a = some m' ∧ Last (b :: p) m'

theorem lastIs_self {k : κ} {v : ν} {c n : Trie κ ν} (h : k ∉ n.keys) : (node k v c n).lastIs k = n.isNil := by
  cases n with
  | nil => simp [lastIs, isNil, keys]
  | node k' v' c' n' =>
    have hne : (node k v c (node k' v' c' n')).keys.getLast? ≠ some k := fun hl => by
      simp only [keys, List.getLast?_cons_cons] at hl
      exact h (List.mem_of_getLast? hl)
    rw [lastIs, decide_eq_false hne]
    rfl

theorem lastIs_of_mem {a k : κ} {v : ν} {c n : Trie κ ν} (h : a ∈ n.keys) :
    (node k v c n).lastIs a = n.lastIs a := by
  cases n with
  | nil => simp [keys] at h
  | node k' v' c' n' =>
    have hl : (node k v c (node k' v' c' n')).keys.getLast? = (node k' v' c' n').keys.getLast? := by
      simp only [keys, List.getLast?_cons_cons]
    rw [lastIs, lastIs, decide_eq_decide, hl]

theorem val_of_not_has {p : List κ} {m : ν × Trie κ ν} (h : ¬ Has p m) : val d p m = d := by
  induction p generalizing m with
  | nil => exact absurd trivial h
  | cons a p ih =>
    rw [val]
    cases hf : m.2.find a with
    | none => rfl
    | some m' => exact ih fun h' => h ⟨m', hf, h'⟩

theorem has_of_val_ne {p : List κ} {m : ν × Trie κ ν} (h : val d p m ≠ d) : Has p m := by
  by_contra hn
  exact h (val_of_not_has d hn)

/-- Change the value at a path, making the missing nodes on the way. -/
def upsert (f : ν → ν) : List κ → ν × Trie κ ν → ν × Trie κ ν
  | [], m => (f m.1, m.2)
  | a :: p, m => (m.1, m.2.alter a fun o => some (upsert f p (o.getD (d, nil))))

/-- Change the value at a path if there is a node. -/
def modify (f : ν → ν) : List κ → ν × Trie κ ν → ν × Trie κ ν
  | [], m => (f m.1, m.2)
  | a :: p, m => (m.1, m.2.alter a fun o => o.map (modify f p))

/-- Change the value at a path if there is a node, and free the nodes on the
way that this leaves empty. -/
def prune (empty : ν → Bool) (f : ν → ν) : List κ → ν × Trie κ ν → ν × Trie κ ν
  | [], m => (f m.1, m.2)
  | a :: p, m =>
    (m.1, m.2.alter a fun o => o.bind fun m' =>
      if (prune empty f p m').2.isNil && empty (prune empty f p m').1 then none
      else some (prune empty f p m'))

variable {d}

/-- A change below key `a` that shows there as the update of the path `p`
shows as the update of `a :: p`. -/
theorem val_alter {m : ν × Trie κ ν} {a : κ} {p : List κ} {x : ν}
    {g : Option (ν × Trie κ ν) → Option (ν × Trie κ ν)}
    (hg : ∀ q, val d (a :: q) (m.1, m.2.alter a g) = if q = p then x else val d (a :: q) m) (q : List κ) :
    val d q (m.1, m.2.alter a g) = if q = a :: p then x else val d q m := by
  cases q with
  | nil => simp [val]
  | cons b q =>
    by_cases hb : b = a
    · subst hb
      simpa using hg q
    · simp [val, find_alter_ne hb, hb]

/-- A change of the node at key `a`, if there is one. -/
theorem val_alter_map {m : ν × Trie κ ν} {a : κ} {p : List κ} {f : ν → ν} {g : ν × Trie κ ν → ν × Trie κ ν}
    (hm : m.2.Distinct) (hf : m.2.find a = none → f d = d)
    (hg : ∀ m', m.2.find a = some m' → ∀ q, val d q (g m') = if q = p then f (val d p m') else val d q m')
    (q : List κ) :
    val d q (m.1, m.2.alter a (Option.map g)) = if q = a :: p then f (val d (a :: p) m) else val d q m := by
  refine val_alter (fun q => ?_) q
  simp only [val, find_alter_self hm]
  cases h : m.2.find a with
  | none => simp [hf h]
  | some m' => exact hg m' h q

/-- Values are looked up by key, whatever the order of the siblings. -/
theorem val_congr {v : ν} {c c' : Trie κ ν} (h : ∀ b, c.find b = c'.find b) (q : List κ) :
    val d q (v, c) = val d q (v, c') := by
  cases q with
  | nil => rfl
  | cons a q => simp [val, h]

theorem has_congr {v : ν} {c c' : Trie κ ν} (h : ∀ b, c.find b = c'.find b) (q : List κ) :
    Has q (v, c) ↔ Has q (v, c') := by
  cases q with
  | nil => exact Iff.rfl
  | cons a q => simp [Has, h]

theorem val_upsert {f : ν → ν} (p : List κ) {m : ν × Trie κ ν} (hm : m.2.Distinct) (q : List κ) :
    val d q (upsert d f p m) = if q = p then f (val d p m) else val d q m := by
  induction p generalizing m q with
  | nil => cases q <;> simp [upsert, val]
  | cons a p ih =>
    refine val_alter (fun q => ?_) q
    have hd : ((m.2.find a).getD (d, nil)).2.Distinct := by
      cases hf : m.2.find a with
      | none => trivial
      | some m' => exact hm.of_find hf
    have hv : ∀ q, val d q ((m.2.find a).getD (d, nil)) = val d (a :: q) m := by
      intro q
      cases hf : m.2.find a with
      | none =>
        simp only [val, hf, Option.getD_none]
        cases q <;> simp [val, find]
      | some m' => simp [val, hf]
    rw [show val d (a :: q) (m.1, m.2.alter a fun o => some (upsert d f p (o.getD (d, nil)))) =
        val d q (upsert d f p ((m.2.find a).getD (d, nil))) by simp [val, find_alter_self hm]]
    rw [ih hd q, hv p, hv q]

theorem val_modify {f : ν → ν} (p : List κ) {m : ν × Trie κ ν} (hm : m.2.Distinct) (hp : Has p m)
    (q : List κ) : val d q (modify f p m) = if q = p then f (val d p m) else val d q m := by
  induction p generalizing m q with
  | nil => cases q <;> simp [modify, val]
  | cons a p ih =>
    obtain ⟨m', hf, hp⟩ := hp
    refine val_alter (fun q => ?_) q
    simp only [val, find_alter_self hm, hf, Option.map_some]
    exact ih (hm.of_find hf) hp q

/-- Where there is no node, or what is freed is worth `d`, a pruned path reads
as an updated one. -/
theorem val_prune {empty : ν → Bool} {f : ν → ν} (he : ∀ v, empty v = true → v = d) (hf : f d = d)
    (p : List κ) {m : ν × Trie κ ν} (hm : m.2.Distinct) (q : List κ) :
    val d q (prune empty f p m) = if q = p then f (val d p m) else val d q m := by
  induction p generalizing m q with
  | nil => cases q <;> simp [prune, val]
  | cons a p ih =>
    refine val_alter (fun q => ?_) q
    simp only [val, find_alter_self hm]
    cases hfa : m.2.find a with
    | none => simp [hf]
    | some m' =>
      have ih' := fun q => ih (hm.of_find hfa) q
      by_cases hcut : (prune empty f p m').2.isNil && empty (prune empty f p m').1
      · simp only [Option.bind_some, hcut, if_true, ← ih' q]
        rw [Bool.and_eq_true, isNil_iff] at hcut
        -- a node without children that is worth `d` reads `d` everywhere
        cases q with
        | nil => exact (he _ hcut.2).symm
        | cons b q => simp [val, hcut.1, find]
      · simp only [Option.bind_some, hcut]
        exact ih' q

theorem distinct_upsert (f : ν → ν) (p : List κ) {m : ν × Trie κ ν} (hm : m.2.Distinct) :
    (upsert d f p m).2.Distinct := by
  induction p generalizing m with
  | nil => exact hm
  | cons a p ih =>
    refine hm.alter fun m' h => ?_
    cases h
    cases hf : m.2.find a with
    | none => exact ih (m := (d, nil)) trivial
    | some m' => exact ih (hm.of_find hf)

theorem distinct_modify (f : ν → ν) (p : List κ) {m : ν × Trie κ ν} (hm : m.2.Distinct) :
    (modify f p m).2.Distinct := by
  induction p generalizing m with
  | nil => exact hm
  | cons a p ih =>
    refine hm.alter fun m' h => ?_
    obtain ⟨m₀, hf, rfl⟩ := Option.map_eq_some_iff.mp h
    exact ih (hm.of_find hf)

theorem distinct_prune (empty : ν → Bool) (f : ν → ν) (p : List κ) {m : ν × Trie κ ν}
    (hm : m.2.Distinct) : (prune empty f p m).2.Distinct := by
  induction p generalizing m with
  | nil => exact hm
  | cons a p ih =>
    refine hm.alter fun m' h => ?_
    obtain ⟨m₀, hf, h⟩ := Option.bind_eq_some_iff.mp h
    split at h
    · cases h
    · cases h
      exact ih (hm.of_find hf)

/-! ### The nodes that are there -/

theorem has_upsert (f : ν → ν) (p : List κ) {m : ν × Trie κ ν} (hm : m.2.Distinct) {q : List κ} :
    Has q (upsert d f p m) ↔ Has q m ∨ q <+: p := by
  induction p generalizing m q with
  | nil => cases q <;> simp [upsert, Has]
  | cons a p ih =>
    cases q with
    | nil => simp [Has]
    | cons b q =>
      by_cases hb : b = a
      · subst hb
        simp only [upsert, Has, find_alter_self hm, Option.some.injEq, exists_eq_left',
          List.cons_prefix_cons, true_and]
        cases hf : m.2.find b with
        | none =>
          rw [Option.getD_none, ih (m := (d, nil)) trivial]
          cases q <;> simp [Has, find]
        | some m' =>
          rw [Option.getD_some, ih (hm.of_find hf)]
          simp
      · simp [upsert, Has, find_alter_ne hb, hb]

theorem has_modify (f : ν → ν) (p : List κ) {m : ν × Trie κ ν} (hm : m.2.Distinct) {q : List κ} :
    Has q (modify f p m) ↔ Has q m := by
  induction p generalizing m q with
  | nil => cases q <;> simp [modify, Has]
  | cons a p ih =>
    cases q with
    | nil => simp [Has]
    | cons b q =>
      by_cases hb : b = a
      · subst hb
        simp only [modify, Has, find_alter_self hm]
        cases hf : m.2.find b with
        | none => simp
        | some m' => simpa using ih (hm.of_find hf)
      · simp [modify, Has, find_alter_ne hb]

theorem has_of_has_prune {empty : ν → Bool} {f : ν → ν} {p : List κ} {m : ν × Trie κ ν}
    (hm : m.2.Distinct) {q : List κ} (h : Has q (prune empty f p m)) : Has q m := by
  induction p generalizing m q with
  | nil =>
    cases q with
    | nil => trivial
    | cons b q => exact h
  | cons a p ih =>
    cases q with
    | nil => trivial
    | cons b q =>
      by_cases hb : b = a
      · subst hb
        obtain ⟨m', hf, h⟩ := h
        simp only [prune, find_alter_self hm] at hf
        obtain ⟨m₀, hf₀, hcut⟩ := Option.bind_eq_some_iff.mp hf
        split at hcut
        · cases hcut
        · cases hcut
          exact ⟨m₀, hf₀, ih (hm.of_find hf₀) h⟩
      · simpa [prune, Has, find_alter_ne hb] using h

theorem has_alter_map {m : ν × Trie κ ν} {a : κ} {P : List κ → Prop} {g : ν × Trie κ ν → ν × Trie κ ν}
    (hm : m.2.Distinct) (hg : ∀ m', m.2.find a = some m' → ∀ q, Has q (g m') → Has q m' ∨ P q) {q : List κ}
    (h : Has q (m.1, m.2.alter a (Option.map g))) : Has q m ∨ ∃ q', q = a :: q' ∧ P q' := by
  cases q with
  | nil => exact Or.inl trivial
  | cons b q =>
    obtain ⟨m', hf, h⟩ := h
    by_cases hb : b = a
    · subst hb
      rw [find_alter_self hm] at hf
      obtain ⟨m₀, hf₀, rfl⟩ := Option.map_eq_some_iff.mp hf
      rcases hg m₀ hf₀ q h with h | h
      · exact Or.inl ⟨m₀, hf₀, h⟩
      · exact Or.inr ⟨q, rfl, h⟩
    · rw [find_alter_ne hb] at hf
      exact Or.inl ⟨m', hf, h⟩

theorem Distinct.alter_map {t : Trie κ ν} {a : κ} {g : ν × Trie κ ν → ν × Trie κ ν} (h : t.Distinct)
    (hg : ∀ m, m.2.Distinct → (g m).2.Distinct) : (t.alter a (Option.map g)).Distinct := by
  refine h.alter fun m hm => ?_
  obtain ⟨m₀, hf, rfl⟩ := Option.map_eq_some_iff.mp hm
  exact hg m₀ (h.of_find hf)

theorem mem_entries_cons {t : Trie κ ν} (ht : t.Distinct) {a : κ} {p : List κ} {v : ν} :
    (a :: p, v) ∈ t.entries ↔
      ∃ m, t.find a = some m ∧ ((p = [] ∧ v = m.1) ∨ (p, v) ∈ m.2.entries) := by
  induction t with
  | nil => simp [entries, find]
  | node k w c n _ ih =>
    have hn := ih ht.2.2
    by_cases hk : k = a
    · subst hk
      have hnone : (k :: p, v) ∉ n.entries := fun h => by
        obtain ⟨m, hf, -⟩ := hn.mp h
        rw [find_eq_none_iff.mpr ht.1] at hf
        cases hf
      simp [entries, find, hnone, or_comm]
    · simp [entries, find, hk, hn, Ne.symm hk]

/-- The entries are the nodes below, with their values. -/
theorem mem_entries {m : ν × Trie κ ν} (hm : m.2.Distinct) {p : List κ} {v : ν} :
    (p, v) ∈ m.2.entries ↔ p ≠ [] ∧ Has p m ∧ val d p m = v := by
  induction p generalizing m with
  | nil => simpa using entries_ne_nil
  | cons a p ih =>
    rw [mem_entries_cons hm]
    constructor
    · rintro ⟨m', hf, ⟨rfl, rfl⟩ | h⟩
      · exact ⟨by simp, ⟨m', hf, trivial⟩, by simp [val, hf]⟩
      · obtain ⟨-, hh, hv⟩ := (ih (hm.of_find hf)).mp h
        exact ⟨by simp, ⟨m', hf, hh⟩, by simpa [val, hf] using hv⟩
    · rintro ⟨-, ⟨m', hf, hh⟩, hv⟩
      refine ⟨m', hf, ?_⟩
      simp only [val, hf] at hv
      cases p with
      | nil => exact Or.inl ⟨rfl, hv.symm⟩
      | cons b p => exact Or.inr ((ih (hm.of_find hf)).mpr ⟨by simp, hh, hv⟩)

theorem nodup_entries {t : Trie κ ν} (ht : t.Distinct) : (t.entries.map Prod.fst).Nodup := by
  induction t with
  | nil => simp [entries]
  | node k v c n ihc ihn =>
    -- a path below `n` starts with one of its keys, which is not `k`
    have hk : ∀ p, k :: p ∉ n.entries.map Prod.fst := by
      intro p hp
      obtain ⟨⟨q, w⟩, hmem, heq⟩ := List.mem_map.mp hp
      simp only at heq
      subst heq
      obtain ⟨m, hf, -⟩ := (mem_entries_cons ht.2.2).mp hmem
      rw [find_eq_none_iff.mpr ht.1] at hf
      cases hf
    have hc : ∀ e ∈ c.entries, e.1 ≠ [] := fun e he h => by
      obtain ⟨p, w⟩ := e
      simp only at h
      subst h
      exact entries_ne_nil he
    simp only [entries, List.map_append, List.map_map, List.map_cons]
    refine List.nodup_append.mpr ⟨?_, List.nodup_cons.mpr ⟨hk [], ihn ht.2.2⟩, ?_⟩
    · have := (ihc ht.2.1).map (List.cons_injective (a := k))
      simpa [List.map_map, Function.comp_def] using this
    · intro p hp q hq
      obtain ⟨e, he, rfl⟩ := List.mem_map.mp hp
      rintro rfl
      rcases List.mem_cons.mp hq with h | h
      · exact hc e he (by simpa using h)
      · exact hk e.1 h

end Val

end Trie
