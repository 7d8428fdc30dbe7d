/-
# What every run keeps of the subscription tree

A run is what clients ask for, in any order and number: subscriptions, the end
of subscriptions, messages published, the end of a session (`step`, `run`).
Each of the functions of `subs.c` changes the node at one path and leaves the
values of all the others (`Updates`): a node is made or freed on the way only
when it holds nothing. The end of a session is one such change for each node on
the client's list.

So every run keeps `Inv`: siblings have different tokens, nothing stands below
`#`, a client has one leaf at a node, and the list that a client keeps of its
nodes is right.

Key definitions: `step`, `run`, `Updates`, `Inv`.
Key theorems: `step_inv`, `run_inv`.
-/
import BlenderBottle.Broker.Subs
import Mathlib.Data.List.ReduceOption

namespace BlenderBottle
namespace Broker

open Wildcard

variable {C : Type}

/-! ### Leaves -/

/-- The QoS of a client among the leaves of a node. -/
def leafQos [DecidableEq C] (context : C) (subs : List (Leaf C)) : Option ℕ :=
  (subs.find? fun leaf => leaf.context = context).map Leaf.qos

section Leaves

variable [DecidableEq C] (E : Contexts C)

omit [DecidableEq C] in
theorem mem_contexts_addLeaf {c c' : C} {qos : ℕ} {subs : List (Leaf C)} :
    c' ∈ (addLeaf E c qos subs).map Leaf.context ↔ c' = c ∨ c' ∈ subs.map Leaf.context := by
  induction subs with
  | nil => simp [addLeaf]
  | cons leaf subs ih =>
    by_cases h : E.id leaf.context = E.id c
    · have := E.id_inj h
      simp only [addLeaf, if_true, List.map_cons, List.mem_cons, this]
      tauto
    · simp only [addLeaf, h, if_false, List.map_cons, List.mem_cons, ih]
      tauto

omit [DecidableEq C] in
theorem nodup_addLeaf {c : C} {qos : ℕ} {subs : List (Leaf C)} (h : (subs.map Leaf.context).Nodup) :
    ((addLeaf E c qos subs).map Leaf.context).Nodup := by
  induction subs with
  | nil => simp [addLeaf]
  | cons leaf subs ih =>
    rw [List.map_cons, List.nodup_cons] at h
    by_cases hid : E.id leaf.context = E.id c
    · simpa [addLeaf, hid] using h
    · have hne : leaf.context ≠ c := fun h => hid (by rw [h])
      simp only [addLeaf, hid, if_false, List.map_cons, List.nodup_cons, mem_contexts_addLeaf]
      exact ⟨fun hm => hm.elim hne h.1, ih h.2⟩

theorem leafQos_addLeaf (c c' : C) (qos : ℕ) (subs : List (Leaf C)) :
    leafQos c' (addLeaf E c qos subs) = if c' = c then some qos else leafQos c' subs := by
  induction subs with
  | nil => by_cases h : c' = c <;> simp [addLeaf, leafQos, h, eq_comm]
  | cons leaf subs ih =>
    unfold leafQos at ih ⊢
    by_cases hid : E.id leaf.context = E.id c
    · have hc := E.id_inj hid
      by_cases h : c' = c
      · simp [addLeaf, hc, h]
      · simp [addLeaf, hc, h, Ne.symm h]
    · have hne : leaf.context ≠ c := fun h => hid (by rw [h])
      rw [addLeaf, if_neg hid]
      by_cases h : leaf.context = c'
      · simp [h, show c' ≠ c from fun h' => hne (h.trans h')]
      · simp [h, ih]

theorem leafQos_eq_none_iff {c : C} {subs : List (Leaf C)} :
    leafQos c subs = none ↔ c ∉ subs.map Leaf.context := by
  simp only [leafQos, Option.map_eq_none_iff, List.find?_eq_none, decide_eq_true_eq, List.mem_map,
    not_exists, not_and]

/-- A client has one leaf, so its leaf is the one that is found. -/
theorem mem_iff_leafQos {subs : List (Leaf C)} (h : (subs.map Leaf.context).Nodup) {leaf : Leaf C} :
    leaf ∈ subs ↔ leafQos leaf.context subs = some leaf.qos := by
  induction subs with
  | nil => simp [leafQos]
  | cons l subs ih =>
    rw [List.map_cons, List.nodup_cons] at h
    by_cases hc : l.context = leaf.context
    · have hnot : leaf ∉ subs := fun hm => h.1 (hc ▸ List.mem_map_of_mem hm)
      rw [List.mem_cons, or_iff_left hnot]
      simp only [leafQos, List.find?_cons, hc, decide_true, Option.map_some, Option.some.injEq]
      constructor
      · rintro rfl
        rfl
      · intro hq
        cases l
        cases leaf
        simp_all
    · have hne : leaf ≠ l := fun h => hc (by rw [h])
      rw [List.mem_cons, or_iff_right hne, ih h.2]
      simp [leafQos, hc]

theorem removeLeaf_contexts {c c' : C} {h : Hier C} (hn : (h.subs.map Leaf.context).Nodup) :
    c' ∈ (removeLeaf c h).subs.map Leaf.context ↔ c' ≠ c ∧ c' ∈ h.subs.map Leaf.context := by
  simp only [removeLeaf]
  generalize h.subs = subs at hn
  induction subs with
  | nil => simp
  | cons leaf subs ih =>
    rw [List.map_cons, List.nodup_cons] at hn
    by_cases hc : leaf.context = c
    · simp only [List.eraseP_cons, hc, decide_true, cond_true, List.map_cons, List.mem_cons]
      constructor
      · exact fun hm => ⟨fun h => hn.1 (by rw [hc, ← h]; exact hm), Or.inr hm⟩
      · exact fun hm => hm.2.resolve_left hm.1
    · simp only [List.eraseP_cons, hc, decide_false, cond_false, List.map_cons, List.mem_cons, ih hn.2]
      constructor
      · rintro (rfl | h)
        · exact ⟨hc, Or.inl rfl⟩
        · exact ⟨h.1, Or.inr h.2⟩
      · rintro ⟨h1, h2 | h2⟩
        · exact Or.inl h2
        · exact Or.inr ⟨h1, h2⟩

theorem nodup_removeLeaf (c : C) {h : Hier C} (hn : (h.subs.map Leaf.context).Nodup) :
    ((removeLeaf c h).subs.map Leaf.context).Nodup :=
  hn.sublist (List.eraseP_sublist.map _)

theorem removeLeaf_of_notMem {c : C} {h : Hier C} (hc : c ∉ h.subs.map Leaf.context) : removeLeaf c h = h := by
  have : h.subs.eraseP (fun leaf => leaf.context = c) = h.subs := by
    refine List.eraseP_of_forall_not fun leaf hm hleaf => hc ?_
    simp only [decide_eq_true_eq] at hleaf
    exact hleaf ▸ List.mem_map_of_mem hm
  cases h
  simp_all [removeLeaf]

theorem leafQos_removeLeaf {c c' : C} {h : Hier C} (hn : (h.subs.map Leaf.context).Nodup) :
    leafQos c' (removeLeaf c h).subs = if c' = c then none else leafQos c' h.subs := by
  by_cases hc : c' = c
  · rw [if_pos hc, leafQos_eq_none_iff, removeLeaf_contexts hn]
    simp [hc]
  · rw [if_neg hc]
    simp only [removeLeaf, leafQos]
    congr 1
    generalize h.subs = subs
    induction subs with
    | nil => rfl
    | cons leaf subs ih =>
      by_cases hl : leaf.context = c
      · simp [hl, Ne.symm hc]
      · by_cases hl' : leaf.context = c' <;> simp [hl, hl', hc, ih]

end Leaves

/-! ### Slots -/

theorem mem_addSlot {p q : List Token} {slots : List (Option (List Token))} :
    some q ∈ addSlot p slots ↔ q = p ∨ some q ∈ slots := by
  induction slots with
  | nil => simp [addSlot]
  | cons slot slots ih =>
    cases slot with
    | none => simp [addSlot]
    | some r =>
      simp only [addSlot, List.mem_cons, Option.some.injEq, ih]
      tauto

theorem nodup_addSlot {p : List Token} {slots : List (Option (List Token))} (hp : some p ∉ slots)
    (h : slots.reduceOption.Nodup) : (addSlot p slots).reduceOption.Nodup := by
  induction slots with
  | nil => simp [addSlot, List.reduceOption]
  | cons slot slots ih =>
    rw [List.mem_cons, not_or] at hp
    cases slot with
    | none =>
      rw [List.reduceOption_cons_of_none] at h
      rw [addSlot, List.reduceOption_cons_of_some, List.nodup_cons, List.reduceOption_mem_iff]
      exact ⟨hp.2, h⟩
    | some r =>
      rw [List.reduceOption_cons_of_some, List.nodup_cons, List.reduceOption_mem_iff] at h
      rw [addSlot, List.reduceOption_cons_of_some, List.nodup_cons, List.reduceOption_mem_iff, mem_addSlot]
      exact ⟨fun hr => hr.elim (fun h' => hp.1 (by rw [h'])) h.1, ih hp.2 h.2⟩

theorem mem_clearSlot {p q : List Token} {slots : List (Option (List Token))}
    (h : slots.reduceOption.Nodup) : some q ∈ clearSlot p slots ↔ q ≠ p ∧ some q ∈ slots := by
  induction slots with
  | nil => simp [clearSlot]
  | cons slot slots ih =>
    by_cases hs : slot = some p
    · subst hs
      rw [List.reduceOption_cons_of_some, List.nodup_cons, List.reduceOption_mem_iff] at h
      simp only [clearSlot, if_true, List.mem_cons, reduceCtorEq, false_or, Option.some.injEq]
      constructor
      · exact fun hq => ⟨fun h' => h.1 (h' ▸ hq), Or.inr hq⟩
      · exact fun hq => hq.2.resolve_left hq.1
    · have h' : slots.reduceOption.Nodup := h.sublist ((List.sublist_cons_self slot slots).filterMap id)
      simp only [clearSlot, hs, if_false, List.mem_cons, ih h']
      constructor
      · rintro (rfl | hq)
        · exact ⟨fun h => hs (by rw [h]), Or.inl rfl⟩
        · exact ⟨hq.1, Or.inr hq.2⟩
      · rintro ⟨h1, h2 | h2⟩
        · exact Or.inl h2
        · exact Or.inr ⟨h1, h2⟩

theorem nodup_clearSlot {p : List Token} {slots : List (Option (List Token))}
    (h : slots.reduceOption.Nodup) : (clearSlot p slots).reduceOption.Nodup := by
  induction slots with
  | nil => simp [clearSlot, List.reduceOption]
  | cons slot slots ih =>
    have h' : slots.reduceOption.Nodup := h.sublist ((List.sublist_cons_self slot slots).filterMap id)
    by_cases hs : slot = some p
    · rw [clearSlot, if_pos hs, List.reduceOption_cons_of_none]
      exact h'
    · rw [clearSlot, if_neg hs]
      cases slot with
      | none =>
        rw [List.reduceOption_cons_of_none]
        exact ih h'
      | some r =>
        rw [List.reduceOption_cons_of_some, List.nodup_cons, List.reduceOption_mem_iff] at h
        rw [List.reduceOption_cons_of_some, List.nodup_cons, List.reduceOption_mem_iff, mem_clearSlot h']
        exact ⟨fun hm => h.1 hm.2, ih h'⟩

/-! ### Tokens and paths -/

theorem rootPath_cons (t : Token) (ts : List Token) : rootPath (t :: ts) = t :: t :: ts := rfl

theorem rootPath_injective : Function.Injective rootPath := by
  intro f g h
  have htail : ∀ f : List Token, (rootPath f).tail = f := fun f => by cases f <;> rfl
  rw [← htail f, ← htail g, h]

/-- The first token is no wildcard. -/
theorem exists_tokens (s : List Char) :
    ∃ t ts, subTopicTokenise s = t :: ts ∧ t ≠ plus ∧ t ≠ hash := by
  rcases subTopicTokenise_cases s with ⟨-, h⟩ | ⟨-, h, l, ls, hl⟩
  · exact ⟨[], levels s, h, by decide, by decide⟩
  · exact ⟨'$' :: l, ls, h.trans hl, by simp [plus], by simp [hash]⟩

theorem manyLast_of_validLevels {ls : List Token} (h : ValidLevels ls) : ManyLast hash ls := by
  induction ls with
  | nil => exact manyLast_nil hash
  | cons l ls ih =>
    rw [manyLast_cons]
    by_cases hls : ls = []
    · subst hls
      exact ⟨fun _ => rfl, manyLast_nil hash⟩
    · rw [validLevels_cons hls] at h
      refine ⟨fun hl => ?_, ih h.2⟩
      subst hl
      exact absurd h.1 (by decide)

theorem manyLast_subTopicTokenise {s : List Char} (h : subTopicCheck s = .success) :
    ManyLast hash (subTopicTokenise s) := by
  rw [subTopicCheck, subTopicCheckLoop_iff, rest_none] at h
  have := manyLast_of_validLevels h.1
  rcases subTopicTokenise_cases s with ⟨-, h⟩ | ⟨-, h, -⟩
  · rw [h, manyLast_cons]
    exact ⟨fun h => absurd h (by decide), this⟩
  · rwa [h]

/-- A topic has no token that is a wildcard. -/
theorem notMem_subTopicTokenise {s : List Char} (h : pubTopicCheck s = .success) :
    plus ∉ subTopicTokenise s ∧ hash ∉ subTopicTokenise s := by
  rw [pubTopicCheck, pubTopicCheckLoop_iff] at h
  have hl := forall_plain_levels.mpr h.1
  have hlev : plus ∉ levels s ∧ hash ∉ levels s :=
    ⟨fun hm => not_plain_plus (hl _ hm), fun hm => not_plain_hash (hl _ hm)⟩
  rcases subTopicTokenise_cases s with ⟨-, h⟩ | ⟨-, h, -⟩
  · have hnil : plus ≠ [] ∧ hash ≠ [] := by decide
    simp only [h, List.mem_cons, hnil, hlev, or_self, not_false_eq_true, and_self]
  · rwa [h]

theorem manyLast_of_notMem {ts : List Token} (h : hash ∉ ts) : ManyLast hash ts := fun p q hp =>
  absurd (by simp [hp] : hash ∈ ts) h

/-- The paths that the tree has: the first token is no wildcard and is repeated,
`#` is last. -/
def Grown (p : List Token) : Prop :=
  ∀ t rest, p = t :: rest → (t ≠ plus ∧ t ≠ hash) ∧ ManyLast hash rest ∧ ∀ u r, rest = u :: r → u = t

theorem Grown.of_isPrefix {p q : List Token} (h : Grown q) (hp : p <+: q) : Grown p := by
  intro t rest hpt
  obtain ⟨r, rfl⟩ := hp
  obtain ⟨h1, h2, h3⟩ := h t (rest ++ r) (by simp [hpt])
  refine ⟨h1, h2.of_isPrefix hash (List.prefix_append _ _), fun u r' hr => h3 u (r' ++ r) (by simp [hr])⟩

theorem grown_rootPath {s : List Char} (h : ManyLast hash (subTopicTokenise s)) :
    Grown (rootPath (subTopicTokenise s)) := by
  obtain ⟨t, ts, hts, h1, h2⟩ := exists_tokens s
  rw [hts, rootPath_cons]
  rw [hts] at h
  rintro t' rest heq
  obtain ⟨rfl, rfl⟩ := List.cons.inj heq
  exact ⟨⟨h1, h2⟩, h, fun u r hr => (List.cons.inj hr).1.symm⟩

/-! ### The steps of a run -/

variable [DecidableEq C] (E : Contexts C)

/-- What a client asks the broker to do, or that its session ends. -/
inductive Op (C : Type)
  | subscribe (context : C) (sub : List Char) (qos : ℕ)
  | unsubscribe (context : C) (sub : List Char)
  | publish (m : Publish)
  | cleanSession (context : C)

/-- The handlers of the packets (`mqtt3_handle_subscribe`,
`mqtt3_handle_unsubscribe`, `mqtt3_handle_publish`) check the text first; a
client that sends something else is disconnected. -/
def step (db : Db C) : Op C → Db C
  | .subscribe context sub qos =>
    if sub = [] ∨ subTopicCheck sub ≠ .success ∨ qos > 2 then db else mqtt3SubAdd E context sub qos db
  | .unsubscribe context sub =>
    if sub = [] ∨ subTopicCheck sub ≠ .success then db else mqtt3SubRemove context sub db
  | .publish m =>
    if m.topic = [] ∨ pubTopicCheck m.topic ≠ .success then db else (mqtt3DbMessagesQueue E m db).1
  | .cleanSession context => mqtt3SubsCleanSession context db

def run (ops : List (Op C)) : Db C := ops.foldl (step E) mqtt3DbOpen

/-- What holds of the tree in every run. -/
structure TreeInv (s : SubHier C) : Prop where
  root : s.1 = {}
  distinct : s.2.Distinct
  kept : ∀ t, permanent t = true → (s.2.find t).isSome
  grown : ∀ p, Trie.Has p s → Grown p
  leaves : ∀ p, ((Trie.val {} p s).subs.map Leaf.context).Nodup

/-- What holds of the tree and the clients' lists of nodes in every run. -/
structure Inv (db : Db C) : Prop where
  tree : TreeInv db.subs
  slots : ∀ c p, some p ∈ db.slots c ↔ c ∈ (Trie.val {} p db.subs).subs.map Leaf.context
  nodup : ∀ c, (db.slots c).reduceOption.Nodup

omit [DecidableEq C] in
theorem val_open (p : List Token) : Trie.val ({} : Hier C) p mqtt3DbOpen.subs = {} := by
  match p with
  | [] => rfl
  | a :: p =>
    simp only [Trie.val, mqtt3DbOpen, Trie.find]
    split_ifs <;> cases p <;> simp [Trie.val, Trie.find]

omit [DecidableEq C] in
theorem open_inv : Inv (mqtt3DbOpen : Db C) := by
  refine ⟨⟨rfl, ?_, fun t ht => ?_, fun p hp => ?_, fun p => ?_⟩, fun c p => ?_, fun c => ?_⟩
  · simp [mqtt3DbOpen, Trie.Distinct, Trie.keys]
  · simp only [permanent, decide_eq_true_eq] at ht
    rcases ht with rfl | rfl <;> simp [mqtt3DbOpen, Trie.find]
  · rintro t rest rfl
    obtain ⟨m, hf, hp⟩ := hp
    simp only [mqtt3DbOpen, Trie.find] at hf
    have hrest : rest = [] := by
      cases rest with
      | nil => rfl
      | cons u r =>
        obtain ⟨m', hf', -⟩ := hp
        split_ifs at hf <;> cases hf <;> simp [Trie.find] at hf'
    subst hrest
    refine ⟨?_, manyLast_nil hash, fun u r h => by cases h⟩
    split_ifs at hf with h1 h2
    · subst h1
      decide
    · subst h2
      decide
  · rw [val_open]
    simp
  · rw [val_open]
    simp [mqtt3DbOpen]
  · simp [mqtt3DbOpen, List.reduceOption]

/-! ### What the functions do at a path -/

/-- The tree `s'` is `s` with `f` done to the node at path `p`. -/
structure Updates (f : Hier C → Hier C) (p : List Token) (s s' : SubHier C) : Prop where
  root : s'.1 = s.1
  distinct : s'.2.Distinct
  kept : ∀ t, permanent t = true → (s.2.find t).isSome → (s'.2.find t).isSome
  has : ∀ q, Trie.Has q s' → Trie.Has q s ∨ q <+: p
  val : ∀ q, Trie.val {} q s' = if q = p then f (Trie.val {} p s) else Trie.val {} q s

omit [DecidableEq C] in
theorem find_rootAdd (token : Token) (g : SubHier C → SubHier C) {root : SubHier C} (h : root.2.Distinct)
    (b : Token) : (rootAdd token g root).2.find b =
      (root.2.alter token fun o => some (g (o.getD ({}, .nil)))).find b := by
  unfold rootAdd
  by_cases hb : b = token
  · subst hb
    rw [Trie.find_alter_self h]
    split
    · rename_i hs
      obtain ⟨m, hm⟩ := Option.isSome_iff_exists.mp hs
      simp [Trie.find_alter_self h, hm]
    · rename_i hs
      have hnone : root.2.find b = none := by simpa using hs
      simp [Trie.find, hnone]
  · rw [Trie.find_alter_ne hb]
    split
    · rw [Trie.find_alter_ne hb]
    · simp [Trie.find, Ne.symm hb]

omit [DecidableEq C] in
theorem rootAdd_updates {f : Hier C → Hier C} {token : Token} {tokens : List Token} {root : SubHier C}
    (h : root.2.Distinct) :
    Updates f (token :: tokens) root (rootAdd token (Trie.upsert {} f tokens) root) := by
  have hroot : (rootAdd token (Trie.upsert {} f tokens) root).1 = root.1 := by
    unfold rootAdd
    split <;> rfl
  -- up to the order of its children the root is as after an `upsert`
  have hpair : rootAdd token (Trie.upsert {} f tokens) root =
      (root.1, (rootAdd token (Trie.upsert {} f tokens) root).2) := by rw [← hroot]
  have hfind := find_rootAdd token (Trie.upsert {} f tokens) h
  refine ⟨hroot, ?_, fun t _ ht => ?_, fun q hq => ?_, fun q => ?_⟩
  · unfold rootAdd
    split
    · exact h.alter_map fun m hm => Trie.distinct_upsert f tokens hm
    · rename_i hs
      refine ⟨?_, Trie.distinct_upsert f tokens trivial, h⟩
      exact Trie.find_eq_none_iff.mp (by simpa using hs)
  · rw [hfind]
    by_cases hb : t = token
    · subst hb
      simp [Trie.find_alter_self h]
    · rwa [Trie.find_alter_ne hb]
  · rw [hpair, Trie.has_congr hfind] at hq
    exact (Trie.has_upsert f (token :: tokens) h).mp hq
  · rw [hpair, Trie.val_congr hfind]
    exact Trie.val_upsert (token :: tokens) h q

omit [DecidableEq C] in
theorem isEmpty_eq {h : Hier C} (he : h.isEmpty = true) : h = {} := by
  cases h
  simp_all [Hier.isEmpty]

theorem removeLeaf_empty (c : C) : removeLeaf c {} = {} := rfl

theorem subRemove_updates {c : C} {token : Token} {tokens : List Token} {root : SubHier C}
    (h : root.2.Distinct) : Updates (removeLeaf c) (token :: tokens) root
      (root.1, root.2.alter token (Option.map (subRemove c tokens))) := by
  refine ⟨rfl, ?_, fun t _ ht => ?_, fun q hq => ?_, fun q => ?_⟩
  · exact h.alter_map fun m hm => Trie.distinct_prune _ _ _ hm
  · by_cases hb : t = token
    · subst hb
      simpa [Trie.find_alter_self h] using ht
    · rwa [Trie.find_alter_ne hb]
  · have := Trie.has_alter_map (P := fun _ => False) h
      (fun m hm q hq => Or.inl (Trie.has_of_has_prune (h.of_find hm) hq)) hq
    simpa using Or.inl (this.resolve_right (by simp))
  · exact Trie.val_alter_map h (fun _ => removeLeaf_empty c)
      (fun m hm q => Trie.val_prune (fun v => isEmpty_eq) (removeLeaf_empty c) tokens (h.of_find hm) q) q

theorem cleanNode_updates {c : C} {p : List Token} (hp : p ≠ []) {root : SubHier C} (h : root.2.Distinct) :
    Updates (removeLeaf c) p root (cleanNode c p root) := by
  cases p with
  | nil => exact absurd rfl hp
  | cons token tokens =>
    rw [cleanNode]
    split
    · exact subRemove_updates h
    · rename_i hperm
      refine ⟨rfl, Trie.distinct_prune _ _ _ h, fun t ht hs => ?_, fun q hq => ?_, fun q => ?_⟩
      · have hb : t ≠ token := fun h => hperm (h ▸ ht)
        rw [subRemove, Trie.prune, Trie.find_alter_ne hb]
        exact hs
      · exact Or.inl (Trie.has_of_has_prune h hq)
      · exact Trie.val_prune (fun v => isEmpty_eq) (removeLeaf_empty c) _ h q

/-- The node of a child of the root that the search starts from. -/
def searched (m : Publish) (tokens : List Token) (subhier : SubHier C) : SubHier C :=
  if m.retain then subAdd E none 0 tokens subhier else subhier

omit [DecidableEq C] in
/-- The loop over the children of the root finds one. -/
theorem messagesQueueLoop_eq {m : Publish} {token : Token} {tokens : List Token} {t : Trie Token (Hier C)}
    (h : t.Distinct) :
    messagesQueueLoop E m token tokens t =
      (t.alter token (Option.map fun s => ((searched E m tokens s).1,
          (subSearch E m tokens true (searched E m tokens s).2).1)),
        match t.find token with
        | none => []
        | some s => (subSearch E m tokens true (searched E m tokens s).2).2) := by
  induction t with
  | nil => rfl
  | node topic hier children next _ ihn =>
    rw [messagesQueueLoop, ihn h.2.2]
    by_cases hk : topic = token
    · subst hk
      have hnone : next.find topic = none := Trie.find_eq_none_iff.mpr h.1
      have hkeep : ∀ g, next.alter topic (Option.map g) = next := fun g =>
        Trie.alter_map_eq_self fun m hm => by simp [hnone] at hm
      simp [Trie.alter, Trie.find, hnone, hkeep, searched]
    · simp [Trie.alter, Trie.find, hk]

omit [DecidableEq C] in
theorem val_subAdd_none {tokens : List Token} {s : SubHier C} (h : s.2.Distinct) (q : List Token) :
    Trie.val {} q (subAdd E none 0 tokens s) = Trie.val {} q s := by
  rw [subAdd, Trie.val_upsert tokens h]
  split
  · rename_i hq
    rw [hq]
  · rfl

omit [DecidableEq C] in
theorem distinct_searched {m : Publish} {tokens : List Token} {s : SubHier C} (h : s.2.Distinct) :
    (searched E m tokens s).2.Distinct := by
  unfold searched
  split
  · exact Trie.distinct_upsert _ _ h
  · exact h

omit [DecidableEq C] in
theorem val_searched {m : Publish} {tokens : List Token} {s : SubHier C} (h : s.2.Distinct) (q : List Token) :
    Trie.val {} q (searched E m tokens s) = Trie.val {} q s := by
  unfold searched
  split
  · exact val_subAdd_none E h q
  · rfl

omit [DecidableEq C] in
theorem has_searched {m : Publish} {tokens : List Token} {s : SubHier C} (h : s.2.Distinct) {q : List Token}
    (hq : Trie.Has q (searched E m tokens s)) : Trie.Has q s ∨ q <+: tokens := by
  unfold searched at hq
  split at hq
  · exact (Trie.has_upsert _ tokens h).mp hq
  · exact Or.inl hq

omit [DecidableEq C] in
/-- A message to be retained is noted at the node of its topic, which is made
if the root has a child for its first token. -/
theorem messagesQueue_updates {m : Publish} (hm : m.retain = true) {token : Token} {tokens : List Token}
    (hplus : plus ∉ tokens) (hne : tokens ≠ []) {root : SubHier C} (h : root.2.Distinct)
    (hfound : (root.2.find token).isSome) :
    Updates (setRetained m) (token :: tokens) root
      (root.1, (messagesQueueLoop E m token tokens root.2).1) := by
  obtain ⟨s₀, hs₀⟩ := Option.isSome_iff_exists.mp hfound
  -- below the child of the root it is a change of the node, made before
  have hmod : ∀ s : SubHier C, s.2.Distinct →
      ((searched E m tokens s).1, (subSearch E m tokens true (searched E m tokens s).2).1) =
        Trie.modify (setRetained m) tokens (searched E m tokens s) := by
    intro s hs
    rw [subSearch_tree E hm hplus (searched E m tokens s).1 (distinct_searched E hs) hne]
    cases tokens with
    | nil => exact absurd rfl hne
    | cons t ts => rfl
  rw [messagesQueueLoop_eq E h]
  refine ⟨rfl, ?_, fun t _ ht => ?_, fun q hq => ?_, fun q => ?_⟩
  · refine h.alter_map fun s hs => ?_
    rw [hmod s hs]
    exact Trie.distinct_modify _ _ (distinct_searched E hs)
  · by_cases hb : t = token
    · subst hb
      simpa [Trie.find_alter_self h] using ht
    · rwa [Trie.find_alter_ne hb]
  · have hbelow : ∀ s, root.2.find token = some s → ∀ q, Trie.Has q ((searched E m tokens s).1,
        (subSearch E m tokens true (searched E m tokens s).2).1) → Trie.Has q s ∨ q <+: tokens := by
      intro s hs q hq
      have hd := h.of_find hs
      rw [hmod s hd, Trie.has_modify _ _ (distinct_searched E hd)] at hq
      exact has_searched E hd hq
    rcases Trie.has_alter_map h hbelow hq with hq | ⟨q', rfl, hq'⟩
    · exact Or.inl hq
    · exact Or.inr (by simpa using hq')
  · refine Trie.val_alter_map h (fun hn => by simp [hn] at hs₀) (fun s hs q => ?_) q
    have hd := h.of_find hs
    have hhas : Trie.Has tokens (searched E m tokens s) := by
      simp only [searched, hm, if_true, subAdd]
      exact (Trie.has_upsert _ tokens hd).mpr (Or.inr (List.prefix_refl _))
    rw [hmod s hd, Trie.val_modify tokens (distinct_searched E hd) hhas, val_searched E hd, val_searched E hd]

/-! ### Every step keeps the invariant -/

omit [DecidableEq C] in
theorem TreeInv.of_updates {f : Hier C → Hier C} {p : List Token} {root root' : SubHier C} (hI : TreeInv root)
    (hu : Updates f p root root') (hg : Grown p)
    (hf : ∀ h : Hier C, (h.subs.map Leaf.context).Nodup → ((f h).subs.map Leaf.context).Nodup) :
    TreeInv root' := by
  refine ⟨hu.root.trans hI.root, hu.distinct, fun t ht => hu.kept t ht (hI.kept t ht), fun q hq => ?_,
    fun q => ?_⟩
  · rcases hu.has q hq with hq | hq
    · exact hI.grown q hq
    · exact hg.of_isPrefix hq
  · rw [hu.val]
    split
    · exact hf _ (hI.leaves p)
    · exact hI.leaves q

omit [DecidableEq C] in
/-- A client's leaf stands at a node of the tree. -/
theorem TreeInv.has_of_mem {root : SubHier C} {c : C} {p : List Token}
    (h : c ∈ (Trie.val {} p root).subs.map Leaf.context) : Trie.Has p root := by
  refine Trie.has_of_val_ne {} fun hval => ?_
  rw [hval] at h
  simp at h

omit [DecidableEq C] in
theorem TreeInv.ne_nil {root : SubHier C} (hI : TreeInv root) {c : C} {p : List Token}
    (h : c ∈ (Trie.val {} p root).subs.map Leaf.context) : p ≠ [] := by
  rintro rfl
  rw [show Trie.val {} [] root = root.1 from rfl, hI.root] at h
  simp at h

/-- What a subscription does to the leaves of its node. -/
def subscribeLeaf (c : C) (qos : ℕ) (h : Hier C) : Hier C := { h with subs := addLeaf E c qos h.subs }

theorem subAdd_updates {db : Db C} (hd : db.subs.2.Distinct) (c : C) (sub : List Char) (qos : ℕ) :
    Updates (subscribeLeaf E c qos) (rootPath (subTopicTokenise sub)) db.subs (mqtt3SubAdd E c sub qos db).subs := by
  obtain ⟨t, ts, h, -⟩ := exists_tokens sub
  simp only [mqtt3SubAdd, h, List.head?_cons, rootPath_cons]
  exact rootAdd_updates hd

theorem subAdd_slots (db : Db C) (c : C) (sub : List Char) (qos : ℕ) :
    (mqtt3SubAdd E c sub qos db).slots =
      if subscribedAt E c (rootPath (subTopicTokenise sub)) db.subs then db.slots
      else Function.update db.slots c (addSlot (rootPath (subTopicTokenise sub)) (db.slots c)) := by
  obtain ⟨t, ts, h, -⟩ := exists_tokens sub
  simp only [mqtt3SubAdd, h, List.head?_cons]

theorem subRemove_updates' {db : Db C} (hd : db.subs.2.Distinct) (c : C) (sub : List Char) :
    Updates (removeLeaf c) (rootPath (subTopicTokenise sub)) db.subs (mqtt3SubRemove c sub db).subs := by
  obtain ⟨t, ts, h, -⟩ := exists_tokens sub
  simp only [mqtt3SubRemove, h, List.head?_cons, rootPath_cons]
  exact subRemove_updates hd

theorem subRemove_slots (db : Db C) (c : C) (sub : List Char) :
    (mqtt3SubRemove c sub db).slots =
      if (Trie.val {} (rootPath (subTopicTokenise sub)) db.subs).subs.any fun leaf => leaf.context = c then
        Function.update db.slots c (clearSlot (rootPath (subTopicTokenise sub)) (db.slots c))
      else db.slots := by
  obtain ⟨t, ts, h, -⟩ := exists_tokens sub
  simp only [mqtt3SubRemove, h, List.head?_cons]

omit [DecidableEq C] in
theorem subscribedAt_iff {c : C} {p : List Token} {root : SubHier C} :
    subscribedAt E c p root = true ↔ c ∈ (Trie.val {} p root).subs.map Leaf.context := by
  simp only [subscribedAt, List.any_eq_true, decide_eq_true_eq, List.mem_map]
  exact exists_congr fun leaf => and_congr_right fun _ => ⟨fun h => E.id_inj h, fun h => by rw [h]⟩

theorem subAdd_inv {db : Db C} (hI : Inv db) (c : C) {sub : List Char} (hs : subTopicCheck sub = .success)
    (qos : ℕ) : Inv (mqtt3SubAdd E c sub qos db) := by
  have hu := subAdd_updates E hI.tree.distinct c sub qos
  set p := rootPath (subTopicTokenise sub) with hp
  have hmem : ∀ c' q, c' ∈ (Trie.val {} q (mqtt3SubAdd E c sub qos db).subs).subs.map Leaf.context ↔
      (q = p ∧ c' = c) ∨ some q ∈ db.slots c' := by
    intro c' q
    rw [hu.val, hI.slots]
    by_cases hq : q = p
    · rw [if_pos hq, subscribeLeaf, mem_contexts_addLeaf]
      simp [hq]
    · simp [hq]
  refine ⟨hI.tree.of_updates hu (grown_rootPath (manyLast_subTopicTokenise hs))
    fun h hn => nodup_addLeaf E hn, fun c' q => ?_, fun c' => ?_⟩
  · rw [hmem, subAdd_slots, ← hp]
    by_cases hsub : subscribedAt E c p db.subs
    · rw [if_pos hsub]
      rw [subscribedAt_iff, ← hI.slots] at hsub
      constructor
      · exact Or.inr
      · rintro (⟨rfl, rfl⟩ | h)
        · exact hsub
        · exact h
    · rw [if_neg hsub]
      by_cases hc : c' = c
      · subst hc
        simp [mem_addSlot]
      · simp [hc]
  · rw [subAdd_slots, ← hp]
    by_cases hsub : subscribedAt E c p db.subs
    · rw [if_pos hsub]
      exact hI.nodup c'
    · rw [if_neg hsub]
      by_cases hc : c' = c
      · subst hc
        rw [subscribedAt_iff, ← hI.slots] at hsub
        simpa using nodup_addSlot hsub (hI.nodup c')
      · simpa [hc] using hI.nodup c'

theorem subRemove_inv {db : Db C} (hI : Inv db) (c : C) {sub : List Char} (hs : subTopicCheck sub = .success) :
    Inv (mqtt3SubRemove c sub db) := by
  have hu := subRemove_updates' hI.tree.distinct c sub
  set p := rootPath (subTopicTokenise sub) with hp
  have hmem : ∀ c' q, c' ∈ (Trie.val {} q (mqtt3SubRemove c sub db).subs).subs.map Leaf.context ↔
      ¬ (q = p ∧ c' = c) ∧ some q ∈ db.slots c' := by
    intro c' q
    rw [hu.val, hI.slots]
    by_cases hq : q = p
    · rw [if_pos hq, removeLeaf_contexts (hI.tree.leaves p)]
      simp [hq]
    · simp [hq]
  have hany : (Trie.val {} p db.subs).subs.any (fun leaf => leaf.context = c) = true ↔ some p ∈ db.slots c := by
    rw [hI.slots]
    simp
  refine ⟨hI.tree.of_updates hu (grown_rootPath (manyLast_subTopicTokenise hs))
    fun h hn => nodup_removeLeaf c hn, fun c' q => ?_, fun c' => ?_⟩
  · rw [hmem, subRemove_slots, ← hp]
    by_cases hsub : some p ∈ db.slots c
    · rw [if_pos (hany.mpr hsub)]
      by_cases hc : c' = c
      · subst hc
        simp [mem_clearSlot (hI.nodup c')]
      · simp [hc]
    · rw [if_neg (mt hany.mp hsub)]
      constructor
      · intro h
        refine ⟨?_, h⟩
        rintro ⟨rfl, rfl⟩
        exact hsub h
      · exact And.right
  · rw [subRemove_slots, ← hp]
    split
    · by_cases hc : c' = c
      · subst hc
        simpa using nodup_clearSlot (hI.nodup c')
      · simpa [hc] using hI.nodup c'
    · exact hI.nodup c'

omit [DecidableEq C] in
/-- A message leaves the tree as it is, or is noted as retained at its topic. -/
theorem messagesQueue_cases {db : Db C} (hd : db.subs.2.Distinct) {m : Publish}
    (ht : pubTopicCheck m.topic = .success) :
    (mqtt3DbMessagesQueue E m db).1.slots = db.slots ∧
    ((m.retain = true ∧ (∃ t ts, subTopicTokenise m.topic = t :: ts ∧ (db.subs.2.find t).isSome) ∧
        Updates (setRetained m) (rootPath (subTopicTokenise m.topic)) db.subs (mqtt3DbMessagesQueue E m db).1.subs) ∨
      ((m.retain = false ∨ ∃ t ts, subTopicTokenise m.topic = t :: ts ∧ db.subs.2.find t = none) ∧
        (mqtt3DbMessagesQueue E m db).1.subs = db.subs)) := by
  obtain ⟨t, ts, hts, -⟩ := exists_tokens m.topic
  have hplus := (notMem_subTopicTokenise ht).1
  rw [hts] at hplus
  simp only [mqtt3DbMessagesQueue, hts, List.head?_cons, true_and, rootPath_cons]
  by_cases hr : m.retain = true
  · by_cases hf : (db.subs.2.find t).isSome
    · exact Or.inl ⟨hr, ⟨t, ts, rfl, hf⟩, messagesQueue_updates E hr hplus (by simp) hd hf⟩
    · have hnone : db.subs.2.find t = none := by simpa using hf
      refine Or.inr ⟨Or.inr ⟨t, ts, rfl, hnone⟩, ?_⟩
      rw [messagesQueueLoop_eq E hd, Trie.alter_map_eq_self fun s hs => by simp [hnone] at hs]
  · have hr' : m.retain = false := by simpa using hr
    refine Or.inr ⟨Or.inl hr', ?_⟩
    rw [messagesQueueLoop_eq E hd, Trie.alter_map_eq_self]
    intro s _
    simp [searched, hr', subSearch_keep E (Or.inl hr')]

omit [DecidableEq C] in
theorem messagesQueue_inv {db : Db C} (hI : Inv db) {m : Publish} (ht : pubTopicCheck m.topic = .success) :
    Inv (mqtt3DbMessagesQueue E m db).1 := by
  obtain ⟨hslots, ⟨-, -, hu⟩ | ⟨-, heq⟩⟩ := messagesQueue_cases E hI.tree.distinct ht
  · have hg := grown_rootPath (manyLast_of_notMem (notMem_subTopicTokenise ht).2)
    refine ⟨hI.tree.of_updates hu hg fun h hn => hn, fun c p => ?_, fun c => ?_⟩
    · rw [hslots, hI.slots, hu.val]
      split
      · rename_i hp
        rw [hp]
        rfl
      · rfl
    · rw [hslots]
      exact hI.nodup c
  · refine ⟨heq ▸ hI.tree, fun c p => ?_, fun c => ?_⟩
    · rw [hslots, hI.slots, heq]
    · rw [hslots]
      exact hI.nodup c

theorem removeLeaf_removeLeaf {c : C} {h : Hier C} (hn : (h.subs.map Leaf.context).Nodup) :
    removeLeaf c (removeLeaf c h) = removeLeaf c h := by
  refine removeLeaf_of_notMem fun hm => ?_
  exact ((removeLeaf_contexts hn).mp hm).1 rfl

/-- The loop over a client's nodes takes its leaf from each of them. -/
theorem foldl_cleanNode {c : C} (slots : List (Option (List Token))) {root : SubHier C} (hI : TreeInv root)
    (hs : ∀ p, some p ∈ slots → p ≠ [] ∧ Grown p) :
    TreeInv (slots.foldl (cleanSlot c) root) ∧
      ∀ q, Trie.val {} q (slots.foldl (cleanSlot c) root) =
        if some q ∈ slots then removeLeaf c (Trie.val {} q root) else Trie.val {} q root := by
  induction slots generalizing root with
  | nil => exact ⟨hI, fun q => by simp⟩
  | cons slot slots ih =>
    have hs' : ∀ p, some p ∈ slots → p ≠ [] ∧ Grown p := fun p hp => hs p (List.mem_cons_of_mem _ hp)
    cases slot with
    | none =>
      obtain ⟨h1, h2⟩ := ih hI hs'
      exact ⟨h1, fun q => by simpa [cleanSlot] using h2 q⟩
    | some p =>
      obtain ⟨hp, hg⟩ := hs p (by simp)
      have hu := cleanNode_updates (c := c) hp hI.distinct
      have hI' := hI.of_updates hu hg fun h hn => nodup_removeLeaf c hn
      obtain ⟨h1, h2⟩ := ih hI' hs'
      refine ⟨h1, fun q => ?_⟩
      rw [List.foldl_cons, cleanSlot, h2 q, hu.val q]
      by_cases hq : q = p
      · subst hq
        simp [removeLeaf_removeLeaf (hI.leaves q)]
      · simp [hq]

theorem cleanSession_val {db : Db C} (hI : Inv db) (c : C) :
    TreeInv (mqtt3SubsCleanSession c db).subs ∧
      ∀ q, Trie.val {} q (mqtt3SubsCleanSession c db).subs = removeLeaf c (Trie.val {} q db.subs) := by
  have hs : ∀ p, some p ∈ db.slots c → p ≠ [] ∧ Grown p := fun p hp => by
    rw [hI.slots] at hp
    exact ⟨hI.tree.ne_nil hp, hI.tree.grown p (TreeInv.has_of_mem hp)⟩
  obtain ⟨h1, h2⟩ := foldl_cleanNode (c := c) (db.slots c) hI.tree hs
  refine ⟨h1, fun q => ?_⟩
  refine (h2 q).trans ?_
  split
  · rfl
  · rename_i hq
    rw [hI.slots] at hq
    exact (removeLeaf_of_notMem hq).symm

theorem cleanSession_inv {db : Db C} (hI : Inv db) (c : C) : Inv (mqtt3SubsCleanSession c db) := by
  obtain ⟨h1, h2⟩ := cleanSession_val hI c
  refine ⟨h1, fun c' p => ?_, fun c' => ?_⟩
  · rw [h2, removeLeaf_contexts (hI.tree.leaves p), ← hI.slots]
    by_cases hc : c' = c <;> simp [mqtt3SubsCleanSession, hc]
  · by_cases hc : c' = c
    · simp [mqtt3SubsCleanSession, hc, List.reduceOption]
    · simpa [mqtt3SubsCleanSession, hc] using hI.nodup c'

theorem step_inv {db : Db C} (hI : Inv db) (op : Op C) : Inv (step E db op) := by
  cases op with
  | subscribe c sub qos =>
    rw [step]
    split
    · exact hI
    · rename_i h
      exact subAdd_inv E hI c (by tauto) qos
  | unsubscribe c sub =>
    rw [step]
    split
    · exact hI
    · rename_i h
      exact subRemove_inv hI c (by tauto)
  | publish m =>
    rw [step]
    split
    · exact hI
    · rename_i h
      exact messagesQueue_inv E hI (by tauto)
  | cleanSession c => exact cleanSession_inv hI c

theorem run_inv (ops : List (Op C)) : Inv (run E ops) := by
  induction ops using List.reverseRecOn with
  | nil => exact open_inv
  | append_singleton ops op ih =>
    rw [run, List.foldl_append]
    exact step_inv E ih op

end Broker
end BlenderBottle
