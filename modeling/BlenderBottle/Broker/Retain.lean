/-
# Retained messages for a new subscription

A client that subscribes is sent the messages retained on the topics that its
subscription matches (`mqtt3_retain_queue` in `src/subs.c`). The search goes down
the same tree, now with the subscription's tokens: `+` goes to every child, `#`
takes all that is below. What `foo/#` gets from `foo` itself is decided on the
way back, by whether the search below met any node, or `foo` is the last of its
siblings.

So the search finds what the subscription matches, each message once, except on
the parent level of a last `#`: there it finds the message only if the node has a
child or is the last of its siblings (`mem_retainQueue`). For a subscription
without `+` the node has one, that of the subscription itself, and the search is
exact (`retainQueue_exact`).

Key definitions: `retainSearch`, `mqtt3RetainQueue`, `Trie.Last`.
Key theorems: `mem_retainSearch`, `retainQueue_found`, `retainQueue_exact`.
-/
import BlenderBottle.Broker.SubsRun

namespace BlenderBottle
namespace Broker

open Wildcard

variable {C : Type}

/-! ### The functions of the source -/

/-- The message retained at a node. -/
def here (topic : Token) (hier : Hier C) : List (List Token × Store) :=
  hier.retained.toList.map fun r => ([topic], r)

/-- One branch in `_retain_search`: what is found at the node and below it.
`below` is the search among its children. -/
def retainBranch (tokens : List Token) (level : ℕ) (topic : Token) (hier : Hier C)
    (below : List Token → List (List Token × Store)) (leaf last : Bool) : List (List Token × Store) :=
  let down := fun ts => (below ts).map fun e => (topic :: e.1, e.2)
  if tokens = [hash] then here topic hier ++ down tokens
  else
    match tokens with
    | [] => []
    | token :: rest =>
      if topic ≠ plus ∧ (topic = token ∨ token = plus) then
        if rest = [] then here topic hier
        else
          -- the search below answers -1 if it was for `#` alone and met a node
          down rest ++
            if (rest = [hash] ∧ leaf = false) ∨ (last = true ∧ rest.head? = some hash ∧ 0 < level) then
              here topic hier
            else []
      else []

/-- `_retain_search`: the messages for `_retain_process` in their order, with the
paths of their nodes. -/
def retainSearch : Trie Token (Hier C) → List Token → ℕ → List (List Token × Store)
  | .nil, _, _ => []
  | .node topic hier children next, tokens, level =>
    retainBranch tokens level topic hier (fun ts => retainSearch children ts (level + 1)) children.isNil
      next.isNil ++ retainSearch next tokens level

/-- The search of `mqtt3_retain_queue`. -/
def mqtt3RetainQueue (sub : List Char) (db : Db C) : List (List Token × Store) :=
  match (subTopicTokenise sub).head? with
  | none => []
  | some token =>
    match db.subs.2.find token with
    | none => []
    | some subhier => retainSearch subhier.2 (subTopicTokenise sub) 0

/-- `_retain_process`: the QoS of the message for the client, if it may read the
topic. -/
def retainProcess (E : Contexts C) (context : C) (subQos : ℕ) (retained : Store) : Option (ℕ × Store) :=
  match E.acl context retained.topic with
  | .success => some (if retained.qos > subQos then subQos else retained.qos, retained)
  | _ => none

/-! ### What the search finds -/

theorem mem_here {topic : Token} {hier : Hier C} {p : List Token} {r : Store} :
    (p, r) ∈ here topic hier ↔ p = [topic] ∧ hier.retained = some r := by
  simp only [here, List.mem_map, Option.mem_toList, Prod.mk.injEq]
  constructor
  · rintro ⟨r', h, rfl, rfl⟩
    exact ⟨rfl, h⟩
  · rintro ⟨rfl, h⟩
    exact ⟨r, h, rfl, rfl⟩

/-- What is found at a branch has a path that starts there. -/
theorem retainBranch_path {tokens : List Token} {level : ℕ} {topic : Token} {hier : Hier C}
    {below : List Token → List (List Token × Store)} {leaf last : Bool} {e : List Token × Store}
    (h : e ∈ retainBranch tokens level topic hier below leaf last) : ∃ p, e.1 = topic :: p := by
  have hhere : e ∈ here topic hier → ∃ p, e.1 = topic :: p := fun h => ⟨[], (mem_here.mp h).1⟩
  have hdown : ∀ ts, (e ∈ (below ts).map fun e => (topic :: e.1, e.2)) → ∃ p, e.1 = topic :: p := by
    intro ts h
    obtain ⟨e', -, rfl⟩ := List.mem_map.mp h
    exact ⟨e'.1, rfl⟩
  unfold retainBranch at h
  split at h
  · rcases List.mem_append.mp h with h | h
    · exact hhere h
    · exact hdown _ h
  · split at h
    · simp at h
    · split at h
      · split at h
        · exact hhere h
        · rcases List.mem_append.mp h with h | h
          · exact hdown _ h
          · split at h
            · exact hhere h
            · simp at h
      · simp at h

/-- What is found in a list of siblings is found at the one where its path starts. -/
theorem mem_retainSearch_cons {t : Trie Token (Hier C)} (ht : t.Distinct) {tokens : List Token} {level : ℕ}
    {a : Token} {p : List Token} {r : Store} :
    (a :: p, r) ∈ retainSearch t tokens level ↔
      ∃ m, t.find a = some m ∧ (a :: p, r) ∈ retainBranch tokens level a m.1
        (fun ts => retainSearch m.2 ts (level + 1)) m.2.isNil (t.lastIs a) := by
  induction t with
  | nil => simp [retainSearch, Trie.find]
  | node k v c n _ ih =>
    have hn := ih ht.2.2
    simp only [retainSearch, List.mem_append, Trie.find]
    by_cases hk : k = a
    · subst hk
      have hnone : (k :: p, r) ∉ retainSearch n tokens level := fun h => by
        obtain ⟨m, hf, -⟩ := hn.mp h
        rw [Trie.find_eq_none_iff.mpr ht.1] at hf
        cases hf
      simp [hnone, Trie.lastIs_self ht.1]
    · have hfirst : (a :: p, r) ∉ retainBranch tokens level k v (fun ts => retainSearch c ts (level + 1)) c.isNil
          n.isNil := fun h => by
        obtain ⟨p', hp⟩ := retainBranch_path h
        exact hk (List.cons.inj hp).1.symm
      simp only [hfirst, false_or, hk, if_false, hn]
      refine exists_congr fun m => and_congr_right fun hf => ?_
      have hmem : a ∈ n.keys := by
        by_contra h
        rw [Trie.find_eq_none_iff.mpr h] at hf
        cases hf
      rw [Trie.lastIs_of_mem hmem]

theorem retainSearch_ne_nil {t : Trie Token (Hier C)} {tokens : List Token} {level : ℕ} {r : Store} :
    ([], r) ∉ retainSearch t tokens level := by
  induction t with
  | nil => simp [retainSearch]
  | node k v c n _ ih =>
    simp only [retainSearch, List.mem_append, not_or]
    refine ⟨fun h => ?_, ih⟩
    obtain ⟨p, hp⟩ := retainBranch_path h
    cases hp

/-- A message that is retained at a path. -/
def RetainedAt (p : List Token) (s : SubHier C) (r : Store) : Prop := (Trie.val {} p s).retained = some r

theorem retainedAt_cons {a : Token} {p : List Token} {s m : SubHier C} (hf : s.2.find a = some m) {r : Store} :
    RetainedAt (a :: p) s r ↔ RetainedAt p m r := by
  rw [RetainedAt, Trie.val, hf, RetainedAt]

theorem exists_find_of_retainedAt {a : Token} {p : List Token} {s : SubHier C} {r : Store}
    (h : RetainedAt (a :: p) s r) : ∃ m, s.2.find a = some m := by
  cases hf : s.2.find a with
  | none => simp [RetainedAt, Trie.val, hf] at h
  | some m => exact ⟨m, rfl⟩

/-- `#` takes every message below. -/
theorem mem_retainSearch_hash {s : SubHier C} (hs : s.2.Distinct) {level : ℕ} {p : List Token} {r : Store} :
    (p, r) ∈ retainSearch s.2 [hash] level ↔ p ≠ [] ∧ RetainedAt p s r := by
  induction p generalizing s level with
  | nil => simpa using retainSearch_ne_nil
  | cons a p ih =>
    rw [mem_retainSearch_cons hs]
    constructor
    · rintro ⟨m, hf, h⟩
      refine ⟨by simp, (retainedAt_cons hf).mpr ?_⟩
      simp only [retainBranch, if_true, List.mem_append, mem_here, List.mem_map, Prod.mk.injEq] at h
      rcases h with ⟨hp, hr⟩ | ⟨⟨p', r'⟩, hmem, hp, rfl⟩
      · obtain rfl : p = [] := by simpa using hp
        exact hr
      · obtain rfl : p' = p := by simpa using hp
        exact ((ih (hs.of_find hf)).mp hmem).2
    · rintro ⟨-, hr⟩
      obtain ⟨m, hf⟩ := exists_find_of_retainedAt hr
      rw [retainedAt_cons hf] at hr
      refine ⟨m, hf, ?_⟩
      simp only [retainBranch, if_true, List.mem_append, mem_here, List.mem_map, Prod.mk.injEq]
      cases p with
      | nil => exact Or.inl ⟨rfl, hr⟩
      | cons b p => exact Or.inr ⟨(b :: p, r), (ih (hs.of_find hf)).mpr ⟨by simp, hr⟩, rfl, rfl⟩

/-- Where `foo/#` finds the message retained on `foo`: at a node with a child, or
at the last of its siblings, not on the first level. -/
def ParentFound (level : ℕ) (s : SubHier C) (p : List Token) : Prop :=
  (∃ x, Trie.Has (p ++ [x]) s) ∨ (Trie.Last p s ∧ (0 < level ∨ 2 ≤ p.length))

theorem parentFound_cons {level : ℕ} {s m : SubHier C} {a b : Token} {p : List Token} (hf : s.2.find a = some m) :
    ParentFound level s (a :: b :: p) ↔ ParentFound (level + 1) m (b :: p) := by
  simp [ParentFound, Trie.Has, Trie.Last, hf]

theorem parentFound_single {level : ℕ} {s m : SubHier C} {a : Token} (hf : s.2.find a = some m) :
    ParentFound level s [a] ↔ m.2.isNil = false ∨ (s.2.lastIs a = true ∧ 0 < level) := by
  have hchild : (∃ x, Trie.Has ([a] ++ [x]) s) ↔ m.2.isNil = false := by
    cases hm : m.2 with
    | nil => simp [Trie.Has, hf, hm, Trie.find, Trie.isNil]
    | node k v c n =>
      simp only [Trie.isNil, iff_true]
      exact ⟨k, m, hf, (v, c), by simp [hm, Trie.find], trivial⟩
  rw [ParentFound, hchild]
  simp [Trie.Last]

theorem matchesSome_cons {token a : Token} (ht : token ≠ hash) {fs p : List Token} :
    MatchesSome plus hash (token :: fs) (a :: p) ↔ (token = plus ∨ token = a) ∧ MatchesSome plus hash fs p := by
  simp [MatchesSome, ht]

theorem exists_matchesSome_cons {token a : Token} (ht : token ≠ hash) {rest p : List Token} {P : Prop} :
    (∃ g, token :: rest = g ++ [hash] ∧ MatchesSome plus hash g (a :: p) ∧ P) ↔
      (token = plus ∨ token = a) ∧ ∃ g, rest = g ++ [hash] ∧ MatchesSome plus hash g p ∧ P := by
  constructor
  · rintro ⟨g, heq, hg, hP⟩
    cases g with
    | nil => exact absurd (List.cons.inj heq).1 ht
    | cons x g =>
      obtain ⟨rfl, rfl⟩ := List.cons.inj heq
      obtain ⟨hx, hg⟩ := (matchesSome_cons ht).mp hg
      exact ⟨hx, g, rfl, hg, hP⟩
  · rintro ⟨hx, g, rfl, hg, hP⟩
    exact ⟨token :: g, rfl, (matchesSome_cons ht).mpr ⟨hx, hg⟩, hP⟩

/-- What is found at a branch that matches: what is below, and at the node itself
its own message if the tokens end there, or end with `#` after it. -/
theorem mem_retainBranch {token a : Token} {rest p : List Token} {level : ℕ} {hier : Hier C} {r : Store}
    {below : List Token → List (List Token × Store)} {leaf last : Bool} (ha : a ≠ plus)
    (hm : token = plus ∨ token = a) (ht : token ≠ hash) (hrest : ManyLast hash rest)
    (hbelow : ([], r) ∉ below rest) :
    (a :: p, r) ∈ retainBranch (token :: rest) level a hier below leaf last ↔
      if p = [] then hier.retained = some r ∧
        (rest = [] ∨ rest = [hash] ∧ (leaf = false ∨ last = true ∧ 0 < level))
      else rest ≠ [] ∧ (p, r) ∈ below rest := by
  have htok : token :: rest ≠ [hash] := fun h => ht (List.cons.inj h).1
  have hm' : a ≠ plus ∧ (a = token ∨ token = plus) := ⟨ha, by tauto⟩
  have hhead : rest.head? = some hash ↔ rest = [hash] := by
    cases rest with
    | nil => simp
    | cons x rest =>
      have := ((manyLast_cons hash).mp hrest).1
      simp only [List.head?_cons, Option.some.injEq, List.cons.injEq]
      exact ⟨fun h => ⟨h, this h⟩, And.left⟩
  have hcond : (rest = [hash] ∧ leaf = false ∨ last = true ∧ rest.head? = some hash ∧ 0 < level) ↔
      rest = [hash] ∧ (leaf = false ∨ last = true ∧ 0 < level) := by
    rw [hhead]
    tauto
  unfold retainBranch
  rw [if_neg htok]
  dsimp only
  rw [if_pos hm']
  by_cases hr : rest = []
  · subst hr
    by_cases hp : p = [] <;> simp [mem_here, hp]
  · simp only [hr, if_false, false_or, List.mem_append, List.mem_map, Prod.mk.injEq, List.cons.injEq, true_and]
    have hdown : (∃ e ∈ below rest, e.1 = p ∧ e.2 = r) ↔ (p, r) ∈ below rest := by
      constructor
      · rintro ⟨⟨p', r'⟩, h, rfl, rfl⟩
        exact h
      · exact fun h => ⟨(p, r), h, rfl, rfl⟩
    rw [hdown]
    by_cases hp : p = []
    · subst hp
      simp only [hbelow, false_or, if_true]
      by_cases hc : rest = [hash] ∧ leaf = false ∨ last = true ∧ rest.head? = some hash ∧ 0 < level
      · rw [if_pos hc, mem_here]
        simp [hcond.mp hc]
      · rw [if_neg hc]
        rw [hcond] at hc
        simp [hc]
    · simp only [hp, if_false, hr, not_false_eq_true, ne_eq, true_and]
      constructor
      · rintro (h | h)
        · exact h
        · split at h
          · simp [mem_here, hp] at h
          · simp at h
      · exact Or.inl

/-- **What the search finds.** The messages on the topics that the tokens match, a
last `#` standing for one level at least; and on its parent level those of
`ParentFound`. -/
theorem mem_retainSearch {tokens : List Token} (hl : ManyLast hash tokens) {level : ℕ} {s : SubHier C}
    (hs : s.2.Distinct) {p : List Token} (hp : plus ∉ p ∧ hash ∉ p) (hne : p ≠ []) {r : Store} :
    (p, r) ∈ retainSearch s.2 tokens level ↔ RetainedAt p s r ∧
      (MatchesSome plus hash tokens p ∨
        ∃ g, tokens = g ++ [hash] ∧ MatchesSome plus hash g p ∧ ParentFound level s p) := by
  induction tokens generalizing level s p with
  | nil =>
    obtain ⟨a, p, rfl⟩ := List.exists_cons_of_ne_nil hne
    rw [mem_retainSearch_cons hs]
    simp [retainBranch, MatchesSome]
  | cons token rest ih =>
    obtain ⟨a, p, rfl⟩ := List.exists_cons_of_ne_nil hne
    obtain ⟨hhash, hrest⟩ := (manyLast_cons hash).mp hl
    by_cases ht : token = hash
    · obtain rfl := hhash ht
      subst ht
      rw [mem_retainSearch_hash hs]
      simp [MatchesSome]
    · have hplus : a ≠ plus := fun h => hp.1 (by simp [h])
      have hp' : plus ∉ p ∧ hash ∉ p :=
        ⟨fun h => hp.1 (List.mem_cons_of_mem _ h), fun h => hp.2 (List.mem_cons_of_mem _ h)⟩
      rw [mem_retainSearch_cons hs]
      cases hf : s.2.find a with
      | none => simp [RetainedAt, Trie.val, hf]
      | some m =>
        rw [retainedAt_cons hf, matchesSome_cons ht, exists_matchesSome_cons ht, ← and_or_left]
        simp only [Option.some.injEq, exists_eq_left']
        by_cases hm : token = plus ∨ token = a
        · rw [mem_retainBranch hplus hm ht hrest retainSearch_ne_nil]
          simp only [hm, true_and]
          cases p with
          | nil =>
            have hnil : (∃ g, rest = g ++ [hash] ∧ MatchesSome plus hash g [] ∧ ParentFound level s [a]) ↔
                rest = [hash] ∧ ParentFound level s [a] := by
              constructor
              · rintro ⟨g, rfl, hg, hP⟩
                cases g with
                | nil => exact ⟨rfl, hP⟩
                | cons x g => exact absurd hg (by simp [MatchesSome])
              · rintro ⟨rfl, hP⟩
                exact ⟨[], rfl, rfl, hP⟩
            rw [hnil, parentFound_single hf]
            cases rest <;> simp [MatchesSome, RetainedAt, Trie.val]
          | cons b p =>
            have hI : (b :: p, r) ∈ retainSearch m.2 rest (level + 1) ↔ _ :=
              ih hrest (hs.of_find hf) hp' (by simp)
            rw [parentFound_cons hf, ← hI]
            cases rest with
            | nil =>
              have : (b :: p, r) ∉ retainSearch m.2 [] (level + 1) := by
                rw [hI]
                simp [MatchesSome]
              simp [this]
            | cons x rest => simp
        · have hnot : (a :: p, r) ∉ retainBranch (token :: rest) level a m.1
              (fun ts => retainSearch m.2 ts (level + 1)) m.2.isNil (s.2.lastIs a) := by
            have htok : token :: rest ≠ [hash] := fun h => ht (List.cons.inj h).1
            have hm' : ¬(a ≠ plus ∧ (a = token ∨ token = plus)) := by tauto
            unfold retainBranch
            rw [if_neg htok]
            dsimp only
            rw [if_neg hm']
            simp
          simp [hnot, hm]

theorem nodup_retainBranch {below : List Token → List (List Token × Store)}
    (hnd : ∀ ts, ((below ts).map Prod.fst).Nodup) (hne : ∀ ts r, ([], r) ∉ below ts) (tokens : List Token)
    (level : ℕ) (topic : Token) (hier : Hier C) (leaf last : Bool) :
    ((retainBranch tokens level topic hier below leaf last).map Prod.fst).Nodup := by
  have hhere : ((here topic hier).map Prod.fst).Nodup := by
    cases h : hier.retained <;> simp [here, h]
  have hdown : ∀ ts, (((below ts).map fun e => (topic :: e.1, e.2)).map Prod.fst).Nodup := by
    intro ts
    have h := (hnd ts).map (List.cons_injective (a := topic))
    simpa [List.map_map, Function.comp_def] using h
  -- the path of the node itself is not one of those below it
  have hdisj : ∀ ts, [topic] ∉ ((below ts).map fun e => (topic :: e.1, e.2)).map Prod.fst := by
    intro ts h
    simp only [List.map_map, List.mem_map, Function.comp_apply] at h
    obtain ⟨⟨q, r⟩, he, hq⟩ := h
    obtain rfl : q = [] := by simpa using hq
    exact hne ts r he
  have hfst : ∀ q ∈ (here topic hier).map Prod.fst, q = [topic] := by
    intro q hq
    obtain ⟨⟨q', r⟩, he, rfl⟩ := List.mem_map.mp hq
    exact (mem_here.mp he).1
  unfold retainBranch
  split
  · rw [List.map_append, List.nodup_append]
    refine ⟨hhere, hdown _, ?_⟩
    rintro q hq q' hq' rfl
    exact hdisj _ (hfst q hq ▸ hq')
  · split
    · simp
    · split
      · split
        · exact hhere
        · rw [List.map_append, List.nodup_append]
          refine ⟨hdown _, by split <;> simp [hhere], ?_⟩
          rintro q hq q' hq' rfl
          split at hq'
          · exact hdisj _ (hfst q hq' ▸ hq)
          · simp at hq'
      · simp

/-- Each message is found once. -/
theorem nodup_retainSearch {t : Trie Token (Hier C)} (ht : t.Distinct) (tokens : List Token) (level : ℕ) :
    ((retainSearch t tokens level).map Prod.fst).Nodup := by
  induction t generalizing tokens level with
  | nil => simp [retainSearch]
  | node k v c n ihc ihn =>
    rw [retainSearch, List.map_append, List.nodup_append]
    refine ⟨?_, ihn ht.2.2 tokens level, ?_⟩
    · exact nodup_retainBranch (fun ts => ihc ht.2.1 ts (level + 1)) (fun _ _ => retainSearch_ne_nil) tokens level k v
        c.isNil n.isNil
    · rintro q hq q' hq' rfl
      obtain ⟨e, he, rfl⟩ := List.mem_map.mp hq
      obtain ⟨⟨q, r⟩, he', heq⟩ := List.mem_map.mp hq'
      obtain ⟨p, hp⟩ := retainBranch_path he
      simp only [hp] at heq
      subst heq
      obtain ⟨m, hf, -⟩ := (mem_retainSearch_cons ht.2.2).mp he'
      rw [Trie.find_eq_none_iff.mpr ht.1] at hf
      cases hf

/-- What is found is retained there. -/
theorem retainedAt_of_mem {s : SubHier C} (hs : s.2.Distinct) {tokens : List Token} {level : ℕ} {p : List Token}
    {r : Store} (h : (p, r) ∈ retainSearch s.2 tokens level) : RetainedAt p s r := by
  induction p generalizing s tokens level with
  | nil => exact absurd h retainSearch_ne_nil
  | cons a p ih =>
    obtain ⟨m, hf, h⟩ := (mem_retainSearch_cons hs).mp h
    rw [retainedAt_cons hf]
    have hhere : (a :: p, r) ∈ here a m.1 → RetainedAt p m r := fun h => by
      obtain ⟨hp, hr⟩ := mem_here.mp h
      obtain rfl : p = [] := by simpa using hp
      exact hr
    have hdown : ∀ ts, ((a :: p, r) ∈ (retainSearch m.2 ts (level + 1)).map fun e => (a :: e.1, e.2)) →
        RetainedAt p m r := by
      intro ts h
      obtain ⟨⟨p', r'⟩, he, heq⟩ := List.mem_map.mp h
      obtain ⟨rfl, rfl⟩ : p' = p ∧ r' = r := by simpa using heq
      exact ih (hs.of_find hf) he
    unfold retainBranch at h
    split at h
    · exact (List.mem_append.mp h).elim hhere (hdown _)
    · split at h
      · simp at h
      · split at h
        · split at h
          · exact hhere h
          · rcases List.mem_append.mp h with h | h
            · exact hdown _ h
            · split at h
              · exact hhere h
              · simp at h
        · simp at h

/-! ### In every run -/

/-- Messages are retained on topics, not where the tree has wildcards. -/
def RetainedPlain (db : Db C) : Prop :=
  ∀ q r, RetainedAt q db.subs r → ∃ p, q = rootPath p ∧ plus ∉ p ∧ hash ∉ p

section Run

variable [DecidableEq C] (E : Contexts C)

omit [DecidableEq C] in
theorem RetainedPlain.of_updates {f : Hier C → Hier C} {p : List Token} {db db' : Db C} (h : RetainedPlain db)
    (hu : Updates f p db.subs db'.subs) (hf : ∀ h, (f h).retained = h.retained) : RetainedPlain db' := by
  intro q r hr
  rw [RetainedAt, hu.val] at hr
  split at hr
  · rename_i hq
    rw [hf] at hr
    exact h q r (hq ▸ hr)
  · exact h q r hr

theorem retainedPlain_step {db : Db C} (hI : Inv db) (h : RetainedPlain db) (op : Op C) :
    RetainedPlain (step E db op) := by
  cases op with
  | subscribe c sub qos =>
    rw [step]
    split
    · exact h
    · exact h.of_updates (subAdd_updates E hI.tree.distinct c sub qos) fun _ => rfl
  | unsubscribe c sub =>
    rw [step]
    split
    · exact h
    · exact h.of_updates (subRemove_updates' hI.tree.distinct c sub) fun _ => rfl
  | cleanSession c =>
    intro q r hr
    rw [step, RetainedAt, (cleanSession_val hI c).2] at hr
    exact h q r hr
  | publish m =>
    rw [step]
    split
    · exact h
    · rename_i hm
      have ht : pubTopicCheck m.topic = .success := by tauto
      intro q r hr
      obtain ⟨-, ⟨-, -, hu⟩ | ⟨-, heq⟩⟩ := messagesQueue_cases E hI.tree.distinct ht
      · rw [RetainedAt, hu.val] at hr
        split at hr
        · rename_i hq
          exact ⟨_, hq, notMem_subTopicTokenise ht⟩
        · exact h q r hr
      · rw [RetainedAt, heq] at hr
        exact h q r hr

theorem run_retainedPlain (ops : List (Op C)) : RetainedPlain (run E ops) := by
  induction ops using List.reverseRecOn with
  | nil =>
    intro q r hr
    simp [run, RetainedAt, val_open] at hr
  | append_singleton ops op ih =>
    rw [run, List.foldl_append]
    exact retainedPlain_step E (run_inv E ops) ih op

omit [DecidableEq C] in
theorem retainedAt_iff {db : Db C} {p : List Token} {r : Store} :
    retainedAt db p = some r ↔ RetainedAt (rootPath p) db.subs r := Iff.rfl

/-- Where a subscription that ends with `#` finds the message of its parent level. -/
def ParentFoundAt (db : Db C) (p : List Token) : Prop :=
  (∃ x, Trie.Has (rootPath p ++ [x]) db.subs) ∨ (Trie.Last (rootPath p) db.subs ∧ 2 ≤ p.length)

omit [DecidableEq C] in
theorem parentFoundAt_iff {db : Db C} {t : Token} {p : List Token} {s : SubHier C}
    (hf : db.subs.2.find t = some s) : ParentFoundAt db (t :: p) ↔ ParentFound 0 s (t :: p) := by
  simp [ParentFoundAt, ParentFound, rootPath_cons, Trie.Has, Trie.Last, hf]

omit [DecidableEq C] in
/-- The first tokens of a subscription and of a topic that it matches are the same. -/
theorem head_of_matchesSome {t : Token} (h1 : t ≠ plus) (h2 : t ≠ hash) {ts p : List Token}
    (h : MatchesSome plus hash (t :: ts) p) : ∃ p', p = t :: p' := by
  cases p with
  | nil => exact absurd h (by simp [MatchesSome])
  | cons a p =>
    simp only [MatchesSome, h1, h2, false_and, false_or] at h
    exact ⟨p, by rw [h.1]⟩

omit [DecidableEq C] in
theorem mem_retainQueue {db : Db C} (hI : Inv db) (hr : RetainedPlain db) {sub : List Char}
    (hs : subTopicCheck sub = .success) {p : List Token} {r : Store} :
    (p, r) ∈ mqtt3RetainQueue sub db ↔ retainedAt db p = some r ∧
      (MatchesSome plus hash (subTopicTokenise sub) p ∨ ∃ g, subTopicTokenise sub = g ++ [hash] ∧
        MatchesSome plus hash g p ∧ ParentFoundAt db p) := by
  obtain ⟨t, ts, hts, h1, h2⟩ := exists_tokens sub
  have hl := manyLast_subTopicTokenise hs
  rw [retainedAt_iff, mqtt3RetainQueue]
  rw [hts] at hl ⊢
  simp only [List.head?_cons]
  -- a message retained below this child of the root
  have hplain : ∀ s, db.subs.2.find t = some s → ∀ p, RetainedAt p s r → p ≠ [] ∧ rootPath p = t :: p ∧
      plus ∉ p ∧ hash ∉ p := by
    intro s hf p hp
    obtain ⟨p', heq, hp'⟩ := hr (t :: p) r ((retainedAt_cons hf).mpr hp)
    cases p' with
    | nil => simp [rootPath] at heq
    | cons a p' =>
      rw [rootPath_cons] at heq
      obtain ⟨rfl, rfl⟩ := List.cons.inj heq
      exact ⟨by simp, rfl, hp'⟩
  constructor
  · intro h
    cases hf : db.subs.2.find t with
    | none => simp [hf] at h
    | some s =>
      simp only [hf] at h
      have hd := hI.tree.distinct.of_find hf
      obtain ⟨hne, hroot, hp⟩ := hplain s hf p (retainedAt_of_mem hd h)
      obtain ⟨hret, hm⟩ := (mem_retainSearch hl hd hp hne).mp h
      obtain ⟨a, p, rfl⟩ := List.exists_cons_of_ne_nil hne
      obtain rfl : a = t := (List.cons.inj hroot).1
      refine ⟨(retainedAt_cons hf).mpr hret, hm.imp id ?_⟩
      rintro ⟨g, hg, hmg, hP⟩
      exact ⟨g, hg, hmg, (parentFoundAt_iff hf).mpr hP⟩
  · rintro ⟨hret, hm⟩
    have hhead : ∃ p', p = t :: p' := by
      rcases hm with hm | ⟨g, hg, hm, -⟩
      · exact head_of_matchesSome h1 h2 hm
      · cases g with
        | nil => exact absurd (List.cons.inj hg).1 h2
        | cons x g =>
          obtain ⟨rfl, -⟩ := List.cons.inj hg
          exact head_of_matchesSome h1 h2 hm
    obtain ⟨p, rfl⟩ := hhead
    rw [rootPath_cons] at hret
    obtain ⟨s, hf⟩ := exists_find_of_retainedAt hret
    rw [retainedAt_cons hf] at hret
    obtain ⟨hne, -, hp⟩ := hplain s hf _ hret
    simp only [hf]
    refine (mem_retainSearch hl (hI.tree.distinct.of_find hf) hp hne).mpr ⟨hret, hm.imp id ?_⟩
    rintro ⟨g, hg, hmg, hP⟩
    exact ⟨g, hg, hmg, (parentFoundAt_iff hf).mp hP⟩

omit [DecidableEq C] in
theorem nodup_retainQueue {db : Db C} (hI : Inv db) (sub : List Char) :
    ((mqtt3RetainQueue sub db).map Prod.fst).Nodup := by
  unfold mqtt3RetainQueue
  split
  · simp
  · split
    · simp
    · rename_i hf
      exact nodup_retainSearch (hI.tree.distinct.of_find hf) _ _

theorem retainedAt_step_subscribe {db : Db C} (hI : Inv db) (context : C) (sub : List Char) (qos : ℕ)
    (p : List Token) : retainedAt (step E db (.subscribe context sub qos)) p = retainedAt db p := by
  rw [step]
  split
  · rfl
  · exact retainedAt_of_updates (subAdd_updates E hI.tree.distinct context sub qos) (fun h => rfl) _

/-- **Retained messages for a subscription.** In every reachable state the search for a
valid subscription finds each of the messages retained on the topics that it
matches, once; but the message on the parent level of a last `#` only where that
level has a node below it, or is the last of its siblings. -/
theorem retainQueue_found (ops : List (Op C)) {sub : List Char} (hs : subTopicCheck sub = .success) :
    ((mqtt3RetainQueue sub (run E ops)).map Prod.fst).Nodup ∧
      ∀ p r, (p, r) ∈ mqtt3RetainQueue sub (run E ops) ↔ retainedAt (run E ops) p = some r ∧
        (MatchesSome plus hash (subTopicTokenise sub) p ∨ ∃ g, subTopicTokenise sub = g ++ [hash] ∧
          MatchesSome plus hash g p ∧ ParentFoundAt (run E ops) p) :=
  ⟨nodup_retainQueue (run_inv E ops) sub,
    fun _ _ => mem_retainQueue (run_inv E ops) (run_retainedPlain E ops) hs⟩

theorem retainQueue_found_hello :
    ((mqtt3RetainQueue ['b', 'b', '/', '#'] (run defaultContexts [.publish retainedHello])).map
        Prod.fst).Nodup ∧
      ∀ p r, (p, r) ∈ mqtt3RetainQueue ['b', 'b', '/', '#'] (run defaultContexts [.publish retainedHello]) ↔
        retainedAt (run defaultContexts [.publish retainedHello]) p = some r ∧
        (MatchesSome plus hash (subTopicTokenise ['b', 'b', '/', '#']) p ∨
          ∃ g, subTopicTokenise ['b', 'b', '/', '#'] = g ++ [hash] ∧ MatchesSome plus hash g p ∧
            ParentFoundAt (run defaultContexts [.publish retainedHello]) p) :=
  retainQueue_found defaultContexts [.publish retainedHello] (by decide)

/-- The message on `bb` is lost for `+/#` when `cc` comes after it. -/
example :
    mqtt3RetainQueue ['+', '/', '#'] (run defaultContexts
      [.publish retainedHello, .subscribe ['c'] ['c', 'c'] 0, .subscribe ['d'] ['+', '/', '#'] 0]) = [] := by
  decide

/-- The node of a subscription is there after the request. -/
theorem has_step_subscribe {db : Db C} (hI : Inv db) (context : C) {sub : List Char} {qos : ℕ} (hne : sub ≠ [])
    (hs : subTopicCheck sub = .success) (hq : qos ≤ 2) :
    Trie.Has (rootPath (subTopicTokenise sub)) (step E db (.subscribe context sub qos)).subs := by
  have htab : table (step E db (.subscribe context sub qos)) (subTopicTokenise sub) context = some qos := by
    have hn : ¬ (sub = [] ∨ subTopicCheck sub ≠ .success ∨ qos > 2) := by
      rintro (h | h | h)
      · exact hne h
      · exact h hs
      · omega
    rw [table_step E hI, Table.step, if_neg hn]
    simp
  refine Trie.has_of_val_ne {} fun hval => ?_
  simp [table, hval, leafQos] at htab

/-- **A subscription without `+` misses nothing.** When a client has subscribed to a
filter without `+`, the search finds exactly the messages retained on the topics
that the filter matches, once each. -/
theorem retainQueue_exact (ops : List (Op C)) (context : C) {sub : List Char} {qos : ℕ} (hne : sub ≠ [])
    (hs : subTopicCheck sub = .success) (hq : qos ≤ 2) (hplus : plus ∉ subTopicTokenise sub) :
    ((mqtt3RetainQueue sub (run E (ops ++ [.subscribe context sub qos]))).map Prod.fst).Nodup ∧
      ∀ p r, (p, r) ∈ mqtt3RetainQueue sub (run E (ops ++ [.subscribe context sub qos])) ↔
        retainedAt (run E ops) p = some r ∧ Matches plus hash (subTopicTokenise sub) p := by
  have hI := run_inv E ops
  have hI' := run_inv E (ops ++ [.subscribe context sub qos])
  have hplain := run_retainedPlain E (ops ++ [.subscribe context sub qos])
  have hstep : run E (ops ++ [.subscribe context sub qos]) = step E (run E ops) (.subscribe context sub qos) := by
    rw [run, List.foldl_append]
    rfl
  refine ⟨nodup_retainQueue hI' sub, fun p r => ?_⟩
  have hl := manyLast_subTopicTokenise hs
  rw [mem_retainQueue hI' hplain hs, matches_iff_matchesSome hl, hstep, retainedAt_step_subscribe E hI]
  refine and_congr_right fun _ => or_congr_right ⟨?_, ?_⟩
  · rintro ⟨g, hg, hm, -⟩
    exact ⟨g, hg, hm⟩
  · rintro ⟨g, hg, hm⟩
    -- without wildcards before its `#` the filter's parent level is the topic, and `#` is a node below it
    have hgplus : plus ∉ g := fun h => hplus (by simp [hg, h])
    have hghash : hash ∉ g := fun h => by
      obtain ⟨a, b, rfl⟩ := List.append_of_mem h
      simpa using hl a (b ++ [hash]) (by simp [hg])
    obtain rfl := (matchesSome_iff_eq hgplus hghash).mp hm
    refine ⟨g, hg, hm, Or.inl ⟨hash, ?_⟩⟩
    have hhas := has_step_subscribe E hI context hne hs hq
    obtain ⟨t, ts, hts, -, ht⟩ := exists_tokens sub
    cases g with
    | nil => exact absurd (List.cons.inj (hts.symm.trans hg)).1 ht
    | cons a g => simpa [hg, rootPath_cons] using hhas

theorem retainQueue_exact_hello :
    ((mqtt3RetainQueue ['b', 'b', '/', '#'] (run defaultContexts
        ([.publish retainedHello] ++ [.subscribe ['d'] ['b', 'b', '/', '#'] 1]))).map Prod.fst).Nodup ∧
      ∀ p r, (p, r) ∈ mqtt3RetainQueue ['b', 'b', '/', '#'] (run defaultContexts
          ([.publish retainedHello] ++ [.subscribe ['d'] ['b', 'b', '/', '#'] 1])) ↔
        retainedAt (run defaultContexts [.publish retainedHello]) p = some r ∧
          Matches plus hash (subTopicTokenise ['b', 'b', '/', '#']) p :=
  retainQueue_exact defaultContexts [.publish retainedHello] ['d'] (by simp) (by decide) (by decide) (by decide)

end Run

end Broker
end BlenderBottle
