/-
# The subscription tree as a table

To its clients the tree is a table: for a subscription, by its tokens, and a
client the QoS it asked for, if it is subscribed (`table`). Every run of the
tree is the same run of the table (`run_table`): subscriptions never disturb
each other, whatever nodes they share, and the end of a session ends all the
subscriptions of that client and no others. What a message published in any
such state is sent to is what the table says, each subscription that matches
once (`publish_requests`). The message that a topic retains is the last that
was published there to be retained, if it was not empty (`run_retained`).

Key definitions: `table`, `Table.step`, `retainedAt`, `retainedStep`.
Key theorems: `run_table`, `publish_requests`, `run_retained`.
-/
import BlenderBottle.Broker.SubsInv

namespace BlenderBottle
namespace Broker

open Wildcard

variable {C : Type} [DecidableEq C] (E : Contexts C)

/-! ### Subscriptions -/

/-- The QoS of each client's subscription, by its tokens. -/
abbrev Table (C : Type) := List Token → C → Option ℕ

/-- The table that a tree stands for. -/
def table (db : Db C) : Table C := fun f c => leafQos c (Trie.val {} (rootPath f) db.subs).subs

/-- What a request means for the table. -/
def Table.step (T : Table C) : Op C → Table C
  | .subscribe context sub qos =>
    if sub = [] ∨ subTopicCheck sub ≠ .success ∨ qos > 2 then T
    else fun f c => if f = subTopicTokenise sub ∧ c = context then some qos else T f c
  | .unsubscribe context sub =>
    if sub = [] ∨ subTopicCheck sub ≠ .success then T
    else fun f c => if f = subTopicTokenise sub ∧ c = context then none else T f c
  | .publish _ => T
  | .cleanSession context => fun f c => if c = context then none else T f c

theorem table_open : table (mqtt3DbOpen : Db C) = fun _ _ => none := by
  funext f c
  simp [table, val_open, leafQos]

theorem table_subAdd {db : Db C} (hI : Inv db) (context : C) (sub : List Char) (qos : ℕ) :
    table (mqtt3SubAdd E context sub qos db) =
      fun f c => if f = subTopicTokenise sub ∧ c = context then some qos else table db f c := by
  funext f c
  rw [table, (subAdd_updates E hI.tree.distinct context sub qos).val]
  by_cases hf : f = subTopicTokenise sub
  · simp only [hf, if_true, subscribeLeaf, leafQos_addLeaf, true_and, table]
  · simp [rootPath_injective.eq_iff, hf, table]

theorem table_subRemove {db : Db C} (hI : Inv db) (context : C) (sub : List Char) :
    table (mqtt3SubRemove context sub db) =
      fun f c => if f = subTopicTokenise sub ∧ c = context then none else table db f c := by
  funext f c
  rw [table, (subRemove_updates' hI.tree.distinct context sub).val]
  by_cases hf : f = subTopicTokenise sub
  · simp only [hf, if_true, leafQos_removeLeaf (hI.tree.leaves _), true_and, table]
  · simp [rootPath_injective.eq_iff, hf, table]

theorem table_messagesQueue {db : Db C} (hI : Inv db) {m : Publish} (ht : pubTopicCheck m.topic = .success) :
    table (mqtt3DbMessagesQueue E m db).1 = table db := by
  funext f c
  obtain ⟨-, ⟨-, -, hu⟩ | ⟨-, heq⟩⟩ := messagesQueue_cases E hI.tree.distinct ht
  · rw [table, hu.val]
    split
    · rename_i hp
      rw [table, hp]
      rfl
    · rfl
  · rw [table, heq]
    rfl

theorem table_step {db : Db C} (hI : Inv db) (op : Op C) : table (step E db op) = (table db).step op := by
  cases op with
  | subscribe c sub qos =>
    rw [step, Table.step]
    split
    · rfl
    · exact table_subAdd E hI c sub qos
  | unsubscribe c sub =>
    rw [step, Table.step]
    split
    · rfl
    · exact table_subRemove hI c sub
  | publish m =>
    rw [step, Table.step]
    split
    · rfl
    · exact table_messagesQueue E hI (by tauto)
  | cleanSession context =>
    funext f c
    rw [step, table, (cleanSession_val hI context).2, leafQos_removeLeaf (hI.tree.leaves _)]
    rfl

/-- **The tree is the table.** After any run the tree holds the subscriptions
that the requests amount to, taken one after the other on the table. -/
theorem run_table (ops : List (Op C)) : table (run E ops) = ops.foldl Table.step fun _ _ => none := by
  induction ops using List.reverseRecOn with
  | nil => exact table_open
  | append_singleton ops op ih =>
    rw [List.foldl_append, ← ih, run, List.foldl_append]
    exact table_step E (run_inv E ops) op

/-! ### What a message is sent to -/

/-- The call for a leaf, if the client may read the topic and is not the bridge
that the message came from. -/
def request (m : Publish) (source : List Char) (leaf : Leaf C) : Option (Request C) :=
  if E.isBridge leaf.context ∧ E.id leaf.context = source ∨ E.acl leaf.context m.topic = .denied then none
  else some
    { context := leaf.context
      qos := if E.upgradeOutgoingQos then leaf.qos else min m.qos leaf.qos
      retain := E.isBridge leaf.context && m.retain }

omit [DecidableEq C] in
theorem requests_eq {m : Publish} {source : List Char} (hs : m.source = some source)
    (hacl : ∀ c, E.acl c m.topic ≠ .error) (hier : Hier C) :
    requests E m hier = hier.subs.filterMap (request E m source) := by
  simp only [requests, subsProcess, hs]
  induction hier.subs with
  | nil => rfl
  | cons leaf subs ih =>
    rw [subsProcessLoop, List.filterMap_cons, request]
    by_cases hb : E.isBridge leaf.context ∧ E.id leaf.context = source
    · simp [hb, ih]
    · have hmin : (if m.qos > leaf.qos then leaf.qos else m.qos) = min m.qos leaf.qos := by
        split <;> omega
      rw [if_neg hb]
      cases ha : E.acl leaf.context m.topic with
      | denied => simp [ih]
      | error => exact absurd ha (hacl _)
      | success => simp [hb, ih, hmin, Bool.and_comm]

/-- The leaves of the nodes that match, with the tokens of their subscriptions. -/
def matching (tokens : List Token) (s : SubHier C) : List (List Token × Leaf C) :=
  (s.2.entries.filter fun e => Matches plus hash e.1 tokens).flatMap fun e =>
    e.2.subs.map fun leaf => (e.1, leaf)

omit [DecidableEq C] in
theorem mem_matching {tokens : List Token} {s : SubHier C} (hd : s.2.Distinct) {f : List Token}
    {leaf : Leaf C} : (f, leaf) ∈ matching tokens s ↔
      f ≠ [] ∧ Matches plus hash f tokens ∧ leaf ∈ (Trie.val {} f s).subs := by
  simp only [matching, List.mem_flatMap, List.mem_filter, decide_eq_true_eq, List.mem_map, Prod.mk.injEq]
  constructor
  · rintro ⟨⟨p, h⟩, ⟨hmem, hmatch⟩, leaf', hleaf, rfl, rfl⟩
    obtain ⟨hne, -, hv⟩ := (Trie.mem_entries (d := {}) hd).mp hmem
    exact ⟨hne, hmatch, by rwa [hv]⟩
  · rintro ⟨hne, hmatch, hleaf⟩
    have hhas : Trie.Has f s := Trie.has_of_val_ne {} fun hv => by
      rw [hv] at hleaf
      simp at hleaf
    exact ⟨(f, Trie.val {} f s), ⟨(Trie.mem_entries hd).mpr ⟨hne, hhas, rfl⟩, hmatch⟩, leaf, hleaf, rfl, rfl⟩

omit [DecidableEq C] in
theorem nodup_matching {tokens : List Token} {s : SubHier C} (hd : s.2.Distinct)
    (hl : ∀ f, ((Trie.val {} f s).subs.map Leaf.context).Nodup) : (matching tokens s).Nodup := by
  have hent : s.2.entries.Pairwise fun a b => a.1 ≠ b.1 := List.pairwise_map.mp (Trie.nodup_entries hd)
  refine List.nodup_flatMap.mpr ⟨fun e he => ?_, ?_⟩
  · obtain ⟨-, -, hv⟩ := (Trie.mem_entries (d := {}) hd).mp (List.mem_of_mem_filter he)
    have := hl e.1
    rw [hv] at this
    exact (List.Nodup.of_map _ this).map fun a b h => by simpa using h
  · refine (hent.filter _).imp fun {a b} hab => ?_
    rintro ⟨f, leaf⟩ ha hb
    obtain ⟨_, -, h1⟩ := List.mem_map.mp ha
    obtain ⟨_, -, h2⟩ := List.mem_map.mp hb
    exact hab ((Prod.mk.inj h1).1.trans (Prod.mk.inj h2).1.symm)

/-- The calls for a message are those of the subscriptions that match it. -/
theorem exists_requests {db : Db C} (hI : Inv db) {m : Publish} {source : List Char} (hs : m.source = some source)
    (hacl : ∀ c, E.acl c m.topic ≠ .error) (ht : pubTopicCheck m.topic = .success) :
    ∃ found : List (List Token × Leaf C), found.Nodup ∧
      (∀ f leaf, (f, leaf) ∈ found ↔
        Matches plus hash f (subTopicTokenise m.topic) ∧ table db f leaf.context = some leaf.qos) ∧
      (mqtt3DbMessagesQueue E m db).2 = found.filterMap fun e => request E m source e.2 := by
  obtain ⟨t, ts, hts, -⟩ := exists_tokens m.topic
  obtain ⟨-, hhash⟩ := notMem_subTopicTokenise ht
  rw [hts] at hhash
  -- a subscription that matches starts with the same token, and is in the table at its path
  have hhead : ∀ f leaf, Matches plus hash f (t :: ts) → table db f leaf.context = some leaf.qos →
      ∃ fs, f = t :: fs ∧ leaf ∈ (Trie.val {} (t :: f) db.subs).subs := by
    intro f leaf hmatch htab
    have hleaf := (mem_iff_leafQos (hI.tree.leaves (rootPath f))).mpr htab
    cases f with
    | nil => simp [Matches] at hmatch
    | cons u fs =>
      have hu := hI.tree.grown _ (TreeInv.has_of_mem (List.mem_map_of_mem hleaf)) u (u :: fs) rfl
      simp only [Matches, hu.1.1, hu.1.2, false_and, false_or] at hmatch
      obtain rfl := hmatch.1
      exact ⟨fs, rfl, hleaf⟩
  simp only [mqtt3DbMessagesQueue, hts, List.head?_cons, messagesQueueLoop_eq E hI.tree.distinct]
  cases hfind : db.subs.2.find t with
  | none =>
    refine ⟨[], List.nodup_nil, fun f leaf => ?_, rfl⟩
    simp only [List.not_mem_nil, false_iff, not_and]
    intro hmatch htab
    obtain ⟨fs, rfl, hleaf⟩ := hhead f leaf hmatch htab
    simp [Trie.val, hfind] at hleaf
  | some s =>
    have hd := hI.tree.distinct.of_find hfind
    have hval : ∀ f, Trie.val {} f (searched E m (t :: ts) s) = Trie.val {} (t :: f) db.subs := fun f => by
      rw [val_searched E hd]
      simp [Trie.val, hfind]
    have hclosed : Closed hash (searched E m (t :: ts) s).2 := by
      refine closed_of_has (d := (searched E m (t :: ts) s).1) (distinct_searched E hd) fun p hp => ?_
      rcases has_searched E hd hp with hp | hp
      · exact (hI.tree.grown (t :: p) ⟨s, hfind, hp⟩ t p rfl).2.1
      · exact (manyLast_of_notMem hhash).of_isPrefix hash hp
    refine ⟨matching (t :: ts) (searched E m (t :: ts) s), ?_, fun f leaf => ?_, ?_⟩
    · exact nodup_matching (distinct_searched E hd) fun f => by rw [hval]; exact hI.tree.leaves _
    · rw [mem_matching (distinct_searched E hd), hval]
      constructor
      · rintro ⟨hne, hmatch, hleaf⟩
        obtain ⟨u, fs, rfl⟩ := List.exists_cons_of_ne_nil hne
        obtain rfl := (hI.tree.grown _ (TreeInv.has_of_mem (List.mem_map_of_mem hleaf)) t (u :: fs) rfl).2.2
          u fs rfl
        exact ⟨hmatch, (mem_iff_leafQos (hI.tree.leaves _)).mp hleaf⟩
      · rintro ⟨hmatch, htab⟩
        obtain ⟨fs, rfl, hleaf⟩ := hhead f leaf hmatch htab
        exact ⟨by simp, hmatch, hleaf⟩
    · change (subSearch E m (t :: ts) true (searched E m (t :: ts) s).2).2 = _
      rw [subSearch_requests E hclosed hhash, matching, List.filterMap_flatMap]
      congr 1
      funext e
      rw [requests_eq E hs hacl, List.filterMap_map]
      rfl

/-- **What a message is sent to.** In every reachable state a message to a
valid topic calls for each subscription of the table that matches, once, with
the lower of the two QoS (unless outgoing QoS is upgraded); clients that may
not read the topic are left out, and a bridge does not get its own message back. -/
theorem publish_requests (ops : List (Op C)) {m : Publish} {source : List Char} (hs : m.source = some source)
    (hacl : ∀ c, E.acl c m.topic ≠ .error) (ht : pubTopicCheck m.topic = .success) :
    ∃ found : List (List Token × Leaf C), found.Nodup ∧
      (∀ f leaf, (f, leaf) ∈ found ↔
        Matches plus hash f (subTopicTokenise m.topic) ∧
          table (run E ops) f leaf.context = some leaf.qos) ∧
      (mqtt3DbMessagesQueue E m (run E ops)).2 = found.filterMap fun e => request E m source e.2 :=
  exists_requests E (run_inv E ops) hs hacl ht

/-- A message to be retained on `bb`. -/
def retainedHello : Publish :=
  { source := some ['c']
    topic := ['b', 'b']
    qos := 0
    retain := true
    stored := ⟨1, ['c'], 0, ['b', 'b'], 0, true, [104, 105]⟩ }

theorem publish_requests_hello :
    ∃ found : List (List Token × Leaf (List Char)), found.Nodup ∧
      (∀ f leaf, (f, leaf) ∈ found ↔
        Matches plus hash f (subTopicTokenise ['b', 'b']) ∧
          table (run defaultContexts [.subscribe ['d'] ['#'] 1]) f leaf.context = some leaf.qos) ∧
      (mqtt3DbMessagesQueue defaultContexts retainedHello (run defaultContexts [.subscribe ['d'] ['#'] 1])).2 =
        found.filterMap fun e => request defaultContexts retainedHello ['c'] e.2 :=
  publish_requests defaultContexts _ (m := retainedHello) rfl (fun _ => by simp [defaultContexts]) (by decide)

/-! ### Retained messages -/

/-- The message that a topic retains, by its tokens. -/
def retainedAt (db : Db C) (tokens : List Token) : Option Store := (Trie.val {} (rootPath tokens) db.subs).retained

/-- What a request means for the message that a topic retains: one to be
retained there takes its place, and an empty one takes it away. -/
def retainedStep (tokens : List Token) (r : Option Store) : Op C → Option Store
  | .publish m =>
    if m.topic = [] ∨ pubTopicCheck m.topic ≠ .success then r
    else if m.retain ∧ subTopicTokenise m.topic = tokens then
      if m.stored.payload.length ≠ 0 then some m.stored else none
    else r
  | _ => r

omit [DecidableEq C] in
theorem retainedAt_of_updates {f : Hier C → Hier C} {p : List Token} {db db' : Db C}
    (hu : Updates f p db.subs db'.subs) (hf : ∀ h, (f h).retained = h.retained) (tokens : List Token) :
    retainedAt db' tokens = retainedAt db tokens := by
  rw [retainedAt, hu.val]
  split
  · rename_i hp
    rw [hf, retainedAt, hp]
  · rfl

theorem retainedAt_step {db : Db C} (hI : Inv db) {t : Token} (ts : List Token) (ht : permanent t = true)
    (op : Op C) : retainedAt (step E db op) (t :: ts) = retainedStep (t :: ts) (retainedAt db (t :: ts)) op := by
  cases op with
  | subscribe c sub qos =>
    rw [step]
    split
    · rfl
    · exact retainedAt_of_updates (subAdd_updates E hI.tree.distinct c sub qos) (fun h => rfl) _
  | unsubscribe c sub =>
    rw [step]
    split
    · rfl
    · exact retainedAt_of_updates (subRemove_updates' hI.tree.distinct c sub) (fun h => rfl) _
  | cleanSession c =>
    rw [step, retainedAt, (cleanSession_val hI c).2]
    rfl
  | publish m =>
    rw [step, retainedStep]
    split
    · rfl
    · rename_i hm
      obtain ⟨-, ⟨hr, -, hu⟩ | ⟨hr, heq⟩⟩ := messagesQueue_cases E (m := m) hI.tree.distinct (by tauto)
      · rw [retainedAt, hu.val]
        by_cases htok : subTopicTokenise m.topic = t :: ts
        · simp [htok, hr, setRetained]
        · have : ¬ t :: ts = subTopicTokenise m.topic := fun h => htok h.symm
          simp [rootPath_injective.eq_iff, htok, this, retainedAt]
      · rw [retainedAt, heq]
        rcases hr with hr | ⟨t', ts', htok, hnone⟩
        · simp [hr, retainedAt]
        · -- the root always has a child for this topic
          have hne : ¬ subTopicTokenise m.topic = t :: ts := by
            intro h
            obtain ⟨rfl, -⟩ := List.cons.inj (htok.symm.trans h)
            have := hI.tree.kept t' ht
            simp [hnone] at this
          simp [hne, retainedAt]

/-- **Retained messages.** After any run a topic outside `$`, or in `$SYS`,
retains the last message that was published there to be retained, and none
after an empty one; nothing else that clients do changes it. -/
theorem run_retained (ops : List (Op C)) {t : Token} (ts : List Token) (ht : permanent t = true) :
    retainedAt (run E ops) (t :: ts) = ops.foldl (retainedStep (t :: ts)) none := by
  induction ops using List.reverseRecOn with
  | nil => simp [run, retainedAt, val_open]
  | append_singleton ops op ih =>
    rw [List.foldl_append, ← ih, run, List.foldl_append]
    exact retainedAt_step E (run_inv E ops) ts ht op

theorem run_retained_hello :
    retainedAt (run defaultContexts [.publish retainedHello]) [[], ['b', 'b']] = some retainedHello.stored :=
  run_retained defaultContexts [.publish retainedHello] [['b', 'b']] (by decide)

end Broker
end BlenderBottle
