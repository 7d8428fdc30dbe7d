/-
# The subscription tree of the broker

`src/subs.c` keeps the subscriptions of all clients in one tree: a node for
each token, at a node the clients subscribed there with their QoS, and the
message retained for that topic. The root has a child for topics outside `$`,
one for `$SYS` and one for each other topic in `$` that a client asked for; the
first token is repeated below it. `mqtt3SubAdd` makes the nodes it needs,
`mqtt3SubRemove` frees those it leaves empty, `mqtt3SubsCleanSession` finds a
client's nodes by the list the client keeps of them, and
`mqtt3DbMessagesQueue` walks the tree for a message that is published.

Here they are defined as the source has them, on the tries of the library, with
what the search finds (`subSearch_requests`) and what it changes
(`subSearch_tree`). What the others do to the tree, and what holds in every run,
is in `SubsInv`.

Key definitions: `mqtt3SubAdd`, `mqtt3SubRemove`, `mqtt3SubsCleanSession`,
`subSearch`, `mqtt3DbMessagesQueue`.
Key theorems: `subSearch_requests`, `subSearch_tree`.
-/
import BlenderBottle.Broker.Topic

namespace BlenderBottle
namespace Broker

open Wildcard

/-- `struct mosquitto_msg_store`: a message as the broker keeps it. -/
structure Store where
  dbId : ℕ
  sourceId : List Char
  sourceMid : ℕ
  topic : List Char
  qos : ℕ
  retain : Bool
  payload : List UInt8
  deriving DecidableEq

/-- `struct _mosquitto_subleaf`. -/
structure Leaf (C : Type) where
  context : C
  qos : ℕ
  deriving DecidableEq

/-- What a node of the tree holds: `struct _mosquitto_subhier`, its links apart. -/
structure Hier (C : Type) where
  subs : List (Leaf C) := []
  retained : Option Store := none
  deriving DecidableEq

/-- A node with its children. -/
abbrev SubHier (C : Type) := Hier C × Trie Token (Hier C)

/-- The answer of `mosquitto_acl_check`. -/
inductive Acl
  | success
  | denied
  | error
  deriving DecidableEq

/-- The clients. `contexts_by_id` holds one context for an id. -/
structure Contexts (C : Type) where
  id : C → List Char
  id_inj : Function.Injective id
  isBridge : C → Bool
  acl : C → List Char → Acl
  upgradeOutgoingQos : Bool

/-- The clients of a broker without configuration, by their ids: no bridges, no
access control. -/
def defaultContexts : Contexts (List Char) :=
  { id := id
    id_inj := Function.injective_id
    isBridge := fun _ => false
    acl := fun _ _ => .success
    upgradeOutgoingQos := false }

/-- A call of `mqtt3_db_message_insert` for a client. -/
structure Request (C : Type) where
  context : C
  qos : ℕ
  retain : Bool
  deriving DecidableEq

/-- A message that is published. There is no source when it comes from the
persistent database. -/
structure Publish where
  source : Option (List Char)
  topic : List Char
  qos : ℕ
  retain : Bool
  stored : Store

variable {C : Type} [DecidableEq C] (E : Contexts C)

/-! ### The functions of the source -/

/-- The leaves of `_sub_add`: a client that is there gets the new QoS, a new one
comes last. -/
def addLeaf (context : C) (qos : ℕ) : List (Leaf C) → List (Leaf C)
  | [] => [⟨context, qos⟩]
  | leaf :: subs =>
    if E.id leaf.context = E.id context then { leaf with qos := qos } :: subs
    else leaf :: addLeaf context qos subs

/-- `_sub_add`. It is called without a client to make the nodes of a topic. -/
def subAdd (context : Option C) (qos : ℕ) (tokens : List Token) (subhier : SubHier C) : SubHier C :=
  Trie.upsert {} (fun h =>
    match context with
    | none => h
    | some c => { h with subs := addLeaf E c qos h.subs }) tokens subhier

/-- A node without subscriptions and without a retained message. -/
def Hier.isEmpty (h : Hier C) : Bool := h.subs.isEmpty && h.retained.isNone

def removeLeaf (context : C) (h : Hier C) : Hier C :=
  { h with subs := h.subs.eraseP fun leaf => leaf.context = context }

/-- `_sub_remove`. -/
def subRemove (context : C) (tokens : List Token) (subhier : SubHier C) : SubHier C :=
  Trie.prune Hier.isEmpty (removeLeaf context) tokens subhier

/-- The loop of `_subs_process` over the leaves. -/
def subsProcessLoop (m : Publish) (source : List Char) : List (Leaf C) → List (Request C)
  | [] => []
  | leaf :: subs =>
    if E.isBridge leaf.context ∧ E.id leaf.context = source then subsProcessLoop m source subs
    else
      match E.acl leaf.context m.topic with
      | .denied => subsProcessLoop m source subs
      | .success =>
        { context := leaf.context
          qos := if E.upgradeOutgoingQos then leaf.qos else if m.qos > leaf.qos then leaf.qos else m.qos
          retain := if E.isBridge leaf.context then m.retain else false } :: subsProcessLoop m source subs
      | .error => []

/-- `_subs_process`. -/
def subsProcess (m : Publish) (setRetain : Bool) (hier : Hier C) : Hier C × List (Request C) :=
  (if m.retain ∧ setRetain then
      { hier with retained := if m.stored.payload.length ≠ 0 then some m.stored else none }
    else hier,
    match m.source with
    | none => []
    | some source => subsProcessLoop E m source hier.subs)

/-- `_sub_search`: the walk over the children of a node, with the tokens that
are left. -/
def subSearch (m : Publish) (tokens : List Token) (setRetain : Bool) :
    Trie Token (Hier C) → Trie Token (Hier C) × List (Request C)
  | .nil => (.nil, [])
  | .node topic hier children next =>
    match tokens with
    | token :: tokens' =>
      if topic = token ∨ topic = plus then
        let sr := if topic = plus then false else setRetain
        let below := subSearch m tokens' sr children
        let here := if tokens' = [] then subsProcess E m sr hier else (hier, [])
        let rest := subSearch m tokens setRetain next
        (.node topic here.1 below.1 rest.1, below.2 ++ here.2 ++ rest.2)
      else
        let here := if topic = hash ∧ children.isNil then subsProcess E m false hier else (hier, [])
        let rest := subSearch m tokens setRetain next
        (.node topic here.1 children rest.1, here.2 ++ rest.2)
    | [] =>
      let here := if topic = hash ∧ children.isNil then subsProcess E m false hier else (hier, [])
      let rest := subSearch m tokens setRetain next
      (.node topic here.1 children rest.1, here.2 ++ rest.2)

/-- The part of the database that `subs.c` works on: the root of the tree, and
for each client the nodes where it is subscribed, by their paths; a slot that
was given back is `none`. -/
structure Db (C : Type) where
  subs : SubHier C
  slots : C → List (Option (List Token))

/-- `mqtt3_db_open`: the children of the root that are always there. -/
def mqtt3DbOpen : Db C :=
  { subs := ({}, .node [] {} .nil (.node ['$', 'S', 'Y', 'S'] {} .nil .nil))
    slots := fun _ => [] }

/-- Note a node in the first free slot, or in a new one. -/
def addSlot (p : List Token) : List (Option (List Token)) → List (Option (List Token))
  | [] => [some p]
  | none :: slots => some p :: slots
  | some q :: slots => some q :: addSlot p slots

/-- Free the first slot of a node. -/
def clearSlot (p : List Token) : List (Option (List Token)) → List (Option (List Token))
  | [] => []
  | slot :: slots => if slot = some p then none :: slots else slot :: clearSlot p slots

/-- The child of the root for a first token, made at the front if it is not
there. -/
def rootAdd (token : Token) (g : SubHier C → SubHier C) (root : SubHier C) : SubHier C :=
  if (root.2.find token).isSome then (root.1, root.2.alter token (Option.map g))
  else (root.1, .node token (g ({}, .nil)).1 (g ({}, .nil)).2 root.2)

/-- The path from the root of the node for these tokens: the first one leads
to a child of the root, and is repeated below it. -/
def rootPath (tokens : List Token) : List Token := tokens.take 1 ++ tokens

/-- The client has a leaf at this node. -/
def subscribedAt (context : C) (path : List Token) (root : SubHier C) : Bool :=
  (Trie.val {} path root).subs.any fun leaf => E.id leaf.context = E.id context

/-- `mqtt3_sub_add`. -/
def mqtt3SubAdd (context : C) (sub : List Char) (qos : ℕ) (db : Db C) : Db C :=
  let tokens := subTopicTokenise sub
  match tokens.head? with
  | none => db
  | some token =>
    { subs := rootAdd token (subAdd E (some context) qos tokens) db.subs
      slots :=
        if subscribedAt E context (rootPath tokens) db.subs then db.slots
        else Function.update db.slots context (addSlot (rootPath tokens) (db.slots context)) }

/-- `mqtt3_sub_remove`. -/
def mqtt3SubRemove (context : C) (sub : List Char) (db : Db C) : Db C :=
  let tokens := subTopicTokenise sub
  match tokens.head? with
  | none => db
  | some token =>
    { subs := (db.subs.1, db.subs.2.alter token (Option.map (subRemove context tokens)))
      slots :=
        if (Trie.val {} (rootPath tokens) db.subs).subs.any fun leaf => leaf.context = context then
          Function.update db.slots context (clearSlot (rootPath tokens) (db.slots context))
        else db.slots }

/-- The loop of `mqtt3_db_messages_queue` over the children of the root. -/
def messagesQueueLoop (m : Publish) (token : Token) (tokens : List Token) :
    Trie Token (Hier C) → Trie Token (Hier C) × List (Request C)
  | .nil => (.nil, [])
  | .node topic hier children next =>
    let rest := messagesQueueLoop m token tokens next
    if topic = token then
      -- a message to be retained needs the nodes of its topic
      let subhier := if m.retain then subAdd E none 0 tokens (hier, children) else (hier, children)
      let found := subSearch E m tokens true subhier.2
      (.node topic subhier.1 found.1 rest.1, found.2 ++ rest.2)
    else (.node topic hier children rest.1, rest.2)

/-- `mqtt3_db_messages_queue`, with the calls of `mqtt3_db_message_insert` in
their order. -/
def mqtt3DbMessagesQueue (m : Publish) (db : Db C) : Db C × List (Request C) :=
  let tokens := subTopicTokenise m.topic
  match tokens.head? with
  | none => (db, [])
  | some token =>
    let queued := messagesQueueLoop E m token tokens db.subs.2
    ({ db with subs := (db.subs.1, queued.1) }, queued.2)

/-- The children of the root that `mqtt3_db_open` made have no parent link and
are not freed. -/
def permanent (token : Token) : Bool := token = [] ∨ token = ['$', 'S', 'Y', 'S']

/-- What `mqtt3_subs_clean_session` does at one node of the client: its leaf
goes, and `tmp_remove_subs` frees what this leaves empty, up the links to the
parents. -/
def cleanNode (context : C) : List Token → SubHier C → SubHier C
  | [], root => root
  | token :: tokens, root =>
    if permanent token then (root.1, root.2.alter token (Option.map (subRemove context tokens)))
    else subRemove context (token :: tokens) root

def cleanSlot (context : C) (root : SubHier C) : Option (List Token) → SubHier C
  | none => root
  | some path => cleanNode context path root

/-- `mqtt3_subs_clean_session`. -/
def mqtt3SubsCleanSession (context : C) (db : Db C) : Db C :=
  { subs := (db.slots context).foldl (cleanSlot context) db.subs
    slots := Function.update db.slots context [] }

/-! ### What the search finds and changes -/

/-- The calls that `_subs_process` makes for a node. -/
def requests (m : Publish) (hier : Hier C) : List (Request C) := (subsProcess E m false hier).2

omit [DecidableEq C] in
theorem acl_of_subsProcessLoop {m : Publish} {source : List Char} {subs : List (Leaf C)} {r : Request C}
    (h : r ∈ subsProcessLoop E m source subs) : E.acl r.context m.topic = .success := by
  induction subs with
  | nil => cases h
  | cons leaf subs ih =>
    unfold subsProcessLoop at h
    split at h
    · exact ih h
    · split at h
      · exact ih h
      · rename_i hacl
        rcases List.mem_cons.mp h with rfl | h
        · exact hacl
        · exact ih h
      · cases h

omit [DecidableEq C] in
theorem acl_of_requests {m : Publish} {hier : Hier C} {r : Request C} (h : r ∈ requests E m hier) :
    E.acl r.context m.topic = .success := by
  unfold requests subsProcess at h
  dsimp only at h
  split at h
  · cases h
  · exact acl_of_subsProcessLoop E h

omit [DecidableEq C] in
theorem acl_of_subSearch {m : Publish} {tokens : List Token} {sr : Bool} {t : Trie Token (Hier C)} {r : Request C}
    (h : r ∈ (subSearch E m tokens sr t).2) : E.acl r.context m.topic = .success := by
  induction t generalizing tokens sr with
  | nil => cases h
  | node topic hier children next ihc ihn =>
    have here : ∀ (p : Prop) [Decidable p] (sr : Bool),
        r ∈ (if p then subsProcess E m sr hier else (hier, [])).2 → E.acl r.context m.topic = .success := by
      intro p _ sr h
      split at h
      · exact acl_of_requests E h
      · cases h
    cases tokens with
    | nil =>
      simp only [subSearch, List.mem_append] at h
      exact h.elim (here _ _) ihn
    | cons token tokens =>
      unfold subSearch at h
      dsimp only at h
      split at h
      · simp only [List.mem_append] at h
        exact h.elim (fun h => h.elim ihc (here _ _)) ihn
      · simp only [List.mem_append] at h
        exact h.elim (here _ _) ihn

omit [DecidableEq C] in
theorem acl_of_messagesQueueLoop {m : Publish} {token : Token} {tokens : List Token} {t : Trie Token (Hier C)}
    {r : Request C} (h : r ∈ (messagesQueueLoop E m token tokens t).2) : E.acl r.context m.topic = .success := by
  induction t with
  | nil => cases h
  | node topic hier children next _ ih =>
    unfold messagesQueueLoop at h
    dsimp only at h
    split at h
    · exact (List.mem_append.mp h).elim (acl_of_subSearch E) ih
    · exact ih h

omit [DecidableEq C] in
/-- **Who gets a message.** Every client for which `mqtt3_db_messages_queue` makes a call
may read the topic. -/
theorem acl_of_messagesQueue {m : Publish} {db : Db C} {r : Request C} (h : r ∈ (mqtt3DbMessagesQueue E m db).2) :
    E.acl r.context m.topic = .success := by
  unfold mqtt3DbMessagesQueue at h
  dsimp only at h
  split at h
  · cases h
  · exact acl_of_messagesQueueLoop E h

omit [DecidableEq C] in
theorem subsProcess_keep {m : Publish} {sr : Bool} (h : m.retain = false ∨ sr = false) (hier : Hier C) :
    (subsProcess E m sr hier).1 = hier := by
  rcases h with h | h <;> simp [subsProcess, h]

theorem plus_ne_hash : plus ≠ hash := by decide

omit [DecidableEq C] in
/-- **What the search finds.** The nodes whose path matches the tokens, a node
after those below it. -/
theorem subSearch_requests {m : Publish} {tokens : List Token} {sr : Bool} {t : Trie Token (Hier C)}
    (hc : Closed hash t) (ht : hash ∉ tokens) :
    (subSearch E m tokens sr t).2 =
      (t.entries.filter fun e => Matches plus hash e.1 tokens).flatMap fun e => requests E m e.2 := by
  induction t generalizing tokens sr with
  | nil => simp [subSearch, Trie.entries]
  | node topic hier children next ihc ihn =>
    obtain ⟨hnil, hcc, hcn⟩ := hc
    rw [Trie.filter_matches_node plus_ne_hash ht, List.flatMap_append]
    -- a node for `#` has no children
    have hleaf : (topic = hash ∧ children.isNil) ↔ topic = hash :=
      ⟨And.left, fun h => ⟨h, by rw [Trie.isNil_iff]; exact hnil h⟩⟩
    have hsnd : ∀ (p : Prop) [Decidable p] (sr : Bool),
        (if p then subsProcess E m sr hier else (hier, [])).2 = if p then requests E m hier else [] := by
      intro p _ sr
      split <;> rfl
    cases tokens with
    | nil =>
      simp only [subSearch, hsnd, ihn hcn ht, hleaf]
      by_cases h : topic = hash <;> simp [h]
    | cons token tokens =>
      have ht' : hash ∉ tokens := fun h => ht (List.mem_cons_of_mem _ h)
      by_cases h : topic = token ∨ topic = plus
      · simp only [subSearch, h, if_true, hsnd, ihn hcn ht, ihc hcc ht', List.flatMap_append,
          List.flatMap_map]
        by_cases htok : tokens = [] <;> simp [htok]
      · simp only [subSearch, h, if_false, hsnd, ihn hcn ht, hleaf]
        by_cases hh : topic = hash <;> simp [hh]

omit [DecidableEq C] in
theorem subSearch_keep {m : Publish} {tokens : List Token} {sr : Bool} (h : m.retain = false ∨ sr = false)
    (t : Trie Token (Hier C)) : (subSearch E m tokens sr t).1 = t := by
  induction t generalizing tokens sr with
  | nil => rfl
  | node topic hier children next ihc ihn =>
    have hfst : ∀ (p : Prop) [Decidable p] (sr : Bool), m.retain = false ∨ sr = false →
        (if p then subsProcess E m sr hier else (hier, [])).1 = hier := by
      intro p _ sr h
      split
      · exact subsProcess_keep E h hier
      · rfl
    cases tokens with
    | nil => simp only [subSearch, ihn h, hfst _ false (Or.inr rfl)]
    | cons token tokens =>
      have hsr : m.retain = false ∨ (if topic = plus then false else sr) = false := by
        rcases h with h | h
        · exact Or.inl h
        · exact Or.inr (by simp [h])
      simp only [subSearch]
      split
      · simp only [ihn h, ihc hsr, hfst _ _ hsr]
      · simp only [ihn h, hfst _ false (Or.inr rfl)]

omit [DecidableEq C] in
/-- Without tokens only `#` matches, and nothing is retained there. -/
theorem subSearch_nil (m : Publish) (sr : Bool) (t : Trie Token (Hier C)) :
    (subSearch E m [] sr t).1 = t := by
  induction t with
  | nil => rfl
  | node topic hier children next _ ihn =>
    simp only [subSearch, ihn]
    split <;> simp [subsProcess]

omit [DecidableEq C] in
theorem subSearch_absent {m : Publish} {token : Token} {tokens : List Token} {sr : Bool}
    {t : Trie Token (Hier C)} (h : token ∉ t.keys) : (subSearch E m (token :: tokens) sr t).1 = t := by
  induction t with
  | nil => rfl
  | node topic hier children next _ ihn =>
    simp only [Trie.keys, List.mem_cons, not_or] at h
    have hne : topic ≠ token := Ne.symm h.1
    simp only [subSearch, ihn h.2, hne, false_or]
    by_cases hp : topic = plus
    · simp only [hp, if_true, subSearch_keep E (Or.inr rfl)]
      split <;> simp [subsProcess]
    · simp only [hp, if_false]
      split <;> simp [subsProcess]

/-- What a message to be retained leaves at its node. -/
def setRetained (m : Publish) (hier : Hier C) : Hier C :=
  { hier with retained := if m.stored.payload.length ≠ 0 then some m.stored else none }

omit [DecidableEq C] in
/-- **What the search changes.** A message to be retained is noted at the node of
its own topic and nowhere else. -/
theorem subSearch_tree {m : Publish} (hm : m.retain = true) {tokens : List Token} (hp : plus ∉ tokens)
    (hier₀ : Hier C) {t : Trie Token (Hier C)} (ht : t.Distinct) (hne : tokens ≠ []) :
    (subSearch E m tokens true t).1 = (Trie.modify (setRetained m) tokens (hier₀, t)).2 := by
  induction t generalizing tokens hier₀ with
  | nil =>
    cases tokens with
    | nil => exact absurd rfl hne
    | cons token tokens => rfl
  | node topic hier children next ihc ihn =>
    cases tokens with
    | nil => exact absurd rfl hne
    | cons token tokens =>
      obtain ⟨hk, hcc, hcn⟩ := ht
      have hp' : plus ∉ tokens := fun h => hp (List.mem_cons_of_mem _ h)
      by_cases hkey : topic = token
      · subst hkey
        have hplus : topic ≠ plus := fun h => hp (by simp [h])
        simp only [subSearch, true_or, if_true, hplus, if_false, subSearch_absent E hk, Trie.modify,
          Trie.alter, Option.map_some]
        cases tokens with
        | nil => simp [subSearch_nil, subsProcess, Trie.modify, setRetained, hm]
        | cons token' tokens =>
          rw [ihc hp' hier hcc (by simp)]
          simp [Trie.modify]
      · have ih := ihn hp hier₀ hcn hne
        simp only [Trie.modify] at ih
        simp only [subSearch, hkey, false_or, Trie.modify, Trie.alter, if_false, ih]
        by_cases hplus : topic = plus
        · simp only [hplus, if_true, subSearch_keep E (Or.inr rfl)]
          split <;> simp [subsProcess]
        · simp only [hplus, if_false]
          split <;> simp [subsProcess]

end Broker
end BlenderBottle
