/-
# The broker as a whole

Seen from one client, the broker is a session. What a request means for its queue is a
list of calls: the packets that it sends itself, and for each message that others publish
or release the calls of `mqtt3_db_message_insert` for its subscriptions (`calls`). Its
queue and its part of the log are those of a run of the session with these calls
(`serverRun_session`), so what is proved of sessions holds of every client of the broker.

A run is orderly if no client sends a QoS 1 message under the id of a QoS 2 message that
it has not released. Such a run never ends early, and no client is given a message that
it may not read (`ServerInv`).

Key definitions: `part`, `calls`, `OrderlyRun`, `View`, `ServerInv`.
Key theorems: `serverStep_calls`, `serverStep_part`, `serverRun_session`.
-/
import BlenderBottle.Broker.Server

namespace BlenderBottle
namespace Broker

variable {C : Type} [DecidableEq C] {E : Config C} {strict : C → Prop}

/-! ### One client's part -/

/-- What one client sees of a step. -/
def part (c : C) (r : Server C × Log C) : Client × List Event := (r.1.queue c, trace c r.2)

theorem trace_append (c : C) (log log' : Log C) : trace c (log ++ log') = trace c log ++ trace c log' := by
  simp [trace]

theorem part_nil (c : C) (s : Server C) : part c (s, []) = (s.queue c, []) := rfl

theorem part_onQueue_self (c : C) (r : Client × List Event) (s : Server C) : part c (onQueue c r s) = r := by
  simp [part, onQueue, trace, List.filter_map, Function.comp_def]

theorem part_onQueue_other {c c' : C} (h : c' ≠ c) (r : Client × List Event) (s : Server C) :
    part c' (onQueue c r s) = (s.queue c', []) := by
  simp [part, onQueue, trace, List.filter_map, Function.comp_def, h, Ne.symm h]

/-- Two things one after the other. -/
theorem part_seq (c : C) (first rest : Server C × Log C) :
    part c (rest.1, first.2 ++ rest.2) = ((part c rest).1, (part c first).2 ++ (part c rest).2) := by
  simp [part, trace_append]

/-- The calls for a message are, for one client, those of its own subscriptions. -/
theorem part_insertAll (now : ℤ) (stored : Store) (rs : List (Request C)) (s : Server C) (c : C) :
    part c (insertAll E now stored rs s) =
      insertsOut E.limits now ((rs.filter fun r => r.context = c).map (Request.insert stored)) (s.queue c) := by
  induction rs generalizing s with
  | nil => rfl
  | cons r rs ih =>
    rw [insertAll, part_seq, ih]
    by_cases h : r.context = c
    · subst h
      have hq : ∀ x : Client × List Event, (onQueue r.context x s).1.queue r.context = x.1 := fun x =>
        congrArg Prod.fst (part_onQueue_self r.context x s)
      simp only [part_onQueue_self, hq, decide_true, List.filter_cons_of_pos, List.map_cons, insertsOut]
    · have hc : c ≠ r.context := fun hc => h hc.symm
      have hq : ∀ x : Client × List Event, (onQueue r.context x s).1.queue c = s.queue c := fun x =>
        congrArg Prod.fst (part_onQueue_other hc x s)
      simp only [part_onQueue_other hc, hq, h, decide_false, Bool.false_eq_true, not_false_eq_true,
        List.filter_cons_of_neg, List.nil_append]

theorem part_messagesQueue (now : ℤ) (whom : C → Bool) (m : Publish) (s : Server C) (c : C) :
    part c (messagesQueue E now whom m s) =
      if whom c then insertsOut E.limits now (insertsFor E c m s.db) (s.queue c) else (s.queue c, []) := by
  rw [messagesQueue, part_insertAll, List.filter_filter]
  split
  · rename_i hw
    have : ∀ r : Request C, (decide (r.context = c) && whom r.context) = decide (r.context = c) := by
      intro r
      by_cases h : r.context = c <;> simp [h, hw]
    simp only [this, insertsFor]
  · rename_i hw
    have : ∀ r : Request C, (decide (r.context = c) && whom r.context) = false := by
      intro r
      by_cases h : r.context = c <;> simp [h, hw]
    simp [this, insertsOut]

/-- The tree and the counter do not change when messages are put in. -/
theorem insertAll_db (now : ℤ) (stored : Store) (rs : List (Request C)) (s : Server C) :
    (insertAll E now stored rs s).1.db = s.db ∧ (insertAll E now stored rs s).1.lastDbId = s.lastDbId := by
  induction rs generalizing s with
  | nil => exact ⟨rfl, rfl⟩
  | cons r rs ih => exact ih _

theorem newMessage_lastDbId (now : ℤ) (source : List Char) (p : PublishPacket) (s : Server C) :
    (messagesQueue E now (fun _ => true) (newMessage source p s).1 (newMessage source p s).2).1.lastDbId =
      s.lastDbId + 1 :=
  (insertAll_db now _ _ _).2

theorem messagesQueue_db (now : ℤ) (whom : C → Bool) {m : Publish} (hm : validTopic m.topic) (s : Server C) :
    (messagesQueue E now whom m s).1.db = step E.toContexts s.db (.publish m) ∧
      (messagesQueue E now whom m s).1.lastDbId = s.lastDbId := by
  have hn : ¬ (m.topic = [] ∨ pubTopicCheck m.topic ≠ .success) := by
    rintro (h | h)
    · exact hm.1 h
    · exact h hm.2
  obtain ⟨h1, h2⟩ := insertAll_db (E := E) now m.stored
    ((mqtt3DbMessagesQueue E.toContexts m s.db).2.filter fun r => whom r.context)
    { s with db := (mqtt3DbMessagesQueue E.toContexts m s.db).1 }
  rw [messagesQueue, step, if_neg hn]
  exact ⟨h1, h2⟩

/-- What a message brings for a client is that message. -/
theorem store_of_insertsFor {c : C} {m : Publish} {db : Db C} {i : Insert} (h : i ∈ insertsFor E c m db) :
    i.store = m.stored := by
  obtain ⟨r, -, rfl⟩ := List.mem_map.mp h
  rfl

/-- A client is given what it may read. -/
theorem acl_of_insertsFor {c : C} {m : Publish} {db : Db C} {i : Insert} (h : i ∈ insertsFor E c m db) :
    E.acl c m.topic = .success := by
  obtain ⟨r, hr, -⟩ := List.mem_map.mp h
  obtain ⟨hmem, hc⟩ := List.mem_filter.mp hr
  rw [← of_decide_eq_true hc]
  exact acl_of_messagesQueue E.toContexts hmem

theorem insertsOut_append {L : Limits} (now : ℤ) (is is' : List Insert) (q : Client) :
    insertsOut L now (is ++ is') q =
      ((insertsOut L now is' (insertsOut L now is q).1).1,
        (insertsOut L now is q).2 ++ (insertsOut L now is' (insertsOut L now is q).1).2) := by
  induction is generalizing q with
  | nil => rfl
  | cons i is ih =>
    rw [List.cons_append, insertsOut, ih]
    simp only [insertsOut, List.append_assoc]

theorem part_forwardAll_self (now : ℤ) (c : C) (ds : List Delivery) (s : Server C) :
    part c (forwardAll E now c ds s) = (s.queue c, []) := by
  induction ds generalizing s with
  | nil => rfl
  | cons d ds ih =>
    have hfirst := part_messagesQueue (E := E) now (fun c' => c' ≠ c) d.publish s c
    simp only [ne_eq, not_true_eq_false, decide_false, Bool.false_eq_true, if_false] at hfirst
    have hq : (messagesQueue E now (fun c' => c' ≠ c) d.publish s).1.queue c = s.queue c :=
      congrArg Prod.fst hfirst
    rw [forwardAll, part_seq, ih, hq, hfirst]
    rfl

variable (E) in
/-- What the messages that one client released bring for another. -/
def forwardedInserts (now : ℤ) (c' c : C) : List Delivery → Server C → List Insert
  | [], _ => []
  | d :: ds, s =>
    insertsFor E c d.publish s.db ++
      forwardedInserts now c' c ds (messagesQueue E now (fun x => x ≠ c') d.publish s).1

theorem part_forwardAll_other (now : ℤ) {c c' : C} (h : c' ≠ c) (ds : List Delivery) (s : Server C) :
    part c (forwardAll E now c' ds s) = insertsOut E.limits now (forwardedInserts E now c' c ds s) (s.queue c) := by
  induction ds generalizing s with
  | nil => rfl
  | cons d ds ih =>
    have hfirst := part_messagesQueue (E := E) now (fun x => x ≠ c') d.publish s c
    rw [if_pos (by simpa using h.symm)] at hfirst
    have hq : (messagesQueue E now (fun x => x ≠ c') d.publish s).1.queue c =
        (insertsOut E.limits now (insertsFor E c d.publish s.db) (s.queue c)).1 := congrArg Prod.fst hfirst
    rw [forwardAll, part_seq, ih, hfirst, forwardedInserts, insertsOut_append, hq]

theorem mem_forwardedInserts {now : ℤ} {c c' : C} {ds : List Delivery} {s : Server C} {i : Insert}
    (h : i ∈ forwardedInserts E now c' c ds s) : ∃ d ∈ ds, ∃ db, i ∈ insertsFor E c d.publish db := by
  induction ds generalizing s with
  | nil => cases h
  | cons d ds ih =>
    rcases List.mem_append.mp h with h | h
    · exact ⟨d, List.mem_cons_self, s.db, h⟩
    · obtain ⟨d', hd', hi⟩ := ih h
      exact ⟨d', List.mem_cons_of_mem _ hd', hi⟩

/-- The messages that are passed on leave the table as it is. -/
theorem messagesQueue_table (now : ℤ) (whom : C → Bool) {m : Publish} (hm : validTopic m.topic) {s : Server C}
    (hI : Inv s.db) : Inv (messagesQueue E now whom m s).1.db ∧
      table (messagesQueue E now whom m s).1.db = table s.db ∧
      (messagesQueue E now whom m s).1.lastDbId = s.lastDbId := by
  obtain ⟨hdb, hid⟩ := messagesQueue_db (E := E) now whom hm s
  rw [hdb]
  exact ⟨step_inv E.toContexts hI _, table_step E.toContexts hI _, hid⟩

theorem forwardAll_table (now : ℤ) (c : C) {ds : List Delivery} (hds : ∀ d ∈ ds, validTopic d.store.topic)
    {s : Server C} (hI : Inv s.db) : Inv (forwardAll E now c ds s).1.db ∧
      table (forwardAll E now c ds s).1.db = table s.db ∧
      (forwardAll E now c ds s).1.lastDbId = s.lastDbId := by
  induction ds generalizing s with
  | nil => exact ⟨hI, rfl, rfl⟩
  | cons d ds ih =>
    obtain ⟨h1, h2, h3⟩ := messagesQueue_table (E := E) now (fun c' => c' ≠ c) (m := d.publish)
      (hds d List.mem_cons_self) hI
    obtain ⟨h1', h2', h3'⟩ := ih (fun d' hd' => hds d' (List.mem_cons_of_mem _ hd')) h1
    exact ⟨h1', h2'.trans h2, h3'.trans h3⟩

/-! ### The calls of a step -/

theorem sessionRun_append {L : Limits} {q q' : Client} {ops ops' : List SessionOp} {e : List Event}
    {r : Client × List Event} (h : sessionRun L q ops = some (q', e)) (h' : sessionRun L q' ops' = some r) :
    sessionRun L q (ops ++ ops') = some (r.1, e ++ r.2) := by
  induction ops generalizing q e with
  | nil =>
    obtain ⟨rfl, rfl⟩ := Prod.mk.inj (Option.some.inj h)
    exact h'
  | cons op ops ih =>
    rw [sessionRun] at h
    split at h
    · cases h
    · rename_i q₁ e₁ hstep
      obtain ⟨r₁, hr₁, heq⟩ := Option.map_eq_some_iff.mp h
      obtain ⟨rfl, rfl⟩ := Prod.mk.inj heq
      rw [List.cons_append, sessionRun, hstep]
      simp only [ih (q := q₁) (e := r₁.2) hr₁, Option.map_some, List.append_assoc]

theorem sessionRun_inserts {L : Limits} (now : ℤ) (is : List Insert) (q : Client) :
    sessionRun L q (is.map (.insertOut now)) = some (insertsOut L now is q) := by
  induction is generalizing q with
  | nil => rfl
  | cons i is ih => simp only [List.map_cons, sessionRun, sessionStep, ih, Option.map_some, insertsOut]

theorem sessionRun_one {L : Limits} (q : Client) (op : SessionOp) : sessionRun L q [op] = sessionStep L q op := by
  rw [sessionRun]
  cases sessionStep L q op with
  | none => rfl
  | some r => simp [sessionRun]

section
variable (E)

/-- The message that a PUBLISH with QoS 0 or 1 sends on. -/
def sentMessage (c : C) (p : PublishPacket) (s : Server C) : Publish :=
  p.publish (E.id c) ((heldFor c p s).getD (mqtt3DbMessageStore (E.id c) p s).1)

/-- What a PUBLISH from `c'` means for `c`. -/
def publishCalls (now : ℤ) (c' c : C) (p : PublishPacket) (s : Server C) : List SessionOp :=
  if p.qos = 2 then
    if c' = c then [.publish now p.mid p.retain (mqtt3DbMessageStore (E.id c') p s).1] else []
  else
    (if c' = c ∧ p.qos ≠ 0 then [.publishQos1 p.mid] else []) ++
      (insertsFor E c (sentMessage E c' p s) s.db).map (.insertOut now)

/-- What a PUBREL from `c'` means for another client. -/
def releaseCalls (now : ℤ) (c' c : C) (mid : ℕ) (s : Server C) : List SessionOp :=
  match sessionStep E.limits (s.queue c') (.pubrel now mid (echo E c' s)) with
  | none => []
  | some r => (forwardedInserts E now c' c (forwarded r.2) (onQueue c' r s).1).map (.insertOut now)

/-- What a request means for the session of a client. -/
def calls (c : C) (s : Server C) : ServerOp C → List SessionOp
  | .connect c' cleanSession => if c' = c then [.connect cleanSession (E.mayRead c')] else []
  | .disconnect c' => if c' = c then [.disconnect] else []
  | .subscribe now c' sub qos =>
    if c' = c ∧ (s.queue c').connected ∧ ¬ (sub = [] ∨ subTopicCheck sub ≠ .success ∨ qos > 2) then
      (retainedInserts E c' sub qos (mqtt3SubAdd E.toContexts c' sub qos s.db)).map (.insertOut now)
    else []
  | .unsubscribe _ _ => []
  | .publish now c' p =>
    match if (s.queue c').connected then checkPublish E c' p else none with
    | none => []
    | some p => publishCalls E now c' c p s
  | .easyQueue now context p =>
    if validTopic p.topic then
      (insertsFor E c (newMessage ((context.map E.id).getD []) { p with mid := 0 } s).1 s.db).map (.insertOut now)
    else []
  | .pubackcomp now c' mid => if c' = c then [.pubackcomp now mid] else []
  | .pubrec now c' mid => if c' = c then [.pubrec now mid] else []
  | .pubrel now c' mid =>
    if c' = c then [.pubrel now mid (echo E c' s)] else releaseCalls E now c' c mid s
  | .write now c' ok => if c' = c then [.write now ok] else []
  | .timeoutCheck now timeout => [.timeoutCheck now timeout]

end

/-- A step of one queue. -/
theorem calls_onQueue {s s' : Server C} {sop : SessionOp} {x : Client × List Event} {c' : C}
    (hx : sessionStep E.limits (s.queue c') sop = some x) (hq : s'.queue = s.queue) (c : C) :
    sessionRun E.limits (s.queue c) (if c' = c then [sop] else []) = some (part c (onQueue c' x s')) := by
  by_cases hc : c' = c
  · subst hc
    rw [if_pos rfl, sessionRun_one, hx, part_onQueue_self]
  · rw [if_neg hc, part_onQueue_other (Ne.symm hc), hq]
    rfl

theorem calls_queueStep {s : Server C} {sop : SessionOp} {r : Server C × Log C} {c' : C}
    (h : queueStep E c' sop s = some r) (c : C) :
    sessionRun E.limits (s.queue c) (if c' = c then [sop] else []) = some (part c r) := by
  obtain ⟨x, hx, rfl⟩ := Option.map_eq_some_iff.mp h
  exact calls_onQueue hx rfl c

theorem calls_messagesQueue (now : ℤ) {m : Publish} {s s' : Server C} (hq : s'.queue = s.queue)
    (hdb : s'.db = s.db) (c : C) :
    sessionRun E.limits (s.queue c) ((insertsFor E c m s.db).map (.insertOut now)) =
      some (part c (messagesQueue E now (fun _ => true) m s')) := by
  rw [sessionRun_inserts, part_messagesQueue, if_pos rfl, hq, hdb]

theorem calls_publishNow {now : ℤ} {c' : C} {p : PublishPacket} {s : Server C} {r : Server C × Log C}
    (hconn : (s.queue c').connected = true) (h2 : p.qos ≠ 2) (h : publishNow E now c' p s = some r) (c : C) :
    sessionRun E.limits (s.queue c) (publishCalls E now c' c p s) = some (part c r) := by
  rw [publishCalls, if_neg h2, sentMessage]
  have hqos1 : ∀ e, (heldFor c' p s).map Event.passHeld = e → sessionRun E.limits (s.queue c)
      (if c' = c ∧ p.qos ≠ 0 then [.publishQos1 p.mid] else []) =
        some (s.queue c, if c' = c then e.toList else []) := by
    rintro e rfl
    by_cases hc : c' = c
    · subst hc
      by_cases h0 : p.qos = 0
      · simp [h0, heldFor, sessionRun]
      · simp [h0, heldFor, sessionRun_one, sessionStep, hconn, handlePublishQos1]
    · simp [hc, sessionRun]
  unfold publishNow at h
  cases hheld : heldFor c' p s with
  | none =>
    simp only [hheld] at h hqos1
    obtain rfl := Option.some.inj h
    have hrun : sessionRun E.limits (s.queue c)
        ((insertsFor E c (newMessage (E.id c') p s).1 s.db).map (.insertOut now)) =
          some (part c (messagesQueue E now (fun _ => true) (newMessage (E.id c') p s).1
            (newMessage (E.id c') p s).2)) := by
      refine calls_messagesQueue now ?_ ?_ c <;> rfl
    refine (sessionRun_append (hqos1 none rfl) hrun).trans ?_
    simp
  | some held =>
    simp only [hheld] at h hqos1
    split at h
    · cases h
    · obtain rfl := Option.some.inj h
      have hrun := calls_messagesQueue (E := E) now (m := p.publish (E.id c') held) (s := s) rfl rfl c
      refine (sessionRun_append (hqos1 (some (.passHeld held)) rfl) hrun).trans ?_
      by_cases hc : c' = c <;> simp [part, trace, hc]

theorem calls_subscribe (now : ℤ) (c' : C) (sub : List Char) (qos : ℕ) (s : Server C) (c : C) :
    sessionRun E.limits (s.queue c) (calls E c s (.subscribe now c' sub qos)) =
      some (part c (if (s.queue c').connected then mqtt3HandleSubscribe E now c' sub qos s else (s, []))) := by
  rw [calls]
  by_cases hok : (s.queue c').connected = true ∧ ¬ (sub = [] ∨ subTopicCheck sub ≠ .success ∨ qos > 2)
  · rw [if_pos hok.1, mqtt3HandleSubscribe, if_neg hok.2]
    dsimp only
    by_cases hc : c' = c
    · subst hc
      rw [if_pos ⟨rfl, hok⟩, sessionRun_inserts, part_onQueue_self]
    · rw [if_neg fun h => hc h.1, part_onQueue_other (Ne.symm hc)]
      rfl
  · rw [if_neg fun h => hok h.2]
    split
    · rename_i hconn
      rw [mqtt3HandleSubscribe, if_pos (not_not.mp fun hn => hok ⟨hconn, hn⟩)]
      rfl
    · rfl

theorem calls_publish {now : ℤ} {c' : C} {p : PublishPacket} {s : Server C} {r : Server C × Log C}
    (h : serverStep E s (.publish now c' p) = some r) (c : C) :
    sessionRun E.limits (s.queue c) (calls E c s (.publish now c' p)) = some (part c r) := by
  rw [serverStep] at h
  rw [calls]
  by_cases hconn : (s.queue c').connected = true
  · rw [if_pos hconn] at h ⊢
    cases hp : checkPublish E c' p with
    | none =>
      rw [mqtt3HandlePublish, hp] at h
      obtain rfl := Option.some.inj h
      rfl
    | some p' =>
      rw [mqtt3HandlePublish, hp] at h
      dsimp only at h ⊢
      by_cases h2 : p'.qos = 2
      · rw [if_pos h2] at h
        obtain rfl := Option.some.inj h
        rw [publishCalls, if_pos h2]
        refine calls_onQueue (by rw [sessionStep, if_pos hconn]) ?_ c
        split <;> rfl
      · rw [if_neg h2] at h
        exact calls_publishNow hconn h2 h c
  · rw [if_neg hconn] at h ⊢
    obtain rfl := Option.some.inj h
    rfl

theorem calls_pubrel {now : ℤ} {c' : C} {mid : ℕ} {s : Server C} {r : Server C × Log C}
    (h : handlePubrel E now c' mid s = some r) (c : C) :
    sessionRun E.limits (s.queue c) (calls E c s (.pubrel now c' mid)) = some (part c r) := by
  obtain ⟨x, hx, rfl⟩ := Option.map_eq_some_iff.mp h
  rw [calls, part_seq]
  by_cases hc : c' = c
  · subst hc
    have hq : (onQueue c' x s).1.queue c' = x.1 := congrArg Prod.fst (part_onQueue_self c' x s)
    rw [if_pos rfl, sessionRun_one, hx, part_forwardAll_self, part_onQueue_self, hq]
    simp
  · have hq : (onQueue c' x s).1.queue c = s.queue c := congrArg Prod.fst (part_onQueue_other (Ne.symm hc) x s)
    rw [if_neg hc, releaseCalls, hx]
    dsimp only
    rw [sessionRun_inserts, part_forwardAll_other now hc, part_onQueue_other (Ne.symm hc), hq]
    rfl

/-- **What a step means for one client.** Its part of the step is the run of its session
with the calls of the step. -/
theorem serverStep_calls {s : Server C} {op : ServerOp C} {r : Server C × Log C}
    (h : serverStep E s op = some r) (c : C) :
    sessionRun E.limits (s.queue c) (calls E c s op) = some (part c r) := by
  cases op with
  | connect c' cleanSession =>
    obtain ⟨x, hx, rfl⟩ := Option.map_eq_some_iff.mp h
    have hx' : sessionStep E.limits (s.queue c') (.connect cleanSession (E.mayRead c')) = some x := hx
    refine calls_onQueue hx' ?_ c
    split <;> rfl
  | disconnect c' =>
    obtain rfl := Option.some.inj h
    refine calls_onQueue rfl ?_ c
    split <;> rfl
  | subscribe now c' sub qos =>
    obtain rfl := Option.some.inj h
    exact calls_subscribe now c' sub qos s c
  | unsubscribe c' sub =>
    obtain rfl := Option.some.inj h
    rw [calls, part_nil]
    have hq : (if (s.queue c').connected = true then mqtt3HandleUnsubscribe c' sub s else s).queue = s.queue := by
      unfold mqtt3HandleUnsubscribe
      split
      · split <;> rfl
      · rfl
    rw [hq]
    rfl
  | publish now c' p => exact calls_publish h c
  | easyQueue now context p =>
    obtain rfl := Option.some.inj h
    rw [calls, mqtt3DbMessagesEasyQueue]
    split
    · refine calls_messagesQueue now ?_ ?_ c <;> rfl
    · rfl
  | pubackcomp now c' mid => exact calls_queueStep h c
  | pubrec now c' mid => exact calls_queueStep h c
  | pubrel now c' mid => exact calls_pubrel h c
  | write now c' ok => exact calls_queueStep h c
  | timeoutCheck now timeout =>
    obtain rfl := Option.some.inj h
    rw [calls, sessionRun_one]
    rfl

/-- What of the broker depends on nothing but the requests: the subscriptions, and
which clients are connected and with a clean session. -/
@[ext]
structure View (C : Type) where
  table : Table C
  links : C → Bool × Bool

/-- The view of a broker. -/
def Server.view (s : Server C) : View C := ⟨Broker.table s.db, fun c => (s.queue c).link⟩

def View.init : View C := ⟨fun _ _ => none, fun _ => (false, true)⟩

/-- A session that goes on when its client connects. -/
def View.goesOn (v : View C) (c : C) (cleanSession : Bool) : Prop := cleanSession = false ∧ (v.links c).2 = false

instance (v : View C) (c : C) (cleanSession : Bool) : Decidable (v.goesOn c cleanSession) :=
  inferInstanceAs (Decidable (_ ∧ _))

/-- What a step means for the view. -/
def View.step (v : View C) : ServerOp C → View C
  | .connect c cleanSession =>
    { table := if v.goesOn c cleanSession then v.table else v.table.step (.cleanSession c)
      links := Function.update v.links c (true, cleanSession) }
  | .disconnect c =>
    { table := if (v.links c).2 then v.table.step (.cleanSession c) else v.table
      links := Function.update v.links c (false, (v.links c).2) }
  | .subscribe _ c sub qos => if (v.links c).1 then { v with table := v.table.step (.subscribe c sub qos) } else v
  | .unsubscribe c sub => if (v.links c).1 then { v with table := v.table.step (.unsubscribe c sub) } else v
  | _ => v

variable (E) in
/-- The message that a step publishes with QoS 0, with its source. -/
def publishedQos0 (v : View C) : ServerOp C → Option (List Char × PublishPacket)
  | .publish _ c p =>
    if (v.links c).1 = true ∧ validTopic p.topic ∧
        ¬ (E.messageSizeLimit ≠ 0 ∧ E.messageSizeLimit < p.payload.length) ∧
        E.aclWrite c p.topic = .success ∧ p.qos = 0 then
      some (E.id c, p)
    else none
  | .easyQueue _ context p =>
    if validTopic p.topic ∧ p.qos = 0 then some ((context.map E.id).getD [], p) else none
  | _ => none

omit [DecidableEq C] in
theorem checkPublish_of_success {c : C} {p : PublishPacket} (ht : validTopic p.topic)
    (hsize : ¬ (E.messageSizeLimit ≠ 0 ∧ E.messageSizeLimit < p.payload.length))
    (hacl : E.aclWrite c p.topic = .success) :
    checkPublish E c p = some (if p.qos = 0 then { p with mid := 0 } else p) := by
  rw [checkPublish, if_neg (not_not.mpr ht), if_neg hsize, hacl]

omit [DecidableEq C] in
/-- A message that is left after the checks is a refused one, or the one that came. -/
theorem checkPublish_cases {c : C} {p p' : PublishPacket} (h : checkPublish E c p = some p') :
    (p'.topic = [] ∧ p'.qos = 2 ∧ p'.mid = p.mid) ∨
      (validTopic p.topic ∧ ¬ (E.messageSizeLimit ≠ 0 ∧ E.messageSizeLimit < p.payload.length) ∧
        E.aclWrite c p.topic = .success ∧ p' = if p.qos = 0 then { p with mid := 0 } else p) := by
  have hbad : processBadMessage p = some p' → p'.topic = [] ∧ p'.qos = 2 ∧ p'.mid = p.mid := by
    intro h
    unfold processBadMessage at h
    split at h
    · rename_i h2
      obtain rfl := Option.some.inj h
      exact ⟨rfl, h2, rfl⟩
    · cases h
  unfold checkPublish at h
  split at h
  · cases h
  rename_i ht
  split at h
  · exact Or.inl (hbad h)
  rename_i hsize
  split at h
  · exact Or.inl (hbad h)
  · cases h
  · rename_i hacl
    exact Or.inr ⟨not_not.mp ht, hsize, hacl, (Option.some.inj h).symm⟩

theorem publishNow_new (now : ℤ) {s : Server C} {c : C} {p : PublishPacket} (h : heldFor c p s = none) :
    publishNow E now c p s =
      some (messagesQueue E now (fun _ => true) (newMessage (E.id c) p s).1 (newMessage (E.id c) p s).2) := by
  simp only [publishNow, h]

theorem serverStep_publishedQos0 {s : Server C} {op : ServerOp C} {source : List Char} {p : PublishPacket}
    (h : publishedQos0 E s.view op = some (source, p)) :
    validTopic p.topic ∧ p.qos = 0 ∧ ∃ now, serverStep E s op =
      some (messagesQueue E now (fun _ => true) (newMessage source { p with mid := 0 } s).1
        (newMessage source { p with mid := 0 } s).2) := by
  cases op with
  | publish now c p' =>
    rw [publishedQos0] at h
    split at h
    · rename_i hp
      obtain ⟨hc, ht, hsize, hacl, h0⟩ := hp
      obtain ⟨rfl, rfl⟩ := Prod.mk.inj (Option.some.inj h)
      have hc' : (s.queue c).connected = true := hc
      have h2 : ¬ ({ p' with mid := 0 } : PublishPacket).qos = 2 := by simp [h0]
      have hheld : heldFor c { p' with mid := 0 } s = none := by simp [heldFor, h0]
      refine ⟨ht, h0, now, ?_⟩
      rw [serverStep, if_pos hc', mqtt3HandlePublish, checkPublish_of_success ht hsize hacl, if_pos h0]
      dsimp only
      rw [if_neg h2, publishNow_new now hheld]
    · cases h
  | easyQueue now context p' =>
    rw [publishedQos0] at h
    split at h
    · rename_i hp
      obtain ⟨rfl, rfl⟩ := Prod.mk.inj (Option.some.inj h)
      refine ⟨hp.1, hp.2, now, ?_⟩
      rw [serverStep, mqtt3DbMessagesEasyQueue, if_pos hp.1]
    · cases h
  | _ => cases h

/-! ### Orderly runs -/

/-- A PUBLISH with QoS 1 does not come under the id of a QoS 2 message that its client
has not released. -/
def Orderly (s : Server C) : ServerOp C → Prop
  | .publish _ c p => p.qos = 1 → mqtt3DbMessageStoreFind p.mid (s.queue c) = none
  | _ => True

variable (E) in
/-- It is so in each step of a run. -/
def OrderlyRun (s : Server C) : List (ServerOp C) → Prop
  | [] => True
  | op :: ops =>
    Orderly s op ∧
      match serverStep E s op with
      | none => True
      | some r => OrderlyRun r.1 ops

omit [DecidableEq C] in
/-- A message that is left after the checks is a new one. -/
theorem Orderly.held {s : Server C} {now : ℤ} {c : C} {p p' : PublishPacket} (ho : Orderly s (.publish now c p))
    (hp : checkPublish E c p = some p') (h2 : p'.qos ≠ 2) : heldFor c p' s = none := by
  rcases checkPublish_cases hp with ⟨-, hqos, -⟩ | ⟨-, -, -, rfl⟩
  · exact absurd hqos h2
  · by_cases h0 : p.qos = 0
    · simp [heldFor, h0]
    · rw [if_neg h0] at h2 ⊢
      rw [heldFor, if_neg h0]
      exact ho (by omega)

/-! ### The invariant -/

/-- A message from a client that waits for its release. -/
structure Incoming (n : ℕ) (d : Delivery) : Prop where
  dbId : d.store.dbId ≤ n
  qos : d.store.qos = 2
  topic : d.store.topic ≠ [] → validTopic d.store.topic

variable (E strict) in
/-- What holds of the broker in every orderly run. -/
structure ServerInv (s : Server C) : Prop where
  db : Inv s.db
  queue : ∀ c, QueueInv E.limits (strict c) (s.queue c)
  incoming : ∀ c, ∀ d ∈ (s.queue c).deliveries, d.direction = .mdIn → Incoming s.lastDbId d
  dests : ∀ c, ∀ n ∈ (s.queue c).dests, n ≤ s.lastDbId
  readable : ∀ c, ∀ d ∈ (s.queue c).deliveries, d.direction = .mdOut → E.acl c d.store.topic = .success

/-! ### The tree and the counter -/

/-- A step that leaves the subscriptions as they are. -/
structure Keeps (s s' : Server C) : Prop where
  db : Inv s'.db
  table : table s'.db = table s.db
  lastDbId : s.lastDbId ≤ s'.lastDbId

theorem Keeps.refl {s : Server C} (hI : Inv s.db) : Keeps s s := ⟨hI, rfl, le_refl _⟩

theorem keeps_queueStep {s : Server C} {c : C} {sop : SessionOp} {r : Server C × Log C} (hI : Inv s.db)
    (h : queueStep E c sop s = some r) : Keeps s r.1 := by
  obtain ⟨x, -, rfl⟩ := Option.map_eq_some_iff.mp h
  exact ⟨hI, rfl, le_refl _⟩

theorem keeps_messagesQueue {s s' : Server C} {now : ℤ} {m : Publish} (hs : Keeps s s')
    (hm : validTopic m.topic) : Keeps s (messagesQueue E now (fun _ => true) m s').1 := by
  obtain ⟨h1, h2, h3⟩ := messagesQueue_table (E := E) now (fun _ => true) hm hs.db
  exact ⟨h1, h2.trans hs.table, h3 ▸ hs.lastDbId⟩

theorem keeps_newMessage {s : Server C} (hI : Inv s.db) (now : ℤ) (source : List Char) {p : PublishPacket}
    (ht : validTopic p.topic) :
    Keeps s (messagesQueue E now (fun _ => true) (newMessage source p s).1 (newMessage source p s).2).1 := by
  have hs : Keeps s (newMessage source p s).2 := ⟨hI, rfl, Nat.le_succ _⟩
  exact keeps_messagesQueue hs ht

theorem keeps_publishQos2 {s : Server C} (hI : Inv s.db) (now : ℤ) (c : C) (p : PublishPacket) :
    Keeps s (publishQos2 E now c p s).1 := by
  unfold publishQos2
  dsimp only
  split
  · exact ⟨hI, rfl, le_refl _⟩
  · exact ⟨hI, rfl, Nat.le_succ _⟩

theorem keeps_publish {s : Server C} (hI : Inv s.db) {now : ℤ} {c : C} {p : PublishPacket} {r : Server C × Log C}
    (h : mqtt3HandlePublish E now c p s = some r) : Keeps s r.1 := by
  unfold mqtt3HandlePublish at h
  split at h
  · obtain rfl := Option.some.inj h
    exact .refl hI
  rename_i p' hp
  split at h
  · obtain rfl := Option.some.inj h
    exact keeps_publishQos2 hI ..
  rename_i h2
  have ht : validTopic p'.topic := by
    rcases checkPublish_cases hp with ⟨-, h2', -⟩ | ⟨ht, -, -, rfl⟩
    · exact absurd h2' h2
    · split <;> exact ht
  -- with QoS 0 or 1 the message goes out, as a new one or as one that was there
  unfold publishNow at h
  split at h
  · obtain rfl := Option.some.inj h
    exact keeps_newMessage hI now (E.id c) ht
  · dsimp only at h
    split at h
    · cases h
    · obtain rfl := Option.some.inj h
      exact keeps_messagesQueue (.refl hI) ht

theorem mem_of_forwarded {e : List Event} {d : Delivery} (h : d ∈ forwarded e) : .forward d ∈ e := by
  obtain ⟨x, hx, hd⟩ := List.mem_filterMap.mp h
  have hmem : x ∈ e := (List.rtakeWhile_suffix _ _).subset hx
  cases x <;> simp_all

/-- The messages that a client releases were in its queue. -/
theorem incoming_of_forwarded {s : Server C} {now : ℤ} {c : C} {mid : ℕ} {x : Client × List Event}
    (hI : ServerInv E strict s)
    (hx : sessionStep E.limits (s.queue c) (.pubrel now mid (echo E c s)) = some x) {d : Delivery}
    (hd : d ∈ forwarded x.2) : Incoming s.lastDbId d ∧ validTopic d.store.topic := by
  obtain ⟨hmem, hin, ht⟩ := sessionStep_reports hx _ (mem_of_forwarded hd)
  have hd' := hI.incoming c d hmem hin
  exact ⟨hd', hd'.topic ht⟩

theorem keeps_pubrel {s : Server C} {now : ℤ} {c : C} {mid : ℕ} {r : Server C × Log C}
    (hI : ServerInv E strict s) (h : handlePubrel E now c mid s = some r) : Keeps s r.1 := by
  obtain ⟨x, hx, rfl⟩ := Option.map_eq_some_iff.mp h
  have hds : ∀ d ∈ forwarded x.2, validTopic d.store.topic := fun d hd => (incoming_of_forwarded hI hx hd).2
  obtain ⟨h1, h2, h3⟩ := forwardAll_table (E := E) now c (s := (onQueue c x s).1) hds hI.db
  exact ⟨h1, h2, h3 ▸ le_refl _⟩

theorem subscribe_db (now : ℤ) (c : C) (sub : List Char) (qos : ℕ) (s : Server C) :
    (mqtt3HandleSubscribe E now c sub qos s).1.db = step E.toContexts s.db (.subscribe c sub qos) ∧
      (mqtt3HandleSubscribe E now c sub qos s).1.lastDbId = s.lastDbId := by
  rw [mqtt3HandleSubscribe, step]
  split <;> exact ⟨rfl, rfl⟩

theorem unsubscribe_db (c : C) (sub : List Char) (s : Server C) :
    mqtt3HandleUnsubscribe c sub s = { s with db := step E.toContexts s.db (.unsubscribe c sub) } := by
  rw [mqtt3HandleUnsubscribe, step]
  split <;> rfl

/-- The tree and the counter after a step. -/
theorem serverStep_db {s : Server C} {op : ServerOp C} {r : Server C × Log C} (hI : ServerInv E strict s)
    (h : serverStep E s op = some r) :
    Inv r.1.db ∧ table r.1.db = (s.view.step op).table ∧ s.lastDbId ≤ r.1.lastDbId := by
  have hclean : ∀ c : C, Inv (mqtt3SubsCleanSession c s.db) ∧
      table (mqtt3SubsCleanSession c s.db) = (table s.db).step (.cleanSession c) := fun c =>
    ⟨step_inv E.toContexts hI.db (.cleanSession c), table_step E.toContexts hI.db (.cleanSession c)⟩
  have hkeep : ∀ {s' : Server C}, Keeps s s' → Inv s'.db ∧ table s'.db = table s.db ∧ s.lastDbId ≤ s'.lastDbId :=
    fun hk => ⟨hk.db, hk.table, hk.lastDbId⟩
  have hsame := hkeep (Keeps.refl hI.db)
  cases op with
  | connect c cleanSession =>
    obtain ⟨x, -, rfl⟩ := Option.map_eq_some_iff.mp h
    have hg : (cleanSession = false ∧ (s.queue c).cleanSession = false) ↔ s.view.goesOn c cleanSession := Iff.rfl
    simp only [onQueue, View.step, hg]
    split
    · exact hsame
    · exact ⟨(hclean c).1, (hclean c).2, le_refl _⟩
  | disconnect c =>
    obtain rfl := Option.some.inj h
    have hc : (s.view.links c).2 = (s.queue c).cleanSession := rfl
    simp only [doDisconnect, onQueue, View.step, hc]
    split
    · exact ⟨(hclean c).1, (hclean c).2, le_refl _⟩
    · exact hsame
  | subscribe now c sub qos =>
    obtain rfl := Option.some.inj h
    have hc : (s.view.links c).1 = (s.queue c).connected := rfl
    simp only [View.step, hc]
    split
    · rw [(subscribe_db now c sub qos s).1, (subscribe_db now c sub qos s).2]
      exact ⟨step_inv _ hI.db _, table_step _ hI.db _, le_refl _⟩
    · exact hsame
  | unsubscribe c sub =>
    obtain rfl := Option.some.inj h
    have hc : (s.view.links c).1 = (s.queue c).connected := rfl
    simp only [View.step, hc]
    split
    · rw [unsubscribe_db (E := E)]
      exact ⟨step_inv E.toContexts hI.db (.unsubscribe c sub), table_step E.toContexts hI.db (.unsubscribe c sub),
        le_refl _⟩
    · exact hsame
  | publish now c p =>
    rw [serverStep] at h
    split at h
    · exact hkeep (keeps_publish hI.db h)
    · obtain rfl := Option.some.inj h
      exact hsame
  | easyQueue now context p =>
    obtain rfl := Option.some.inj h
    unfold mqtt3DbMessagesEasyQueue
    split
    · rename_i ht
      exact hkeep (keeps_newMessage hI.db now _ ht)
    · exact hsame
  | pubackcomp now c mid => exact hkeep (keeps_queueStep hI.db h)
  | pubrec now c mid => exact hkeep (keeps_queueStep hI.db h)
  | pubrel now c mid => exact hkeep (keeps_pubrel hI h)
  | write now c ok => exact hkeep (keeps_queueStep hI.db h)
  | timeoutCheck now timeout =>
    obtain rfl := Option.some.inj h
    exact hsame

/-! ### What a step is for one client -/

variable (E) in
/-- The steps of a client's own queue; `n` is the last id after the step. -/
inductive Own (s : Server C) (n : ℕ) (c : C) : ServerOp C → SessionOp → Prop
  | connect (cleanSession : Bool) : Own s n c (.connect c cleanSession) (.connect cleanSession (E.mayRead c))
  | disconnect : Own s n c (.disconnect c) .disconnect
  | publish (now : ℤ) (p : PublishPacket) (retain : Bool) {store : Store} (hid : store.dbId ≤ n)
      (hqos : store.qos = 2) (htopic : store.topic ≠ [] → validTopic store.topic) :
      Own s n c (.publish now c p) (.publish now p.mid retain store)
  | pubackcomp (now : ℤ) (mid : ℕ) : Own s n c (.pubackcomp now c mid) (.pubackcomp now mid)
  | pubrec (now : ℤ) (mid : ℕ) : Own s n c (.pubrec now c mid) (.pubrec now mid)
  | pubrel (now : ℤ) (mid : ℕ) : Own s n c (.pubrel now c mid) (.pubrel now mid (echo E c s))
  | write (now : ℤ) (ok : ℕ → Bool) : Own s n c (.write now c ok) (.write now ok)
  | timeoutCheck (now timeout : ℤ) : Own s n c (.timeoutCheck now timeout) (.timeoutCheck now timeout)

variable (E) in
/-- A message that a step brings for a client, who may read it: a retained one, or one
that has an id, and QoS 0 only if it is the one that is published. -/
def Offered (s : Server C) (n : ℕ) (op : ServerOp C) (c : C) (i : Insert) : Prop :=
  E.acl c i.store.topic = .success ∧
    (i.retain = true ∨ i.store.dbId ≤ n ∧ (i.store.qos = 0 → (publishedQos0 E s.view op).isSome))

variable (E) in
/-- What a step is for one client: a step of its own queue, or messages for it. -/
def Concerns (s : Server C) (op : ServerOp C) (r : Server C × Log C) (c : C) : Prop :=
  (∃ sop, Own E s r.1.lastDbId c op sop ∧ sessionStep E.limits (s.queue c) sop = some (part c r)) ∨
    ∃ now is, part c r = insertsOut E.limits now is (s.queue c) ∧ ∀ i ∈ is, Offered E s r.1.lastDbId op c i

theorem concerns_inserts (now : ℤ) {is : List Insert} {s : Server C} {op : ServerOp C} {r : Server C × Log C} {c : C}
    (h : sessionRun E.limits (s.queue c) (is.map (.insertOut now)) = some (part c r))
    (his : ∀ i ∈ is, Offered E s r.1.lastDbId op c i) : Concerns E s op r c :=
  Or.inr ⟨now, is, (Option.some.inj ((sessionRun_inserts now is _).symm.trans h)).symm, his⟩

theorem concerns_nil {s : Server C} {op : ServerOp C} {r : Server C × Log C} {c : C}
    (h : sessionRun E.limits (s.queue c) [] = some (part c r)) : Concerns E s op r c :=
  concerns_inserts 0 (by exact h) fun _ => List.not_mem_nil.elim

/-- A step of one queue. -/
theorem concerns_own {s : Server C} {op : ServerOp C} {sop : SessionOp} {r : Server C × Log C} {c c' : C}
    (h : sessionRun E.limits (s.queue c) (if c' = c then [sop] else []) = some (part c r))
    (hown : Own E s r.1.lastDbId c' op sop) : Concerns E s op r c := by
  by_cases hc : c' = c
  · subst hc
    rw [if_pos rfl, sessionRun_one] at h
    exact Or.inl ⟨sop, hown, h⟩
  · rw [if_neg hc] at h
    exact concerns_nil h

/-- A new message is offered to those who may read it. -/
theorem offered_newMessage {s : Server C} {op : ServerOp C} {source : List Char} {p : PublishPacket} {n : ℕ} {c : C}
    {db : Db C} (hn : s.lastDbId + 1 ≤ n) (h0 : p.qos = 0 → (publishedQos0 E s.view op).isSome) :
    ∀ i ∈ insertsFor E c (newMessage source p s).1 db, Offered E s n op c i := by
  intro i hi
  have hacl := acl_of_insertsFor hi
  rw [Offered, store_of_insertsFor hi]
  exact ⟨hacl, Or.inr ⟨hn, fun h => h0 (Fin.ext h)⟩⟩

theorem concerns_publishQos2 {s : Server C} {now : ℤ} {c' : C} {p p' : PublishPacket}
    (hconn : (s.queue c').connected = true) (hmid : p'.mid = p.mid) (h2 : p'.qos = 2)
    (ht : p'.topic ≠ [] → validTopic p'.topic) (c : C) :
    Concerns E s (.publish now c' p) (publishQos2 E now c' p' s) c := by
  rw [publishQos2, hmid]
  cases hfind : mqtt3DbMessageStoreFind p.mid (s.queue c') with
  | some st =>
    -- the message is there, and what came with it is not looked at
    have hx : sessionStep E.limits (s.queue c') (.publish now p.mid p'.retain ⟨0, [], 0, [], 2, false, []⟩) =
        some (handlePublish E.limits now p.mid p'.retain (mqtt3DbMessageStore (E.id c') p' s).1 (s.queue c')) := by
      rw [sessionStep, if_pos hconn, handlePublish, handlePublish, hfind]
    refine concerns_own (calls_onQueue hx (by rfl) c) ?_
    exact .publish now p p'.retain (Nat.zero_le _) rfl fun h => absurd rfl h
  | none =>
    have hx : sessionStep E.limits (s.queue c')
        (.publish now p.mid p'.retain (mqtt3DbMessageStore (E.id c') p' s).1) =
        some (handlePublish E.limits now p.mid p'.retain (mqtt3DbMessageStore (E.id c') p' s).1 (s.queue c')) := by
      rw [sessionStep, if_pos hconn]
    refine concerns_own (calls_onQueue hx (by rfl) c) ?_
    exact .publish now p p'.retain (le_refl _) (by simp [mqtt3DbMessageStore, h2]) ht

theorem concerns_publish {s : Server C} {now : ℤ} {c' : C} {p p' : PublishPacket} {r : Server C × Log C}
    (ho : Orderly s (.publish now c' p)) (hconn : (s.queue c').connected = true)
    (hp : checkPublish E c' p = some p') (h : mqtt3HandlePublish E now c' p s = some r) (c : C) :
    Concerns E s (.publish now c' p) r c := by
  rw [mqtt3HandlePublish, hp] at h
  dsimp only at h
  split at h
  · rename_i h2
    obtain rfl := Option.some.inj h
    rcases checkPublish_cases hp with ⟨htopic, -, hmid⟩ | ⟨ht, -, -, rfl⟩
    · exact concerns_publishQos2 hconn hmid h2 (fun h => absurd htopic h) c
    · have h0 : p.qos ≠ 0 := by
        intro h0
        simp [h0] at h2
      rw [if_neg h0] at h2 ⊢
      exact concerns_publishQos2 hconn rfl h2 (fun _ => ht) c
  · rename_i h2
    have hheld := ho.held hp h2
    rw [publishNow_new now hheld] at h
    obtain rfl := Option.some.inj h
    refine concerns_inserts now (calls_messagesQueue (s := s) now (by rfl) (by rfl) c) (offered_newMessage ?_ ?_)
    · rw [newMessage_lastDbId]
    · intro h0
      rcases checkPublish_cases hp with ⟨-, h2', -⟩ | ⟨ht, hsize, hacl, rfl⟩
      · exact absurd h2' h2
      · have h0' : p.qos = 0 := by
          by_contra hn
          rw [if_neg hn] at h0
          exact hn h0
        have hc : (s.view.links c').1 = true := hconn
        rw [publishedQos0, if_pos ⟨hc, ht, hsize, hacl, h0'⟩]
        rfl

theorem offered_released {s : Server C} {now : ℤ} {c c' : C} {mid : ℕ} {x : Client × List Event} {op : ServerOp C}
    {n : ℕ} (hI : ServerInv E strict s)
    (hx : sessionStep E.limits (s.queue c') (.pubrel now mid (echo E c' s)) = some x) (hn : s.lastDbId ≤ n) :
    ∀ i ∈ forwardedInserts E now c' c (forwarded x.2) (onQueue c' x s).1, Offered E s n op c i := by
  intro i hi
  obtain ⟨d, hd, db, hi⟩ := mem_forwardedInserts hi
  have hd' := (incoming_of_forwarded hI hx hd).1
  have hacl := acl_of_insertsFor hi
  rw [Offered, store_of_insertsFor hi]
  exact ⟨hacl, Or.inr ⟨hd'.dbId.trans hn, fun h => by simp [Delivery.publish, hd'.qos] at h⟩⟩

theorem offered_retained {s : Server C} {op : ServerOp C} {n : ℕ} {c : C} {sub : List Char} {qos : ℕ} {db : Db C} :
    ∀ i ∈ retainedInserts E c sub qos db, Offered E s n op c i := by
  intro i hi
  obtain ⟨e, -, he⟩ := List.mem_filterMap.mp hi
  obtain ⟨x, hx, rfl⟩ := Option.map_eq_some_iff.mp he
  refine ⟨?_, Or.inl rfl⟩
  unfold retainProcess at hx
  split at hx
  · rename_i hacl
    obtain rfl := Option.some.inj hx
    exact hacl
  · cases hx

/-- **What a step is for one client.** -/
theorem serverStep_part {s : Server C} {op : ServerOp C} {r : Server C × Log C} (hI : ServerInv E strict s)
    (ho : Orderly s op) (h : serverStep E s op = some r) (c : C) : Concerns E s op r c := by
  have hrun := serverStep_calls h c
  cases op with
  | connect c' cleanSession => exact concerns_own hrun (.connect cleanSession)
  | disconnect c' => exact concerns_own hrun .disconnect
  | subscribe now c' sub qos =>
    rw [calls] at hrun
    split at hrun
    · rename_i hc
      obtain rfl := hc.1
      exact concerns_inserts now hrun offered_retained
    · exact concerns_nil hrun
  | unsubscribe c' sub => exact concerns_nil hrun
  | publish now c' p =>
    rw [serverStep] at h
    split at h
    · rename_i hconn
      cases hp : checkPublish E c' p with
      | none =>
        rw [calls, if_pos hconn, hp] at hrun
        exact concerns_nil hrun
      | some p' => exact concerns_publish ho hconn hp h c
    · rename_i hconn
      rw [calls, if_neg hconn] at hrun
      exact concerns_nil hrun
  | easyQueue now context p =>
    obtain rfl := Option.some.inj h
    rw [calls] at hrun
    split at hrun
    · rename_i ht
      refine concerns_inserts now hrun (offered_newMessage ?_ fun h0 => ?_)
      · rw [mqtt3DbMessagesEasyQueue, if_pos ht, newMessage_lastDbId]
      · rw [publishedQos0, if_pos ⟨ht, h0⟩]
        rfl
    · exact concerns_nil hrun
  | pubackcomp now c' mid => exact concerns_own hrun (.pubackcomp now mid)
  | pubrec now c' mid => exact concerns_own hrun (.pubrec now mid)
  | pubrel now c' mid =>
    by_cases hc : c' = c
    · subst hc
      rw [calls, if_pos rfl, sessionRun_one] at hrun
      exact Or.inl ⟨_, .pubrel now mid, hrun⟩
    · have h' := h
      obtain ⟨x, hx, rfl⟩ := Option.map_eq_some_iff.mp h
      rw [calls, if_neg hc, releaseCalls, hx] at hrun
      exact concerns_inserts now hrun (offered_released hI hx (serverStep_db hI h').2.2)
  | write now c' ok => exact concerns_own hrun (.write now ok)
  | timeoutCheck now timeout =>
    rw [calls, sessionRun_one] at hrun
    exact Or.inl ⟨_, .timeoutCheck now timeout, hrun⟩

/-- Where a client neither connects nor disconnects, its connection stays. -/
theorem Concerns.link {s : Server C} {op : ServerOp C} {r : Server C × Log C} {c : C}
    (h : Concerns E s op r c) {strict : Prop} (hI : QueueInv E.limits strict (s.queue c))
    (hconn : ∀ cleanSession, op ≠ .connect c cleanSession) (hdisc : op ≠ .disconnect c) :
    (r.1.queue c).link = (s.queue c).link := by
  rcases h with ⟨sop, hown, hstep⟩ | ⟨now, is, hpart, -⟩
  · have hlink : (r.1.queue c).link = linkStep (s.queue c).link sop := link_sessionStep hI hstep
    rw [hlink]
    cases hown with
    | connect cleanSession => exact absurd rfl (hconn cleanSession)
    | disconnect => exact absurd rfl hdisc
    | publish => rfl
    | pubackcomp => rfl
    | pubrec => rfl
    | pubrel => rfl
    | write => rfl
    | timeoutCheck => rfl
  · have hq : r.1.queue c = (insertsOut E.limits now is (s.queue c)).1 := congrArg Prod.fst hpart
    rw [hq, link_insertsOut]

theorem links_update {s s' : Server C} {c : C} {x : Client × List Event} {link : Bool × Bool}
    (hx : x.1.link = link) (hq : s'.queue = s.queue) (c' : C) :
    ((onQueue c x s').1.view).links c' = Function.update s.view.links c link c' := by
  by_cases hc : c' = c
  · subst hc
    have : (onQueue c' x s').1.queue c' = x.1 := congrArg Prod.fst (part_onQueue_self c' x s')
    simp [Server.view, this, hx]
  · have : (onQueue c x s').1.queue c' = s'.queue c' := congrArg Prod.fst (part_onQueue_other hc x s')
    simp [Server.view, this, hq, hc]

/-- **What a step means for all.** The subscriptions and connections after a step are
those that the request asks for. -/
theorem serverStep_view {s : Server C} {op : ServerOp C} {r : Server C × Log C} (hI : ServerInv E strict s)
    (ho : Orderly s op) (h : serverStep E s op = some r) : r.1.view = s.view.step op := by
  refine View.ext (serverStep_db hI h).2.1 (funext fun c => ?_)
  have hpart := serverStep_part hI ho h c
  have hkeep : (∀ cleanSession, op ≠ .connect c cleanSession) → op ≠ .disconnect c →
      r.1.view.links c = s.view.links c := hpart.link (hI.queue c)
  cases op with
  | connect c' cleanSession =>
    obtain ⟨x, hx, rfl⟩ := Option.map_eq_some_iff.mp h
    have hx' : sessionStep E.limits (s.queue c') (.connect cleanSession (E.mayRead c')) = some x := hx
    refine links_update (link_sessionStep (hI.queue c') hx') ?_ c
    split <;> rfl
  | disconnect c' =>
    obtain rfl := Option.some.inj h
    have hx : sessionStep E.limits (s.queue c') .disconnect = some _ := rfl
    refine links_update (link_sessionStep (hI.queue c') hx) ?_ c
    split <;> rfl
  | subscribe now c' sub qos =>
    rw [hkeep (by simp) (by simp), View.step]
    split <;> rfl
  | unsubscribe c' sub =>
    rw [hkeep (by simp) (by simp), View.step]
    split <;> rfl
  | publish => exact hkeep (by simp) (by simp)
  | easyQueue => exact hkeep (by simp) (by simp)
  | pubackcomp => exact hkeep (by simp) (by simp)
  | pubrec => exact hkeep (by simp) (by simp)
  | pubrel => exact hkeep (by simp) (by simp)
  | write => exact hkeep (by simp) (by simp)
  | timeoutCheck => exact hkeep (by simp) (by simp)

omit [DecidableEq C] in
/-- A client that takes its session up may read all of it. -/
theorem ServerInv.unbarred {s : Server C} (hI : ServerInv E strict s) (c : C) (cleanSession : Bool) :
    Unbarred (s.queue c) (.connect cleanSession (E.mayRead c)) := by
  intro _ _ d hd
  rw [barred, decide_eq_false_iff_not]
  rintro ⟨hout, hread⟩
  simp [Config.mayRead, hI.readable c d hd hout] at hread

theorem Concerns.moves {s : Server C} {op : ServerOp C} {r : Server C × Log C} {c : C}
    (h : Concerns E s op r c) (hI : ServerInv E strict s) (hop : strict c → ∀ now, op ≠ .pubrec now c 0) :
    Moves E.limits (strict c) (s.queue c) (trace c r.2) (r.1.queue c) := by
  rcases h with ⟨sop, hown, hstep⟩ | ⟨now, is, hpart, -⟩
  · have hread : Unbarred (s.queue c) sop := by
      cases hown with
      | connect cleanSession => exact hI.unbarred c cleanSession
      | _ => trivial
    have hsop : strict c → ∀ now, sop ≠ .pubrec now 0 := by
      rintro hs now rfl
      cases hown
      exact hop hs now rfl
    obtain ⟨q', e, hstep', hmv⟩ := sessionStep_moves (hI.queue c) sop hread hsop
    obtain ⟨rfl, rfl⟩ := Prod.mk.inj (Option.some.inj (hstep.symm.trans hstep'))
    exact hmv
  · have hmv : Moves E.limits (strict c) _ _ _ := insertsOut_moves now is (s.queue c)
    rw [← hpart] at hmv
    exact hmv

/-- What is so of the messages that are taken into the queue of a client. -/
structure TakenIn (E : Config C) (n : ℕ) (c : C) (d : Delivery) : Prop where
  incoming : d.direction = .mdIn → Incoming n d
  dest : notesDest E.limits d → d.store.dbId ≤ n
  readable : d.direction = .mdOut → E.acl c d.store.topic = .success

theorem Concerns.accept {s : Server C} {op : ServerOp C} {r : Server C × Log C} {c : C} {d : Delivery}
    (h : Concerns E s op r c) (hI : ServerInv E strict s) (hid : s.lastDbId ≤ r.1.lastDbId)
    (hd : .accept d ∈ trace c r.2) : TakenIn E r.1.lastDbId c d := by
  rcases h with ⟨sop, hown, hstep⟩ | ⟨now, is, hpart, his⟩
  · have htaken : Taken (s.queue c) d sop := sessionStep_reports hstep _ hd
    cases hown with
    | publish now p retain hid' hqos htopic =>
      obtain rfl := htaken
      exact ⟨fun _ => ⟨hid', hqos, htopic⟩, fun _ => hid', nofun⟩
    | pubrel now mid =>
      obtain ⟨d₀, hd₀, hin, i, hi, mid', rfl⟩ := htaken
      have hstore : i.store = d₀.store := store_of_insertsFor hi
      refine ⟨nofun, fun _ => ?_, fun _ => ?_⟩
      · rw [Insert.delivery, hstore]
        exact (hI.incoming c d₀ hd₀ hin).dbId.trans hid
      · rw [Insert.delivery, hstore]
        exact acl_of_insertsFor hi
    | connect => exact htaken.elim
    | disconnect => exact htaken.elim
    | pubackcomp => exact htaken.elim
    | pubrec => exact htaken.elim
    | write => exact htaken.elim
    | timeoutCheck => exact htaken.elim
  · have htrace : trace c r.2 = (insertsOut E.limits now is (s.queue c)).2 := congrArg Prod.snd hpart
    rw [htrace] at hd
    obtain ⟨i, hi, mid, rfl⟩ := taken_insertsOut hd
    obtain ⟨hacl, hor⟩ := his i hi
    refine ⟨nofun, fun hn => ?_, fun _ => hacl⟩
    rcases hor with hr | ⟨hle, -⟩
    · exact absurd hn.2.2 (by simp [Insert.delivery, hr])
    · exact hle

theorem serverStep_inv {s : Server C} {op : ServerOp C} {r : Server C × Log C} (hI : ServerInv E strict s)
    (ho : Orderly s op) (h : serverStep E s op = some r) (hop : ∀ c, strict c → ∀ now, op ≠ .pubrec now c 0) :
    ServerInv E strict r.1 := by
  obtain ⟨hdb, -, hid⟩ := serverStep_db hI h
  have hpart := serverStep_part hI ho h
  have hmv : ∀ c, Moves E.limits (strict c) (s.queue c) (trace c r.2) (r.1.queue c) := fun c =>
    (hpart c).moves hI (hop c)
  have htaken : ∀ {c d}, .accept d ∈ trace c r.2 → TakenIn E r.1.lastDbId c d := fun {c d} hd =>
    (hpart c).accept hI hid hd
  refine ⟨hdb, fun c => (hmv c).inv (hI.queue c), fun c d hd hin => ?_, fun c n hn => ?_, fun c d hd hout => ?_⟩
  · rcases (hmv c).mem_deliveries (hI.queue c) hd with hd | hd
    · have := hI.incoming c d hd hin
      exact ⟨this.dbId.trans hid, this.qos, this.topic⟩
    · exact (htaken hd).incoming hin
  · rw [(hmv c).dests.1, List.mem_append, List.mem_reverse] at hn
    rcases hn with hn | hn
    · obtain ⟨x, hx, hxn⟩ := List.mem_filterMap.mp hn
      cases x with
      | accept d =>
        simp only at hxn
        split at hxn
        · rename_i hnotes
          obtain rfl := Option.some.inj hxn
          exact (htaken hx).dest hnotes
        · cases hxn
      | _ => cases hxn
    · exact (hI.dests c n hn).trans hid
  · rcases (hmv c).mem_deliveries (hI.queue c) hd with hd | hd
    · exact hI.readable c d hd hout
    · exact (htaken hd).readable hout

theorem serverOpen_inv (h : ∀ c, strict c → E.limits.queueQos0Messages = false) :
    ServerInv E strict (serverOpen : Server C) where
  db := run_inv E.toContexts []
  queue := fun c => .empty rfl rfl rfl fun hs => ⟨h c hs, rfl⟩
  incoming := fun _ d hd => by simp [serverOpen, absent, Client.deliveries] at hd
  dests := fun _ n hn => by simp [serverOpen, absent] at hn
  readable := fun _ d hd => by simp [serverOpen, absent, Client.deliveries] at hd

theorem serverOpen_view : (serverOpen : Server C).view = View.init := View.ext table_open rfl

/-- No step of an orderly run gets stuck. -/
theorem exists_serverStep {s : Server C} {op : ServerOp C} (hI : ServerInv E strict s) (ho : Orderly s op)
    (hop : ∀ c, strict c → ∀ now, op ≠ .pubrec now c 0) : ∃ r, serverStep E s op = some r := by
  have hqueue : ∀ c sop, Unbarred (s.queue c) sop → (strict c → ∀ now, sop ≠ .pubrec now 0) →
      ∃ x, sessionStep E.limits (s.queue c) sop = some x := by
    intro c sop hread hsop
    obtain ⟨q', e, hstep, -⟩ := sessionStep_moves (hI.queue c) sop hread hsop
    exact ⟨(q', e), hstep⟩
  cases op with
  | connect c cleanSession =>
    obtain ⟨x, hx⟩ := hqueue c _ (hI.unbarred c cleanSession) (by simp)
    exact ⟨_, Option.map_eq_some_iff.mpr ⟨x, hx, rfl⟩⟩
  | publish now c p =>
    rw [serverStep]
    split
    · unfold mqtt3HandlePublish
      split
      · exact ⟨_, rfl⟩
      · rename_i p' hp
        split
        · exact ⟨_, rfl⟩
        · rename_i h2
          exact ⟨_, publishNow_new now (ho.held hp h2)⟩
    · exact ⟨_, rfl⟩
  | pubackcomp now c mid =>
    obtain ⟨x, hx⟩ := hqueue c (.pubackcomp now mid) trivial (by simp)
    exact ⟨_, by rw [serverStep, queueStep, hx]; rfl⟩
  | pubrec now c mid =>
    obtain ⟨x, hx⟩ := hqueue c (.pubrec now mid) trivial fun hs now' h => by
      obtain ⟨rfl, rfl⟩ := SessionOp.pubrec.inj h
      exact hop c hs now rfl
    exact ⟨_, by rw [serverStep, queueStep, hx]; rfl⟩
  | pubrel now c mid =>
    obtain ⟨x, hx⟩ := hqueue c (.pubrel now mid (echo E c s)) trivial (by simp)
    exact ⟨_, by rw [serverStep, handlePubrel, hx]; rfl⟩
  | write now c ok =>
    obtain ⟨x, hx⟩ := hqueue c (.write now ok) trivial (by simp)
    exact ⟨_, by rw [serverStep, queueStep, hx]; rfl⟩
  | _ => exact ⟨_, rfl⟩

/-! ### Runs -/

/-- What every step keeps, with what the requests amount to on the side, holds at the
end of an orderly run. -/
theorem serverRun_keeps {α : Type} (next : α → ServerOp C → α) (R : Server C → Log C → α → Prop)
    (hR : ∀ {s : Server C} {log : Log C} {a : α} {op : ServerOp C} {r : Server C × Log C},
      ServerInv E strict s → Orderly s op → serverStep E s op = some r →
        (∀ c, strict c → ∀ now, op ≠ .pubrec now c 0) → R s log a → R r.1 (log ++ r.2) (next a op))
    {ops : List (ServerOp C)} (hops : ∀ c, strict c → ∀ now, .pubrec now c 0 ∉ ops) {s : Server C} (log : Log C)
    (a : α) (ho : OrderlyRun E s ops) (hI : ServerInv E strict s) (h0 : R s log a) :
    ∃ s' log', serverRun E s ops = some (s', log') ∧ ServerInv E strict s' ∧
      R s' (log ++ log') (ops.foldl next a) := by
  induction ops generalizing s log a with
  | nil => exact ⟨s, [], rfl, hI, by simpa using h0⟩
  | cons op ops ih =>
    have hop : ∀ c, strict c → ∀ now, op ≠ .pubrec now c 0 := fun c hs now h => hops c hs now (by simp [h])
    have hrest : ∀ c, strict c → ∀ now, .pubrec now c 0 ∉ ops := fun c hs now h =>
      hops c hs now (List.mem_cons_of_mem _ h)
    obtain ⟨ho₁, ho'⟩ := ho
    obtain ⟨⟨s₁, log₁⟩, hstep⟩ := exists_serverStep hI ho₁ hop
    rw [hstep] at ho'
    obtain ⟨s', log', hrun, hI', hR'⟩ :=
      ih hrest _ _ ho' (serverStep_inv hI ho₁ hstep hop) (hR hI ho₁ hstep hop h0)
    refine ⟨s', log₁ ++ log', ?_, hI', ?_⟩
    · simp only [serverRun, hstep, hrun, Option.map_some]
    · rw [← List.append_assoc]
      exact hR'

/-- The invariant holds after every orderly run. -/
theorem exists_serverRun {ops : List (ServerOp C)} (ho : OrderlyRun E serverOpen ops) :
    ∃ s log, serverRun E serverOpen ops = some (s, log) ∧ ServerInv E (fun _ => False) s := by
  have hI : ServerInv E (fun _ => False) (serverOpen : Server C) := serverOpen_inv fun _ => False.elim
  obtain ⟨s, log, hrun, hI', -⟩ := serverRun_keeps (fun _ _ => ()) (fun _ _ _ => True)
    (fun _ _ _ _ _ => trivial) (fun _ h => h.elim) [] () ho hI trivial
  exact ⟨s, log, hrun, hI'⟩

theorem serverRun_inv {ops : List (ServerOp C)} {s : Server C} {log : Log C} (ho : OrderlyRun E serverOpen ops)
    (h : serverRun E serverOpen ops = some (s, log)) : ServerInv E (fun _ => False) s := by
  obtain ⟨s', log', hrun, hI⟩ := exists_serverRun ho
  obtain ⟨rfl, -⟩ := Prod.mk.inj (Option.some.inj (hrun.symm.trans h))
  exact hI

end Broker
end BlenderBottle
