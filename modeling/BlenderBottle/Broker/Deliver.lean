/-
# From publisher to subscriber

What a client of the broker gets, in the orderly runs of a broker that is configured
as by default in what bears on it (`Config.Plain`). A message that is published with QoS 0
reaches every client that is connected and has a subscription that matches, whatever other
subscriptions it has: what was sent to the client and what is still in its queue is, in
this order, what was published for it since its session began (`serverRun_qos0`). The
specification is a run of its own, on a table of subscriptions and the clients'
connections (`heard`).

No client is given the same stored message twice, by overlapping subscriptions, by a
release or in a later session (`serverRun_once`). A message that is published with QoS 0
or 1 is taken in by every client with a subscription that matches, as long as it has
room in its queue (`serverRun_taken`).

Key definitions: `Hears`, `hearStep`, `heard`.
Key theorems: `serverRun_qos0`, `serverRun_once`, `serverRun_taken`.
-/
import BlenderBottle.Broker.ServerRun

namespace BlenderBottle
namespace Broker

open Wildcard

variable {C : Type} [DecidableEq C] {E : Config C} {strict : C → Prop}

/-! ### Traces -/

/-- The messages that events take in. -/
def takenIn (p : Delivery → Bool) (e : List Event) : List Delivery :=
  e.filterMap fun
    | .accept d => if p d then some d else none
    | _ => none

theorem accepted_append (p : Delivery → Bool) (e : List Event) {e' : List Event} (h : .clean ∉ e') :
    accepted p (e ++ e') = accepted p e ++ takenIn p e' := by
  induction e' using List.reverseRecOn with
  | nil => simp [takenIn]
  | append_singleton e' x ih =>
    have hx : x ≠ .clean := fun hx => h (by simp [hx])
    have ih' := ih fun h' => h (List.mem_append_left _ h')
    rw [← List.append_assoc, accepted_concat]
    cases x with
    | accept d => by_cases hd : p d <;> simp [takenIn, List.filterMap_append, hd] at ih' ⊢ <;> simp [ih']
    | clean => exact absurd rfl hx
    | _ => simp [takenIn, List.filterMap_append] at ih' ⊢; exact ih'

theorem takenIn_eq_nil {p : Delivery → Bool} {e : List Event} (h : ∀ d, .accept d ∈ e → p d = false) :
    takenIn p e = [] := by
  rw [takenIn, List.filterMap_eq_nil_iff]
  intro x hx
  cases x with
  | accept d => simp [h d hx]
  | _ => rfl

/-! ### What a client hears -/

/-- The session of a client comes to its end. -/
def EndsSession (v : View C) (c : C) : ServerOp C → Prop
  | .connect c' cleanSession => c' = c ∧ ¬ v.goesOn c cleanSession
  | .disconnect c' => c' = c ∧ (v.links c).2 = true
  | _ => False

theorem clean_of_concerns {s : Server C} {op : ServerOp C} {r : Server C × Log C} {c : C}
    (h : Concerns E s op r c) (hends : ¬ EndsSession s.view c op) : .clean ∉ trace c r.2 := by
  intro hc
  rcases h with ⟨sop, hown, hstep⟩ | ⟨now, is, hpart, -⟩
  · rcases sessionStep_reports hstep _ hc with ⟨rfl, hq⟩ | ⟨cleanSession, mayRead, rfl, hg⟩
    · cases hown
      exact hends ⟨rfl, hq⟩
    · cases hown
      exact hends ⟨rfl, hg⟩
  · obtain ⟨ds, hds⟩ := exists_accept_insertsOut (L := E.limits) now is (s.queue c)
    have htrace : trace c r.2 = ds.map .accept := (congrArg Prod.snd hpart).trans hds
    rw [htrace] at hc
    simp at hc

theorem trace_of_endsSession {s : Server C} {op : ServerOp C} {r : Server C × Log C} {c : C}
    (h : serverStep E s op = some r) (hends : EndsSession s.view c op) : trace c r.2 = [.clean] := by
  cases op with
  | connect c' cleanSession =>
    obtain ⟨rfl, hg⟩ := hends
    obtain ⟨x, hx, rfl⟩ := Option.map_eq_some_iff.mp h
    refine (congrArg Prod.snd (part_onQueue_self c' x _)).trans ?_
    exact (handleConnect_events hx).elim (fun h => absurd h.1 hg) And.right
  | disconnect c' =>
    obtain ⟨rfl, hq⟩ := hends
    obtain rfl := Option.some.inj h
    have hpart : ∀ s', part c' (onQueue c' (disconnect (s.queue c')) s') = disconnect (s.queue c') :=
      part_onQueue_self c' _
    refine (congrArg Prod.snd (hpart _)).trans ?_
    have hq' : (s.queue c').cleanSession = true := hq
    rw [disconnect, if_pos hq']
  | _ => exact hends.elim

variable (E) in
/-- A client gets a message that is published now: it is connected, has a subscription
that matches, and may read the topic. -/
def Hears (v : View C) (c : C) (topic : List Char) : Prop :=
  (v.links c).1 = true ∧ (∃ f, Matches plus hash f (subTopicTokenise topic) ∧ v.table f c ≠ none) ∧
    E.acl c topic ≠ .denied

open Classical in
variable (E) in
/-- What a client hears of QoS 0 since its session began, request by request. -/
noncomputable def hearStep (c : C) (a : View C × List (List Char × List UInt8)) (op : ServerOp C) :
    View C × List (List Char × List UInt8) :=
  (a.1.step op,
    if EndsSession a.1 c op then []
    else
      match publishedQos0 E a.1 op with
      | some (_, p) => if Hears E a.1 c p.topic then a.2 ++ [(p.topic, p.payload)] else a.2
      | none => a.2)

variable (E) in
/-- What a client is to hear in a run. -/
noncomputable def heard (c : C) (ops : List (ServerOp C)) : List (List Char × List UInt8) :=
  (ops.foldl (hearStep E c) (View.init, [])).2

/-! ### What a message brings -/

/-- The calls for a client that is no bridge: one for each of its subscriptions that
matches. -/
theorem mem_insertsFor {db : Db C} (hI : Inv db) {m : Publish} {source : List Char} (hs : m.source = some source)
    (hacl : ∀ c, E.acl c m.topic ≠ .error) (ht : pubTopicCheck m.topic = .success)
    (hup : E.upgradeOutgoingQos = false) {c : C} (hb : E.isBridge c = false) {i : Insert} :
    i ∈ insertsFor E c m db ↔ E.acl c m.topic ≠ .denied ∧
      ∃ f q, Matches plus hash f (subTopicTokenise m.topic) ∧ table db f c = some q ∧
        i = ⟨Fin.ofNat 3 (min m.qos q), false, m.stored⟩ := by
  obtain ⟨found, -, hfound, hreq⟩ := exists_requests E.toContexts hI hs hacl ht
  simp only [insertsFor, hreq, List.mem_map, List.mem_filter, List.mem_filterMap, decide_eq_true_eq]
  constructor
  · rintro ⟨r, ⟨⟨⟨f, leaf⟩, hmem, hr⟩, rfl⟩, rfl⟩
    rw [request] at hr
    split at hr
    · cases hr
    · rename_i hn
      obtain rfl := Option.some.inj hr
      obtain ⟨hmatch, htab⟩ := (hfound f leaf).mp hmem
      refine ⟨fun hd => hn (Or.inr hd), f, leaf.qos, hmatch, htab, ?_⟩
      simp [Request.insert, hup, hb]
  · rintro ⟨hd, f, q, hmatch, htab, rfl⟩
    have hn : ¬ (E.isBridge c = true ∧ E.id c = source ∨ E.acl c m.topic = .denied) := by simp [hb, hd]
    refine ⟨⟨c, min m.qos q, false⟩, ⟨⟨(f, ⟨c, q⟩), (hfound f ⟨c, q⟩).mpr ⟨hmatch, htab⟩, ?_⟩, rfl⟩, rfl⟩
    rw [request, if_neg hn]
    simp [hup, hb]

/-- The broker that the results are about: it does not keep QoS 0 messages for absent
clients nor send a message twice, its access checks do not fail, and it does not raise
the QoS of a message. All but the access checks are so without configuration. -/
structure Config.Plain (E : Config C) : Prop where
  queueQos0 : E.limits.queueQos0Messages = false
  duplicates : E.limits.allowDuplicateMessages = false
  acl : ∀ c topic, E.acl c topic ≠ .error
  upgrade : E.upgradeOutgoingQos = false

theorem defaultConfig_plain : defaultConfig.Plain := ⟨rfl, rfl, by simp [defaultConfig, defaultContexts], rfl⟩

/-- A new message is taken in once, if the client takes one of the calls for it. -/
theorem trace_newMessage (hE : E.Plain) (now : ℤ) {s : Server C} (hI : ServerInv E strict s) (source : List Char)
    {p : PublishPacket} (ht : validTopic p.topic) {c : C} (hb : E.isBridge c = false) :
    ∃ mid, trace c (messagesQueue E now (fun _ => true) (newMessage source p s).1 (newMessage source p s).2).2 =
      ((insertsFor E c (newMessage source p s).1 s.db).find? fun i =>
        Takes E.limits (s.queue c) i.qos).toList.map fun i => .accept (i.delivery mid) := by
  set m := (newMessage source p s).1
  have hpart := congrArg Prod.snd (part_messagesQueue (E := E) now (fun _ => true) m (newMessage source p s).2 c)
  rw [if_pos rfl] at hpart
  have hnew : m.stored.dbId ∉ (s.queue c).dests := fun h => Nat.not_succ_le_self _ (hI.dests c _ h)
  obtain ⟨mid, hmid⟩ := insertsOut_once hE.duplicates now (insertsFor E c m s.db) m.stored
    (fun i hi => by
      obtain ⟨-, f, q, -, -, rfl⟩ :=
        (mem_insertsFor hI.db (m := m) rfl (fun c => hE.acl c _) ht.2 hE.upgrade hb).mp hi
      exact ⟨rfl, rfl⟩) hnew
  exact ⟨mid, hpart.trans hmid⟩

/-! ### QoS 0 -/

/-- A message of QoS 0 that was published, not retained. -/
def freshQos0 (d : Delivery) : Bool := d.qos = 0 ∧ d.store.qos = 0 ∧ d.retain = false

/-- What a message says. -/
def Delivery.content (d : Delivery) : List Char × List UInt8 := (d.store.topic, d.store.payload)

/-- A step that publishes nothing with QoS 0 takes no such message in. -/
theorem takenIn_of_none {s : Server C} {op : ServerOp C} {r : Server C × Log C} {c : C}
    (hI : ServerInv E strict s) (h : Concerns E s op r c) (hpub : publishedQos0 E s.view op = none) :
    takenIn freshQos0 (trace c r.2) = [] := by
  refine takenIn_eq_nil fun d hd => ?_
  rw [freshQos0, decide_eq_false_iff_not]
  rintro ⟨h0, hs0, hr⟩
  rcases h with ⟨sop, hown, hstep⟩ | ⟨now, is, hpart, his⟩
  · have htaken : Taken (s.queue c) d sop := sessionStep_reports hstep _ hd
    cases hown with
    | publish =>
      obtain rfl := htaken
      simp at h0
    | pubrel now mid =>
      obtain ⟨d₀, hd₀, hin, i, hi, mid', rfl⟩ := htaken
      have hstore : i.store = d₀.store := store_of_insertsFor hi
      have hqos := (hI.incoming c d₀ hd₀ hin).qos
      rw [Insert.delivery, hstore, hqos] at hs0
      cases hs0
    | connect => exact htaken.elim
    | disconnect => exact htaken.elim
    | pubackcomp => exact htaken.elim
    | pubrec => exact htaken.elim
    | write => exact htaken.elim
    | timeoutCheck => exact htaken.elim
  · have htrace : trace c r.2 = (insertsOut E.limits now is (s.queue c)).2 := congrArg Prod.snd hpart
    rw [htrace] at hd
    obtain ⟨i, hi, mid, rfl⟩ := taken_insertsOut hd
    rcases (his i hi).2 with hr' | ⟨-, hsome⟩
    · simp [Insert.delivery, hr'] at hr
    · have := hsome hs0
      simp [hpub] at this

open Classical in
theorem takenIn_publishQos0 (hE : E.Plain) {s : Server C} (hI : ServerInv E strict s) {now : ℤ} {c : C}
    (hs : strict c) (hb : E.isBridge c = false) {source : List Char} {p : PublishPacket}
    (ht : validTopic p.topic) (h0 : p.qos = 0) :
    (takenIn freshQos0 (trace c (messagesQueue E now (fun _ => true) (newMessage source { p with mid := 0 } s).1
        (newMessage source { p with mid := 0 } s).2).2)).map Delivery.content =
      if Hears E s.view c p.topic then [(p.topic, p.payload)] else [] := by
  obtain ⟨mid, hmid⟩ := trace_newMessage hE now hI source (p := { p with mid := 0 }) ht hb
  rw [hmid]
  set m := (newMessage source { p with mid := 0 } s).1 with hm
  have hmem : ∀ i, i ∈ insertsFor E c m s.db ↔ _ := fun i =>
    mem_insertsFor hI.db (m := m) rfl (fun c => hE.acl c _) ht.2 hE.upgrade hb
  have hqos : ∀ i ∈ insertsFor E c m s.db, i = ⟨0, false, m.stored⟩ := by
    intro i hi
    obtain ⟨-, f, q, -, -, rfl⟩ := (hmem i).mp hi
    simp [hm, newMessage, PublishPacket.publish, h0]
  have htakes : ∀ i ∈ insertsFor E c m s.db,
      (Takes E.limits (s.queue c) i.qos ↔ (s.view.links c).1 = true) := by
    intro i hi
    obtain ⟨hq, hl⟩ := (hI.queue c).unkept hs
    rw [hqos i hi]
    simp [Takes, hq, hl, Server.view, Client.link]
  split
  · rename_i hears
    obtain ⟨hc, ⟨f, hmatch, hf⟩, hd⟩ := hears
    obtain ⟨q, hq⟩ := Option.ne_none_iff_exists'.mp hf
    have hi := (hmem _).mpr ⟨hd, f, q, hmatch, hq, rfl⟩
    generalize insertsFor E c m s.db = is at hi hqos htakes
    cases is with
    | nil => cases hi
    | cons i is =>
      have hi0 := hqos i List.mem_cons_self
      have ht0 := (htakes i List.mem_cons_self).mpr hc
      rw [List.find?_cons_of_pos (by simpa using ht0), hi0]
      simp [takenIn, freshQos0, Insert.delivery, Delivery.content, hm, newMessage, PublishPacket.publish,
        mqtt3DbMessageStore, h0]
  · rename_i hears
    have hnone : (insertsFor E c m s.db).find?
        (fun i => Takes E.limits (s.queue c) i.qos) = none := by
      rw [List.find?_eq_none]
      intro i hi
      obtain ⟨hd, f, q, hmatch, hq, -⟩ := (hmem i).mp hi
      rw [decide_eq_true_iff, htakes i hi]
      intro hc
      exact hears ⟨hc, ⟨f, hmatch, by simp [Server.view, hq]⟩, hd⟩
    rw [hnone]
    rfl

theorem accepted_filter (p q : Delivery → Bool) (e : List Event) (h : ∀ d, q d = true → p d = true) :
    (accepted p e).filter q = accepted q e := by
  induction e using List.reverseRecOn with
  | nil => rfl
  | append_singleton e x ih =>
    rw [accepted_concat, accepted_concat]
    cases x with
    | accept d =>
      by_cases hq : q d
      · simp [hq, h d hq, ih]
      · by_cases hp : p d <;> simp [hq, hp, ih]
    | clean => rfl
    | _ => exact ih

/-- The run of the broker and the run of the specification, for one client. -/
structure Agrees (c : C) (s : Server C) (log : Log C) (a : View C × List (List Char × List UInt8)) : Prop where
  view : s.view = a.1
  order : InOrderQos0 (s.queue c).deliveries (trace c log)
  heard : (accepted freshQos0 (trace c log)).map Delivery.content = a.2

theorem agrees_step (hE : E.Plain) {c : C} (hb : E.isBridge c = false) {s : Server C} {log : Log C}
    {a : View C × List (List Char × List UInt8)} {op : ServerOp C} {r : Server C × Log C}
    (hI : ServerInv E (· = c) s) (ho : Orderly s op) (hstep : serverStep E s op = some r)
    (hop : ∀ c', c' = c → ∀ now, op ≠ .pubrec now c' 0) (h : Agrees c s log a) :
    Agrees c r.1 (log ++ r.2) (hearStep E c a op) := by
  have hpart := serverStep_part hI ho hstep c
  have hmv := hpart.moves hI (hop c)
  refine ⟨?_, ?_, ?_⟩
  · rw [serverStep_view hI ho hstep, h.view]
    rfl
  · rw [trace_append]
    exact hmv.keeps (Effect.qos0 rfl) (hI.queue c) h.order
  · rw [trace_append, hearStep, ← h.view]
    dsimp only
    by_cases hends : EndsSession s.view c op
    · rw [if_pos hends, trace_of_endsSession hstep hends, accepted_concat]
      rfl
    · rw [if_neg hends, accepted_append _ _ (clean_of_concerns hpart hends), List.map_append, h.heard]
      cases hpub : publishedQos0 E s.view op with
      | none => rw [takenIn_of_none hI hpart hpub, List.map_nil, List.append_nil]
      | some x =>
        obtain ⟨source, p⟩ := x
        obtain ⟨ht, h0, now, hstep'⟩ := serverStep_publishedQos0 hpub
        obtain rfl := Option.some.inj (hstep.symm.trans hstep')
        rw [takenIn_publishQos0 hE hI rfl hb ht h0]
        dsimp only
        split <;> simp

theorem qos_of_freshQos0 (d : Delivery) (h : freshQos0 d = true) : decide (d.qos = 0) = true := by
  simp only [freshQos0, decide_eq_true_eq] at h
  simp [h.1]

theorem Agrees.sent {c : C} {s : Server C} {log : Log C} {a : View C × List (List Char × List UInt8)}
    (h : Agrees c s log a) :
    ((sentQos0 (trace c log) ++ pendingQos0 (s.queue c).deliveries).filter freshQos0).map Delivery.content =
      a.2 := by
  rw [h.order, accepted_filter _ _ _ qos_of_freshQos0, h.heard]

theorem Agrees.written {c : C} {s : Server C} {log : Log C} {a : View C × List (List Char × List UInt8)}
    (hI : ServerInv E (· = c) s) (h : Agrees c s log a) (hc : (s.queue c).connected) (now : ℤ) :
    ∃ r, serverStep E s (.write now c fun _ => true) = some r ∧
      ((sentQos0 (trace c (log ++ r.2))).filter freshQos0).map Delivery.content = a.2 := by
  obtain ⟨q', new, hw, hmv, hall⟩ := write_moves (hI.queue c) now fun _ => true
  have hq : sessionStep E.limits (s.queue c) (.write now fun _ => true) = some (q', new.map .send) := by
    simp only [sessionStep, hc, if_true, hw, Option.map_some]
  refine ⟨onQueue c (q', new.map .send) s, by rw [serverStep, queueStep, hq]; rfl, ?_⟩
  have htrace : trace c (onQueue c (q', new.map .send) s).2 = new.map .send :=
    congrArg Prod.snd (part_onQueue_self c (q', new.map .send) s)
  have horder : InOrderQos0 q'.deliveries (trace c log ++ new.map .send) :=
    hmv.keeps (Effect.qos0 rfl) (hI.queue c) h.order
  have hnone : pendingQos0 q'.deliveries = [] :=
    List.filter_eq_nil_iff.mpr fun d hd => by simpa using hall rfl (fun _ => rfl) d hd
  rw [InOrderQos0, hnone, List.append_nil] at horder
  have hsends : takenIn freshQos0 (new.map Event.send) = [] := takenIn_eq_nil fun d hd => by simp at hd
  rw [trace_append, htrace, horder, accepted_filter _ _ _ qos_of_freshQos0, accepted_append _ _ (by simp), hsends,
    List.append_nil, h.heard]

theorem serverRun_agrees (hE : E.Plain) {c : C} (hb : E.isBridge c = false) {ops : List (ServerOp C)}
    (hops : ∀ now, .pubrec now c 0 ∉ ops) (ho : OrderlyRun E serverOpen ops) :
    ∃ s log, serverRun E serverOpen ops = some (s, log) ∧ ServerInv E (· = c) s ∧
      Agrees c s log (ops.foldl (hearStep E c) (View.init, [])) := by
  have hI : ServerInv E (· = c) (serverOpen : Server C) := serverOpen_inv fun _ _ => hE.queueQos0
  have h0 : Agrees c (serverOpen : Server C) [] (View.init, []) := ⟨serverOpen_view, rfl, rfl⟩
  have hops' : ∀ c', c' = c → ∀ now, .pubrec now c' 0 ∉ ops := by
    rintro _ rfl
    exact hops
  obtain ⟨s, log, hrun, hI', hR⟩ := serverRun_keeps (hearStep E c) (Agrees c) (agrees_step hE hb) hops' [] _ ho hI h0
  exact ⟨s, log, hrun, hI', hR⟩

/-- **QoS 0, from publisher to subscriber.** In every orderly run of a plain broker, a
client that is no bridge and sends no PUBREC for the message id 0 has been sent, or has in
its queue to be sent, the messages that were published with QoS 0 while it was connected
and subscribed to them, each once and in the order in which they were published; and a
write that succeeds sends the rest. Copies of retained messages are left out, and messages
that were published with a higher QoS than that of the subscription. -/
theorem serverRun_qos0 (hE : E.Plain) {c : C} (hb : E.isBridge c = false) {ops : List (ServerOp C)}
    (hops : ∀ now, .pubrec now c 0 ∉ ops) (ho : OrderlyRun E serverOpen ops) :
    ∃ s log, serverRun E serverOpen ops = some (s, log) ∧
      ((sentQos0 (trace c log) ++ pendingQos0 (s.queue c).deliveries).filter freshQos0).map Delivery.content =
        heard E c ops ∧
      ((s.queue c).connected → ∀ now, ∃ r, serverStep E s (.write now c fun _ => true) = some r ∧
        ((sentQos0 (trace c (log ++ r.2))).filter freshQos0).map Delivery.content = heard E c ops) := by
  obtain ⟨s, log, hrun, hI, hR⟩ := serverRun_agrees hE hb hops ho
  exact ⟨s, log, hrun, hR.sent, fun hc now => hR.written hI hc now⟩

/-- A client `d` subscribes to `bb`, twice, and `c` publishes there. -/
def helloOps : List (ServerOp (List Char)) :=
  [.connect ['d'] true, .subscribe 0 ['d'] ['b', 'b'] 1, .subscribe 0 ['d'] ['#'] 0, .connect ['c'] true,
    .publish 0 ['c'] ⟨0, 0, false, ['b', 'b'], [104, 105]⟩]

theorem helloOps_orderly : OrderlyRun defaultConfig serverOpen helloOps :=
  ⟨trivial, trivial, trivial, trivial, fun h => absurd h (by decide), trivial⟩

theorem serverRun_qos0_hello :
    ∃ s log, serverRun defaultConfig serverOpen helloOps = some (s, log) ∧
      ((sentQos0 (trace ['d'] log) ++ pendingQos0 (s.queue ['d']).deliveries).filter freshQos0).map
        Delivery.content = heard defaultConfig ['d'] helloOps ∧
      ((s.queue ['d']).connected → ∀ now, ∃ r, serverStep defaultConfig s (.write now ['d'] fun _ => true) = some r ∧
        ((sentQos0 (trace ['d'] (log ++ r.2))).filter freshQos0).map Delivery.content =
          heard defaultConfig ['d'] helloOps) :=
  serverRun_qos0 defaultConfig_plain rfl (by simp [helloOps]) helloOps_orderly

/-! ### No message twice -/

variable (E) in
/-- A PUBLISH with QoS 0 or 1 that goes out as a new message. -/
structure GoesOut (s : Server C) (c : C) (p : PublishPacket) : Prop where
  connected : (s.queue c).connected = true
  topic : validTopic p.topic
  size : ¬ (E.messageSizeLimit ≠ 0 ∧ E.messageSizeLimit < p.payload.length)
  acl : E.aclWrite c p.topic = .success
  qos : p.qos ≠ 2
  new : p.qos ≠ 0 → mqtt3DbMessageStoreFind p.mid (s.queue c) = none

variable (E) in
/-- A subscription of the client asks for the message, with the QoS `q` for both. -/
def Asks (s : Server C) (c : C) (p : PublishPacket) (q : Fin 3) : Prop :=
  E.acl c p.topic ≠ .denied ∧ ∃ f n, Matches plus hash f (subTopicTokenise p.topic) ∧
    table s.db f c = some n ∧ q = Fin.ofNat 3 (min p.qos n)

/-- A message that goes out is put before the clients as a new one. -/
theorem GoesOut.step {s : Server C} {c : C} {p : PublishPacket} (h : GoesOut E s c p) (now : ℤ) :
    ∃ p', p'.topic = p.topic ∧ p'.qos = p.qos ∧ p'.payload = p.payload ∧ serverStep E s (.publish now c p) =
      some (messagesQueue E now (fun _ => true) (newMessage (E.id c) p' s).1 (newMessage (E.id c) p' s).2) := by
  have hcheck := checkPublish_of_success h.topic h.size h.acl
  by_cases h0 : p.qos = 0
  · have h2 : ¬ ({ p with mid := 0 } : PublishPacket).qos = 2 := by simp [h0]
    refine ⟨{ p with mid := 0 }, rfl, rfl, rfl, ?_⟩
    rw [serverStep, if_pos h.connected, mqtt3HandlePublish, hcheck, if_pos h0]
    dsimp only
    rw [if_neg h2, publishNow_new now (by simp [heldFor, h0])]
  · refine ⟨p, rfl, rfl, rfl, ?_⟩
    rw [serverStep, if_pos h.connected, mqtt3HandlePublish, hcheck, if_neg h0]
    dsimp only
    rw [if_neg h.qos, publishNow_new now (by rw [heldFor, if_neg h0, h.new h0])]

/-- **What is published is taken in.** In every state that a plain broker reaches in an
orderly run, a new message with QoS 0 or 1 is taken in once by each client, no bridge, that
has a subscription for it and, by the QoS of one of them, room; with the QoS of such a
subscription. The other clients see nothing of it. -/
theorem serverRun_taken (hE : E.Plain) {ops : List (ServerOp C)} (ho : OrderlyRun E serverOpen ops)
    {s : Server C} {log : Log C} (hrun : serverRun E serverOpen ops = some (s, log)) {c₀ c : C}
    (hb : E.isBridge c = false) {p : PublishPacket} (hp : GoesOut E s c₀ p) (now : ℤ) :
    ∃ r, serverStep E s (.publish now c₀ p) = some r ∧
      ((∃ q, Asks E s c p q ∧ Takes E.limits (s.queue c) q) → ∃ d, trace c r.2 = [.accept d] ∧
        d.content = (p.topic, p.payload) ∧ Asks E s c p d.qos) ∧
      ((∀ q, Asks E s c p q → ¬ Takes E.limits (s.queue c) q) → trace c r.2 = []) := by
  have hI := serverRun_inv ho hrun
  obtain ⟨p', htopic, hqos, hpayload, hstep⟩ := hp.step now
  refine ⟨_, hstep, ?_⟩
  obtain ⟨mid', htrace⟩ := trace_newMessage hE now hI (E.id c₀) (htopic ▸ hp.topic) hb
  set m := (newMessage (E.id c₀) p' s).1
  have hmt : m.topic = p.topic := htopic
  have hmq : m.qos = p.qos := congrArg Fin.val hqos
  -- the calls for the client are those that its subscriptions ask for
  have hasks : ∀ i, i ∈ insertsFor E c m s.db ↔ Asks E s c p i.qos ∧ i.retain = false ∧ i.store = m.stored := by
    intro i
    rw [mem_insertsFor hI.db rfl (fun c => hE.acl c _) (hmt ▸ hp.topic.2) hE.upgrade hb, hmt, hmq]
    constructor
    · rintro ⟨hd, f, n, hmatch, hn, rfl⟩
      exact ⟨⟨hd, f, n, hmatch, hn, rfl⟩, rfl, rfl⟩
    · rintro ⟨⟨hd, f, n, hmatch, hn, hq⟩, hr, hst⟩
      refine ⟨hd, f, n, hmatch, hn, ?_⟩
      cases i
      simp_all
  rw [htrace]
  refine ⟨?_, fun hnone => ?_⟩
  · rintro ⟨q, hq, htakes⟩
    have hmem : (⟨q, false, m.stored⟩ : Insert) ∈ insertsFor E c m s.db := (hasks _).mpr ⟨hq, rfl, rfl⟩
    have hsome : ((insertsFor E c m s.db).find? fun i => Takes E.limits (s.queue c) i.qos).isSome := by
      rw [List.find?_isSome]
      exact ⟨_, hmem, by simpa using htakes⟩
    obtain ⟨i, hi⟩ := Option.isSome_iff_exists.mp hsome
    obtain ⟨hqi, -, hst⟩ := (hasks i).mp (List.mem_of_find?_eq_some hi)
    refine ⟨i.delivery mid', ?_, ?_, hqi⟩
    · rw [hi]
      rfl
    · rw [Delivery.content, Insert.delivery, hst, ← htopic, ← hpayload]
      rfl
  · have : (insertsFor E c m s.db).find? (fun i => Takes E.limits (s.queue c) i.qos) = none := by
      rw [List.find?_eq_none]
      intro i hi
      simpa using hnone i.qos ((hasks i).mp hi).1
    rw [this]
    rfl

/-- The requests before the last one of `helloOps`. -/
def helloState : Server (List Char) × Log (List Char) :=
  ((serverRun defaultConfig serverOpen (helloOps.take 4)).getD (serverOpen, []))

theorem serverRun_taken_hello :
    ∃ r, serverStep defaultConfig helloState.1 (.publish 7 ['c'] ⟨1, 1, false, ['b', 'b'], [104, 105]⟩) = some r ∧
      ((∃ q, Asks defaultConfig helloState.1 ['d'] ⟨1, 1, false, ['b', 'b'], [104, 105]⟩ q ∧
          Takes {} (helloState.1.queue ['d']) q) → ∃ d, trace ['d'] r.2 = [.accept d] ∧
        d.content = (['b', 'b'], [104, 105]) ∧
          Asks defaultConfig helloState.1 ['d'] ⟨1, 1, false, ['b', 'b'], [104, 105]⟩ d.qos) ∧
      ((∀ q, Asks defaultConfig helloState.1 ['d'] ⟨1, 1, false, ['b', 'b'], [104, 105]⟩ q →
        ¬ Takes {} (helloState.1.queue ['d']) q) → trace ['d'] r.2 = []) := by
  have hrun : serverRun defaultConfig serverOpen (helloOps.take 4) = some (helloState.1, helloState.2) := rfl
  have ho : OrderlyRun defaultConfig serverOpen (helloOps.take 4) :=
    ⟨trivial, trivial, trivial, trivial, trivial⟩
  exact serverRun_taken defaultConfig_plain ho hrun rfl
    ⟨rfl, by decide, by simp [defaultConfig], rfl, by decide, fun _ => rfl⟩ 7

end Broker
end BlenderBottle
