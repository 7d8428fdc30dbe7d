/-
# The broker

The tree of subscriptions and the clients' queues put together
(`src/read_handle.c`, `src/read_handle_server.c`, `src/context.c`). A message that
is published gets an id in the database and goes into the queue of each client
whose subscription matches; a QoS 2 message does so when its sender releases it.
A new subscription brings the retained messages. The end of a clean session takes
the subscriptions with it.

A run is what the clients do and what the broker's main loop does in between, in
any order (`serverStep`, `serverRun`). A request that the broker does not accept
changes nothing here; that it then closes the connection is a step of its own, and
so is the publication of a will or of a topic in `$SYS` (`easyQueue`). What happens
to the queues is kept in a log. What a client may read and write does not change: it
connects as the same user each time, and no list of access rights is loaded anew.

Key definitions: `Server`, `mqtt3HandlePublish`, `mqtt3HandleSubscribe`,
`serverStep`, `serverRun`, `trace`.
-/
import BlenderBottle.Broker.Retain
import BlenderBottle.Broker.QueueAccept

namespace BlenderBottle
namespace Broker

/-- The part of `struct mqtt3_config` and of the listeners that the handlers use. -/
structure Config (C : Type) extends Contexts C where
  limits : Limits := {}
  /-- `mosquitto_acl_check` for `MOSQ_ACL_WRITE`. -/
  aclWrite : C → List Char → Acl
  /-- No limit if it is zero. -/
  messageSizeLimit : ℕ := 0

/-- The broker without configuration. -/
def defaultConfig : Config (List Char) :=
  { defaultContexts with aclWrite := fun _ _ => .success }

/-- The part of `struct mosquitto_db` that the handlers use. -/
structure Server (C : Type) where
  db : Db C
  queue : C → Client
  lastDbId : ℕ

/-- What happened to the queues, in order. -/
abbrev Log (C : Type) := List (C × Event)

/-- The fields of a PUBLISH, or of a message that the broker makes. -/
structure PublishPacket where
  mid : ℕ
  qos : Fin 3
  retain : Bool
  topic : List Char
  payload : List UInt8

variable {C : Type} [DecidableEq C] (E : Config C)

/-- What concerns one client. -/
def trace (c : C) (log : Log C) : List Event := (log.filter fun e => e.1 = c).map Prod.snd

/-! ### The functions of the source -/

/-- No context has the client's id. -/
def absent : Client := { connected := false, cleanSession := true }

def serverOpen : Server C :=
  { db := mqtt3DbOpen
    queue := fun _ => absent
    lastDbId := 0 }

/-- Something happens to one queue. -/
def onQueue (c : C) (r : Client × List Event) (s : Server C) : Server C × Log C :=
  ({ s with queue := Function.update s.queue c r.1 }, r.2.map fun e => (c, e))

/-- The message that a request puts into a queue. A QoS is at most 2. -/
def Request.insert (stored : Store) (r : Request C) : Insert :=
  { qos := Fin.ofNat 3 r.qos
    retain := r.retain
    store := stored }

/-- The calls of `mqtt3_db_message_insert` for a message. -/
def insertAll (now : ℤ) (stored : Store) : List (Request C) → Server C → Server C × Log C
  | [], s => (s, [])
  | r :: rs, s =>
    let first := onQueue r.context (insertOut E.limits now (r.insert stored) (s.queue r.context)) s
    let rest := insertAll now stored rs first.1
    (rest.1, first.2 ++ rest.2)

/-- `mqtt3_db_messages_queue`, for the clients of `whom`. -/
def messagesQueue (now : ℤ) (whom : C → Bool) (m : Publish) (s : Server C) : Server C × Log C :=
  let found := mqtt3DbMessagesQueue E.toContexts m s.db
  insertAll E now m.stored (found.2.filter fun r => whom r.context) { s with db := found.1 }

/-- `mqtt3_db_message_store`: the message gets the next id. -/
def mqtt3DbMessageStore (source : List Char) (p : PublishPacket) (s : Server C) : Store × Server C :=
  ({ dbId := s.lastDbId + 1
     sourceId := source
     sourceMid := p.mid
     topic := p.topic
     qos := p.qos
     retain := p.retain
     payload := p.payload },
    { s with lastDbId := s.lastDbId + 1 })

/-- The topic of a message to publish is checked on the way in. -/
def validTopic (topic : List Char) : Prop := topic ≠ [] ∧ pubTopicCheck topic = .success

instance (topic : List Char) : Decidable (validTopic topic) := inferInstanceAs (Decidable (_ ∧ _))

/-- A message as it goes to the subscribers. -/
def PublishPacket.publish (p : PublishPacket) (source : List Char) (stored : Store) : Publish :=
  { source := some source
    topic := p.topic
    qos := p.qos
    retain := p.retain
    stored := stored }

/-- A new message, and the broker that has stored it. -/
def newMessage (source : List Char) (p : PublishPacket) (s : Server C) : Publish × Server C :=
  let stored := mqtt3DbMessageStore source p s
  (p.publish source stored.1, stored.2)

/-- What of a message that is too large or denied is kept: a QoS 2 message is
answered all the same, and has no topic. -/
def processBadMessage (p : PublishPacket) : Option PublishPacket :=
  if p.qos = 2 then some { p with retain := false, topic := [], payload := [] } else none

/-- The checks of `mqtt3_handle_publish`, and the message that is left to be handled. A
message id is read with QoS 1 and 2. -/
def checkPublish (c : C) (p : PublishPacket) : Option PublishPacket :=
  if ¬ validTopic p.topic then none
  else if E.messageSizeLimit ≠ 0 ∧ E.messageSizeLimit < p.payload.length then processBadMessage p
  else
    match E.aclWrite c p.topic with
    | .denied => processBadMessage p
    | .error => none
    | .success => some (if p.qos = 0 then { p with mid := 0 } else p)

/-- A PUBLISH with QoS 2: unless it is there already, the message is stored and waits
for its release. -/
def publishQos2 (now : ℤ) (c : C) (p : PublishPacket) (s : Server C) : Server C × Log C :=
  let stored := mqtt3DbMessageStore (E.id c) p s
  let s' := if (mqtt3DbMessageStoreFind p.mid (s.queue c)).isSome then s else stored.2
  onQueue c (handlePublish E.limits now p.mid p.retain stored.1 (s.queue c)) s'

/-- A message of the client that is there under the message id of a PUBLISH with QoS 1. -/
def heldFor (c : C) (p : PublishPacket) (s : Server C) : Option Store :=
  if p.qos = 0 then none else mqtt3DbMessageStoreFind p.mid (s.queue c)

/-- A PUBLISH with QoS 0 or 1. If a message is there under its id, that one goes in its
place, to those who subscribe to the topic of the PUBLISH. One that was refused has no
topic and fails an assertion when it is sent; the run ends as it goes to a subscriber. -/
def publishNow (now : ℤ) (c : C) (p : PublishPacket) (s : Server C) : Option (Server C × Log C) :=
  match heldFor c p s with
  | none =>
    let m := newMessage (E.id c) p s
    some (messagesQueue E now (fun _ => true) m.1 m.2)
  | some held =>
    let m := p.publish (E.id c) held
    if held.topic = [] ∧ (mqtt3DbMessagesQueue E.toContexts m s.db).2 ≠ [] then none
    else
      let r := messagesQueue E now (fun _ => true) m s
      some (r.1, (c, .passHeld held) :: r.2)

/-- `mqtt3_handle_publish`. -/
def mqtt3HandlePublish (now : ℤ) (c : C) (p : PublishPacket) (s : Server C) : Option (Server C × Log C) :=
  match checkPublish E c p with
  | none => some (s, [])
  | some p => if p.qos = 2 then some (publishQos2 E now c p s) else publishNow E now c p s

/-- `mqtt3_db_messages_easy_queue`, for a will or for `$SYS`. Their topics are valid. -/
def mqtt3DbMessagesEasyQueue (now : ℤ) (context : Option C) (p : PublishPacket) (s : Server C) :
    Server C × Log C :=
  if validTopic p.topic then
    let m := newMessage ((context.map E.id).getD []) { p with mid := 0 } s
    messagesQueue E now (fun _ => true) m.1 m.2
  else (s, [])

/-- The retained messages for a subscription. -/
def retainedInserts (c : C) (sub : List Char) (qos : ℕ) (db : Db C) : List Insert :=
  (mqtt3RetainQueue sub db).filterMap fun e =>
    (retainProcess E.toContexts c qos e.2).map fun r =>
      { qos := Fin.ofNat 3 r.1
        retain := true
        store := r.2 }

/-- One subscription in `mqtt3_handle_subscribe`. `mqtt3_sub_add` answers alike whether
the client was subscribed before or not, and the retained messages follow. -/
def mqtt3HandleSubscribe (now : ℤ) (c : C) (sub : List Char) (qos : ℕ) (s : Server C) : Server C × Log C :=
  if sub = [] ∨ subTopicCheck sub ≠ .success ∨ qos > 2 then (s, [])
  else
    let s := { s with db := mqtt3SubAdd E.toContexts c sub qos s.db }
    onQueue c (insertsOut E.limits now (retainedInserts E c sub qos s.db) (s.queue c)) s

/-- One subscription in `mqtt3_handle_unsubscribe`. -/
def mqtt3HandleUnsubscribe (c : C) (sub : List Char) (s : Server C) : Server C :=
  if sub = [] ∨ subTopicCheck sub ≠ .success then s
  else { s with db := mqtt3SubRemove c sub s.db }

/-- A message from the client as it is passed on. -/
def Delivery.publish (d : Delivery) : Publish :=
  { source := some d.store.sourceId
    topic := d.store.topic
    qos := d.store.qos
    retain := d.retain
    stored := d.store }

/-- What a message brings for one client. -/
def insertsFor (c : C) (m : Publish) (db : Db C) : List Insert :=
  ((mqtt3DbMessagesQueue E.toContexts m db).2.filter fun r => r.context = c).map (Request.insert m.stored)

/-- What a message from the client brings back to the client itself. -/
def echo (c : C) (s : Server C) (d : Delivery) : List Insert := insertsFor E c d.publish s.db

/-- The other clients get the messages that one client released. -/
def forwardAll (now : ℤ) (c : C) : List Delivery → Server C → Server C × Log C
  | [], s => (s, [])
  | d :: ds, s =>
    let first := messagesQueue E now (fun c' => c' ≠ c) d.publish s
    let rest := forwardAll now c ds first.1
    (rest.1, first.2 ++ rest.2)

/-- `_mosquitto_handle_pubrel`. A release is one message at most, so that the tree in
which its way back is found is the one before. -/
def handlePubrel (now : ℤ) (c : C) (mid : ℕ) (s : Server C) : Option (Server C × Log C) :=
  (sessionStep E.limits (s.queue c) (.pubrel now mid (echo E c s))).map fun r =>
    let own := onQueue c r s
    let others := forwardAll E now c (forwarded r.2) own.1
    (others.1, own.2 ++ others.2)

/-- The end of a connection. -/
def doDisconnect (c : C) (s : Server C) : Server C × Log C :=
  onQueue c (disconnect (s.queue c))
    (if (s.queue c).cleanSession then { s with db := mqtt3SubsCleanSession c s.db } else s)

/-- What a client may read. -/
def Config.mayRead (c : C) (topic : List Char) : Bool := E.acl c topic = .success

/-- `mqtt3_handle_connect`, for a client that may connect. -/
def mqtt3HandleConnect (c : C) (cleanSession : Bool) (s : Server C) : Option (Server C × Log C) :=
  (handleConnect E.limits cleanSession (E.mayRead c) (s.queue c)).map fun r =>
    onQueue c r
      (if cleanSession = false ∧ (s.queue c).cleanSession = false then s
        else { s with db := mqtt3SubsCleanSession c s.db })

/-! ### Runs -/

/-- What can happen. -/
inductive ServerOp (C : Type)
  | connect (c : C) (cleanSession : Bool)
  | disconnect (c : C)
  | subscribe (now : ℤ) (c : C) (sub : List Char) (qos : ℕ)
  | unsubscribe (c : C) (sub : List Char)
  | publish (now : ℤ) (c : C) (p : PublishPacket)
  | easyQueue (now : ℤ) (context : Option C) (p : PublishPacket)
  /-- A PUBACK or PUBCOMP. -/
  | pubackcomp (now : ℤ) (c : C) (mid : ℕ)
  | pubrec (now : ℤ) (c : C) (mid : ℕ)
  | pubrel (now : ℤ) (c : C) (mid : ℕ)
  | write (now : ℤ) (c : C) (ok : ℕ → Bool)
  | timeoutCheck (now timeout : ℤ)

/-- A step of one client's queue. -/
def queueStep (c : C) (op : SessionOp) (s : Server C) : Option (Server C × Log C) :=
  (sessionStep E.limits (s.queue c) op).map fun r => onQueue c r s

/-- One step. Packets come from connected clients. -/
def serverStep (s : Server C) : ServerOp C → Option (Server C × Log C)
  | .connect c cleanSession => mqtt3HandleConnect E c cleanSession s
  | .disconnect c => some (doDisconnect c s)
  | .subscribe now c sub qos =>
    some (if (s.queue c).connected then mqtt3HandleSubscribe E now c sub qos s else (s, []))
  | .unsubscribe c sub => some (if (s.queue c).connected then mqtt3HandleUnsubscribe c sub s else s, [])
  | .publish now c p => if (s.queue c).connected then mqtt3HandlePublish E now c p s else some (s, [])
  | .easyQueue now context p => some (mqtt3DbMessagesEasyQueue E now context p s)
  | .pubackcomp now c mid => queueStep E c (.pubackcomp now mid) s
  | .pubrec now c mid => queueStep E c (.pubrec now mid) s
  | .pubrel now c mid => handlePubrel E now c mid s
  | .write now c ok => queueStep E c (.write now ok) s
  | .timeoutCheck now timeout =>
    some ({ s with
      queue := fun c =>
        if (s.queue c).connected then mqtt3DbMessageTimeoutCheck now timeout (s.queue c) else s.queue c }, [])

/-- A run of the broker, with its log. -/
def serverRun (s : Server C) : List (ServerOp C) → Option (Server C × Log C)
  | [] => some (s, [])
  | op :: ops =>
    match serverStep E s op with
    | none => none
    | some (s', log) => (serverRun s' ops).map fun r => (r.1, log ++ r.2)

end Broker
end BlenderBottle
