/-
# The messages of one client

For each client the broker keeps one list of messages (`src/database.c`): those
on their way to the client, and the QoS 2 messages from the client that it has
not released yet. A message has a state in its handshake. At most `max_inflight`
of them are to be under way at a time; the others wait as `queued`, and each
function that walks over the list puts waiting messages up for sending as it
finds room.

Here are these functions as the source has them. Where it walks along the links
of the list with a pointer to the message before, the model walks by an index.
`mqtt3DbMessageWrite` and `mqtt3DbMessageRelease` have no bound on their loops;
they get fuel, and `none` is a loop that did not end.

A session is what can happen to the queue, in any order and number: messages for
the client and from it, its acknowledgements, writes to its socket that may fail,
retries, the end of a connection and a new one (`sessionStep`, `sessionRun`). A
run leaves a trace of what was taken in, sent, acknowledged and passed on.

A session that is kept may be taken up by another user, and `mqtt3_handle_connect`
then unlinks the messages that this user may not read (`aclLoop`). It leaves the
counters as they are, and `last_msg` on a message that it freed if that was the
last of several; a run ends there (`none`).

Key definitions: `mqtt3DbMessageInsert`, `mqtt3DbMessageDelete`,
`mqtt3DbMessageRelease`, `mqtt3DbMessageWrite`, `mqtt3DbMessageReconnectReset`,
`handleConnect`, `sessionStep`, `sessionRun`.
-/
import BlenderBottle.Broker.Subs

namespace BlenderBottle
namespace Broker

/-- The library's instance for the numerals of a QoS, under one name in all modules. -/
instance neZeroQos : NeZero 3 := inferInstance

/-- `enum mosquitto_msg_direction`. -/
inductive Direction
  | mdIn
  | mdOut
  deriving DecidableEq

/-- `enum mosquitto_msg_state`. -/
inductive MsgState
  | invalid
  | publishQos0
  | publishQos1
  | waitForPuback
  | publishQos2
  | waitForPubrec
  | resendPubrel
  | waitForPubrel
  | resendPubcomp
  | waitForPubcomp
  | sendPubrec
  | queued
  deriving DecidableEq

/-- What stays the same of a message while it is in a queue. A message that was
refused on arrival has no topic; that is the empty topic here. -/
structure Delivery where
  mid : ℕ
  direction : Direction
  qos : Fin 3
  retain : Bool
  store : Store
  deriving DecidableEq

/-- `struct mosquitto_client_msg`. -/
structure ClientMsg extends Delivery where
  state : MsgState
  dup : Bool
  timestamp : ℤ
  deriving DecidableEq

/-- The limits of the queues, with the values they have without configuration. -/
structure Limits where
  maxInflight : ℕ := 20
  maxQueued : ℕ := 100
  allowDuplicateMessages : Bool := false
  queueQos0Messages : Bool := false

/-- The part of `struct mosquitto` that its queue uses. Each message notes the
clients it went to (`dest_ids`); here the client notes the messages, by their
`db_id`. -/
structure Client where
  connected : Bool
  cleanSession : Bool
  lazyBridge : Bool := false
  lastMid : ℕ := 0
  dests : List ℕ := []
  msgs : List ClientMsg := []
  msgCount : ℤ := 0
  msgCount12 : ℤ := 0
  deriving DecidableEq

/-- What the broker sends to the client. -/
inductive Packet
  | publish (d : Delivery) (dup : Bool)
  | pubrec (mid : ℕ)
  | pubrel (mid : ℕ)
  | pubcomp (mid : ℕ)
  deriving DecidableEq

variable (L : Limits)

/-! ### The functions of the source -/

/-- The state in which a message waits to be sent. -/
def publishState : Fin 3 → MsgState
  | 0 => .publishQos0
  | 1 => .publishQos1
  | 2 => .publishQos2

/-- A waiting message gets its turn; one from the client goes to `inState`. -/
def unqueue (inState : MsgState) (m : ClientMsg) : ClientMsg :=
  match m.direction with
  | .mdOut => { m with state := publishState m.qos }
  | .mdIn => if m.qos = 2 then { m with state := inState } else m

/-- The loop at the end of `_message_remove`. Its counter stays zero, so it puts
up every message that waits at the head of the queue. -/
def promoteHead : List ClientMsg → List ClientMsg
  | [] => []
  | m :: msgs =>
    if m.state = .queued ∧ 0 < L.maxInflight then unqueue .sendPubrec m :: promoteHead msgs
    else m :: msgs

/-- `_message_remove`, for the message at an index. -/
def messageRemove (k : ℕ) (q : Client) : Client :=
  match q.msgs[k]? with
  | none => q
  | some m =>
    { q with
      msgs := promoteHead L (q.msgs.eraseIdx k)
      msgCount := q.msgCount - 1
      msgCount12 := if m.qos ≠ 0 then q.msgCount12 - 1 else q.msgCount12 }

/-- A message that waits within the limit gets its turn, as it is passed. -/
def promoteAt (now : ℤ) (msgIndex : ℕ) (m : ClientMsg) : ClientMsg :=
  if m.state = .queued ∧ msgIndex ≤ L.maxInflight then
    unqueue .waitForPubrel { m with timestamp := now }
  else m

/-- The loop of `mqtt3_db_message_delete`, with the number of messages left. -/
def deleteLoop (now : ℤ) (mid : ℕ) (dir : Direction) : ℕ → ℕ → ℕ → Bool → Client → Client
  | 0, _, _, _, q => q
  | n + 1, k, msgIndex, deleted, q =>
    match q.msgs[k]? with
    | none => q
    | some m =>
      let q := { q with msgs := q.msgs.set k (promoteAt L now (msgIndex + 1) m) }
      if m.mid = mid ∧ m.direction = dir then
        let q := messageRemove L k q
        if msgIndex > L.maxInflight then q else deleteLoop now mid dir n k msgIndex true q
      else if msgIndex + 1 > L.maxInflight ∧ deleted then q
      else deleteLoop now mid dir n (k + 1) (msgIndex + 1) deleted q

/-- `mqtt3_db_message_delete`. -/
def mqtt3DbMessageDelete (now : ℤ) (mid : ℕ) (dir : Direction) (q : Client) : Client :=
  deleteLoop L now mid dir q.msgs.length 0 0 false q

/-- Messages of which it is noted where they went. -/
def notesDest (d : Delivery) : Prop :=
  L.allowDuplicateMessages = false ∧ d.direction = .mdOut ∧ d.retain = false

instance (d : Delivery) : Decidable (notesDest L d) := inferInstanceAs (Decidable (_ ∧ _ ∧ _))

/-- What `mqtt3_db_message_insert` decides: the state of the new message and the
answer, or the answer alone. -/
def insertState (d : Delivery) (q : Client) : Except ℕ (MsgState × ℕ) :=
  if notesDest L d ∧ d.store.dbId ∈ q.dests then .error 0
  else if q.connected = false ∧ d.qos = 0 ∧ L.queueQos0Messages = false ∧ q.lazyBridge = false then .error 2
  else if q.connected then
    if d.qos = 0 ∨ L.maxInflight = 0 ∨ q.msgCount12 < L.maxInflight then
      match d.direction with
      | .mdOut => .ok (publishState d.qos, 0)
      | .mdIn => if d.qos = 2 then .ok (.waitForPubrel, 0) else .error 1
    else if L.maxQueued = 0 ∨ q.msgCount12 - L.maxInflight < L.maxQueued then .ok (.queued, 2)
    else .error 2
  else if 0 < L.maxQueued ∧ (L.maxQueued : ℤ) ≤ q.msgCount12 then .error 2
  else .ok (.queued, 0)

/-- A new message at the end of the queue. -/
def appendMsg (now : ℤ) (d : Delivery) (state : MsgState) (q : Client) : Client :=
  { q with
    msgs := q.msgs ++ [{ toDelivery := d, state := state, dup := false, timestamp := now }]
    msgCount := q.msgCount + 1
    msgCount12 := if d.qos ≠ 0 then q.msgCount12 + 1 else q.msgCount12
    dests := if notesDest L d then d.store.dbId :: q.dests else q.dests }

/-- `mqtt3_db_message_insert`, with its answer. -/
def mqtt3DbMessageInsert (now : ℤ) (d : Delivery) (q : Client) : Client × ℕ :=
  match insertState L d q with
  | .error rc => (q, rc)
  | .ok (state, rc) => (appendMsg L now d state q, rc)

/-- `_mosquitto_mid_generate`. -/
def midGenerate (q : Client) : Client :=
  let mid := (q.lastMid + 1) % 65536
  { q with lastMid := if mid = 0 then 1 else mid }

/-- `mqtt3_db_message_update`. -/
def mqtt3DbMessageUpdate (now : ℤ) (mid : ℕ) (dir : Direction) (state : MsgState) (q : Client) : Client :=
  match q.msgs.findIdx? fun m => m.mid = mid ∧ m.direction = dir with
  | none => q
  | some k => { q with msgs := q.msgs.modify k fun m => { m with state := state, timestamp := now } }

/-- `mqtt3_db_messages_delete`. -/
def mqtt3DbMessagesDelete (q : Client) : Client := { q with msgs := [], msgCount := 0, msgCount12 := 0 }

/-- `mqtt3_db_message_store_find`. -/
def mqtt3DbMessageStoreFind (mid : ℕ) (q : Client) : Option Store :=
  (q.msgs.find? fun m => m.store.sourceMid = mid ∧ m.direction = .mdIn).map fun m => m.store

/-- What a new connection makes of the state of a message to the client. -/
def resetState (m : ClientMsg) : MsgState :=
  if m.state = .queued then .queued
  else if m.qos = 2 ∧ m.state = .waitForPubcomp then .resendPubrel
  else publishState m.qos

/-- The first loop of `mqtt3_db_message_reconnect_reset`. The message after one
that it removes is passed over. -/
def resetLoop : ℕ → ℕ → Client → Client
  | 0, _, q => q
  | n + 1, k, q =>
    match q.msgs[k]? with
    | none => q
    | some m =>
      let q :=
        { q with
          msgCount := q.msgCount + 1
          msgCount12 := if m.qos ≠ 0 then q.msgCount12 + 1 else q.msgCount12 }
      match m.direction with
      | .mdOut => resetLoop n (k + 1) { q with msgs := q.msgs.set k { m with state := resetState m } }
      | .mdIn => if m.qos ≠ 2 then resetLoop n (k + 1) (messageRemove L k q) else resetLoop n (k + 1) q

/-- Its second loop. -/
def resetPromote : ℕ → List ClientMsg → List ClientMsg
  | _, [] => []
  | count, m :: msgs =>
    if L.maxInflight = 0 ∨ count < L.maxInflight then
      (if m.state = .queued then { m with state := publishState m.qos } else m) ::
        resetPromote (count + 1) msgs
    else m :: msgs

/-- `mqtt3_db_message_reconnect_reset`. -/
def mqtt3DbMessageReconnectReset (q : Client) : Client :=
  let q := resetLoop L q.msgs.length 0 { q with msgCount := 0, msgCount12 := 0 }
  { q with msgs := resetPromote L 0 q.msgs }

/-- The state from which a message that got no answer is sent once more. -/
def retryState : MsgState → Option MsgState
  | .waitForPuback => some .publishQos1
  | .waitForPubrec => some .publishQos2
  | .waitForPubrel => some .sendPubrec
  | .waitForPubcomp => some .resendPubrel
  | _ => none

/-- One message in `mqtt3_db_message_timeout_check`. -/
def retry (now timeout : ℤ) (m : ClientMsg) : ClientMsg :=
  if m.timestamp < now - timeout ∧ m.state ≠ .queued then
    match retryState m.state with
    | some state => { m with state := state, dup := true, timestamp := now }
    | none => m
  else m

/-- `mqtt3_db_message_timeout_check`, for one of the connected clients. -/
def mqtt3DbMessageTimeoutCheck (now timeout : ℤ) (q : Client) : Client :=
  { q with msgs := q.msgs.map (retry now timeout) }

/-- What a session leaves behind, in order. -/
inductive Event
  /-- A message was taken into the queue. -/
  | accept (d : Delivery)
  | send (p : Packet)
  /-- The client acknowledged a message for good. -/
  | ack (mid : ℕ)
  /-- The client released a message, which was passed on to its subscribers. -/
  | forward (d : Delivery)
  /-- A message that the client has not released was passed on, by a PUBLISH with
  QoS 1 under its message id. -/
  | passHeld (stored : Store)
  /-- The session ended and its messages were deleted. -/
  | clean
  deriving DecidableEq

/-- A message for the client, as `_subs_process` and `_retain_process` have it. It has
a topic. -/
structure Insert where
  qos : Fin 3
  retain : Bool
  store : Store
  deriving DecidableEq

/-- The message it becomes in the queue. -/
def Insert.delivery (i : Insert) (mid : ℕ) : Delivery :=
  { mid := mid
    direction := .mdOut
    qos := i.qos
    retain := i.retain
    store := i.store }

/-- The call of `mqtt3_db_message_insert` for a message to the client, with the
message id made for it. -/
def insertOut (now : ℤ) (i : Insert) (q : Client) : Client × List Event :=
  let q := if i.qos ≠ 0 then midGenerate q else q
  let d := i.delivery (if i.qos ≠ 0 then q.lastMid else 0)
  ((mqtt3DbMessageInsert L now d q).1,
    match insertState L d q with
    | .ok _ => [.accept d]
    | .error _ => [])

/-- Several such calls. -/
def insertsOut (now : ℤ) : List Insert → Client → Client × List Event
  | [], q => (q, [])
  | i :: is, q =>
    let r := insertOut L now i q
    let r' := insertsOut now is r.1
    (r'.1, r.2 ++ r'.2)

/-- The PUBREC that `mqtt3_db_message_release` sends for a message from the client
that it gives its turn. -/
def promotePubrec (msgIndex : ℕ) (m : ClientMsg) : List Event :=
  if m.state = .queued ∧ msgIndex ≤ L.maxInflight ∧ m.direction = .mdIn ∧ m.qos = 2 then
    [.send (.pubrec m.mid)]
  else []

/-- A message is passed on by `mqtt3_db_messages_queue`, unless it was refused.
It may come back to the client itself, by `echo`. -/
def passOn (now : ℤ) (echo : Delivery → List Insert) (d : Delivery) (q : Client) : Client × List Event :=
  if d.store.topic = [] then (q, [])
  else
    let r := insertsOut L now (echo d) q
    (r.1, r.2 ++ [.forward d])

/-- The loop of `mqtt3_db_message_release`, for messages from the client. -/
def releaseLoop (now : ℤ) (mid : ℕ) (echo : Delivery → List Insert) :
    ℕ → ℕ → ℕ → Bool → Client → Option (Client × List Event)
  | 0, _, _, _, _ => none
  | fuel + 1, k, msgIndex, deleted, q =>
    match q.msgs[k]? with
    | none => some (q, [])
    | some m =>
      let pubrec := promotePubrec L (msgIndex + 1) m
      let q := { q with msgs := q.msgs.set k (promoteAt L now (msgIndex + 1) m) }
      if m.mid = mid ∧ m.direction = .mdIn then
        let passed := passOn L now echo m.toDelivery q
        let q := messageRemove L k passed.1
        if msgIndex + 1 > L.maxInflight then some (q, pubrec ++ passed.2)
        else
          (releaseLoop now mid echo fuel k (msgIndex + 1) true q).map fun r =>
            (r.1, pubrec ++ passed.2 ++ r.2)
      else if msgIndex + 1 > L.maxInflight ∧ deleted then some (q, pubrec)
      else
        (releaseLoop now mid echo fuel (k + 1) (msgIndex + 1) deleted q).map fun r =>
          (r.1, pubrec ++ r.2)

/-- How many messages the loop can meet: those there, and those that come back. -/
def releaseFuel (echo : Delivery → List Insert) (q : Client) : ℕ :=
  (q.msgs.map fun m => 1 + (echo m.toDelivery).length).sum + 1

/-- `mqtt3_db_message_release`. -/
def mqtt3DbMessageRelease (now : ℤ) (mid : ℕ) (echo : Delivery → List Insert) (q : Client) :
    Option (Client × List Event) :=
  releaseLoop L now mid echo (releaseFuel echo q) 0 0 false q

/-- What is sent for a message that stays in the queue, and what becomes of it. -/
def sendMsg (now : ℤ) (m : ClientMsg) : Option (Packet × ClientMsg) :=
  match m.state with
  | .publishQos1 =>
    some (.publish m.toDelivery m.dup, { m with timestamp := now, dup := true, state := .waitForPuback })
  | .publishQos2 =>
    some (.publish m.toDelivery m.dup, { m with timestamp := now, dup := true, state := .waitForPubrec })
  | .sendPubrec => some (.pubrec m.mid, { m with state := .waitForPubrel })
  | .resendPubrel => some (.pubrel m.mid, { m with state := .waitForPubcomp })
  | .resendPubcomp => some (.pubcomp m.mid, { m with state := .waitForPubrel })
  | _ => none

/-- The loop of `mqtt3_db_message_write`. `ok` says which sends succeed, by their
number; the loop ends at the first that does not. -/
def writeLoop (now : ℤ) (ok : ℕ → Bool) : ℕ → ℕ → ℕ → Client → List Packet → Option (Client × List Packet)
  | 0, _, _, _, _ => none
  | fuel + 1, k, msgCount, q, sent =>
    match q.msgs[k]? with
    | none => some (q, sent)
    | some m =>
      let msgCount := if m.direction = .mdIn then msgCount + 1 else msgCount
      if m.state = .publishQos0 then
        if ok sent.length then
          writeLoop now ok fuel k msgCount (messageRemove L k q) (sent ++ [.publish m.toDelivery m.dup])
        else some (q, sent)
      else if m.state ≠ .queued then
        match sendMsg now m with
        | some (packet, m') =>
          if ok sent.length then
            writeLoop now ok fuel (k + 1) msgCount { q with msgs := q.msgs.set k m' } (sent ++ [packet])
          else some (q, sent)
        | none => writeLoop now ok fuel (k + 1) msgCount q sent
      else if m.direction = .mdIn ∧ (L.maxInflight = 0 ∨ msgCount < L.maxInflight) then
        writeLoop now ok fuel k msgCount
          (if m.qos = 2 then { q with msgs := q.msgs.set k { m with state := .sendPubrec } } else q) sent
      else writeLoop now ok fuel (k + 1) msgCount q sent

/-- `mqtt3_db_message_write`, for a connected client. A message takes at most two
rounds of the loop. -/
def mqtt3DbMessageWrite (now : ℤ) (ok : ℕ → Bool) (q : Client) : Option (Client × List Packet) :=
  writeLoop L now ok (2 * q.msgs.length + 1) 0 0 q []

/-! ### Sessions -/

/-- What can happen to a queue. -/
inductive SessionOp
  /-- A message for the client is published, or was retained. -/
  | insertOut (now : ℤ) (i : Insert)
  /-- A QoS 2 message comes from the client. -/
  | publish (now : ℤ) (mid : ℕ) (retain : Bool) (store : Store)
  /-- A QoS 1 message comes from the client. -/
  | publishQos1 (mid : ℕ)
  /-- A PUBACK or PUBCOMP. -/
  | pubackcomp (now : ℤ) (mid : ℕ)
  | pubrec (now : ℤ) (mid : ℕ)
  | pubrel (now : ℤ) (mid : ℕ) (echo : Delivery → List Insert)
  | write (now : ℤ) (ok : ℕ → Bool)
  | timeoutCheck (now timeout : ℤ)
  | disconnect
  /-- A new connection, by a user who may read some topics. -/
  | connect (cleanSession : Bool) (mayRead : List Char → Bool)

/-- The QoS 2 branch of `mqtt3_handle_publish`. A message that is there already
is answered once more. -/
def handlePublish (now : ℤ) (mid : ℕ) (retain : Bool) (store : Store) (q : Client) : Client × List Event :=
  match mqtt3DbMessageStoreFind mid q with
  | some _ => (q, [.send (.pubrec mid)])
  | none =>
    let d : Delivery :=
      { mid := mid
        direction := .mdIn
        qos := 2
        retain := retain
        store := { store with sourceMid := mid } }
    match insertState L d q with
    | .error rc => (q, if rc = 0 then [.send (.pubrec mid)] else [])
    | .ok (state, rc) => (appendMsg L now d state q, .accept d :: if rc = 0 then [.send (.pubrec mid)] else [])

/-- The end of a connection, by `mqtt3_context_disconnect` or, for a clean
session, `mqtt3_context_cleanup`. -/
def disconnect (q : Client) : Client × List Event :=
  if q.cleanSession then ({ mqtt3DbMessagesDelete q with connected := false }, [.clean])
  else ({ q with connected := false }, [])

/-- A QoS 1 message that is found under its id among those from the client is not the
one that goes on: the one that was found does, and stays. -/
def handlePublishQos1 (mid : ℕ) (q : Client) : Client × List Event :=
  (q, ((mqtt3DbMessageStoreFind mid q).map .passHeld).toList)

/-- A message to the client that the user may not read. -/
def barred (mayRead : List Char → Bool) (d : Delivery) : Bool :=
  d.direction = .mdOut ∧ mayRead d.store.topic = false

/-- The loop of `mqtt3_handle_connect` over the messages of a session that is taken up,
and whether it leaves `last_msg` at a message that it freed: it looks after that only at
the head of the list. -/
def aclLoop (mayRead : List Char → Bool) : ℕ → ℕ → Client → Client × Bool
  | 0, _, q => (q, false)
  | n + 1, k, q =>
    match q.msgs[k]? with
    | none => (q, false)
    | some m =>
      if barred mayRead m.toDelivery then
        let r := aclLoop mayRead n k { q with msgs := q.msgs.eraseIdx k }
        (r.1, decide (k ≠ 0 ∧ k + 1 = q.msgs.length) || r.2)
      else aclLoop mayRead n (k + 1) q

/-- `mqtt3_handle_connect`: a session goes on if neither side asked for a clean one. -/
def handleConnect (cleanSession : Bool) (mayRead : List Char → Bool) (q : Client) :
    Option (Client × List Event) :=
  if cleanSession = false ∧ q.cleanSession = false then
    let q := { mqtt3DbMessageReconnectReset L q with connected := true }
    let r := aclLoop mayRead q.msgs.length 0 q
    if r.2 then none else some (r.1, [])
  else
    some ({ connected := true, cleanSession := cleanSession, lazyBridge := q.lazyBridge, dests := q.dests }, [.clean])

/-- One thing that happens to a queue. Packets come from a connected client. -/
def sessionStep (q : Client) : SessionOp → Option (Client × List Event)
  | .insertOut now i => some (insertOut L now i q)
  | .publish now mid retain store =>
    some (if q.connected then handlePublish L now mid retain store q else (q, []))
  | .publishQos1 mid => some (if q.connected then handlePublishQos1 mid q else (q, []))
  | .pubackcomp now mid =>
    some (if q.connected ∧ mid ≠ 0 then (mqtt3DbMessageDelete L now mid .mdOut q, [.ack mid]) else (q, []))
  | .pubrec now mid =>
    some (if q.connected then
      (mqtt3DbMessageUpdate now mid .mdOut .waitForPubcomp q, [.send (.pubrel mid)]) else (q, []))
  | .pubrel now mid echo =>
    if q.connected then
      (mqtt3DbMessageRelease L now mid echo q).map fun r => (r.1, r.2 ++ [.send (.pubcomp mid)])
    else some (q, [])
  | .write now ok =>
    if q.connected then (mqtt3DbMessageWrite L now ok q).map fun r => (r.1, r.2.map .send) else some (q, [])
  | .timeoutCheck now timeout =>
    some (if q.connected then mqtt3DbMessageTimeoutCheck now timeout q else q, [])
  | .disconnect => some (disconnect q)
  | .connect cleanSession mayRead => handleConnect L cleanSession mayRead q

/-- A run from a queue, with its trace. -/
def sessionRun (q : Client) : List SessionOp → Option (Client × List Event)
  | [] => some (q, [])
  | op :: ops =>
    match sessionStep L q op with
    | none => none
    | some (q', events) => (sessionRun q' ops).map fun r => (r.1, events ++ r.2)

end Broker
end BlenderBottle
