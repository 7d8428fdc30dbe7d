/-
# What every session keeps of a queue

Whatever happens to a queue is a sequence of moves (`Move`): messages go on to
other states, a message is put at the end, one is taken out because it was sent,
acknowledged or passed on, the connection ends or a new one begins. Each move has
the events it leaves on the trace. Every function of `Queue` is such a sequence
(`sessionStep_moves`), and what holds of a session is then shown move by move.

First of all `QueueInv`: the counters are right, only QoS 2 messages are kept
from the client, and while the client is connected the first message of its
queue does not wait. So the loops that have no bound in the source come to an
end, and no session gets stuck (`sessionRun_inv`).

All this is so as long as a session that is kept is not taken up by a user who may
not read some of its messages (`UnbarredRun`). What happens then is in
`reconnect_bars`.

Key definitions: `Advance`, `Move`, `QueueInv`, `UnbarredRun`.
Key theorems: `Move.inv`, `sessionStep_moves`, `sessionRun_inv`.
-/
import BlenderBottle.Broker.Queue
import Mathlib.Data.List.Forall2
import Mathlib.Logic.Relation

namespace BlenderBottle
namespace Broker

/-- What a queue holds, without the states. -/
def Client.deliveries (q : Client) : List Delivery := q.msgs.map ClientMsg.toDelivery

/-- A list cut at one of its elements. -/
theorem exists_cut {α : Type} {l : List α} {k : ℕ} {a : α} (h : l[k]? = some a) :
    ∃ pre post, l = pre ++ a :: post ∧ pre.length = k ∧ l.eraseIdx k = pre ++ post ∧
      ∀ b, l.set k b = pre ++ b :: post := by
  obtain ⟨hk, rfl⟩ := List.getElem?_eq_some_iff.mp h
  refine ⟨l.take k, l.drop (k + 1), ?_, by simp; omega, List.eraseIdx_eq_take_drop_succ l k, fun b => ?_⟩
  · rw [List.getElem_cons_drop, List.take_append_drop]
  · rw [List.set_eq_take_append_cons_drop, if_pos hk]

/-! ### Messages go on -/

/-- How a message may go on. It stays the message it is and is not put back to
wait; only QoS 0 messages are put up to be sent and forgotten. If `strict`, they
then stay so until they are sent. -/
structure Advance (strict : Prop) (m m' : ClientMsg) : Prop where
  delivery : m'.toDelivery = m.toDelivery
  queued : m'.state = .queued → m.state = .queued
  publishQos0 : m'.state = .publishQos0 → m.state = .publishQos0 ∨ m.qos = 0
  qos0 : strict → m.qos = 0 → m.mid = 0 → m.state = .publishQos0 → m'.state = .publishQos0

section Advance

variable {strict : Prop} {L : Limits}

theorem Advance.refl (m : ClientMsg) : Advance strict m m := ⟨rfl, id, Or.inl, fun _ _ _ => id⟩

theorem Advance.trans {m₁ m₂ m₃ : ClientMsg} (h : Advance strict m₁ m₂) (h' : Advance strict m₂ m₃) :
    Advance strict m₁ m₃ := by
  have hd := h.delivery
  have hqos : m₂.qos = m₁.qos := congrArg Delivery.qos hd
  have hmid : m₂.mid = m₁.mid := congrArg Delivery.mid hd
  refine ⟨h'.delivery.trans hd, fun hq => h.queued (h'.queued hq), fun hp => ?_, fun hs h0 hm hst => ?_⟩
  · rcases h'.publishQos0 hp with hp | hp
    · exact h.publishQos0 hp
    · exact Or.inr (hqos ▸ hp)
  · exact h'.qos0 hs (hqos.trans h0) (hmid.trans hm) (h.qos0 hs h0 hm hst)

theorem publishState_ne_queued (qos : Fin 3) : publishState qos ≠ .queued := by
  revert qos
  decide

theorem publishState_eq_publishQos0 {qos : Fin 3} : publishState qos = .publishQos0 ↔ qos = 0 := by
  revert qos
  decide

/-- A message that waits is put up for sending. -/
theorem advance_publishState {m : ClientMsg} (h : m.state = .queued) :
    Advance strict m { m with state := publishState m.qos } :=
  ⟨rfl, fun _ => h, fun hp => Or.inr (publishState_eq_publishQos0.mp hp), fun _ _ _ hs => by simp [h] at hs⟩

theorem unqueue_advance {inState : MsgState} (h0 : inState ≠ .publishQos0) {m : ClientMsg}
    (h : m.state = .queued) : Advance strict m (unqueue inState m) := by
  unfold unqueue
  split
  · exact advance_publishState h
  · split
    · exact ⟨rfl, fun _ => h, fun hp => absurd hp h0, fun _ _ _ hs => by simp [h] at hs⟩
    · exact Advance.refl m

/-- After its turn a message does not wait, if it is one to the client or has QoS 2. -/
theorem unqueue_ne_queued {inState : MsgState} (hin : inState ≠ .queued) {m : ClientMsg}
    (h : m.direction = .mdIn → m.qos = 2) : (unqueue inState m).state ≠ .queued := by
  unfold unqueue
  split
  · exact publishState_ne_queued m.qos
  · rename_i hd
    rw [if_pos (h hd)]
    exact hin

theorem promoteAt_advance (now : ℤ) (msgIndex : ℕ) (m : ClientMsg) :
    Advance strict m (promoteAt L now msgIndex m) := by
  unfold promoteAt
  split
  · rename_i h
    have ht : Advance strict m { m with timestamp := now } := ⟨rfl, id, Or.inl, fun _ _ _ => id⟩
    exact ht.trans (unqueue_advance (by decide) h.1)
  · exact Advance.refl m

theorem resetState_advance (m : ClientMsg) : Advance strict m { m with state := resetState m } := by
  refine ⟨rfl, fun hq => ?_, fun hp => ?_, fun _ h0 _ hs => ?_⟩
  · by_contra hne
    simp only [resetState, hne, if_false] at hq
    split at hq
    · cases hq
    · exact publishState_ne_queued _ hq
  · by_cases hst : m.state = .queued
    · simp [resetState, hst] at hp
    · simp only [resetState, hst, if_false] at hp
      split at hp
      · cases hp
      · exact Or.inr (publishState_eq_publishQos0.mp hp)
  · simp [resetState, hs, h0, publishState]

theorem retry_advance (now timeout : ℤ) (m : ClientMsg) : Advance strict m (retry now timeout m) := by
  unfold retry
  split
  · rename_i h
    cases hst : m.state <;> simp only [retryState] <;>
      first
        | exact Advance.refl m
        | exact ⟨rfl, fun hq => by simp at hq, fun hp => by simp at hp, fun _ _ _ hs => by simp [hst] at hs⟩
  · exact Advance.refl m

theorem sendMsg_advance {now : ℤ} {m m' : ClientMsg} {p : Packet} (h : sendMsg now m = some (p, m')) :
    Advance strict m m' := by
  unfold sendMsg at h
  split at h <;> first | (simp at h; done) | skip
  all_goals
    rename_i hst
    obtain ⟨-, rfl⟩ := Prod.mk.inj (Option.some.inj h)
    exact ⟨rfl, fun hq => by simp at hq, fun hp => by simp at hp, fun _ _ _ hs => by simp [hst] at hs⟩

/-- What is sent of a message is that message. -/
theorem sendMsg_publish {now : ℤ} {m m' : ClientMsg} {p : Packet} {d : Delivery} {dup : Bool}
    (h : sendMsg now m = some (p, m')) (hp : p = .publish d dup) : d = m.toDelivery := by
  subst hp
  unfold sendMsg at h
  split at h <;> simp_all

/-! Whole queues -/

theorem advances_refl (l : List ClientMsg) : List.Forall₂ (Advance strict) l l :=
  List.forall₂_same.mpr fun m _ => Advance.refl m

theorem advances_trans {l₁ l₂ l₃ : List ClientMsg} (h : List.Forall₂ (Advance strict) l₁ l₂)
    (h' : List.Forall₂ (Advance strict) l₂ l₃) : List.Forall₂ (Advance strict) l₁ l₃ := by
  induction h generalizing l₃ with
  | nil => exact h'
  | cons hm _ ih =>
    cases h' with
    | cons hm' h' => exact .cons (hm.trans hm') (ih h')

theorem advances_set {l : List ClientMsg} {k : ℕ} {m m' : ClientMsg} (hk : l[k]? = some m)
    (h : Advance strict m m') : List.Forall₂ (Advance strict) l (l.set k m') := by
  obtain ⟨pre, post, rfl, -, -, hset⟩ := exists_cut hk
  rw [hset]
  exact List.rel_append (advances_refl pre) (.cons h (advances_refl post))

theorem advances_map {f : ClientMsg → ClientMsg} (hf : ∀ m, Advance strict m (f m)) (l : List ClientMsg) :
    List.Forall₂ (Advance strict) l (l.map f) :=
  List.forall₂_map_right_iff.mpr (List.forall₂_same.mpr fun m _ => hf m)

theorem promoteHead_advances (l : List ClientMsg) : List.Forall₂ (Advance strict) l (promoteHead L l) := by
  induction l with
  | nil => exact .nil
  | cons m l ih =>
    unfold promoteHead
    split
    · rename_i h
      exact .cons (unqueue_advance (by decide) h.1) ih
    · exact advances_refl _

theorem resetPromote_advances (count : ℕ) (l : List ClientMsg) :
    List.Forall₂ (Advance strict) l (resetPromote L count l) := by
  induction l generalizing count with
  | nil => exact .nil
  | cons m l ih =>
    unfold resetPromote
    split
    · refine .cons ?_ (ih _)
      split
      · rename_i h
        exact advance_publishState h
      · exact Advance.refl m
    · exact advances_refl _

theorem deliveries_of_advances {l l' : List ClientMsg} (h : List.Forall₂ (Advance strict) l l') :
    l'.map ClientMsg.toDelivery = l.map ClientMsg.toDelivery := by
  induction h with
  | nil => rfl
  | cons hm _ ih => rw [List.map_cons, List.map_cons, hm.delivery, ih]

/-- What goes on came from a message of the queue. -/
theorem exists_advance {l l' : List ClientMsg} (h : List.Forall₂ (Advance strict) l l') {m' : ClientMsg}
    (hm : m' ∈ l') : ∃ m ∈ l, Advance strict m m' := by
  induction h with
  | nil => simp at hm
  | cons hadv _ ih =>
    rcases List.mem_cons.mp hm with rfl | hm
    · exact ⟨_, List.mem_cons_self, hadv⟩
    · obtain ⟨m, hm, h⟩ := ih hm
      exact ⟨m, List.mem_cons_of_mem _ hm, h⟩

theorem head_of_advances {l l' : List ClientMsg} (h : List.Forall₂ (Advance strict) l l')
    (hl : ∀ m ∈ l.head?, m.state ≠ .queued) : ∀ m ∈ l'.head?, m.state ≠ .queued := by
  cases h with
  | nil => exact hl
  | cons hadv _ =>
    intro m hm
    simp only [List.head?_cons, Option.mem_some_iff] at hm hl
    subst hm
    exact fun hq => hl _ rfl (hadv.queued hq)

end Advance

variable (L : Limits) (strict : Prop)

/-! ### A message is taken out -/

/-- `messageRemove` at a message that is there. -/
theorem messageRemove_eq {q : Client} {k : ℕ} {m : ClientMsg} (hk : q.msgs[k]? = some m) :
    messageRemove L k q =
      { q with
        msgs := promoteHead L (q.msgs.eraseIdx k)
        msgCount := q.msgCount - 1
        msgCount12 := if m.qos ≠ 0 then q.msgCount12 - 1 else q.msgCount12 } := by
  rw [messageRemove, hk]

theorem deliveries_messageRemove {q : Client} {k : ℕ} {m : ClientMsg} (hk : q.msgs[k]? = some m) :
    ∃ pre post, q.deliveries = pre ++ m.toDelivery :: post ∧ pre.length = k ∧
      (messageRemove L k q).deliveries = pre ++ post := by
  obtain ⟨pre, post, hl, hlen, herase, -⟩ := exists_cut hk
  refine ⟨pre.map ClientMsg.toDelivery, post.map ClientMsg.toDelivery, ?_, by simpa using hlen, ?_⟩
  · rw [Client.deliveries, hl, List.map_append, List.map_cons]
  · have hadv : List.Forall₂ (Advance True) (pre ++ post) (promoteHead L (pre ++ post)) := promoteHead_advances _
    rw [messageRemove_eq L hk, Client.deliveries, herase, deliveries_of_advances hadv, List.map_append]

/-- After a removal the first message does not wait. -/
theorem promoteHead_head (hL : 0 < L.maxInflight) {l : List ClientMsg}
    (hl : ∀ m ∈ l, m.direction = .mdIn → m.qos = 2) :
    ∀ m ∈ (promoteHead L l).head?, m.state ≠ .queued := by
  intro m hm
  cases l with
  | nil => simp [promoteHead] at hm
  | cons a l =>
    unfold promoteHead at hm
    split at hm
    · simp only [List.head?_cons, Option.mem_some_iff] at hm
      subst hm
      exact unqueue_ne_queued (by decide) (hl a List.mem_cons_self)
    · rename_i h
      simp only [List.head?_cons, Option.mem_some_iff] at hm
      subst hm
      exact fun hq => h ⟨hq, hL⟩

/-- The messages that a packet with this id is about. -/
def Answers (mid : ℕ) (dir : Direction) (d : Delivery) : Prop := d.mid = mid ∧ d.direction = dir

instance (mid : ℕ) (dir : Direction) : DecidablePred (Answers mid dir) := fun _ => inferInstanceAs (Decidable (_ ∧ _))

/-- Messages go on, or one that `p` allows is taken out. -/
inductive Edit (p : Delivery → Prop) (q : Client) : Client → Prop
  | advance {msgs : List ClientMsg} (h : List.Forall₂ (Advance strict) q.msgs msgs) :
      Edit p q { q with msgs := msgs }
  | remove {k : ℕ} {m : ClientMsg} (hk : q.msgs[k]? = some m) (hp : p m.toDelivery) :
      Edit p q (messageRemove L k q)

/-! ### Moves -/

/-- A move of a queue, with its events. -/
inductive Move : Client → List Event → Client → Prop
  | advance {q : Client} {msgs : List ClientMsg} (h : List.Forall₂ (Advance strict) q.msgs msgs) :
      Move q [] { q with msgs := msgs }
  | midGenerate (q : Client) : Move q [] (midGenerate q)
  | send (q : Client) {p : Packet} (hp : strict → ∀ d dup, p = .publish d dup → d.qos ≠ 0) : Move q [.send p] q
  | accept {q : Client} {now : ℤ} {d : Delivery} {state : MsgState} {rc : ℕ}
      (h : insertState L d q = .ok (state, rc))
      (hin : d.direction = .mdIn →
        d.qos = 2 ∧ d.store.sourceMid = d.mid ∧ mqtt3DbMessageStoreFind d.mid q = none)
      (hout : d.direction = .mdOut → d.qos = 0 → d.mid = 0) :
      Move q [.accept d] (appendMsg L now d state q)
  | sent {q : Client} {k : ℕ} {m : ClientMsg} (hk : q.msgs[k]? = some m) (hs : m.state = .publishQos0)
      (hfirst : strict → ∀ d ∈ q.deliveries.take k, d.qos ≠ 0) :
      Move q [.send (.publish m.toDelivery m.dup)] (messageRemove L k q)
  | forward {q : Client} {k : ℕ} {m : ClientMsg} (hk : q.msgs[k]? = some m) (hin : m.direction = .mdIn)
      (ht : m.store.topic ≠ []) : Move q [.forward m.toDelivery] (messageRemove L k q)
  | refused {q : Client} {k : ℕ} {m : ClientMsg} (hk : q.msgs[k]? = some m) (hin : m.direction = .mdIn)
      (ht : m.store.topic = []) : Move q [] (messageRemove L k q)
  | passHeld (q : Client) (stored : Store) : Move q [.passHeld stored] q
  | acked {q q' : Client} {mid : ℕ} (hmid : mid ≠ 0)
      (h : Relation.ReflTransGen (Edit L strict (Answers mid .mdOut)) q q')
      (hless : (∃ d ∈ q.deliveries, Answers mid .mdOut d) →
        q'.deliveries.countP (Answers mid .mdOut) < q.deliveries.countP (Answers mid .mdOut)) :
      Move q [.ack mid] q'
  | connect {q : Client} {msgs : List ClientMsg} (h : List.Forall₂ (Advance strict) q.msgs msgs)
      (hhead : ∀ m ∈ msgs.head?, m.state ≠ .queued)
      (hall : L.maxInflight = 0 → ∀ m ∈ msgs, m.state ≠ .queued) :
      Move q [] { q with connected := true, msgs := msgs }
  | disconnect (q : Client) : Move q [] { q with connected := false }
  | clean {q : Client} (q' : Client) (hmsgs : q'.msgs = []) (hc : q'.msgCount = 0) (hc12 : q'.msgCount12 = 0)
      (hlazy : q'.lazyBridge = q.lazyBridge) (hdests : q'.dests = q.dests) : Move q [.clean] q'

/-- Moves one after the other. -/
inductive Moves : Client → List Event → Client → Prop
  | refl (q : Client) : Moves q [] q
  | step {q q' q'' : Client} {e e' : List Event} (h : Move L strict q e q') (hs : Moves q' e' q'') :
      Moves q (e ++ e') q''

variable {L strict}

theorem Move.moves {q q' : Client} {e : List Event} (h : Move L strict q e q') : Moves L strict q e q' := by
  simpa using Moves.step h (.refl q')

theorem Moves.trans {q q' q'' : Client} {e e' : List Event} (h : Moves L strict q e q')
    (h' : Moves L strict q' e' q'') : Moves L strict q (e ++ e') q'' := by
  induction h with
  | refl => exact h'
  | step h _ ih =>
    rw [List.append_assoc]
    exact .step h (ih h')

/-! ### The invariant -/

variable (L strict) in
/-- What holds of each message of a queue. -/
structure MsgInv (connected : Bool) (m : ClientMsg) : Prop where
  /-- Only QoS 2 messages are kept from the client. -/
  incoming : m.direction = .mdIn → m.qos = 2
  /-- Only QoS 0 messages are forgotten when they are sent. -/
  publishQos0 : m.state = .publishQos0 → m.qos = 0
  /-- Nothing waits if there is no limit. -/
  unlimited : L.maxInflight = 0 → connected → m.state ≠ .queued
  /-- QoS 0 messages have no message id. -/
  mid0 : m.qos = 0 → m.mid = 0
  /-- QoS 0 messages are always about to be sent. -/
  qos0 : strict → m.qos = 0 → m.state = .publishQos0

variable (L strict) in
/-- What every session keeps. -/
structure QueueInv (q : Client) : Prop where
  count : q.msgCount = q.deliveries.length
  count12 : q.msgCount12 = q.deliveries.countP (fun d => d.qos ≠ 0)
  /-- While the client is connected the first message does not wait. -/
  head : q.connected → ∀ m ∈ q.msgs.head?, m.state ≠ .queued
  msgs : ∀ m ∈ q.msgs, MsgInv L strict q.connected m
  /-- QoS 0 messages are not kept for a client that is not connected. -/
  unkept : strict → L.queueQos0Messages = false ∧ q.lazyBridge = false

theorem MsgInv.advance {connected : Bool} {m m' : ClientMsg} (hI : MsgInv L strict connected m)
    (h : Advance strict m m') : MsgInv L strict connected m' := by
  have hqos : m'.qos = m.qos := congrArg Delivery.qos h.delivery
  have hdir : m'.direction = m.direction := congrArg Delivery.direction h.delivery
  have hmid : m'.mid = m.mid := congrArg Delivery.mid h.delivery
  refine ⟨fun hd => hqos.trans (hI.incoming (hdir.symm.trans hd)), fun hs => ?_,
    fun hL hc hq => hI.unlimited hL hc (h.queued hq), fun h0 => hmid.trans (hI.mid0 (hqos.symm.trans h0)),
    fun hs h0 => ?_⟩
  · rcases h.publishQos0 hs with hs | h0
    · exact hqos.trans (hI.publishQos0 hs)
    · exact hqos.trans h0
  · have h0' := hqos.symm.trans h0
    exact h.qos0 hs h0' (hI.mid0 h0') (hI.qos0 hs h0')

theorem msgInv_of_advances {connected : Bool} {l l' : List ClientMsg}
    (hI : ∀ m ∈ l, MsgInv L strict connected m) (h : List.Forall₂ (Advance strict) l l') :
    ∀ m ∈ l', MsgInv L strict connected m := by
  intro m' hm'
  obtain ⟨m, hm, hadv⟩ := exists_advance h hm'
  exact (hI m hm).advance hadv

theorem QueueInv.empty {q : Client} (hm : q.msgs = []) (hc : q.msgCount = 0) (hc12 : q.msgCount12 = 0)
    (hu : strict → L.queueQos0Messages = false ∧ q.lazyBridge = false) : QueueInv L strict q :=
  ⟨by simp [Client.deliveries, hm, hc], by simp [Client.deliveries, hm, hc12], by simp [hm], by simp [hm], hu⟩

theorem QueueInv.advance {q : Client} {msgs : List ClientMsg} (hI : QueueInv L strict q)
    (h : List.Forall₂ (Advance strict) q.msgs msgs) : QueueInv L strict { q with msgs := msgs } := by
  have hd : ({ q with msgs := msgs } : Client).deliveries = q.deliveries := deliveries_of_advances h
  exact ⟨hd ▸ hI.count, hd ▸ hI.count12, fun hc => head_of_advances h (hI.head hc),
    msgInv_of_advances hI.msgs h, hI.unkept⟩

theorem QueueInv.remove {q : Client} {k : ℕ} {m : ClientMsg} (hI : QueueInv L strict q)
    (hk : q.msgs[k]? = some m) : QueueInv L strict (messageRemove L k q) := by
  obtain ⟨pre, post, hd, -, hd'⟩ := deliveries_messageRemove L hk
  have hmsgs : ∀ a ∈ q.msgs.eraseIdx k, MsgInv L strict q.connected a :=
    fun a ha => hI.msgs a (List.mem_of_mem_eraseIdx ha)
  rw [messageRemove_eq L hk] at hd' ⊢
  refine ⟨?_, ?_, fun hc => ?_, msgInv_of_advances hmsgs (promoteHead_advances _), hI.unkept⟩
  · rw [hd', hI.count, hd]
    simp
    omega
  · rw [hd', hI.count12, hd]
    by_cases h0 : m.qos = 0 <;> simp [h0]
    omega
  · rcases Nat.eq_zero_or_pos L.maxInflight with hL | hL
    · have hadv : List.Forall₂ (Advance strict) _ (promoteHead L (q.msgs.eraseIdx k)) := promoteHead_advances _
      exact head_of_advances hadv fun a ha => (hmsgs a (List.mem_of_mem_head? ha)).unlimited hL hc
    · exact promoteHead_head L hL fun a ha => (hmsgs a ha).incoming

theorem QueueInv.edits {p : Delivery → Prop} {q q' : Client} (hI : QueueInv L strict q)
    (h : Relation.ReflTransGen (Edit L strict p) q q') : QueueInv L strict q' := by
  induction h with
  | refl => exact hI
  | tail _ h ih =>
    cases h with
    | advance h => exact ih.advance h
    | remove hk _ => exact ih.remove hk

/-- Where a new message does not wait, and where it does. -/
theorem insertState_cases {d : Delivery} {q : Client} {state : MsgState} {rc : ℕ}
    (h : insertState L d q = .ok (state, rc)) :
    (q.connected = true ∧ d.direction = .mdOut ∧ state = publishState d.qos) ∨
      (q.connected = true ∧ d.direction = .mdIn ∧ d.qos = 2 ∧ state = .waitForPubrel) ∨
      (q.connected = true ∧ state = .queued ∧ d.qos ≠ 0 ∧ L.maxInflight ≠ 0 ∧
        (L.maxInflight : ℤ) ≤ q.msgCount12) ∨
      (q.connected = false ∧ state = .queued ∧
        (d.qos ≠ 0 ∨ L.queueQos0Messages = true ∨ q.lazyBridge = true)) := by
  unfold insertState at h
  split at h
  · cases h
  rename_i hdup
  split at h
  · cases h
  rename_i hdis
  split at h
  · rename_i hcon
    split at h
    · split at h
      · rename_i hd
        cases h
        exact Or.inl ⟨hcon, hd, rfl⟩
      · rename_i hd
        split at h
        · rename_i hq
          cases h
          exact Or.inr (Or.inl ⟨hcon, hd, hq, rfl⟩)
        · cases h
    · rename_i hroom
      split at h
      · cases h
        simp only [not_or, not_lt] at hroom
        exact Or.inr (Or.inr (Or.inl ⟨hcon, rfl, hroom⟩))
      · cases h
  · rename_i hcon
    split at h
    · cases h
    · cases h
      refine Or.inr (Or.inr (Or.inr ⟨by simpa using hcon, rfl, ?_⟩))
      by_contra hne
      simp only [not_or, Bool.not_eq_true, Decidable.not_not] at hne
      exact hdis ⟨by simpa using hcon, hne⟩

theorem QueueInv.accept {q : Client} {now : ℤ} {d : Delivery} {state : MsgState} {rc : ℕ}
    (hI : QueueInv L strict q) (h : insertState L d q = .ok (state, rc))
    (hin : d.direction = .mdIn → d.qos = 2) (hout : d.direction = .mdOut → d.qos = 0 → d.mid = 0) :
    QueueInv L strict (appendMsg L now d state q) := by
  have hd : (appendMsg L now d state q).deliveries = q.deliveries ++ [d] := by
    simp [Client.deliveries, appendMsg]
  have hcases := insertState_cases h
  have hmid0 : d.qos = 0 → d.mid = 0 := fun h0 => by
    cases hdir : d.direction with
    | mdIn => exact absurd ((hin hdir).symm.trans h0) (by decide)
    | mdOut => exact hout hdir h0
  refine ⟨?_, ?_, fun hc m hm => ?_, fun m hm => ?_, hI.unkept⟩
  · rw [hd, appendMsg, hI.count]
    simp
  · rw [hd, appendMsg, hI.count12]
    by_cases h0 : d.qos = 0 <;> simp [h0]
  · cases hmsgs : q.msgs with
    | cons a l =>
      refine hI.head hc m ?_
      simpa [appendMsg, hmsgs] using hm
    | nil =>
      -- the first message of an empty queue finds room
      have h0 : q.msgCount12 = 0 := by simp [hI.count12, Client.deliveries, hmsgs]
      simp only [appendMsg, hmsgs, List.nil_append, List.head?_cons, Option.mem_some_iff] at hm
      subst hm
      obtain ⟨-, -, rfl⟩ | ⟨-, -, -, rfl⟩ | ⟨-, -, -, hL, hroom⟩ | ⟨hcon, -⟩ := hcases
      · exact publishState_ne_queued _
      · simp
      · omega
      · exact absurd hc (by simp [appendMsg, hcon])
  · simp only [appendMsg, List.mem_append, List.mem_singleton] at hm
    rcases hm with hm | rfl
    · exact hI.msgs m hm
    · obtain ⟨-, hdir, rfl⟩ | ⟨-, -, h2, rfl⟩ | ⟨-, rfl, h0, hL', -⟩ | ⟨hcon, rfl, hkeep⟩ := hcases
      · exact ⟨hin, publishState_eq_publishQos0.mp, fun _ _ => publishState_ne_queued _, hmid0,
          fun _ h0 => publishState_eq_publishQos0.mpr h0⟩
      · exact ⟨hin, nofun, nofun, hmid0, fun _ h0 => by simp [h2] at h0⟩
      · exact ⟨hin, nofun, fun hL => absurd hL hL', hmid0, fun _ h0' => absurd h0' h0⟩
      · refine ⟨hin, nofun, fun _ hc => by simp [appendMsg, hcon] at hc, hmid0, fun hs h0 => ?_⟩
        obtain ⟨hL, hlazy⟩ := hI.unkept hs
        simp only [hL, hlazy, Bool.false_eq_true, or_self, or_false] at hkeep
        exact absurd h0 hkeep

theorem Move.inv {q q' : Client} {e : List Event} (h : Move L strict q e q') (hI : QueueInv L strict q) :
    QueueInv L strict q' := by
  cases h with
  | advance h => exact hI.advance h
  | midGenerate => exact ⟨hI.count, hI.count12, hI.head, hI.msgs, hI.unkept⟩
  | send => exact hI
  | accept h hin hout => exact hI.accept h (fun hd => (hin hd).1) hout
  | sent hk => exact hI.remove hk
  | forward hk => exact hI.remove hk
  | refused hk => exact hI.remove hk
  | passHeld => exact hI
  | acked _ h _ => exact hI.edits h
  | connect h hhead hall =>
    have hI' := hI.advance h
    exact ⟨hI'.count, hI'.count12, fun _ => hhead, fun m hm =>
      ⟨(hI'.msgs m hm).incoming, (hI'.msgs m hm).publishQos0, fun hL _ => hall hL m hm, (hI'.msgs m hm).mid0,
        (hI'.msgs m hm).qos0⟩,
      hI.unkept⟩
  | disconnect =>
    exact ⟨hI.count, hI.count12, fun hc => by simp at hc, fun m hm =>
      ⟨(hI.msgs m hm).incoming, (hI.msgs m hm).publishQos0, fun _ hc => by simp at hc, (hI.msgs m hm).mid0,
        (hI.msgs m hm).qos0⟩,
      hI.unkept⟩
  | clean _ hm hc hc12 hlazy _ => exact QueueInv.empty hm hc hc12 fun hs => hlazy ▸ hI.unkept hs

theorem Moves.inv {q q' : Client} {e : List Event} (h : Moves L strict q e q') (hI : QueueInv L strict q) :
    QueueInv L strict q' := by
  induction h with
  | refl => exact hI
  | step h _ ih => exact ih (h.inv hI)

/-! ### The functions are moves -/

/-- What stands at an index after the message there went on. -/
theorem getElem?_set {l : List ClientMsg} {k : ℕ} {m : ClientMsg} (hk : l[k]? = some m) (m' : ClientMsg) :
    (l.set k m')[k]? = some m' := by
  obtain ⟨hlt, -⟩ := List.getElem?_eq_some_iff.mp hk
  simp [hlt]

theorem deleteLoop_edits (now : ℤ) (mid : ℕ) (dir : Direction) (n k msgIndex : ℕ) (deleted : Bool) (q : Client) :
    Relation.ReflTransGen (Edit L strict (Answers mid dir)) q (deleteLoop L now mid dir n k msgIndex deleted q) := by
  induction n generalizing k msgIndex deleted q with
  | zero => exact .refl
  | succ n ih =>
    cases hk : q.msgs[k]? with
    | none => simp only [deleteLoop, hk]; exact .refl
    | some m =>
      have hadv : Advance strict m (promoteAt L now (msgIndex + 1) m) := promoteAt_advance now (msgIndex + 1) m
      have hfirst := Relation.ReflTransGen.single
        (Edit.advance (L := L) (p := Answers mid dir) (advances_set hk hadv))
      simp only [deleteLoop, hk]
      split
      · rename_i hm
        have hrem := hfirst.tail (Edit.remove (L := L) (getElem?_set hk _)
          (by rw [hadv.delivery]; exact hm))
        split
        · exact hrem
        · exact hrem.trans (ih k msgIndex true _)
      · split
        · exact hfirst
        · exact hfirst.trans (ih (k + 1) (msgIndex + 1) deleted _)

/-- Edits leave the messages that they may not take out. -/
theorem edits_filter {p : Delivery → Prop} {f : Delivery → Bool} {q q' : Client}
    (h : Relation.ReflTransGen (Edit L strict p) q q') (hpf : ∀ d ∈ q.deliveries, p d → f d = false) :
    q'.deliveries.filter f = q.deliveries.filter f ∧ q'.deliveries.Sublist q.deliveries := by
  induction h with
  | refl => exact ⟨rfl, .refl _⟩
  | tail _ h ih =>
    cases h with
    | advance h =>
      rw [Client.deliveries, deliveries_of_advances h]
      exact ih
    | remove hk hp =>
      obtain ⟨pre, post, hd, -, hd'⟩ := deliveries_messageRemove L hk
      have hf := hpf _ (ih.2.subset (hd ▸ List.mem_append_right pre List.mem_cons_self)) hp
      refine ⟨?_, List.Sublist.trans ?_ ih.2⟩
      · rw [← ih.1, hd, hd']
        simp [hf]
      · rw [hd, hd']
        exact List.Sublist.append_left (List.sublist_cons_self _ _) pre

/-- An answer takes out the first message that it is about: the loop does not stop
before it has found one. -/
theorem deleteLoop_countP (now : ℤ) (mid : ℕ) (dir : Direction) (n k msgIndex : ℕ) (q : Client)
    (hn : q.msgs.length ≤ n + k) (hex : ∃ j m, k ≤ j ∧ q.msgs[j]? = some m ∧ Answers mid dir m.toDelivery) :
    (deleteLoop L now mid dir n k msgIndex false q).deliveries.countP (Answers mid dir) <
      q.deliveries.countP (Answers mid dir) := by
  induction n generalizing k msgIndex q with
  | zero =>
    obtain ⟨j, m, hj, hjm, -⟩ := hex
    obtain ⟨hlt, -⟩ := List.getElem?_eq_some_iff.mp hjm
    omega
  | succ n ih =>
    obtain ⟨j, m, hj, hjm, hm⟩ := hex
    obtain ⟨hlt, -⟩ := List.getElem?_eq_some_iff.mp hjm
    have hk : q.msgs[k]? = some q.msgs[k] := List.getElem?_eq_getElem (by omega)
    generalize q.msgs[k] = a at hk
    have hadv : Advance False a (promoteAt L now (msgIndex + 1) a) := promoteAt_advance now (msgIndex + 1) a
    simp only [deleteLoop, hk]
    generalize hq₁ : ({ q with msgs := q.msgs.set k (promoteAt L now (msgIndex + 1) a) } : Client) = q₁
    have hd₁ : q₁.deliveries = q.deliveries := by
      rw [← hq₁]
      exact deliveries_of_advances (advances_set hk hadv)
    by_cases ha : a.mid = mid ∧ a.direction = dir
    · have hk₁ : q₁.msgs[k]? = some (promoteAt L now (msgIndex + 1) a) := by
        rw [← hq₁]
        exact getElem?_set hk _
      obtain ⟨pre, post, hd, -, hd'⟩ := deliveries_messageRemove L hk₁
      have hans : Answers mid dir (promoteAt L now (msgIndex + 1) a).toDelivery := by
        rw [hadv.delivery]
        exact ha
      have hrem : (messageRemove L k q₁).deliveries.countP (Answers mid dir) <
          q.deliveries.countP (Answers mid dir) := by
        rw [← hd₁, hd, hd']
        simp [hans]
      rw [if_pos ha]
      split
      · exact hrem
      · have hrest : Relation.ReflTransGen (Edit L False (Answers mid dir)) _ _ :=
          deleteLoop_edits now mid dir n k msgIndex true (messageRemove L k q₁)
        have hsub := (edits_filter (f := fun _ => false) hrest fun _ _ _ => rfl).2
        exact lt_of_le_of_lt hsub.countP_le hrem
    · rw [if_neg ha, if_neg (by simp), ← hd₁]
      have hne : j ≠ k := by
        rintro rfl
        rw [hjm] at hk
        obtain rfl := Option.some.inj hk
        exact ha hm
      apply ih (k + 1) (msgIndex + 1) q₁
      · rw [← hq₁, List.length_set]
        omega
      · refine ⟨j, m, by omega, ?_, hm⟩
        rw [← hq₁, List.getElem?_set_ne (Ne.symm hne)]
        exact hjm

theorem update_move (now : ℤ) {mid : ℕ} (hmid : strict → mid ≠ 0) (q : Client) :
    Move L strict q [] (mqtt3DbMessageUpdate now mid .mdOut .waitForPubcomp q) := by
  unfold mqtt3DbMessageUpdate
  cases hf : q.msgs.findIdx? fun m => m.mid = mid ∧ m.direction = .mdOut with
  | none => exact .advance (advances_refl q.msgs)
  | some k =>
    obtain ⟨hlt, hm, -⟩ := List.findIdx?_eq_some_iff_getElem.mp hf
    simp only [decide_eq_true_eq] at hm
    have hk : q.msgs[k]? = some q.msgs[k] := List.getElem?_eq_getElem hlt
    simp only [List.modify_eq_set_getElem?, hk]
    refine .advance (advances_set hk ⟨rfl, fun hq => by simp at hq, fun hp => by simp at hp, ?_⟩)
    intro hs _ h0
    exact absurd (hm.1.symm.trans h0) (hmid hs)

/-- Without messages that the loop removes, it only counts and resets states. -/
theorem resetLoop_eq (n : ℕ) (pre post : List ClientMsg) (q : Client) (hq : q.msgs = pre ++ post)
    (hn : n = post.length) (hin : ∀ m ∈ post, m.direction = .mdIn → m.qos = 2) :
    resetLoop L n pre.length q =
      { q with
        msgs := pre ++ post.map fun m => if m.direction = .mdOut then { m with state := resetState m } else m
        msgCount := q.msgCount + post.length
        msgCount12 := q.msgCount12 + post.countP fun m => m.qos ≠ 0 } := by
  induction post generalizing n pre q with
  | nil =>
    subst hn
    cases q
    simp_all [resetLoop]
  | cons m post ih =>
    obtain ⟨n, rfl⟩ : ∃ n', n = n' + 1 := ⟨post.length, by simpa using hn⟩
    have hn' : n = post.length := by simpa using hn
    have hin' : ∀ a ∈ post, a.direction = .mdIn → a.qos = 2 := fun a ha => hin a (List.mem_cons_of_mem _ ha)
    have hk : q.msgs[pre.length]? = some m := by simp [hq]
    simp only [resetLoop, hk]
    cases hd : m.direction with
    | mdOut =>
      have hset : q.msgs.set pre.length { m with state := resetState m } =
          (pre ++ [{ m with state := resetState m }]) ++ post := by simp [hq]
      have := ih n (pre ++ [{ m with state := resetState m }])
        { q with
          msgs := q.msgs.set pre.length { m with state := resetState m }
          msgCount := q.msgCount + 1
          msgCount12 := if m.qos ≠ 0 then q.msgCount12 + 1 else q.msgCount12 } hset hn' hin'
      simp only [List.length_append, List.length_cons, List.length_nil, Nat.zero_add] at this
      rw [this]
      by_cases h0 : m.qos = 0 <;> simp [hd, h0] <;> omega
    | mdIn =>
      have hmsgs : q.msgs = (pre ++ [m]) ++ post := by simp [hq]
      have h2 : m.qos = 2 := hin m List.mem_cons_self hd
      have := ih n (pre ++ [m])
        { q with
          msgCount := q.msgCount + 1
          msgCount12 := if m.qos ≠ 0 then q.msgCount12 + 1 else q.msgCount12 } hmsgs hn' hin'
      simp only [List.length_append, List.length_cons, List.length_nil, Nat.zero_add] at this
      simp only [h2, ne_eq, not_true_eq_false, if_false]
      rw [h2] at this
      rw [this]
      simp [hd, h2]
      omega

theorem resetPromote_ne_queued (hL : L.maxInflight = 0) (count : ℕ) (l : List ClientMsg) :
    ∀ m ∈ resetPromote L count l, m.state ≠ .queued := by
  induction l generalizing count with
  | nil => simp [resetPromote]
  | cons a l ih =>
    simp only [resetPromote, hL, true_or, if_true, List.mem_cons, forall_eq_or_imp]
    refine ⟨?_, ih _⟩
    split
    · exact publishState_ne_queued _
    · assumption

theorem resetPromote_head (l : List ClientMsg) : ∀ m ∈ (resetPromote L 0 l).head?, m.state ≠ .queued := by
  intro m hm
  cases l with
  | nil => simp [resetPromote] at hm
  | cons a l =>
    have h : L.maxInflight = 0 ∨ 0 < L.maxInflight := Nat.eq_zero_or_pos _
    simp only [resetPromote, h, if_true, List.head?_cons, Option.mem_some_iff] at hm
    subst hm
    split
    · exact publishState_ne_queued _
    · assumption

/-- A message in the first loop of `mqtt3_db_message_reconnect_reset`. -/
def resetMsg (m : ClientMsg) : ClientMsg :=
  if m.direction = .mdOut then { m with state := resetState m } else m

theorem resetMsg_advance (m : ClientMsg) : Advance strict m (resetMsg m) := by
  unfold resetMsg
  split
  · exact resetState_advance m
  · exact Advance.refl m

theorem reconnectReset_eq {q : Client} (hI : QueueInv L strict q) :
    mqtt3DbMessageReconnectReset L q = { q with msgs := resetPromote L 0 (q.msgs.map resetMsg) } := by
  have hreset := resetLoop_eq q.msgs.length [] q.msgs { q with msgCount := 0, msgCount12 := 0 } rfl rfl
    (fun m hm => (hI.msgs m hm).incoming) (L := L)
  have hc := hI.count
  have hc12 := hI.count12
  simp only [Client.deliveries, List.length_map, List.countP_map, Function.comp_def] at hc hc12
  simp only [List.length_nil, List.nil_append, Int.zero_add, ← hc, ← hc12] at hreset
  rw [mqtt3DbMessageReconnectReset, hreset]
  rfl

theorem deliveries_reconnectReset {q : Client} (hI : QueueInv L strict q) :
    (mqtt3DbMessageReconnectReset L q).deliveries = q.deliveries := by
  rw [reconnectReset_eq hI]
  have hadv : List.Forall₂ (Advance strict) q.msgs (resetPromote L 0 (q.msgs.map resetMsg)) :=
    advances_trans (advances_map resetMsg_advance q.msgs) (resetPromote_advances 0 _)
  exact deliveries_of_advances hadv

theorem reconnectReset_move {q : Client} (hI : QueueInv L strict q) :
    Move L strict q [] { mqtt3DbMessageReconnectReset L q with connected := true } := by
  rw [reconnectReset_eq hI]
  exact .connect (advances_trans (advances_map resetMsg_advance q.msgs) (resetPromote_advances 0 _))
    (resetPromote_head _) fun hL => resetPromote_ne_queued hL 0 _

/-- A message that is barred is not taken out by the loop if there is none. -/
theorem aclLoop_eq {mayRead : List Char → Bool} {q : Client} (h : ∀ d ∈ q.deliveries, barred mayRead d = false)
    (n k : ℕ) : aclLoop mayRead n k q = (q, false) := by
  induction n generalizing k with
  | zero => rfl
  | succ n ih =>
    unfold aclLoop
    split
    · rfl
    · rename_i m hk
      have hm := h m.toDelivery (List.mem_map_of_mem (List.mem_of_getElem? hk))
      rw [hm, if_neg Bool.false_ne_true]
      exact ih (k + 1)

theorem insertOut_moves (now : ℤ) (i : Insert) (q : Client) :
    Moves L strict q (insertOut L now i q).2 (insertOut L now i q).1 := by
  unfold insertOut
  generalize hq : (if i.qos ≠ 0 then midGenerate q else q) = q'
  have hmid : Moves L strict q [] q' := by
    rw [← hq]
    split
    · exact (Move.midGenerate q).moves
    · exact .refl q
  simp only [mqtt3DbMessageInsert]
  cases h : insertState L (i.delivery (if i.qos ≠ 0 then q'.lastMid else 0)) q' with
  | error rc => exact hmid
  | ok r =>
    refine hmid.trans (Move.accept h (fun hd => ?_) fun _ h0 => ?_).moves
    · simp [Insert.delivery] at hd
    · exact if_neg (not_not.mpr h0)

theorem insertsOut_moves (now : ℤ) (is : List Insert) (q : Client) :
    Moves L strict q (insertsOut L now is q).2 (insertsOut L now is q).1 := by
  induction is generalizing q with
  | nil => exact .refl q
  | cons i is ih => exact (insertOut_moves now i q).trans (ih _)

/-- What is put in stands at the end, and goes to the client. -/
theorem insertOut_msgs (now : ℤ) (i : Insert) (q : Client) :
    ∃ new, (insertOut L now i q).1.msgs = q.msgs ++ new ∧ new.length ≤ 1 ∧ ∀ m ∈ new, m.direction = .mdOut := by
  unfold insertOut
  generalize hq : (if i.qos ≠ 0 then midGenerate q else q) = q'
  have hmsgs : q'.msgs = q.msgs := by
    rw [← hq]
    split <;> rfl
  simp only [mqtt3DbMessageInsert]
  cases h : insertState L (i.delivery (if i.qos ≠ 0 then q'.lastMid else 0)) q' with
  | error rc => exact ⟨[], by simp [hmsgs], by simp, by simp⟩
  | ok r =>
    obtain ⟨state, rc⟩ := r
    refine ⟨[⟨i.delivery (if i.qos ≠ 0 then q'.lastMid else 0), state, false, now⟩], ?_, by simp, ?_⟩
    · simp only [appendMsg, hmsgs]
    · simp [Insert.delivery]

theorem insertsOut_msgs (now : ℤ) (is : List Insert) (q : Client) :
    ∃ new, (insertsOut L now is q).1.msgs = q.msgs ++ new ∧ new.length ≤ is.length ∧
      ∀ m ∈ new, m.direction = .mdOut := by
  induction is generalizing q with
  | nil => exact ⟨[], by simp [insertsOut], by simp, by simp⟩
  | cons i is ih =>
    obtain ⟨new, hnew, hlen, hout⟩ := insertOut_msgs (L := L) now i q
    obtain ⟨new', hnew', hlen', hout'⟩ := ih (insertOut L now i q).1
    refine ⟨new ++ new', ?_, ?_, fun m hm => ?_⟩
    · rw [insertsOut, hnew', hnew, List.append_assoc]
    · simp only [List.length_append, List.length_cons]
      omega
    · rcases List.mem_append.mp hm with hm | hm
      · exact hout m hm
      · exact hout' m hm

/-- The rounds that `releaseLoop` may spend on a message. -/
def releaseWeight (echo : Delivery → List Insert) (d : Delivery) : ℕ :=
  1 + if d.direction = .mdIn then (echo d).length else 0

/-- The rounds left from an index on. -/
def releaseRest (echo : Delivery → List Insert) (k : ℕ) (q : Client) : ℕ :=
  ((q.deliveries.drop k).map (releaseWeight echo)).sum

theorem releaseRest_lt (echo : Delivery → List Insert) (q : Client) : releaseRest echo 0 q < releaseFuel echo q := by
  unfold releaseRest releaseFuel Client.deliveries
  induction q.msgs with
  | nil => simp
  | cons m msgs ih =>
    simp only [List.drop_zero, List.map_cons, List.sum_cons, releaseWeight] at ih ⊢
    split <;> omega

theorem drop_eq_cons {q : Client} {k : ℕ} {m : ClientMsg} (hk : q.msgs[k]? = some m) :
    q.deliveries.drop k = m.toDelivery :: q.deliveries.drop (k + 1) := by
  obtain ⟨hlt, rfl⟩ := List.getElem?_eq_some_iff.mp hk
  rw [List.drop_eq_getElem_cons (by simpa [Client.deliveries] using hlt)]
  simp [Client.deliveries]

/-- A message is passed on: the queue may grow by what comes back, and then the
message is taken out. -/
theorem passOn_moves (now : ℤ) (echo : Delivery → List Insert) {q : Client} {k : ℕ} {m : ClientMsg}
    (hk : q.msgs[k]? = some m) (hin : m.direction = .mdIn) :
    Moves L strict q (passOn L now echo m.toDelivery q).2
        (messageRemove L k (passOn L now echo m.toDelivery q).1) ∧
      releaseRest echo k (messageRemove L k (passOn L now echo m.toDelivery q).1) < releaseRest echo k q := by
  have hrest : releaseRest echo k q =
      1 + (echo m.toDelivery).length + ((q.deliveries.drop (k + 1)).map (releaseWeight echo)).sum := by
    simp [releaseRest, drop_eq_cons hk, releaseWeight, hin]
  have hafter : ∀ q' : Client, q'.msgs[k]? = some m → releaseRest echo k (messageRemove L k q') =
      ((q'.deliveries.drop (k + 1)).map (releaseWeight echo)).sum := by
    intro q' hk'
    obtain ⟨pre, post, hd, hlen, hd'⟩ := deliveries_messageRemove L hk'
    subst hlen
    rw [releaseRest, hd', hd]
    simp
  by_cases ht : m.store.topic = []
  · simp only [passOn, ht, if_true]
    refine ⟨(Move.refused hk hin ht).moves, ?_⟩
    rw [hafter q hk, hrest]
    omega
  · simp only [passOn, ht, if_false]
    obtain ⟨new, hnew, hlen, hout⟩ := insertsOut_msgs (L := L) now (echo m.toDelivery) q
    obtain ⟨hlt, -⟩ := List.getElem?_eq_some_iff.mp hk
    have hk' : (insertsOut L now (echo m.toDelivery) q).1.msgs[k]? = some m := by
      rw [hnew, List.getElem?_append_left hlt, hk]
    have hw : (new.map (releaseWeight echo ∘ ClientMsg.toDelivery)).sum = new.length := by
      have : ∀ a ∈ new, (releaseWeight echo ∘ ClientMsg.toDelivery) a = 1 := by
        intro a ha
        simp [releaseWeight, hout a ha]
      rw [List.map_congr_left this]
      simp
    refine ⟨(insertsOut_moves now _ q).trans (Move.forward hk' hin ht).moves, ?_⟩
    rw [hafter _ hk', hrest, Client.deliveries, hnew, List.map_append, List.drop_append_of_le_length,
      List.map_append, List.sum_append, List.map_map, hw, Client.deliveries]
    · omega
    · simpa using hlt

theorem promote_moves (now : ℤ) (msgIndex : ℕ) {q : Client} {k : ℕ} {m : ClientMsg} (hk : q.msgs[k]? = some m) :
    Moves L strict q (promotePubrec L msgIndex m)
      { q with msgs := q.msgs.set k (promoteAt L now msgIndex m) } := by
  have hmsg : Advance strict m (promoteAt L now msgIndex m) := promoteAt_advance now msgIndex m
  have hadv := (Move.advance (L := L) (advances_set hk hmsg)).moves
  unfold promotePubrec
  split
  · exact hadv.trans (Move.send _ (by simp)).moves
  · exact hadv

theorem releaseLoop_moves (now : ℤ) (mid : ℕ) (echo : Delivery → List Insert) (fuel k msgIndex : ℕ)
    (deleted : Bool) (q : Client) (hfuel : releaseRest echo k q < fuel) :
    ∃ q' e, releaseLoop L now mid echo fuel k msgIndex deleted q = some (q', e) ∧ Moves L strict q e q' := by
  induction fuel generalizing k msgIndex deleted q with
  | zero => omega
  | succ fuel ih =>
    cases hk : q.msgs[k]? with
    | none => exact ⟨q, [], by simp only [releaseLoop, hk], .refl q⟩
    | some m =>
      have hfirst : Moves L strict q _ _ := promote_moves now (msgIndex + 1) hk
      have hadv : Advance strict m (promoteAt L now (msgIndex + 1) m) := promoteAt_advance now (msgIndex + 1) m
      simp only [releaseLoop, hk]
      generalize hq₁ : ({ q with msgs := q.msgs.set k (promoteAt L now (msgIndex + 1) m) } : Client) = q₁
        at hfirst ⊢
      have hd₁ : q₁.deliveries = q.deliveries := by
        rw [← hq₁]
        exact deliveries_of_advances (advances_set hk hadv)
      have hrest₁ : ∀ j, releaseRest echo j q₁ = releaseRest echo j q := fun j => by
        rw [releaseRest, hd₁, releaseRest]
      by_cases hm : m.mid = mid ∧ m.direction = .mdIn
      · have hk₁ : q₁.msgs[k]? = some (promoteAt L now (msgIndex + 1) m) := by
          rw [← hq₁]
          exact getElem?_set hk _
        have hin : (promoteAt L now (msgIndex + 1) m).direction = .mdIn := by
          rw [hadv.delivery]
          exact hm.2
        obtain ⟨hmv, hlt⟩ : Moves L strict q₁ _ _ ∧ _ := passOn_moves now echo hk₁ hin
        rw [hadv.delivery] at hmv hlt
        rw [hrest₁] at hlt
        rw [if_pos hm]
        split
        · exact ⟨_, _, rfl, hfirst.trans hmv⟩
        · obtain ⟨q', e, he, hmv'⟩ := ih k (msgIndex + 1) true _ (lt_of_lt_of_le hlt (by omega))
          rw [he]
          exact ⟨_, _, rfl, (hfirst.trans hmv).trans hmv'⟩
      · rw [if_neg hm]
        split
        · exact ⟨_, _, rfl, hfirst⟩
        · have hlt : releaseRest echo (k + 1) q < releaseRest echo k q := by
            rw [releaseRest, releaseRest, drop_eq_cons hk, List.map_cons, List.sum_cons, releaseWeight]
            omega
          obtain ⟨q', e, he, hmv'⟩ := ih (k + 1) (msgIndex + 1) deleted q₁ (by rw [hrest₁]; omega)
          rw [he]
          exact ⟨_, _, rfl, hfirst.trans hmv'⟩

/-- The rounds left to `writeLoop`: two for a message, one if it does not wait. -/
def writeRest (k : ℕ) (q : Client) : ℕ :=
  match q.msgs[k]? with
  | none => 0
  | some m => 2 * (q.msgs.length - k) - if m.state = .queued then 0 else 1

theorem writeRest_le (k : ℕ) (q : Client) : writeRest k q ≤ 2 * (q.msgs.length - k) := by
  unfold writeRest
  split <;> omega

theorem length_messageRemove {q : Client} {k : ℕ} {m : ClientMsg} (hk : q.msgs[k]? = some m) :
    (messageRemove L k q).msgs.length = q.msgs.length - 1 := by
  obtain ⟨pre, post, hd, -, hd'⟩ := deliveries_messageRemove L hk
  have h := congrArg List.length hd
  have h' := congrArg List.length hd'
  simp only [Client.deliveries, List.length_map, List.length_append, List.length_cons] at h h'
  omega

/-- The loop comes to an end and is a sequence of moves. If `strict`, it leaves no
QoS 0 message behind it, and none at all when every send succeeds. -/
theorem writeLoop_moves (now : ℤ) (ok : ℕ → Bool) (fuel k msgCount : ℕ) (q : Client) (sent : List Packet)
    (hI : QueueInv L strict q) (hfuel : writeRest k q < fuel)
    (hdone : strict → ∀ d ∈ q.deliveries.take k, d.qos ≠ 0) :
    ∃ q' new, writeLoop L now ok fuel k msgCount q sent = some (q', sent ++ new) ∧
      Moves L strict q (new.map .send) q' ∧ (strict → (∀ n, ok n) → ∀ d ∈ q'.deliveries, d.qos ≠ 0) := by
  induction fuel generalizing k msgCount q sent with
  | zero => omega
  | succ fuel ih =>
    cases hk : q.msgs[k]? with
    | none =>
      refine ⟨q, [], by simp only [writeLoop, hk, List.append_nil], .refl q, fun hs _ d hd => hdone hs d ?_⟩
      rwa [List.take_of_length_le (by simpa [Client.deliveries] using hk)]
    | some m =>
      have hdrop := drop_eq_cons hk
      have hrest : ∀ q₁ : Client, q₁.msgs.length = q.msgs.length → writeRest (k + 1) q₁ < fuel := by
        intro q₁ hlen
        obtain ⟨hlt, -⟩ := List.getElem?_eq_some_iff.mp hk
        refine lt_of_le_of_lt (writeRest_le _ _) ?_
        simp only [writeRest, hk] at hfuel
        split at hfuel <;> omega
      have hround : ∀ (q₁ : Client) (k₁ msgCount : ℕ) (new : List Packet),
          Moves L strict q (new.map .send) q₁ → writeRest k₁ q₁ < fuel →
          (strict → ∀ d ∈ q₁.deliveries.take k₁, d.qos ≠ 0) →
          ∃ q' new', writeLoop L now ok fuel k₁ msgCount q₁ (sent ++ new) = some (q', sent ++ new') ∧
            Moves L strict q (new'.map .send) q' ∧ (strict → (∀ n, ok n) → ∀ d ∈ q'.deliveries, d.qos ≠ 0) := by
        intro q₁ k₁ msgCount new hmv hf hdone₁
        obtain ⟨q', new', he, hmv', hall⟩ := ih k₁ msgCount q₁ (sent ++ new) (hmv.inv hI) hf hdone₁
        refine ⟨q', new ++ new', by rw [he, List.append_assoc], ?_, hall⟩
        rw [List.map_append]
        exact hmv.trans hmv'
      -- a message that is passed has QoS above 0, as QoS 0 messages are sent
      have hpassed : m.state ≠ .publishQos0 → strict → ∀ d ∈ q.deliveries.take (k + 1), d.qos ≠ 0 := by
        intro hst hs d hd
        have htake : q.deliveries.take (k + 1) = q.deliveries.take k ++ [m.toDelivery] := by
          rw [List.take_add, hdrop, List.take_succ_cons, List.take_zero]
        rw [htake, List.mem_append, List.mem_singleton] at hd
        rcases hd with hd | rfl
        · exact hdone hs d hd
        · exact fun h0 => hst ((hI.msgs m (List.mem_of_getElem? hk)).qos0 hs h0)
      have hstop : ok sent.length = false → ∃ q' new, some (q, sent) = some (q', sent ++ new) ∧
          Moves L strict q (new.map .send) q' ∧ (strict → (∀ n, ok n) → ∀ d ∈ q'.deliveries, d.qos ≠ 0) :=
        fun hf => ⟨q, [], by rw [List.append_nil], .refl q, fun _ hok => by simp [hok] at hf⟩
      simp only [writeLoop, hk]
      generalize (if m.direction = .mdIn then msgCount + 1 else msgCount) = msgCount
      have hpass := fun hst : m.state ≠ .publishQos0 =>
        hround q (k + 1) msgCount [] (.refl q) (hrest q rfl) (hpassed hst)
      simp only [List.append_nil] at hpass
      split
      · rename_i hs
        split
        · obtain ⟨pre, post, hd, hlen, hd'⟩ := deliveries_messageRemove L hk
          have htake : (messageRemove L k q).deliveries.take k = q.deliveries.take k := by
            rw [hd, hd', ← hlen]
            simp
          refine hround _ k _ [.publish m.toDelivery m.dup] (Move.sent hk hs hdone).moves ?_ (htake ▸ hdone)
          refine lt_of_le_of_lt (writeRest_le _ _) ?_
          obtain ⟨hlt, -⟩ := List.getElem?_eq_some_iff.mp hk
          rw [length_messageRemove hk]
          simp only [writeRest, hk, hs, reduceCtorEq, if_false] at hfuel
          omega
        · exact hstop (by simp_all)
      · rename_i hst
        split
        · cases hsend : sendMsg now m with
          | none => exact hpass hst
          | some r =>
            obtain ⟨p, m'⟩ := r
            have hmsg : Advance strict m m' := sendMsg_advance hsend
            have hadv := advances_set hk hmsg
            have hd : ({ q with msgs := q.msgs.set k m' } : Client).deliveries = q.deliveries :=
              deliveries_of_advances hadv
            simp only
            split
            · refine hround _ (k + 1) msgCount [p] ?_ (hrest _ (List.length_set ..)) (hd ▸ hpassed hst)
              refine (Move.advance hadv).moves.trans (Move.send _ fun hs d dup hp h0 => ?_).moves
              exact hst ((hI.msgs m (List.mem_of_getElem? hk)).qos0 hs
                ((congrArg Delivery.qos (sendMsg_publish hsend hp)).symm.trans h0))
            · exact hstop (by simp_all)
        · rename_i hq
          have hq' : m.state = .queued := not_not.mp hq
          split
          · rename_i hin
            -- a message from the client has QoS 2, so this round changes its state
            have h2 : m.qos = 2 := (hI.msgs m (List.mem_of_getElem? hk)).incoming hin.1
            have hadv : Advance strict m { m with state := .sendPubrec } :=
              ⟨rfl, fun _ => hq', fun hp => by simp at hp, fun _ _ _ h0 => by simp [hq'] at h0⟩
            have hd : ({ q with msgs := q.msgs.set k { m with state := .sendPubrec } } : Client).deliveries =
                q.deliveries := deliveries_of_advances (advances_set hk hadv)
            have := hround { q with msgs := q.msgs.set k { m with state := .sendPubrec } } k msgCount []
              (Move.advance (advances_set hk hadv)).moves (by
                obtain ⟨hlt, -⟩ := List.getElem?_eq_some_iff.mp hk
                simp only [writeRest, hk, hq', if_true] at hfuel
                simp only [writeRest, getElem?_set hk, List.length_set, reduceCtorEq, if_false]
                omega) (hd ▸ hdone)
            simpa only [h2, if_true, List.append_nil] using this
          · exact hpass hst

theorem write_moves {q : Client} (hI : QueueInv L strict q) (now : ℤ) (ok : ℕ → Bool) :
    ∃ q' new, mqtt3DbMessageWrite L now ok q = some (q', new) ∧ Moves L strict q (new.map .send) q' ∧
      (strict → (∀ n, ok n) → ∀ d ∈ q'.deliveries, d.qos ≠ 0) := by
  have hfuel := writeRest_le 0 q
  exact writeLoop_moves now ok (2 * q.msgs.length + 1) 0 0 q [] hI (by omega) fun _ d hd => by simp at hd

/-- A session that is kept goes on, with all its messages. -/
theorem handleConnect_eq {q : Client} (hI : QueueInv L strict q) {cleanSession : Bool}
    {mayRead : List Char → Bool} (hg : cleanSession = false ∧ q.cleanSession = false)
    (hread : ∀ d ∈ q.deliveries, barred mayRead d = false) :
    handleConnect L cleanSession mayRead q =
      some ({ mqtt3DbMessageReconnectReset L q with connected := true }, []) := by
  have hd : ({ mqtt3DbMessageReconnectReset L q with connected := true } : Client).deliveries = q.deliveries :=
    deliveries_reconnectReset hI
  rw [handleConnect, if_pos hg]
  dsimp only
  rw [aclLoop_eq (hd ▸ hread)]
  rfl

/-- A session ends when its client connects, unless it is kept. -/
theorem handleConnect_events {q : Client} {cleanSession : Bool} {mayRead : List Char → Bool}
    {r : Client × List Event} (h : handleConnect L cleanSession mayRead q = some r) :
    ((cleanSession = false ∧ q.cleanSession = false) ∧ r.2 = []) ∨
      (¬ (cleanSession = false ∧ q.cleanSession = false) ∧ r.2 = [.clean]) := by
  unfold handleConnect at h
  split at h
  · rename_i hg
    dsimp only at h
    split at h
    · cases h
    · obtain rfl := Option.some.inj h
      exact Or.inl ⟨hg, rfl⟩
  · rename_i hg
    obtain rfl := Option.some.inj h
    exact Or.inr ⟨hg, rfl⟩

theorem handlePublish_moves (now : ℤ) (mid : ℕ) (retain : Bool) (store : Store) (q : Client) :
    Moves L strict q (handlePublish L now mid retain store q).2 (handlePublish L now mid retain store q).1 := by
  unfold handlePublish
  cases hfind : mqtt3DbMessageStoreFind mid q with
  | some _ => exact (Move.send q (by simp)).moves
  | none =>
    simp only
    generalize hd : (⟨mid, .mdIn, 2, retain, { store with sourceMid := mid }⟩ : Delivery) = d
    cases h : insertState L d q with
    | error rc =>
      simp only
      split
      · exact (Move.send q (by simp)).moves
      · exact .refl q
    | ok r =>
      obtain ⟨state, rc⟩ := r
      have hacc : Move L strict q [.accept d] (appendMsg L now d state q) :=
        .accept h (fun _ => by subst hd; exact ⟨rfl, rfl, hfind⟩) (fun hout => by subst hd; cases hout)
      simp only
      split
      · exact hacc.moves.trans (Move.send _ (by simp)).moves
      · exact hacc.moves

/-- If a session that is kept is taken up, all of it may be read. -/
def Unbarred (q : Client) : SessionOp → Prop
  | .connect cleanSession mayRead =>
    cleanSession = false → q.cleanSession = false → ∀ d ∈ q.deliveries, barred mayRead d = false
  | _ => True

variable (L) in
/-- It is so in each step of a run. -/
def UnbarredRun (q : Client) : List SessionOp → Prop
  | [] => True
  | op :: ops =>
    Unbarred q op ∧
      match sessionStep L q op with
      | none => True
      | some r => UnbarredRun r.1 ops

/-- **What can happen to a queue.** Every step of a session comes to an end and is
a sequence of moves; a PUBREC for no message id is not strict. -/
theorem sessionStep_moves {q : Client} (hI : QueueInv L strict q) (op : SessionOp) (hread : Unbarred q op)
    (hop : strict → ∀ now, op ≠ .pubrec now 0) :
    ∃ q' e, sessionStep L q op = some (q', e) ∧ Moves L strict q e q' := by
  cases op with
  | insertOut now i => exact ⟨_, _, rfl, insertOut_moves now i q⟩
  | publish now mid retain store =>
    simp only [sessionStep]
    split
    · exact ⟨_, _, rfl, handlePublish_moves now mid retain store q⟩
    · exact ⟨_, _, rfl, .refl q⟩
  | publishQos1 mid =>
    simp only [sessionStep, handlePublishQos1]
    split
    · cases mqtt3DbMessageStoreFind mid q with
      | none => exact ⟨_, _, rfl, .refl q⟩
      | some stored => exact ⟨_, _, rfl, (Move.passHeld q stored).moves⟩
    · exact ⟨_, _, rfl, .refl q⟩
  | pubackcomp now mid =>
    simp only [sessionStep]
    split
    · rename_i h
      refine ⟨_, _, rfl, (Move.acked h.2 (deleteLoop_edits now mid .mdOut _ 0 0 false q) fun hex => ?_).moves⟩
      obtain ⟨d, hd, hans⟩ := hex
      obtain ⟨m, hm, rfl⟩ := List.mem_map.mp hd
      obtain ⟨j, hj⟩ := List.getElem?_of_mem hm
      exact deleteLoop_countP now mid .mdOut _ 0 0 q (by omega) ⟨j, m, Nat.zero_le _, hj, hans⟩
    · exact ⟨_, _, rfl, .refl q⟩
  | pubrec now mid =>
    simp only [sessionStep]
    split
    · have hmid : strict → mid ≠ 0 := fun hs h => hop hs now (by rw [h])
      exact ⟨_, _, rfl, (update_move now hmid q).moves.trans (Move.send _ (by simp)).moves⟩
    · exact ⟨_, _, rfl, .refl q⟩
  | pubrel now mid echo =>
    obtain ⟨q', e, he, hmv⟩ : ∃ q' e, _ ∧ Moves L strict q e q' :=
      releaseLoop_moves now mid echo (releaseFuel echo q) 0 0 false q (releaseRest_lt echo q)
    simp only [sessionStep, mqtt3DbMessageRelease, he]
    split
    · exact ⟨_, _, rfl, hmv.trans (Move.send q' (by simp)).moves⟩
    · exact ⟨_, _, rfl, .refl q⟩
  | write now ok =>
    obtain ⟨q', new, he, hmv, -⟩ := write_moves hI now ok
    simp only [sessionStep, he]
    split
    · exact ⟨_, _, rfl, hmv⟩
    · exact ⟨_, _, rfl, .refl q⟩
  | timeoutCheck now timeout =>
    simp only [sessionStep]
    split
    · exact ⟨_, _, rfl, (Move.advance (advances_map (retry_advance now timeout) q.msgs)).moves⟩
    · exact ⟨_, _, rfl, .refl q⟩
  | disconnect =>
    simp only [sessionStep, disconnect]
    split
    · exact ⟨_, _, rfl, Move.moves (by exact .clean _ rfl rfl rfl rfl rfl)⟩
    · exact ⟨_, _, rfl, (Move.disconnect q).moves⟩
  | connect cleanSession mayRead =>
    by_cases hg : cleanSession = false ∧ q.cleanSession = false
    · exact ⟨_, _, handleConnect_eq hI hg (hread hg.1 hg.2), (reconnectReset_move hI).moves⟩
    · simp only [sessionStep, handleConnect, if_neg hg]
      exact ⟨_, _, rfl, Move.moves (by exact .clean _ rfl rfl rfl rfl rfl)⟩

theorem sessionRun_moves {q : Client} (hI : QueueInv L strict q) {ops : List SessionOp} (hread : UnbarredRun L q ops)
    (hops : strict → ∀ now, .pubrec now 0 ∉ ops) :
    ∃ q' e, sessionRun L q ops = some (q', e) ∧ Moves L strict q e q' := by
  induction ops generalizing q with
  | nil => exact ⟨q, [], rfl, .refl q⟩
  | cons op ops ih =>
    obtain ⟨hop, hrest⟩ := hread
    obtain ⟨q₁, e₁, hstep, hmv₁⟩ := sessionStep_moves hI op hop fun (hs : strict) now h => hops hs now (by simp [h])
    rw [hstep] at hrest
    obtain ⟨q', e', hrun, hmv'⟩ := ih (hmv₁.inv hI) hrest fun hs now h => hops hs now (List.mem_cons_of_mem _ h)
    exact ⟨q', e₁ ++ e', by simp only [sessionRun, hstep, hrun, Option.map_some], hmv₁.trans hmv'⟩

/-- The queue of a client that has just connected. -/
def newSession (cleanSession lazyBridge : Bool) : Client :=
  { connected := true, cleanSession := cleanSession, lazyBridge := lazyBridge }

theorem newSession_inv (cleanSession : Bool) {lazyBridge : Bool}
    (h : strict → L.queueQos0Messages = false ∧ lazyBridge = false) :
    QueueInv L strict (newSession cleanSession lazyBridge) :=
  .empty rfl rfl rfl h

/-- A message to `bb`. -/
def helloStore : Store := ⟨1, ['c'], 0, ['b', 'b'], 0, false, [104, 105]⟩

/-- Two messages come, and the client, who may read them, is away for a while. -/
def helloSession : List SessionOp :=
  [.insertOut 0 ⟨1, false, helloStore⟩, .disconnect, .insertOut 1 ⟨2, false, { helloStore with dbId := 2 }⟩,
    .connect false fun topic => topic = ['b', 'b']]

theorem helloSession_unbarred : UnbarredRun {} (newSession false false) helloSession := by
  refine ⟨trivial, trivial, trivial, fun _ _ => ?_, trivial⟩
  decide

end Broker
end BlenderBottle
