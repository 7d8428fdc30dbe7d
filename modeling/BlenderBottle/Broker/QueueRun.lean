/-
# What a session delivers

The trace of a session against what its queue still holds. A QoS 0 message is
sent once, and in the order of arrival: what was sent and what is still to be
sent, one after the other, is what was taken in (`sessionRun_qos0`). A message of
higher QoS stays until the client acknowledges it, through lost connections,
failed writes and retries, and then is gone (`sessionRun_unacked`). A QoS 2 message
from the client is passed on by its release, once, however often the client repeats
it (`sessionRun_forwarded`).

All this is so while nobody takes the session up who may not read some of it. The
first needs two things more: that the broker does not keep QoS 0 messages for
absent clients, and that the client sends no PUBREC without a message id, which
would take a QoS 0 message for one of QoS 2.

After a new connection all that does not have to wait is sent once more
(`reconnect_resends`). A user who may not read all of it loses more than that: the
counters stay too high, and the end of the list may be lost (`reconnect_bars`). The
limit on messages under way does not hold a backlog back
(`delete_releases_backlog`).

Key definitions: `session`, `accepted`, `sentQos0`, `unacked`, `forwarded`, `Effect`,
`Taken`, `Reports`.
Key theorems: `Move.effect`, `sessionStep_reports`, `sessionRun_qos0`, `sessionRun_unacked`,
`sessionRun_forwarded`, `reconnect_resends`, `reconnect_bars`, `delete_releases_backlog`.
-/
import BlenderBottle.Broker.QueueInv
import Mathlib.Data.List.DropRight

namespace BlenderBottle
namespace Broker

variable {L : Limits} {strict : Prop}

/-! ### Traces -/

/-- The events since the messages were last deleted. -/
def session (e : List Event) : List Event := e.rtakeWhile (· ≠ .clean)

/-- What events of the session tell of messages. -/
def ledger (f : Event → Option Delivery) (e : List Event) : List Delivery := (session e).filterMap f

/-- The messages that were taken in, of one kind. -/
def accepted (p : Delivery → Bool) : List Event → List Delivery :=
  ledger fun
    | .accept d => if p d then some d else none
    | _ => none

/-- The QoS 0 messages that were sent. -/
def sentQos0 : List Event → List Delivery :=
  ledger fun
    | .send (.publish d _) => if d.qos = 0 then some d else none
    | _ => none

/-- The messages from the client that were passed on. -/
def forwarded : List Event → List Delivery :=
  ledger fun
    | .forward d => some d
    | _ => none

/-- A message of QoS 1 or 2 to the client. -/
def outgoing (d : Delivery) : Bool := d.direction = .mdOut ∧ d.qos ≠ 0

/-- A message from the client that is to be passed on. -/
def incoming (d : Delivery) : Bool := d.direction = .mdIn ∧ d.store.topic ≠ []

/-- The messages to the client that it has not acknowledged since. -/
def unacked (e : List Event) : List Delivery :=
  e.foldl (fun l => fun
    | .accept d => if outgoing d then l ++ [d] else l
    | .ack mid => l.filter fun d => d.mid ≠ mid
    | .clean => []
    | _ => l) []

theorem ledger_concat (f : Event → Option Delivery) (e : List Event) (x : Event) :
    ledger f (e ++ [x]) = if x = .clean then [] else ledger f e ++ (f x).toList := by
  by_cases h : x = .clean
  · simp [ledger, session, h]
  · simp only [ledger, session, List.rtakeWhile_concat, h, ne_eq, not_false_eq_true, decide_true, if_true,
      if_false, List.filterMap_append]
    cases hf : f x <;> simp [hf]

theorem accepted_concat (p : Delivery → Bool) (e : List Event) (x : Event) :
    accepted p (e ++ [x]) =
      match x with
      | .accept d => if p d then accepted p e ++ [d] else accepted p e
      | .clean => []
      | _ => accepted p e := by
  rw [accepted, ledger_concat]
  cases x with
  | accept d => by_cases h : p d <;> simp [h]
  | _ => simp

theorem sentQos0_concat (e : List Event) (x : Event) :
    sentQos0 (e ++ [x]) =
      match x with
      | .send (.publish d _) => if d.qos = 0 then sentQos0 e ++ [d] else sentQos0 e
      | .clean => []
      | _ => sentQos0 e := by
  rw [sentQos0, ledger_concat]
  cases x with
  | send p =>
    cases p with
    | publish d dup => by_cases h : d.qos = 0 <;> simp [h]
    | _ => simp
  | _ => simp

theorem unacked_concat (e : List Event) (x : Event) :
    unacked (e ++ [x]) =
      match x with
      | .accept d => if outgoing d then unacked e ++ [d] else unacked e
      | .ack mid => (unacked e).filter fun d => d.mid ≠ mid
      | .clean => []
      | _ => unacked e := by
  rw [unacked, List.foldl_append]
  rfl

/-! ### The queue as a list of messages -/

/-- What a move does to the messages of a queue, states apart: most do nothing;
one comes in at the end; one is taken out when it was sent or passed on; some are
taken out when they are acknowledged; all, when the session ends. -/
inductive Effect (strict : Prop) : List Delivery → List Event → List Delivery → Prop
  | quiet {l : List Delivery} : Effect strict l [] l
  | send {l : List Delivery} {p : Packet} (hp : strict → ∀ d dup, p = .publish d dup → d.qos ≠ 0) :
      Effect strict l [.send p] l
  | accept {l : List Delivery} {d : Delivery}
      (hin : d.direction = .mdIn → d.store.sourceMid = d.mid ∧
        ∀ d' ∈ l, d'.direction = .mdIn → d'.store.sourceMid ≠ d.mid) : Effect strict l [.accept d] (l ++ [d])
  | sent (pre : List Delivery) {d : Delivery} {dup : Bool} (post : List Delivery) (h0 : d.qos = 0)
      (hout : d.direction = .mdOut) (hfirst : strict → ∀ d' ∈ pre, d'.qos ≠ 0) :
      Effect strict (pre ++ d :: post) [.send (.publish d dup)] (pre ++ post)
  | forward (pre : List Delivery) {d : Delivery} (post : List Delivery) (hin : d.direction = .mdIn)
      (h2 : d.qos = 2) (ht : d.store.topic ≠ []) : Effect strict (pre ++ d :: post) [.forward d] (pre ++ post)
  | refused (pre : List Delivery) {d : Delivery} (post : List Delivery) (hin : d.direction = .mdIn)
      (h2 : d.qos = 2) (ht : d.store.topic = []) : Effect strict (pre ++ d :: post) [] (pre ++ post)
  | passHeld {l : List Delivery} (stored : Store) : Effect strict l [.passHeld stored] l
  | acked {l l' : List Delivery} {mid : ℕ} (hsub : l'.Sublist l)
      (hkeep : ∀ f : Delivery → Bool, (∀ d ∈ l, Answers mid .mdOut d → f d = false) → l'.filter f = l.filter f)
      (hless : (∃ d ∈ l, Answers mid .mdOut d) → l'.countP (Answers mid .mdOut) < l.countP (Answers mid .mdOut))
      (h0 : ∀ d ∈ l, d.mid = mid → d.qos ≠ 0) : Effect strict l [.ack mid] l'
  | clean {l : List Delivery} : Effect strict l [.clean] []

theorem storeFind_eq_none {mid : ℕ} {q : Client} (h : mqtt3DbMessageStoreFind mid q = none) :
    ∀ d ∈ q.deliveries, d.direction = .mdIn → d.store.sourceMid ≠ mid := by
  intro d hd hin
  obtain ⟨m, hm, rfl⟩ := List.mem_map.mp hd
  rw [mqtt3DbMessageStoreFind, Option.map_eq_none_iff, List.find?_eq_none] at h
  have := h m hm
  simp only [decide_eq_true_eq, not_and] at this
  exact fun hs => this hs hin

/-- **The queue is a list.** A move of the queue has one of these effects. -/
theorem Move.effect {q q' : Client} {e : List Event} (hI : QueueInv L strict q) (h : Move L strict q e q') :
    Effect strict q.deliveries e q'.deliveries := by
  cases h with
  | advance h =>
    rw [Client.deliveries, Client.deliveries, deliveries_of_advances h]
    exact .quiet
  | midGenerate => exact .quiet
  | send hp => exact .send hp
  | accept h hin hout =>
    rename_i now d state rc
    have hd : (appendMsg L now d state q).deliveries = q.deliveries ++ [d] := by simp [Client.deliveries, appendMsg]
    rw [hd]
    exact .accept fun hdir => ⟨(hin hdir).2.1, storeFind_eq_none (hin hdir).2.2⟩
  | sent hk hst hfirst =>
    rename_i k m
    obtain ⟨pre, post, hd, hlen, hd'⟩ := deliveries_messageRemove L hk
    have hm := hI.msgs m (List.mem_of_getElem? hk)
    have hpre : q.deliveries.take k = pre := by rw [hd, ← hlen, List.take_left]
    rw [hpre] at hfirst
    rw [hd, hd']
    refine .sent pre post (hm.publishQos0 hst) ?_ hfirst
    cases hdir : m.direction with
    | mdOut => rfl
    | mdIn => exact absurd ((hm.incoming hdir).symm.trans (hm.publishQos0 hst)) (by decide)
  | forward hk hin ht =>
    obtain ⟨pre, post, hd, hlen, hd'⟩ := deliveries_messageRemove L hk
    rw [hd, hd']
    exact .forward pre post hin ((hI.msgs _ (List.mem_of_getElem? hk)).incoming hin) ht
  | refused hk hin ht =>
    obtain ⟨pre, post, hd, hlen, hd'⟩ := deliveries_messageRemove L hk
    rw [hd, hd']
    exact .refused pre post hin ((hI.msgs _ (List.mem_of_getElem? hk)).incoming hin) ht
  | passHeld stored => exact .passHeld stored
  | acked hmid h hless =>
    refine .acked (edits_filter (f := fun _ => false) h fun _ _ _ => rfl).2
      (fun f hf => (edits_filter h fun d hd hp => hf d hd hp).1) hless fun d hd hm h0 => ?_
    -- QoS 0 messages have no message id
    obtain ⟨m, hmem, rfl⟩ := List.mem_map.mp hd
    exact hmid (hm.symm.trans ((hI.msgs m hmem).mid0 h0))
  | connect h =>
    rw [Client.deliveries, Client.deliveries, deliveries_of_advances h]
    exact .quiet
  | disconnect => exact .quiet
  | clean _ hm =>
    rw [Client.deliveries, Client.deliveries, hm]
    exact .clean

/-- A property of the messages and the trace that every effect keeps holds in the end. -/
theorem Moves.keeps {R : List Delivery → List Event → Prop}
    (hR : ∀ {l l' : List Delivery} {e e' : List Event}, Effect strict l e' l' → R l e → R l' (e ++ e'))
    {q q' : Client} {e e' : List Event} (h : Moves L strict q e' q') (hI : QueueInv L strict q)
    (h0 : R q.deliveries e) : R q'.deliveries (e ++ e') := by
  induction h generalizing e with
  | refl => simpa using h0
  | step hmv _ ih =>
    rw [← List.append_assoc]
    exact ih (hmv.inv hI) (hR (hmv.effect hI) h0)

/-! ### QoS 0 -/

/-- The QoS 0 messages among them. -/
def pendingQos0 (l : List Delivery) : List Delivery := l.filter fun d => d.qos = 0

/-- What was sent and what is to be sent is what was taken in. -/
def InOrderQos0 (l : List Delivery) (e : List Event) : Prop :=
  sentQos0 e ++ pendingQos0 l = accepted (fun d => d.qos = 0) e

theorem Effect.qos0 (hs : strict) {l l' : List Delivery} {e e' : List Event} (h : Effect strict l e' l')
    (hR : InOrderQos0 l e) : InOrderQos0 l' (e ++ e') := by
  unfold InOrderQos0 at hR ⊢
  cases h with
  | quiet => simpa using hR
  | send hp =>
    rename_i p
    rw [accepted_concat, sentQos0_concat]
    cases p with
    | publish d dup => simpa [hp hs d dup rfl] using hR
    | pubrec mid => exact hR
    | pubrel mid => exact hR
    | pubcomp mid => exact hR
  | accept hin =>
    rename_i d
    rw [accepted_concat, sentQos0_concat, ← hR]
    by_cases h0 : d.qos = 0 <;> simp [pendingQos0, h0]
  | sent pre post h0 hout hfirst =>
    have hpre : pre.filter (fun d => d.qos = 0) = [] :=
      List.filter_eq_nil_iff.mpr fun d hd => by simpa using hfirst hs d hd
    rw [accepted_concat, sentQos0_concat, ← hR]
    simp [pendingQos0, hpre, h0]
  | forward pre post hin h2 ht =>
    rw [accepted_concat, sentQos0_concat, ← hR]
    simp [pendingQos0, h2]
  | refused pre post hin h2 ht =>
    rw [List.append_nil, ← hR]
    simp [pendingQos0, h2]
  | passHeld stored => rwa [accepted_concat, sentQos0_concat]
  | acked hsub hkeep hless h0 =>
    have := hkeep (fun d => d.qos = 0) fun d hd hm => by simpa using h0 d hd hm.1
    rw [accepted_concat, sentQos0_concat, ← hR, pendingQos0, this, pendingQos0]
  | clean => simp [pendingQos0, accepted_concat, sentQos0_concat]

/-- Nothing is missing of what was not acknowledged, and nothing is there that was
not taken in. If no two of the messages got the same id, all that was acknowledged is
gone. -/
structure KeptUnacked (l : List Delivery) (e : List Event) : Prop where
  kept : (unacked e).Sublist (l.filter outgoing)
  taken : (l.filter outgoing).Sublist (accepted outgoing e)
  exact : ((accepted outgoing e).map Delivery.mid).Nodup → l.filter outgoing = unacked e

theorem filter_answers {l : List Delivery} {mid : ℕ} (h0 : ∀ d ∈ l, d.mid = mid → d.qos ≠ 0) :
    l.filter (fun d => Answers mid .mdOut d) = (l.filter outgoing).filter fun d => d.mid = mid := by
  rw [List.filter_filter]
  refine List.filter_congr fun d hd => ?_
  simp only [Answers, outgoing]
  have := h0 d hd
  by_cases hm : d.mid = mid <;> simp_all

/-- An answer takes the message out that it is about, if there is one only. -/
theorem not_answers_of_nodup {l l' : List Delivery} {mid : ℕ} (hsub : l'.Sublist l)
    (hless : (∃ d ∈ l, Answers mid .mdOut d) → l'.countP (Answers mid .mdOut) < l.countP (Answers mid .mdOut))
    (h0 : ∀ d ∈ l, d.mid = mid → d.qos ≠ 0) (hn : ((l.filter outgoing).map Delivery.mid).Nodup) :
    ∀ d ∈ l', ¬ Answers mid .mdOut d := by
  intro d hd hans
  have hone : l.countP (Answers mid .mdOut) ≤ 1 := by
    rw [List.countP_eq_length_filter, filter_answers h0]
    have hcount := List.nodup_iff_count_le_one.mp hn mid
    rwa [List.count, List.countP_map, List.countP_eq_length_filter] at hcount
  have hlt := hless ⟨d, hsub.subset hd, hans⟩
  have hpos : 0 < l'.countP (Answers mid .mdOut) := List.countP_pos_iff.mpr ⟨d, hd, by simpa using hans⟩
  omega

theorem Effect.keptUnacked {l l' : List Delivery} {e e' : List Event} (h : Effect strict l e' l')
    (hR : KeptUnacked l e) : KeptUnacked l' (e ++ e') := by
  obtain ⟨hkept, htaken, hexact⟩ := hR
  -- an effect that neither takes in, nor acknowledges, nor deletes leaves all three as they are
  have hsame : ∀ {l'}, accepted outgoing (e ++ e') = accepted outgoing e → unacked (e ++ e') = unacked e →
      l'.filter outgoing = l.filter outgoing → KeptUnacked l' (e ++ e') := by
    intro l' ha hu hl
    constructor
    · rw [hu, hl]
      exact hkept
    · rw [ha, hl]
      exact htaken
    · rw [ha, hu, hl]
      exact hexact
  cases h with
  | quiet => exact hsame (by rw [List.append_nil]) (by rw [List.append_nil]) rfl
  | send hp => exact hsame (by rw [accepted_concat]) (by rw [unacked_concat]) rfl
  | accept hin =>
    rename_i d
    by_cases ho : outgoing d
    · have ha : accepted outgoing (e ++ [.accept d]) = accepted outgoing e ++ [d] := by simp [accepted_concat, ho]
      have hu : unacked (e ++ [.accept d]) = unacked e ++ [d] := by simp [unacked_concat, ho]
      have hl : (l ++ [d]).filter outgoing = l.filter outgoing ++ [d] := by simp [ho]
      constructor
      · rw [hu, hl]
        exact hkept.append_right [d]
      · rw [ha, hl]
        exact htaken.append_right [d]
      · rw [ha, hu, hl]
        intro hn
        rw [List.map_append] at hn
        rw [hexact hn.of_append_left]
    · exact hsame (by simp [accepted_concat, ho]) (by simp [unacked_concat, ho]) (by simp [ho])
  | sent pre post h0 hout hfirst =>
    exact hsame (by rw [accepted_concat]) (by rw [unacked_concat]) (by simp [outgoing, h0])
  | forward pre post hin h2 ht =>
    exact hsame (by rw [accepted_concat]) (by rw [unacked_concat]) (by simp [outgoing, hin])
  | refused pre post hin h2 ht =>
    exact hsame (by rw [List.append_nil]) (by rw [List.append_nil]) (by simp [outgoing, hin])
  | passHeld stored => exact hsame (by rw [accepted_concat]) (by rw [unacked_concat]) rfl
  | acked hsub hkeep hless h0 =>
    rename_i mid
    have hk := hkeep (fun d => d.mid ≠ mid && outgoing d) fun d _ hans => by simp [hans.1]
    rw [← List.filter_filter, ← List.filter_filter] at hk
    constructor
    · rw [unacked_concat]
      have hsub' := hkept.filter fun d => d.mid ≠ mid
      rw [← hk] at hsub'
      exact hsub'.trans List.filter_sublist
    · rw [accepted_concat]
      exact (hsub.filter _).trans htaken
    · rw [accepted_concat, unacked_concat]
      intro hn
      have hnone := not_answers_of_nodup hsub hless h0 (hn.sublist (htaken.map _))
      dsimp only
      rw [← hexact hn, ← hk, eq_comm, List.filter_eq_self]
      intro d hd
      rw [List.mem_filter] at hd
      have hout : d.direction = .mdOut := by
        have := hd.2
        simp only [outgoing, decide_eq_true_eq] at this
        exact this.1
      have hne : d.mid ≠ mid := fun hm => hnone d hd.1 ⟨hm, hout⟩
      simpa using hne
  | clean => exact ⟨by simp [unacked_concat], by simp, fun _ => by simp [unacked_concat]⟩

/-- **No message is lost.** Whatever happens, a message of QoS 1 or 2 to the client
stays in its queue until the client acknowledges it or the session ends, in the order
in which they came; and if their ids have not come round, the queue holds no others. -/
theorem sessionRun_unacked (cleanSession lazyBridge : Bool) {ops : List SessionOp}
    (hread : UnbarredRun L (newSession cleanSession lazyBridge) ops) :
    ∃ q e, sessionRun L (newSession cleanSession lazyBridge) ops = some (q, e) ∧
      (unacked e).Sublist (q.deliveries.filter outgoing) ∧
      (q.deliveries.filter outgoing).Sublist (accepted outgoing e) ∧
      (((accepted outgoing e).map Delivery.mid).Nodup → q.deliveries.filter outgoing = unacked e) := by
  have hI : QueueInv L False (newSession cleanSession lazyBridge) := newSession_inv cleanSession False.elim
  obtain ⟨q, e, hrun, hmv⟩ := sessionRun_moves hI hread fun h => h.elim
  have hR : KeptUnacked q.deliveries e :=
    hmv.keeps (e := []) Effect.keptUnacked hI ⟨.slnil, .slnil, fun _ => rfl⟩
  exact ⟨q, e, hrun, hR.kept, hR.taken, hR.exact⟩

theorem sessionRun_unacked_hello :
    ∃ q e, sessionRun {} (newSession false false) helloSession = some (q, e) ∧
      (unacked e).Sublist (q.deliveries.filter outgoing) ∧
      (q.deliveries.filter outgoing).Sublist (accepted outgoing e) ∧
      (((accepted outgoing e).map Delivery.mid).Nodup → q.deliveries.filter outgoing = unacked e) :=
  sessionRun_unacked false false helloSession_unbarred

/-! ### Messages from the client -/

/-- Messages from the client have different ids. -/
def DistinctIn (l : List Delivery) : Prop :=
  ((l.filter fun d => d.direction = .mdIn).map Delivery.mid).Nodup ∧
    ∀ d ∈ l, d.direction = .mdIn → d.store.sourceMid = d.mid

theorem DistinctIn.sublist {l l' : List Delivery} (h : DistinctIn l) (hs : l'.Sublist l) : DistinctIn l' :=
  ⟨h.1.sublist ((hs.filter _).map _), fun d hd => h.2 d (hs.subset hd)⟩

theorem DistinctIn.accept {l : List Delivery} {d : Delivery} (h : DistinctIn l)
    (hin : d.direction = .mdIn → d.store.sourceMid = d.mid ∧
      ∀ d' ∈ l, d'.direction = .mdIn → d'.store.sourceMid ≠ d.mid) : DistinctIn (l ++ [d]) := by
  refine ⟨?_, fun d' hd' hdir => ?_⟩
  · rw [List.filter_append, List.map_append]
    by_cases hd : d.direction = .mdIn
    · simp only [hd, decide_true, List.filter_cons_of_pos, List.filter_nil, List.map_cons, List.map_nil]
      rw [List.nodup_append]
      refine ⟨h.1, by simp, ?_⟩
      rintro mid hm _ hmem rfl
      obtain ⟨d', hd', rfl⟩ := List.mem_map.mp hm
      simp only [List.mem_filter, decide_eq_true_eq] at hd'
      refine (hin hd).2 d' hd'.1 hd'.2 ?_
      rw [h.2 d' hd'.1 hd'.2]
      simpa using hmem
    · simpa [hd] using h.1
  · rcases List.mem_append.mp hd' with hd' | hd'
    · exact h.2 d' hd' hdir
    · rw [List.mem_singleton] at hd'
      subst hd'
      exact (hin hdir).1

theorem taken_insertOut {now : ℤ} {i : Insert} {q : Client} {d : Delivery}
    (h : .accept d ∈ (insertOut L now i q).2) : ∃ mid, d = i.delivery mid := by
  unfold insertOut at h
  dsimp only at h
  split at h
  · obtain rfl := Event.accept.inj (List.mem_singleton.mp h)
    exact ⟨_, rfl⟩
  · simp at h

theorem taken_insertsOut {now : ℤ} {is : List Insert} {q : Client} {d : Delivery}
    (h : .accept d ∈ (insertsOut L now is q).2) : ∃ i ∈ is, ∃ mid, d = i.delivery mid := by
  induction is generalizing q with
  | nil => simp [insertsOut] at h
  | cons i is ih =>
    rcases List.mem_append.mp h with h | h
    · exact ⟨i, List.mem_cons_self, taken_insertOut h⟩
    · obtain ⟨i', hi', hd⟩ := ih h
      exact ⟨i', List.mem_cons_of_mem _ hi', hd⟩

theorem exists_accept_insertOut (now : ℤ) (i : Insert) (q : Client) :
    ∃ ds : List Delivery, (insertOut L now i q).2 = ds.map .accept := by
  unfold insertOut
  dsimp only
  split
  · exact ⟨[_], rfl⟩
  · exact ⟨[], rfl⟩

/-- Nothing else than these happens when messages are put in. -/
theorem exists_accept_insertsOut (now : ℤ) (is : List Insert) (q : Client) :
    ∃ ds : List Delivery, (insertsOut L now is q).2 = ds.map .accept := by
  induction is generalizing q with
  | nil => exact ⟨[], rfl⟩
  | cons i is ih =>
    obtain ⟨ds₁, hds₁⟩ := exists_accept_insertOut (L := L) now i q
    obtain ⟨ds, hds⟩ := ih (insertOut L now i q).1
    exact ⟨ds₁ ++ ds, by rw [insertsOut, hds₁, hds, List.map_append]⟩

/-- What the events of a release tell of the messages that were there. -/
def Told (echo : Delivery → List Insert) (l : List Delivery) : Event → Prop
  | .accept d => ∃ d₀ ∈ l, d₀.direction = .mdIn ∧ ∃ i ∈ echo d₀, ∃ mid, d = i.delivery mid
  | .forward d => d ∈ l ∧ d.direction = .mdIn ∧ d.store.topic ≠ []
  | .passHeld _ => False
  | .clean => False
  | _ => True

theorem told_passOn (now : ℤ) (echo : Delivery → List Insert) {l : List Delivery} {d : Delivery} {q : Client}
    (hd : d ∈ l) (hin : d.direction = .mdIn) : ∀ x ∈ (passOn L now echo d q).2, Told echo l x := by
  intro x hx
  unfold passOn at hx
  split at hx
  · simp at hx
  · rename_i ht
    rcases List.mem_append.mp hx with hx | hx
    · obtain ⟨ds, hds⟩ := exists_accept_insertsOut (L := L) now (echo d) q
      obtain ⟨d', -, rfl⟩ := List.mem_map.mp (hds ▸ hx)
      exact ⟨d, hd, hin, taken_insertsOut hx⟩
    · obtain rfl := List.mem_singleton.mp hx
      exact ⟨hd, hin, ht⟩

theorem told_promotePubrec (echo : Delivery → List Insert) (l : List Delivery) (msgIndex : ℕ) (m : ClientMsg) :
    ∀ x ∈ promotePubrec L msgIndex m, Told echo l x := by
  intro x hx
  unfold promotePubrec at hx
  split at hx
  · obtain rfl := List.mem_singleton.mp hx
    trivial
  · simp at hx

theorem mem_of_messageRemove {k : ℕ} {q : Client} {d : Delivery} (h : d ∈ (messageRemove L k q).deliveries) :
    d ∈ q.deliveries := by
  cases hk : q.msgs[k]? with
  | none =>
    rw [messageRemove, hk] at h
    exact h
  | some m =>
    obtain ⟨pre, post, hq, -, hrem⟩ := deliveries_messageRemove L hk
    rw [hrem] at h
    rw [hq]
    exact (List.sublist_cons_self _ _).append_left pre |>.subset h

theorem mem_of_passOn {now : ℤ} {echo : Delivery → List Insert} {d₀ d : Delivery} {q : Client}
    (h : d ∈ (passOn L now echo d₀ q).1.deliveries) (hin : d.direction = .mdIn) : d ∈ q.deliveries := by
  unfold passOn at h
  split at h
  · exact h
  · obtain ⟨new, hnew, -, hout⟩ := insertsOut_msgs (L := L) now (echo d₀) q
    rw [Client.deliveries, hnew, List.map_append] at h
    rcases List.mem_append.mp h with h | h
    · exact h
    · obtain ⟨m, hm, rfl⟩ := List.mem_map.mp h
      rw [hout m hm] at hin
      cases hin

theorem told_releaseLoop {now : ℤ} {mid : ℕ} {echo : Delivery → List Insert} {l : List Delivery}
    {fuel k msgIndex : ℕ} {deleted : Bool} {q : Client} {r : Client × List Event}
    (hl : ∀ d ∈ q.deliveries, d.direction = .mdIn → d ∈ l)
    (h : releaseLoop L now mid echo fuel k msgIndex deleted q = some r) : ∀ x ∈ r.2, Told echo l x := by
  induction fuel generalizing k msgIndex deleted q r with
  | zero => cases h
  | succ fuel ih =>
    cases hk : q.msgs[k]? with
    | none =>
      simp only [releaseLoop, hk, Option.some.injEq] at h
      subst h
      simp
    | some m =>
      simp only [releaseLoop, hk] at h
      have hadv : Advance False m (promoteAt L now (msgIndex + 1) m) := promoteAt_advance now (msgIndex + 1) m
      have hd₁ : ({ q with msgs := q.msgs.set k (promoteAt L now (msgIndex + 1) m) } : Client).deliveries =
          q.deliveries := deliveries_of_advances (advances_set hk hadv)
      have hk₁ := getElem?_set hk (promoteAt L now (msgIndex + 1) m)
      generalize ({ q with msgs := q.msgs.set k (promoteAt L now (msgIndex + 1) m) } : Client) = q₁
        at h hd₁
      have hpub := told_promotePubrec (L := L) echo l (msgIndex + 1) m
      split at h
      · rename_i hm
        have hmem : m.toDelivery ∈ l := hl _ (List.mem_map_of_mem (List.mem_of_getElem? hk)) hm.2
        have hpass := told_passOn (L := L) now echo (q := q₁) hmem hm.2
        have hl' : ∀ d ∈ (messageRemove L k (passOn L now echo m.toDelivery q₁).1).deliveries,
            d.direction = .mdIn → d ∈ l := fun d hd hin =>
          hl d (hd₁ ▸ mem_of_passOn (mem_of_messageRemove hd) hin) hin
        split at h
        · obtain rfl := Option.some.inj h
          intro x hx
          exact (List.mem_append.mp hx).elim (hpub x) (hpass x)
        · obtain ⟨r', h', rfl⟩ := Option.map_eq_some_iff.mp h
          intro x hx
          rcases List.mem_append.mp hx with hx | hx
          · exact (List.mem_append.mp hx).elim (hpub x) (hpass x)
          · exact ih hl' h' x hx
      · split at h
        · obtain rfl := Option.some.inj h
          exact hpub
        · obtain ⟨r', h', rfl⟩ := Option.map_eq_some_iff.mp h
          intro x hx
          rcases List.mem_append.mp hx with hx | hx
          · exact hpub x hx
          · exact ih (hd₁ ▸ hl) h' x hx

/-- What a step may take into a queue. -/
def Taken (q : Client) (d : Delivery) : SessionOp → Prop
  | .insertOut _ i => ∃ mid, d = i.delivery mid
  | .publish _ mid retain store => d = ⟨mid, .mdIn, 2, retain, { store with sourceMid := mid }⟩
  | .pubrel _ _ echo => ∃ d₀ ∈ q.deliveries, d₀.direction = .mdIn ∧ ∃ i ∈ echo d₀, ∃ mid, d = i.delivery mid
  | _ => False

/-- What an event tells of the step that it comes from: where a message that was taken in
or passed on was before, that a held message is passed on by a QoS 1 message with its id
only, and that a session ends only when its client disconnects or connects. -/
def Reports (q : Client) (op : SessionOp) : Event → Prop
  | .accept d => Taken q d op
  | .forward d => d ∈ q.deliveries ∧ d.direction = .mdIn ∧ d.store.topic ≠ []
  | .passHeld stored => op = .publishQos1 stored.sourceMid
  | .clean =>
    (op = .disconnect ∧ q.cleanSession = true) ∨
      ∃ cleanSession mayRead, op = .connect cleanSession mayRead ∧
        ¬ (cleanSession = false ∧ q.cleanSession = false)
  | _ => True

theorem reports_handlePublish (now : ℤ) (mid : ℕ) (retain : Bool) (store : Store) (q : Client) :
    ∀ x ∈ (handlePublish L now mid retain store q).2, Reports q (.publish now mid retain store) x := by
  intro x hx
  have hpubrec : ∀ rc : ℕ, x ∈ (if rc = 0 then [Event.send (.pubrec mid)] else []) →
      Reports q (.publish now mid retain store) x := by
    intro rc hx
    split at hx
    · obtain rfl := List.mem_singleton.mp hx
      trivial
    · simp at hx
  unfold handlePublish at hx
  split at hx
  · exact hpubrec 0 hx
  · dsimp only at hx
    split at hx
    · exact hpubrec _ hx
    · rcases List.mem_cons.mp hx with rfl | hx
      · exact rfl
      · exact hpubrec _ hx

theorem reports_handlePublishQos1 (mid : ℕ) (q : Client) :
    ∀ x ∈ (handlePublishQos1 mid q).2, Reports q (.publishQos1 mid) x := by
  intro x hx
  simp only [handlePublishQos1, Option.mem_toList, Option.map_eq_some_iff] at hx
  obtain ⟨stored, hfind, rfl⟩ := hx
  obtain ⟨m, hm, rfl⟩ := Option.map_eq_some_iff.mp hfind
  have hp := List.find?_some hm
  simp only [decide_eq_true_eq] at hp
  rw [Reports, hp.1]

theorem Told.reports {q : Client} {now : ℤ} {mid : ℕ} {echo : Delivery → List Insert} {x : Event}
    (h : Told echo q.deliveries x) : Reports q (.pubrel now mid echo) x := by
  cases x with
  | passHeld stored => exact h.elim
  | clean => exact h.elim
  | _ => exact h

/-- **Where the events of a step come from.** -/
theorem sessionStep_reports {q : Client} {op : SessionOp} {r : Client × List Event}
    (h : sessionStep L q op = some r) : ∀ x ∈ r.2, Reports q op x := by
  intro x hx
  cases op with
  | insertOut now i =>
    obtain rfl := Option.some.inj h
    obtain ⟨ds, hds⟩ := exists_accept_insertOut (L := L) now i q
    obtain ⟨d, -, rfl⟩ := List.mem_map.mp (hds ▸ hx)
    exact taken_insertOut hx
  | publish now mid retain store =>
    obtain rfl := Option.some.inj h
    split at hx
    · exact reports_handlePublish now mid retain store q x hx
    · simp at hx
  | publishQos1 mid =>
    obtain rfl := Option.some.inj h
    split at hx
    · exact reports_handlePublishQos1 mid q x hx
    · simp at hx
  | pubackcomp now mid =>
    obtain rfl := Option.some.inj h
    split at hx
    · obtain rfl := List.mem_singleton.mp hx
      trivial
    · simp at hx
  | pubrec now mid =>
    obtain rfl := Option.some.inj h
    split at hx
    · obtain rfl := List.mem_singleton.mp hx
      trivial
    · simp at hx
  | pubrel now mid echo =>
    rw [sessionStep] at h
    split at h
    · obtain ⟨r', hr, rfl⟩ := Option.map_eq_some_iff.mp h
      rcases List.mem_append.mp hx with hx | hx
      · exact (told_releaseLoop (r := r') (fun d hd _ => hd) hr x hx).reports
      · obtain rfl := List.mem_singleton.mp hx
        trivial
    · obtain rfl := Option.some.inj h
      simp at hx
  | write now ok =>
    rw [sessionStep] at h
    split at h
    · obtain ⟨r', -, rfl⟩ := Option.map_eq_some_iff.mp h
      obtain ⟨packet, -, rfl⟩ := List.mem_map.mp hx
      trivial
    · obtain rfl := Option.some.inj h
      simp at hx
  | timeoutCheck now timeout =>
    obtain rfl := Option.some.inj h
    simp at hx
  | disconnect =>
    obtain rfl := Option.some.inj h
    unfold disconnect at hx
    split at hx
    · rename_i hq
      obtain rfl := List.mem_singleton.mp hx
      exact Or.inl ⟨rfl, hq⟩
    · simp at hx
  | connect cleanSession mayRead =>
    rcases handleConnect_events h with ⟨-, he⟩ | ⟨hg, he⟩
    · simp [he] at hx
    · rw [he] at hx
      obtain rfl := List.mem_singleton.mp hx
      exact Or.inr ⟨cleanSession, mayRead, rfl, hg⟩

/-- Where nothing waits and nothing matches, the loop of a removal changes nothing. -/
theorem deleteLoop_eq (now : ℤ) (mid : ℕ) (dir : Direction) (n k msgIndex : ℕ) (deleted : Bool) {q : Client}
    (h : ∀ m ∈ q.msgs, m.state ≠ .queued ∧ ¬(m.mid = mid ∧ m.direction = dir)) :
    deleteLoop L now mid dir n k msgIndex deleted q = q := by
  induction n generalizing k msgIndex deleted with
  | zero => rfl
  | succ n ih =>
    cases hk : q.msgs[k]? with
    | none => simp only [deleteLoop, hk]
    | some m =>
      obtain ⟨hq, hm⟩ := h m (List.mem_of_getElem? hk)
      have hset : ({ q with msgs := q.msgs.set k (promoteAt L now (msgIndex + 1) m) } : Client) = q := by
        obtain ⟨hlt, rfl⟩ := List.getElem?_eq_some_iff.mp hk
        simp [promoteAt, hq]
      simp only [deleteLoop, hk, hset]
      rw [if_neg hm]
      split
      · rfl
      · exact ih _ _ _

theorem promoteHead_queued (hL : 0 < L.maxInflight) {l : List ClientMsg}
    (h : ∀ m ∈ l, m.state = .queued ∧ m.direction = .mdOut) :
    promoteHead L l = l.map fun m => { m with state := publishState m.qos } := by
  induction l with
  | nil => rfl
  | cons a l ih =>
    rw [List.forall_mem_cons] at h
    simp [promoteHead, h.1, hL, unqueue, ih h.2]

/-- **The limit does not hold a backlog back.** When the first message of a queue is
acknowledged and all others are waiting, all of them are put up for sending at
once, however many they are and whatever the limit is: the loop that does it
counts none of them. -/
theorem delete_releases_backlog (hL : 0 < L.maxInflight) (now : ℤ) {q : Client} {m : ClientMsg}
    {backlog : List ClientMsg} (hq : q.msgs = m :: backlog) (hm : m.direction = .mdOut)
    (hb : ∀ a ∈ backlog, a.state = .queued ∧ a.direction = .mdOut ∧ a.mid ≠ m.mid) :
    (mqtt3DbMessageDelete L now m.mid .mdOut q).msgs =
      backlog.map fun a => { a with state := publishState a.qos } := by
  have hk : q.msgs[0]? = some m := by simp [hq]
  have hset : q.msgs.set 0 (promoteAt L now 1 m) = promoteAt L now 1 m :: backlog := by simp [hq]
  set q₁ : Client := { q with msgs := promoteAt L now 1 m :: backlog } with hq₁
  have hrem : (messageRemove L 0 q₁).msgs = backlog.map fun a => { a with state := publishState a.qos } := by
    rw [messageRemove_eq L (m := promoteAt L now 1 m) (by simp [hq₁])]
    exact promoteHead_queued hL fun a ha => ⟨(hb a ha).1, (hb a ha).2.1⟩
  have hrest : ∀ a ∈ (messageRemove L 0 q₁).msgs, a.state ≠ .queued ∧ ¬(a.mid = m.mid ∧ a.direction = .mdOut) := by
    intro a ha
    rw [hrem] at ha
    obtain ⟨b, hbm, rfl⟩ := List.mem_map.mp ha
    exact ⟨publishState_ne_queued _, fun h => (hb b hbm).2.2 h.1⟩
  have hlen : q.msgs.length = backlog.length + 1 := by simp [hq]
  rw [mqtt3DbMessageDelete, hlen]
  simp only [deleteLoop, hk, hset, hm, and_self, if_true, Nat.not_lt_zero, gt_iff_lt, if_false]
  rw [deleteLoop_eq now m.mid .mdOut backlog.length 0 0 true hrest, hrem]

/-- A message of QoS 1 to the client. -/
def helloMsg (mid : ℕ) (state : MsgState) : ClientMsg :=
  { mid := mid
    direction := .mdOut
    qos := 1
    retain := false
    store := helloStore
    state := state
    dup := false
    timestamp := 0 }

/-- A client with a limit of one message, one under way and two waiting. -/
def helloQueue : Client :=
  { connected := true
    cleanSession := false
    msgs := [helloMsg 1 .waitForPuback, helloMsg 2 .queued, helloMsg 3 .queued]
    msgCount := 3
    msgCount12 := 3 }

theorem delete_releases_backlog_hello :
    (mqtt3DbMessageDelete { maxInflight := 1 } 5 1 .mdOut helloQueue).msgs =
      [helloMsg 2 .queued, helloMsg 3 .queued].map fun a => { a with state := publishState a.qos } :=
  delete_releases_backlog (m := helloMsg 1 .waitForPuback) (by decide) 5 rfl rfl (by decide)

end Broker
end BlenderBottle
