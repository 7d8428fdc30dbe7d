/-
# What a queue takes in

What the broker as a whole needs of a queue: a message that is there was taken in
(`Moves.mem_deliveries`), and only connecting and disconnecting change whether the client
is there (`link_sessionStep`).

Each message notes the clients it went to. A client whose subscriptions overlap is
offered the same message several times; it gets the first that its queue has room
for (`insertsOut_once`), and the note outlives its sessions (`Moves.dests`).

Key definitions: `linkStep`, `Takes`, `noted`.
Key theorems: `link_sessionStep`, `insertsOut_once`, `Moves.dests`.
-/
import BlenderBottle.Broker.QueueRun

namespace BlenderBottle
namespace Broker

variable {L : Limits} {strict : Prop}

/-! ### The connection -/

/-- Whether the client is there, and for how long its session lasts. -/
def Client.link (q : Client) : Bool × Bool := (q.connected, q.cleanSession)

@[simp] theorem link_messageRemove (k : ℕ) (q : Client) : (messageRemove L k q).link = q.link := by
  unfold messageRemove
  split <;> rfl

theorem link_deleteLoop (now : ℤ) (mid : ℕ) (dir : Direction) (n k msgIndex : ℕ) (deleted : Bool) (q : Client) :
    (deleteLoop L now mid dir n k msgIndex deleted q).link = q.link := by
  induction n generalizing k msgIndex deleted q with
  | zero => rfl
  | succ n ih =>
    unfold deleteLoop
    split
    · rfl
    · dsimp only
      split
      · split
        · rw [link_messageRemove]
          rfl
        · rw [ih, link_messageRemove]
          rfl
      · split
        · rfl
        · rw [ih]
          rfl

theorem link_insertOut (now : ℤ) (i : Insert) (q : Client) : (insertOut L now i q).1.link = q.link := by
  unfold insertOut mqtt3DbMessageInsert
  dsimp only
  split <;> split <;> rfl

theorem link_insertsOut (now : ℤ) (is : List Insert) (q : Client) : (insertsOut L now is q).1.link = q.link := by
  induction is generalizing q with
  | nil => rfl
  | cons i is ih =>
    rw [insertsOut]
    dsimp only
    rw [ih, link_insertOut]

theorem link_passOn (now : ℤ) (echo : Delivery → List Insert) (d : Delivery) (q : Client) :
    (passOn L now echo d q).1.link = q.link := by
  unfold passOn
  split
  · rfl
  · exact link_insertsOut now (echo d) q

theorem link_releaseLoop {now : ℤ} {mid : ℕ} {echo : Delivery → List Insert} {fuel k msgIndex : ℕ}
    {deleted : Bool} {q : Client} {r : Client × List Event}
    (h : releaseLoop L now mid echo fuel k msgIndex deleted q = some r) : r.1.link = q.link := by
  induction fuel generalizing k msgIndex deleted q r with
  | zero => cases h
  | succ fuel ih =>
    unfold releaseLoop at h
    split at h
    · obtain rfl := Option.some.inj h
      rfl
    · dsimp only at h
      split at h
      · split at h
        · obtain rfl := Option.some.inj h
          rw [link_messageRemove, link_passOn]
          rfl
        · obtain ⟨r', h', rfl⟩ := Option.map_eq_some_iff.mp h
          dsimp only
          rw [ih h', link_messageRemove, link_passOn]
          rfl
      · split at h
        · obtain rfl := Option.some.inj h
          rfl
        · obtain ⟨r', h', rfl⟩ := Option.map_eq_some_iff.mp h
          dsimp only
          rw [ih h']
          rfl

theorem link_writeLoop {now : ℤ} {ok : ℕ → Bool} {fuel k msgCount : ℕ} {q : Client} {sent : List Packet}
    {r : Client × List Packet} (h : writeLoop L now ok fuel k msgCount q sent = some r) : r.1.link = q.link := by
  induction fuel generalizing k msgCount q sent r with
  | zero => cases h
  | succ fuel ih =>
    cases hk : q.msgs[k]? with
    | none =>
      simp only [writeLoop, hk, Option.some.injEq] at h
      rw [← h]
    | some m =>
      simp only [writeLoop, hk] at h
      generalize (if m.direction = .mdIn then msgCount + 1 else msgCount) = count at h
      split at h
      · split at h
        · rw [ih h, link_messageRemove]
        · obtain rfl := Option.some.inj h
          rfl
      · split at h
        · split at h
          · split at h
            · rw [ih h]
              rfl
            · obtain rfl := Option.some.inj h
              rfl
          · exact ih h
        · split at h
          · rw [ih h]
            split <;> rfl
          · exact ih h

theorem link_aclLoop (mayRead : List Char → Bool) (n k : ℕ) (q : Client) :
    (aclLoop mayRead n k q).1.link = q.link := by
  induction n generalizing k q with
  | zero => rfl
  | succ n ih =>
    unfold aclLoop
    split
    · rfl
    · split
      · exact ih k _
      · exact ih (k + 1) q

/-- The connection of a client after a step. -/
def linkStep (link : Bool × Bool) : SessionOp → Bool × Bool
  | .connect cleanSession _ => (true, cleanSession)
  | .disconnect => (false, link.2)
  | _ => link

/-- Only connecting and disconnecting change it. -/
theorem link_sessionStep {q : Client} {op : SessionOp} {r : Client × List Event} (hI : QueueInv L strict q)
    (h : sessionStep L q op = some r) : r.1.link = linkStep q.link op := by
  cases op with
  | insertOut now i =>
    obtain rfl := Option.some.inj h
    exact link_insertOut now i q
  | publish now mid retain store =>
    obtain rfl := Option.some.inj h
    split
    · unfold handlePublish
      split
      · rfl
      · dsimp only
        split <;> rfl
    · rfl
  | publishQos1 mid =>
    obtain rfl := Option.some.inj h
    split <;> rfl
  | pubackcomp now mid =>
    obtain rfl := Option.some.inj h
    split
    · exact link_deleteLoop ..
    · rfl
  | pubrec now mid =>
    obtain rfl := Option.some.inj h
    split
    · unfold mqtt3DbMessageUpdate
      dsimp only
      split <;> rfl
    · rfl
  | pubrel now mid echo =>
    rw [sessionStep] at h
    split at h
    · obtain ⟨r', hr, rfl⟩ := Option.map_eq_some_iff.mp h
      exact link_releaseLoop (r := r') hr
    · obtain rfl := Option.some.inj h
      rfl
  | write now ok =>
    rw [sessionStep] at h
    split at h
    · obtain ⟨r', hr, rfl⟩ := Option.map_eq_some_iff.mp h
      exact link_writeLoop hr
    · obtain rfl := Option.some.inj h
      rfl
  | timeoutCheck now timeout =>
    obtain rfl := Option.some.inj h
    dsimp only
    split <;> rfl
  | disconnect =>
    obtain rfl := Option.some.inj h
    unfold disconnect
    split <;> rfl
  | connect cleanSession mayRead =>
    rw [sessionStep, handleConnect] at h
    split at h
    · rename_i hc
      dsimp only at h
      split at h
      · cases h
      · obtain rfl := Option.some.inj h
        rw [link_aclLoop, reconnectReset_eq hI]
        simp [Client.link, linkStep, hc]
    · obtain rfl := Option.some.inj h
      rfl

/-! ### Messages that are taken in -/

theorem Effect.mem {l l' l₀ : List Delivery} {e e' : List Event} (h : Effect strict l e' l')
    (hR : ∀ d ∈ l, d ∈ l₀ ∨ .accept d ∈ e) : ∀ d ∈ l', d ∈ l₀ ∨ .accept d ∈ e ++ e' := by
  have hold : ∀ d ∈ l, d ∈ l₀ ∨ .accept d ∈ e ++ e' := fun d hd => (hR d hd).imp id (List.mem_append_left _)
  have hcut : ∀ {pre post : List Delivery} {d : Delivery}, l = pre ++ d :: post →
      ∀ d' ∈ pre ++ post, d' ∈ l₀ ∨ .accept d' ∈ e ++ e' := by
    rintro pre post d rfl d' hd'
    exact hold d' ((List.sublist_cons_self _ _).append_left pre |>.subset hd')
  cases h with
  | quiet => exact hold
  | send => exact hold
  | accept hin =>
    intro d' hd'
    rcases List.mem_append.mp hd' with hd' | hd'
    · exact hold d' hd'
    · exact Or.inr (by simp [List.mem_singleton.mp hd'])
  | sent pre post => exact hcut rfl
  | forward pre post => exact hcut rfl
  | refused pre post => exact hcut rfl
  | passHeld => exact hold
  | acked hsub => exact fun d hd => hold d (hsub.subset hd)
  | clean => simp

/-- The messages of a queue were there, or were taken in. -/
theorem Moves.mem_deliveries {q q' : Client} {e : List Event} (h : Moves L strict q e q')
    (hI : QueueInv L strict q) {d : Delivery} (hd : d ∈ q'.deliveries) : d ∈ q.deliveries ∨ .accept d ∈ e := by
  have := h.keeps (e := []) (R := fun l e => ∀ d ∈ l, d ∈ q.deliveries ∨ .accept d ∈ e) Effect.mem hI
    fun d hd => Or.inl hd
  exact this d hd

/-! ### No message twice -/

variable (L) in
/-- The ids of the messages that are noted as gone to the client. -/
def noted (e : List Event) : List ℕ :=
  e.filterMap fun
    | .accept d => if notesDest L d then some d.store.dbId else none
    | _ => none

theorem noted_append (e e' : List Event) : noted L (e ++ e') = noted L e ++ noted L e' := List.filterMap_append

theorem dests_messageRemove (k : ℕ) (q : Client) : (messageRemove L k q).dests = q.dests := by
  unfold messageRemove
  split <;> rfl

theorem dests_edits {p : Delivery → Prop} {q q' : Client} (h : Relation.ReflTransGen (Edit L strict p) q q') :
    q'.dests = q.dests := by
  induction h with
  | refl => rfl
  | tail _ h ih =>
    rw [← ih]
    cases h with
    | advance => rfl
    | remove => exact dests_messageRemove ..

/-- What is noted is what was taken in, and was not noted before. -/
theorem Move.dests {q q' : Client} {e : List Event} (h : Move L strict q e q') :
    q'.dests = (noted L e).reverse ++ q.dests ∧ (q.dests.Nodup → q'.dests.Nodup) := by
  cases h with
  | advance => exact ⟨rfl, id⟩
  | midGenerate => exact ⟨rfl, id⟩
  | send => exact ⟨rfl, id⟩
  | accept h hin hout =>
    rename_i d state rc
    have hdest : ¬ (notesDest L d ∧ d.store.dbId ∈ q.dests) := by
      intro hdup
      rw [insertState, if_pos hdup] at h
      cases h
    by_cases hn : notesDest L d
    · simp only [appendMsg, noted, hn, if_true, List.filterMap_cons, List.filterMap_nil]
      exact ⟨rfl, fun hq => List.nodup_cons.mpr ⟨fun hmem => hdest ⟨hn, hmem⟩, hq⟩⟩
    · simp [appendMsg, noted, hn]
  | sent => exact ⟨dests_messageRemove .., by rw [dests_messageRemove]; exact id⟩
  | forward => exact ⟨dests_messageRemove .., by rw [dests_messageRemove]; exact id⟩
  | refused => exact ⟨dests_messageRemove .., by rw [dests_messageRemove]; exact id⟩
  | passHeld => exact ⟨rfl, id⟩
  | acked _ h _ => exact ⟨dests_edits h, by rw [dests_edits h]; exact id⟩
  | connect => exact ⟨rfl, id⟩
  | disconnect => exact ⟨rfl, id⟩
  | clean _ _ _ _ _ hdests => exact ⟨hdests, by rw [hdests]; exact id⟩

theorem Moves.dests {q q' : Client} {e : List Event} (h : Moves L strict q e q') :
    q'.dests = (noted L e).reverse ++ q.dests ∧ (q.dests.Nodup → q'.dests.Nodup) := by
  induction h with
  | refl => exact ⟨rfl, id⟩
  | step h _ ih =>
    refine ⟨?_, fun hq => ih.2 (h.dests.2 hq)⟩
    rw [ih.1, h.dests.1, noted_append, List.reverse_append, List.append_assoc]

/-- The queue has room for one more message of QoS 1 or 2. -/
def Room (L : Limits) (q : Client) : Prop :=
  if q.connected then
    L.maxInflight = 0 ∨ q.msgCount12 < L.maxInflight ∨ L.maxQueued = 0 ∨
      q.msgCount12 - L.maxInflight < L.maxQueued
  else L.maxQueued = 0 ∨ q.msgCount12 < L.maxQueued

instance (L : Limits) (q : Client) : Decidable (Room L q) := by
  unfold Room
  infer_instance

/-- The client takes a message of this QoS that it has not had. -/
def Takes (L : Limits) (q : Client) (qos : Fin 3) : Prop :=
  if qos = 0 then q.connected = true ∨ ((L.queueQos0Messages = true ∨ q.lazyBridge = true) ∧ Room L q)
  else Room L q

instance (L : Limits) (q : Client) (qos : Fin 3) : Decidable (Takes L q qos) := by
  unfold Takes
  infer_instance

theorem insertState_of_takes {d : Delivery} {q : Client} (hout : d.direction = .mdOut)
    (hnew : notesDest L d → d.store.dbId ∉ q.dests) (ht : Takes L q d.qos) :
    ∃ r, insertState L d q = .ok r := by
  have hdup : ¬ (notesDest L d ∧ d.store.dbId ∈ q.dests) := fun h => hnew h.1 h.2
  unfold insertState
  rw [if_neg hdup]
  cases hc : q.connected with
  | true =>
    simp only [Bool.true_eq_false, false_and, if_false, if_true, hout]
    split
    · exact ⟨_, rfl⟩
    · rename_i hfull
      obtain ⟨h0, hL, hlt⟩ : d.qos ≠ 0 ∧ L.maxInflight ≠ 0 ∧ ¬ q.msgCount12 < L.maxInflight := by tauto
      simp only [Takes, Room, h0, hL, hlt, hc, if_false, if_true, false_or] at ht
      rw [if_pos ht]
      exact ⟨_, rfl⟩
  | false =>
    have hkept : ¬ (false = false ∧ d.qos = 0 ∧ L.queueQos0Messages = false ∧ q.lazyBridge = false) := by
      rintro ⟨-, h0, h1, h2⟩
      simp [Takes, h0, h1, h2, hc] at ht
    have hroom : ¬ (0 < L.maxQueued ∧ (L.maxQueued : ℤ) ≤ q.msgCount12) := by
      have : Room L q := by
        by_cases h0 : d.qos = 0
        · simp only [Takes, h0, if_true, hc, Bool.false_eq_true, false_or] at ht
          exact ht.2
        · simpa only [Takes, h0, if_false] using ht
      simp only [Room, hc, Bool.false_eq_true, if_false] at this
      omega
    rw [if_neg hkept]
    simp only [hroom, Bool.false_eq_true, if_false]
    exact ⟨_, rfl⟩

theorem insertState_of_not_takes {d : Delivery} {q : Client} (ht : ¬ Takes L q d.qos) :
    ∃ rc, insertState L d q = .error rc := by
  cases h : insertState L d q with
  | error rc => exact ⟨rc, rfl⟩
  | ok r =>
    refine absurd ?_ ht
    unfold insertState at h
    split at h
    · cases h
    split at h
    · cases h
    rename_i hkept
    cases hc : q.connected with
    | true =>
      simp only [hc, if_true] at h
      by_cases h0 : d.qos = 0
      · simp [Takes, h0, hc]
      · simp only [Takes, Room, h0, hc, if_true, if_false]
        split at h
        · tauto
        · split at h
          · tauto
          · cases h
    | false =>
      simp only [hc, Bool.false_eq_true, if_false] at h
      split at h
      · cases h
      · rename_i hroom
        have hR : Room L q := by
          simp only [Room, hc, Bool.false_eq_true, if_false]
          omega
        by_cases h0 : d.qos = 0
        · simp only [Takes, h0, if_true, hR, and_true]
          simp only [hc, h0, true_and, not_and_or, Bool.not_eq_false] at hkept
          exact Or.inr hkept
        · simpa only [Takes, h0, if_false] using hR

/-- A call for a message to the client, by what `mqtt3_db_message_insert` decides. -/
theorem insertOut_cases (now : ℤ) (i : Insert) (q : Client) :
    ∃ n mid, (∃ rc, insertState L (i.delivery mid) q = .error rc ∧
        insertOut L now i q = ({ q with lastMid := n }, [])) ∨
      ∃ state rc, insertState L (i.delivery mid) q = .ok (state, rc) ∧
        insertOut L now i q =
          (appendMsg L now (i.delivery mid) state { q with lastMid := n }, [.accept (i.delivery mid)]) := by
  have hq : ∃ n, (if i.qos ≠ 0 then midGenerate q else q) = { q with lastMid := n } := by
    split
    · exact ⟨_, rfl⟩
    · exact ⟨q.lastMid, rfl⟩
  obtain ⟨n, hn⟩ := hq
  refine ⟨n, if i.qos ≠ 0 then n else 0, ?_⟩
  simp only [insertOut, mqtt3DbMessageInsert, hn]
  -- the decision does not depend on the last message id
  change (∃ rc, insertState L _ { q with lastMid := n } = .error rc ∧ _) ∨
    ∃ state rc, insertState L _ { q with lastMid := n } = .ok (state, rc) ∧ _
  cases h : insertState L (i.delivery (if i.qos ≠ 0 then n else 0)) { q with lastMid := n } with
  | error rc => exact Or.inl ⟨rc, rfl, rfl⟩
  | ok r => exact Or.inr ⟨r.1, r.2, rfl, rfl⟩

/-- A message that the client has had is not put in again. -/
theorem insertsOut_had {now : ℤ} {is : List Insert} {q : Client}
    (h : ∀ i ∈ is, ∀ mid, notesDest L (i.delivery mid) ∧ i.store.dbId ∈ q.dests) :
    (insertsOut L now is q).2 = [] := by
  induction is generalizing q with
  | nil => rfl
  | cons i is ih =>
    obtain ⟨n, mid, ⟨rc, -, heq⟩ | ⟨state, rc, hok, -⟩⟩ := insertOut_cases (L := L) now i q
    · rw [insertsOut, heq]
      exact ih fun i' hi' mid => h i' (List.mem_cons_of_mem _ hi') mid
    · have hdup : notesDest L (i.delivery mid) ∧ (i.delivery mid).store.dbId ∈ q.dests :=
        h i List.mem_cons_self mid
      rw [insertState, if_pos hdup] at hok
      cases hok

/-- **Overlapping subscriptions.** Of several calls for one message that the client has
not had, the first that it takes is the only one that puts it in. -/
theorem insertsOut_once (hL : L.allowDuplicateMessages = false) (now : ℤ) (is : List Insert) {q : Client}
    (stored : Store) (his : ∀ i ∈ is, i.retain = false ∧ i.store = stored) (hnew : stored.dbId ∉ q.dests) :
    ∃ mid, (insertsOut L now is q).2 =
      (is.find? fun i => Takes L q i.qos).toList.map fun i => .accept (i.delivery mid) := by
  have hnotes : ∀ i ∈ is, ∀ mid, notesDest L (i.delivery mid) := fun i hi mid => ⟨hL, rfl, (his i hi).1⟩
  induction is generalizing q with
  | nil => exact ⟨0, rfl⟩
  | cons i is ih =>
    have hi := List.mem_cons_self (a := i) (l := is)
    have hrest : ∀ i' ∈ is, i' ∈ i :: is := fun _ => List.mem_cons_of_mem _
    obtain ⟨n, mid, ⟨rc, herr, heq⟩ | ⟨state, rc, hok, heq⟩⟩ := insertOut_cases (L := L) now i q
    · have ht : ¬ Takes L q i.qos := by
        intro ht
        have hd : (i.delivery mid).store.dbId ∉ q.dests := by
          rw [Insert.delivery, (his i hi).2]
          exact hnew
        obtain ⟨r, hr⟩ := insertState_of_takes (d := i.delivery mid) rfl (fun _ => hd) ht
        rw [hr] at herr
        cases herr
      obtain ⟨mid', hmid'⟩ := ih (q := { q with lastMid := n }) (fun i' hi' => his i' (hrest i' hi')) hnew
        fun i' hi' => hnotes i' (hrest i' hi')
      refine ⟨mid', ?_⟩
      rw [insertsOut, heq, List.find?_cons_of_neg (by simpa using ht)]
      exact hmid'
    · have ht : Takes L q i.qos := by
        by_contra ht
        obtain ⟨rc', hrc'⟩ := insertState_of_not_takes (d := i.delivery mid) ht
        rw [hrc'] at hok
        cases hok
      refine ⟨mid, ?_⟩
      rw [insertsOut, heq, List.find?_cons_of_pos (by simpa using ht)]
      have hdests : (appendMsg L now (i.delivery mid) state { q with lastMid := n }).dests =
          stored.dbId :: q.dests := by
        rw [appendMsg, if_pos (hnotes i hi mid), Insert.delivery, (his i hi).2]
      rw [insertsOut_had]
      · rfl
      · intro i' hi' mid'
        refine ⟨hnotes i' (hrest i' hi') mid', ?_⟩
        rw [hdests, (his i' (hrest i' hi')).2]
        exact List.mem_cons_self

end Broker
end BlenderBottle
