/-
# The collector: one handler thread for each connection

`collector/userspace/SocketIn.py` starts a thread for each connection; its
handler receives once, stores what it received and publishes the id that the
store gave it. The three are separate steps of the thread, so a run is any
interleaving of the handlers' steps, over any number of connections, with the
broker's deliveries to a subscriber in between (`Step`). The store is atomic
and its ids are fresh; the broker keeps the order of what it is given.

In every run what is published was stored, and is published once (`Inv`,
`reach_inv`). The order is a matter of the schedule: nothing keeps a handler
that stored later from publishing first. Published ids follow the store in
the runs in which no handler publishes past an id that was stored earlier and
still waits (`inOrder_fsevent`), so whenever handlers that store do not
overlap (`serial_inOrder`).
-/
import Mathlib.Data.List.Infix
import Mathlib.Data.List.Nodup
import Mathlib.Tactic

namespace BlenderBottle
namespace Collector

variable {Id : Type}

/-- Where the handler of a connection is in `handle`. -/
inductive Handler (Id : Type)
  | receiving
  | received (data : List UInt8)
  | stored (id : Id)
  | done

/-- The handlers by connection, the store's chunks and the ids published on
`bb/fsevent` in the order of the steps, and the ids a subscriber applied. -/
structure State (Id : Type) where
  handlers : ℕ → Handler Id
  chunks : List (Id × List UInt8)
  fsevent : List Id
  applied : List Id

def init : State Id := ⟨fun _ => .receiving, [], [], []⟩

/-- The ids in the store, oldest first. -/
def State.ids (s : State Id) : List Id := s.chunks.map Prod.fst

/-- A step, as far as a schedule can tell it. -/
inductive Act (Id : Type)
  | recv (i : ℕ)
  | bbStore (i : ℕ) (id : Id)
  | publish (i : ℕ) (id : Id)
  | deliver

/-- The steps; `wire i` is what the client of connection `i` sends before it
closes. -/
inductive Step (wire : ℕ → List UInt8) : State Id → Act Id → State Id → Prop
  /-- `recv(4096)` gives some of what was sent, nothing only at its end. -/
  | recv {s : State Id} (i : ℕ) (data : List UInt8) (h : s.handlers i = .receiving)
      (hp : data <+: wire i) (hl : data.length ≤ 4096) (he : data = [] → wire i = []) :
      Step wire s (.recv i) { s with handlers := Function.update s.handlers i (.received data) }
  | bbStore {s : State Id} (i : ℕ) (data : List UInt8) (id : Id) (h : s.handlers i = .received data)
      (hf : id ∉ s.ids) :
      Step wire s (.bbStore i id)
        { s with handlers := Function.update s.handlers i (.stored id), chunks := s.chunks ++ [(id, data)] }
  | publish {s : State Id} (i : ℕ) (id : Id) (h : s.handlers i = .stored id) :
      Step wire s (.publish i id)
        { s with handlers := Function.update s.handlers i .done, fsevent := s.fsevent ++ [id] }
  | deliver {s : State Id} (id : Id) (rest : List Id) (h : s.fsevent = s.applied ++ id :: rest) :
      Step wire s .deliver { s with applied := s.applied ++ [id] }

/-- The states of the runs whose every step the schedule `P` allows. -/
inductive Reach (wire : ℕ → List UInt8) (P : State Id → Act Id → Prop) : State Id → Prop
  | init : Reach wire P init
  | step {s s' : State Id} {a : Act Id} : Reach wire P s → P s a → Step wire s a s' → Reach wire P s'

/-- Any schedule at all. -/
def Any (_ : State Id) (_ : Act Id) : Prop := True

theorem Reach.mono {wire : ℕ → List UInt8} {P Q : State Id → Act Id → Prop}
    (h : ∀ s a s', Reach wire P s → P s a → Step wire s a s' → Q s a) {s : State Id} (hr : Reach wire P s) :
    Reach wire Q s := by
  induction hr with
  | init => exact .init
  | step hr hp hs ih => exact .step ih (h _ _ _ hr hp hs) hs

/-! ### What every run keeps -/

/-- Ids are stored once and published once, after they were stored; an id a
handler holds is its own. -/
structure Inv (s : State Id) : Prop where
  ids : s.ids.Nodup
  fsevent : s.fsevent.Nodup
  stored : ∀ id ∈ s.fsevent, id ∈ s.ids
  held : ∀ i id, s.handlers i = .stored id → id ∈ s.ids ∧ id ∉ s.fsevent
  own : ∀ i j id, s.handlers i = .stored id → s.handlers j = .stored id → i = j
  applied : s.applied <+: s.fsevent

theorem init_inv : Inv (init : State Id) := by
  constructor <;> simp [init, State.ids]

/-- A handler that holds an id after connection `i` moved on held it before,
or is `i` and was given it. -/
theorem held_update {s : State Id} {i j : ℕ} {x : Handler Id} {id : Id}
    (h : Function.update s.handlers i x j = .stored id) :
    (j = i ∧ x = .stored id) ∨ (j ≠ i ∧ s.handlers j = .stored id) := by
  by_cases hj : j = i
  · subst hj
    exact Or.inl ⟨rfl, by simpa using h⟩
  · exact Or.inr ⟨hj, by simpa [hj] using h⟩

/-- A handler that moved on without an id holds none. -/
theorem held_update_of {s : State Id} {i j : ℕ} {x : Handler Id} {id : Id} (hx : ∀ id, x ≠ .stored id)
    (h : Function.update s.handlers i x j = .stored id) : j ≠ i ∧ s.handlers j = .stored id :=
  (held_update h).resolve_left fun h' => hx id h'.2

theorem step_inv {wire : ℕ → List UInt8} {s s' : State Id} {a : Act Id} (hI : Inv s)
    (hs : Step wire s a s') : Inv s' := by
  cases hs with
  | recv i data h =>
    have hx : ∀ id : Id, Handler.received data ≠ .stored id := fun id => by simp
    exact { hI with
      held := fun j id hj => hI.held j id (held_update_of hx hj).2
      own := fun j k id hj hk => hI.own j k id (held_update_of hx hj).2 (held_update_of hx hk).2 }
  | bbStore i data id h hf =>
    have hids : ({ s with
        handlers := Function.update s.handlers i (.stored id), chunks := s.chunks ++ [(id, data)] } :
        State Id).ids = s.ids ++ [id] := by simp [State.ids]
    have hnew : ∀ j, s.handlers j ≠ .stored id := fun j hj => hf (hI.held j id hj).1
    refine ⟨?_, hI.fsevent, fun x hx => ?_, fun j x hj => ?_, fun j k x hj hk => ?_, hI.applied⟩
    · rw [hids, ← List.concat_eq_append]
      exact hI.ids.concat hf
    · rw [hids]
      exact List.mem_append_left _ (hI.stored x hx)
    · rw [hids]
      rcases held_update hj with ⟨-, h'⟩ | ⟨-, h'⟩
      · cases h'
        exact ⟨by simp, fun hx => hf (hI.stored id hx)⟩
      · exact ⟨List.mem_append_left _ (hI.held j x h').1, (hI.held j x h').2⟩
    · rcases held_update hj with ⟨rfl, h1⟩ | ⟨-, h1⟩ <;> rcases held_update hk with ⟨rfl, h2⟩ | ⟨-, h2⟩
      · rfl
      · cases h1; exact absurd h2 (hnew k)
      · cases h2; exact absurd h1 (hnew j)
      · exact hI.own j k x h1 h2
  | publish i id h =>
    obtain ⟨hmem, hnot⟩ := hI.held i id h
    have hd : ∀ id : Id, Handler.done ≠ .stored id := fun id => by simp
    refine ⟨hI.ids, ?_, fun x hx => ?_, fun j x hj => ?_, fun j k x hj hk => ?_, ?_⟩
    · rw [← List.concat_eq_append]
      exact hI.fsevent.concat hnot
    · rcases List.mem_append.mp hx with hx | hx
      · exact hI.stored x hx
      · rw [List.mem_singleton.mp hx]; exact hmem
    · obtain ⟨hne, h'⟩ := held_update_of hd hj
      refine ⟨(hI.held j x h').1, fun hx => ?_⟩
      rcases List.mem_append.mp hx with hx | hx
      · exact (hI.held j x h').2 hx
      · rw [List.mem_singleton.mp hx] at h'
        exact hne (hI.own j i id h' h)
    · exact hI.own j k x (held_update_of hd hj).2 (held_update_of hd hk).2
    · exact hI.applied.trans (List.prefix_append _ _)
  | deliver id rest h =>
    refine { hI with applied := ?_ }
    exact ⟨rest, by rw [h]; simp⟩

theorem reach_inv {wire : ℕ → List UInt8} {P : State Id → Act Id → Prop} {s : State Id}
    (h : Reach wire P s) : Inv s := by
  induction h with
  | init => exact init_inv
  | step _ _ hs ih => exact step_inv ih hs

/-! ### The order of publication -/

/-- No id stored before `id` still waits to be published. -/
def Oldest (s : State Id) (id : Id) : Prop :=
  ∀ pre post, s.ids = pre ++ id :: post → ∀ x ∈ pre, x ∈ s.fsevent

/-- No handler publishes past an older id that still waits. -/
def InOrder (s : State Id) : Act Id → Prop
  | .publish _ id => Oldest s id
  | _ => True

/-- No handler stores while another has stored and not yet published. -/
def Serial (s : State Id) : Act Id → Prop
  | .bbStore _ _ => ∀ j id, s.handlers j ≠ .stored id
  | _ => True

/-- A published id that is the oldest waiting one extends a prefix of the
store's order by one. -/
theorem publish_next {s : State Id} {i : ℕ} {id : Id} (hI : Inv s) (h : s.handlers i = .stored id)
    (ho : Oldest s id) (hp : s.fsevent <+: s.ids) : s.fsevent ++ [id] <+: s.ids := by
  obtain ⟨rest, hrest⟩ := hp
  obtain ⟨hmem, hnot⟩ := hI.held i id h
  have hin : id ∈ rest := by
    rw [← hrest] at hmem
    exact (List.mem_append.mp hmem).resolve_left hnot
  obtain ⟨a, b, rfl⟩ := List.append_of_mem hin
  have hnil : a = [] := by
    rw [List.eq_nil_iff_forall_not_mem]
    intro x hx
    have hxe := ho (s.fsevent ++ a) b (by rw [← hrest]; simp) x (List.mem_append_right _ hx)
    have hnd := hI.ids
    rw [← hrest, List.nodup_append] at hnd
    exact hnd.2.2 x hxe x (by simp [hx]) rfl
  subst hnil
  exact ⟨b, by rw [← hrest]; simp⟩

theorem inOrder_fsevent {wire : ℕ → List UInt8} {s : State Id} (h : Reach wire InOrder s) :
    s.fsevent <+: s.ids := by
  induction h with
  | init => simp [init, State.ids]
  | step hr hp hs ih =>
    cases hs with
    | recv => exact ih
    | bbStore i data id =>
      refine ih.trans ⟨[id], ?_⟩
      simp [State.ids]
    | publish i id h => exact publish_next (reach_inv hr) h hp ih
    | deliver => exact ih

/-- In a serial run one handler at most holds an id, and every other stored
id is published. -/
structure SerialInv (s : State Id) : Prop where
  covered : ∀ id ∈ s.ids, id ∈ s.fsevent ∨ ∃ i, s.handlers i = .stored id
  single : ∀ i j id id', s.handlers i = .stored id → s.handlers j = .stored id' → i = j

theorem serial_inv {wire : ℕ → List UInt8} {s : State Id} (h : Reach wire Serial s) : SerialInv s := by
  induction h with
  | init => constructor <;> simp [init, State.ids]
  | @step s s' a hr hp hs ih =>
    cases hs with
    | recv i data h =>
      have hd : ∀ id : Id, Handler.received data ≠ .stored id := fun id => by simp
      refine ⟨fun id hid => ?_, fun j k x y hj hk =>
        ih.single j k x y (held_update_of hd hj).2 (held_update_of hd hk).2⟩
      rcases ih.covered id hid with h' | ⟨j, hj⟩
      · exact Or.inl h'
      · have hne : j ≠ i := by rintro rfl; rw [h] at hj; cases hj
        exact Or.inr ⟨j, by simpa [hne] using hj⟩
    | bbStore i data id h hf =>
      -- nobody held an id, so all were published and the new one is the only one held
      refine ⟨fun x hx => ?_, fun j k x y hj hk => ?_⟩
      · have hx' : x ∈ s.ids ∨ x = id := by simpa [State.ids] using hx
        rcases hx' with hx' | rfl
        · rcases ih.covered x hx' with h' | ⟨j, hj⟩
          · exact Or.inl h'
          · exact absurd hj (hp j x)
        · exact Or.inr ⟨i, by simp⟩
      · rcases held_update hj with ⟨rfl, -⟩ | ⟨-, hj'⟩
        · rcases held_update hk with ⟨rfl, -⟩ | ⟨-, hk'⟩
          · rfl
          · exact absurd hk' (hp k y)
        · exact absurd hj' (hp j x)
    | publish i id h =>
      have hd : ∀ id : Id, Handler.done ≠ .stored id := fun id => by simp
      refine ⟨fun x hx => ?_, fun j k x y hj hk =>
        ih.single j k x y (held_update_of hd hj).2 (held_update_of hd hk).2⟩
      rcases ih.covered x hx with h' | ⟨j, hj⟩
      · exact Or.inl (List.mem_append_left _ h')
      · by_cases hji : j = i
        · subst hji
          rw [h] at hj
          cases hj
          exact Or.inl (by simp)
        · exact Or.inr ⟨j, by simpa [hji] using hj⟩
    | deliver => exact ⟨ih.covered, ih.single⟩

theorem serial_inOrder {wire : ℕ → List UInt8} {s : State Id} (h : Reach wire Serial s) :
    Reach wire InOrder s := by
  apply h.mono
  intro s a s' hr hp hs
  cases hs with
  | recv => trivial
  | bbStore => trivial
  | deliver => trivial
  | publish i id h =>
    intro pre post hpre x hx
    have hI := serial_inv hr
    rcases hI.covered x (by rw [hpre]; exact List.mem_append_left _ hx) with hx' | ⟨j, hj⟩
    · exact hx'
    · -- the only id held is the one published, and it is stored once
      have hji := hI.single j i x id hj h
      subst hji
      rw [h] at hj
      cases hj
      have hnd := (reach_inv hr).ids
      rw [hpre, List.nodup_append] at hnd
      exact absurd rfl (hnd.2.2 id hx id (by simp))

/-- **What the collector guarantees.** In every run each published id was
stored, none is published twice, and a subscriber applies what was published
in its order. In the runs that publish in order, those in which handlers do
not overlap among them, that order is the store's. -/
theorem fsevent_guarantee (wire : ℕ → List UInt8) :
    (∀ s : State Id, Reach wire Any s →
      (∀ id ∈ s.fsevent, id ∈ s.ids) ∧ s.fsevent.Nodup ∧ s.applied <+: s.fsevent) ∧
    (∀ s : State Id, Reach wire InOrder s → s.fsevent <+: s.ids ∧ s.applied <+: s.ids) ∧
    ∀ s : State Id, Reach wire Serial s → s.fsevent <+: s.ids ∧ s.applied <+: s.ids := by
  have key : ∀ s : State Id, Reach wire InOrder s → s.fsevent <+: s.ids ∧ s.applied <+: s.ids :=
    fun s h => ⟨inOrder_fsevent h, (reach_inv h).applied.trans (inOrder_fsevent h)⟩
  refine ⟨fun s h => ?_, key, fun s h => key s (serial_inOrder h)⟩
  have hI := reach_inv h
  exact ⟨hI.stored, hI.fsevent, hI.applied⟩

/-! ### Two connections -/

/-- Each client sends one byte, its connection's number. -/
def twoWire (i : ℕ) : List UInt8 := [UInt8.ofNat i]

/-- The second handler stores after the first and publishes before it. -/
theorem fsevent_overtaken : ∃ s : State ℕ, Reach twoWire Any s ∧ ¬ s.fsevent.Sublist s.ids := by
  refine ⟨_, .step (.step (.step (.step (.step (.step .init trivial (.recv 0 [0] rfl ?_ ?_ ?_)) trivial
    (.recv 1 [1] rfl ?_ ?_ ?_)) trivial (.bbStore 0 [0] 100 rfl ?_)) trivial (.bbStore 1 [1] 101 rfl ?_)) trivial
    (.publish 1 101 rfl)) trivial (.publish 0 100 rfl), ?_⟩
  all_goals decide

/-- The same two connections, one after the other. -/
theorem fsevent_guarantee_serial : ∃ s : State ℕ, s.fsevent = [100, 101] ∧ s.fsevent <+: s.ids := by
  have r1 : @Reach ℕ twoWire Serial _ :=
    .step .init (a := .recv 0) trivial (.recv 0 [0] rfl (by decide) (by decide) (by decide))
  have r2 := r1.step (a := .bbStore 0 100) (by intro j id; simp [Function.update, init]; split <;> simp)
    (.bbStore 0 [0] 100 rfl (by decide))
  have r3 := r2.step (a := .publish 0 100) trivial (.publish 0 100 rfl)
  have r4 := r3.step (a := .recv 1) trivial (.recv 1 [1] rfl (by decide) (by decide) (by decide))
  have r5 := r4.step (a := .bbStore 1 101)
    (by intro j id; simp [Function.update, init]; split <;> [skip; split] <;> simp)
    (.bbStore 1 [1] 101 rfl (by decide))
  have r6 := r5.step (a := .publish 1 101) trivial (.publish 1 101 rfl)
  exact ⟨_, rfl, ((fsevent_guarantee twoWire).2.2 _ r6).1⟩

end Collector
end BlenderBottle
