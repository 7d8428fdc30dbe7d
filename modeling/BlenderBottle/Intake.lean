/-
# The collector: what a handler takes in

TCP carries a stream: what a client sends arrives in pieces, and each call of
`recv(4096)` gives the next of them, or nothing once all is read. The handler
calls it once, stores the first piece and publishes its id. So in every run,
whatever the other connections do, a connection has exactly one id stored and
published (`run_follows`), and what is stored is all that was sent if and only
if all of it came in one piece.

A run carries the steps taken so far, so that the steps of one connection can
be told from those of the others.
-/
import BlenderBottle.Collector

namespace BlenderBottle
namespace Collector

variable {Id : Type} {wire : ℕ → List UInt8}

/-! ### The transport -/

/-- How the transport hands out what was sent on a connection: the pieces that
successive calls of `recv(4096)` give. -/
structure Transport (sent : List UInt8) where
  pieces : List (List UInt8)
  nonempty : ∀ p ∈ pieces, p ≠ []
  room : ∀ p ∈ pieces, p.length ≤ 4096
  whole : pieces.flatten = sent

namespace Transport

variable {sent : List UInt8} (T : Transport sent)

/-- What the first call gives. -/
def first : List UInt8 := T.pieces.headD []

theorem sent_eq : sent = T.first ++ T.pieces.tail.flatten := by
  obtain ⟨pieces, -, -, rfl⟩ := T
  cases pieces <;> rfl

theorem first_room : T.first.length ≤ 4096 := by
  obtain ⟨pieces, -, room, rfl⟩ := T
  cases pieces with
  | nil => exact Nat.zero_le _
  | cons p ps => exact room p List.mem_cons_self

theorem first_nil : T.first = [] → sent = [] := by
  obtain ⟨pieces, nonempty, -, rfl⟩ := T
  cases pieces with
  | nil => exact fun _ => rfl
  | cons p ps => exact fun h => absurd h (nonempty p List.mem_cons_self)

theorem first_eq_iff : T.first = sent ↔ T.pieces.length ≤ 1 := by
  obtain ⟨pieces, nonempty, -, rfl⟩ := T
  match pieces with
  | [] => simp [first]
  | [p] => simp [first]
  | p :: q :: ps =>
    have hq := nonempty q (by simp)
    simp [first, hq]

end Transport

/-! ### Runs with their steps -/

/-- The connection whose handler takes the step. -/
def Act.conn : Act Id → Option ℕ
  | .recv i => some i
  | .bbStore i _ => some i
  | .publish i _ => some i
  | .deliver => none

/-- The steps of connection `i`. -/
def stepsOf (i : ℕ) (acts : List (Act Id)) : List (Act Id) := acts.filter fun a => a.conn = some i

/-- The runs over a transport, with the steps taken. -/
inductive Run (T : ∀ i, Transport (wire i)) : List (Act Id) → State Id → Prop
  | init : Run T [] init
  | step {acts : List (Act Id)} {s s' : State Id} {a : Act Id} : Run T acts s → Step wire s a s' →
      (∀ i, a = .recv i → s'.handlers i = .received (T i).first) → Run T (acts ++ [a]) s'

theorem Run.reach {T : ∀ i, Transport (wire i)} {acts : List (Act Id)} {s : State Id} (h : Run T acts s) :
    Reach wire Any s := by
  induction h with
  | init => exact .init
  | step _ hs _ ih => exact .step ih trivial hs

/-- What a connection has done, by where its handler is. -/
def Follows (first : List UInt8) (i : ℕ) (acts : List (Act Id)) (s : State Id) : Prop :=
  match s.handlers i with
  | .receiving => stepsOf i acts = []
  | .received data => stepsOf i acts = [.recv i] ∧ data = first
  | .stored id => stepsOf i acts = [.recv i, .bbStore i id] ∧ (id, first) ∈ s.chunks
  | .done => ∃ id, stepsOf i acts = [.recv i, .bbStore i id, .publish i id] ∧ (id, first) ∈ s.chunks ∧
      id ∈ s.fsevent

/-- A step of another connection, or of the broker, changes nothing here. -/
theorem Follows.other {first : List UInt8} {i : ℕ} {acts : List (Act Id)} {s s' : State Id} {a : Act Id}
    (h : Follows first i acts s) (ha : a.conn ≠ some i) (hh : s'.handlers i = s.handlers i)
    (hc : ∀ x ∈ s.chunks, x ∈ s'.chunks) (hf : ∀ x ∈ s.fsevent, x ∈ s'.fsevent) :
    Follows first i (acts ++ [a]) s' := by
  have hsteps : stepsOf i (acts ++ [a]) = stepsOf i acts := by simp [stepsOf, ha]
  unfold Follows at h ⊢
  rw [hh, hsteps]
  cases hi : s.handlers i with
  | receiving => simpa [hi] using h
  | received data => simpa [hi] using h
  | stored id =>
    rw [hi] at h
    exact ⟨h.1, hc _ h.2⟩
  | done =>
    rw [hi] at h
    obtain ⟨id, h1, h2, h3⟩ := h
    exact ⟨id, h1, hc _ h2, hf _ h3⟩

theorem step_follows {T : ∀ i, Transport (wire i)} {i : ℕ} {acts : List (Act Id)} {s s' : State Id} {a : Act Id}
    (h : Follows (T i).first i acts s) (hs : Step wire s a s')
    (hd : ∀ i, a = .recv i → s'.handlers i = .received (T i).first) : Follows (T i).first i (acts ++ [a]) s' := by
  cases hs with
  | recv j data hj =>
    by_cases hji : j = i
    · subst hji
      have hdata := hd j rfl
      rw [Follows, hj] at h
      rw [Follows, hdata]
      exact ⟨by simpa [stepsOf, Act.conn] using h, rfl⟩
    · exact h.other (by simpa [Act.conn] using hji) (by simp [Ne.symm hji]) (fun _ hx => hx) (fun _ hx => hx)
  | bbStore j data id hj hf =>
    by_cases hji : j = i
    · subst hji
      rw [Follows, hj] at h
      obtain ⟨hsteps, rfl⟩ := h
      simp only [Follows, Function.update_self]
      refine ⟨?_, by simp⟩
      rw [stepsOf, List.filter_append, ← stepsOf, hsteps]
      simp [Act.conn]
    · exact h.other (by simpa [Act.conn] using hji) (by simp [Ne.symm hji])
        (fun _ hx => List.mem_append_left _ hx) (fun _ hx => hx)
  | publish j id hj =>
    by_cases hji : j = i
    · subst hji
      rw [Follows, hj] at h
      obtain ⟨hsteps, hchunk⟩ := h
      simp only [Follows, Function.update_self]
      refine ⟨id, ?_, hchunk, by simp⟩
      rw [stepsOf, List.filter_append, ← stepsOf, hsteps]
      simp [Act.conn]
    · exact h.other (by simpa [Act.conn] using hji) (by simp [Ne.symm hji]) (fun _ hx => hx)
        (fun _ hx => List.mem_append_left _ hx)
  | deliver id rest hrest =>
    exact h.other (by simp [Act.conn]) rfl (fun _ hx => hx) (fun _ hx => hx)

/-- **Each connection receives, stores and publishes once**, its first piece. -/
theorem run_follows {T : ∀ i, Transport (wire i)} {acts : List (Act Id)} {s : State Id} (h : Run T acts s)
    (i : ℕ) : Follows (T i).first i acts s := by
  induction h with
  | init => rfl
  | step _ hs hd ih => exact step_follows ih hs hd

/-! ### Every handler gets done -/

section Progress

variable [Infinite Id] {T : ∀ i, Transport (wire i)} {acts : List (Act Id)} {s : State Id}

theorem exists_fresh (s : State Id) : ∃ id, id ∉ s.ids := by
  obtain ⟨id, hid⟩ := (List.finite_toSet s.ids).exists_notMem
  exact ⟨id, hid⟩

omit [Infinite Id] in
theorem done_of_stored {i : ℕ} {id : Id} (h : Run T acts s) (hi : s.handlers i = .stored id) :
    ∃ acts' s', Run T (acts ++ acts') s' ∧ s'.handlers i = .done :=
  ⟨[.publish i id], _, .step h (.publish i id hi) (fun j hj => by cases hj), by simp⟩

theorem done_of_received {i : ℕ} {data : List UInt8} (h : Run T acts s) (hi : s.handlers i = .received data) :
    ∃ acts' s', Run T (acts ++ acts') s' ∧ s'.handlers i = .done := by
  obtain ⟨id, hid⟩ := exists_fresh s
  have hstored : Run T (acts ++ [.bbStore i id]) _ :=
    .step h (.bbStore i data id hi hid) fun j hj => by cases hj
  obtain ⟨acts', s', hrun, hdone⟩ := done_of_stored hstored (Function.update_self i _ _)
  exact ⟨.bbStore i id :: acts', s', by simpa using hrun, hdone⟩

/-- Every run goes on to one in which connection `i` is done. -/
theorem exists_done (h : Run T acts s) (i : ℕ) :
    ∃ acts' s', Run T (acts ++ acts') s' ∧ s'.handlers i = .done := by
  cases hi : s.handlers i with
  | receiving =>
    have hstep : Step wire s (.recv i) _ := .recv i (T i).first hi ⟨_, (T i).sent_eq.symm⟩ (T i).first_room
      (T i).first_nil
    have hreceived : Run T (acts ++ [.recv i]) _ := .step h hstep fun j hj => by cases hj; simp
    obtain ⟨acts', s', hrun, hdone⟩ := done_of_received hreceived (Function.update_self i _ _)
    exact ⟨.recv i :: acts', s', by simpa using hrun, hdone⟩
  | received data => exact done_of_received h hi
  | stored id => exact done_of_stored h hi
  | done => exact ⟨[], s, by simpa using h, hi⟩

end Progress

/-! ### Whole messages -/

/-- Connection `i` received, stored and published once, and all that was sent
is stored under the id it published. -/
def Whole (wire : ℕ → List UInt8) (i : ℕ) (acts : List (Act Id)) (s : State Id) : Prop :=
  ∃ id, stepsOf i acts = [.recv i, .bbStore i id, .publish i id] ∧ (id, wire i) ∈ s.chunks ∧ id ∈ s.fsevent

theorem chunk_unique {s : State Id} (h : s.ids.Nodup) {id : Id} {d d' : List UInt8} (h1 : (id, d) ∈ s.chunks)
    (h2 : (id, d') ∈ s.chunks) : d = d' :=
  congrArg Prod.snd (List.inj_on_of_nodup_map h h1 h2 rfl)

/-- **Whole messages.** Whatever is sent, however the transport cuts it and
whatever the other connections do: a handler that is done took in, under one
id, all that was sent if and only if it came in one piece; and every run goes
on to one in which the handler is done. -/
theorem whole_iff [Infinite Id] (wire : ℕ → List UInt8) (T : ∀ i, Transport (wire i)) (i : ℕ) :
    (∀ (acts : List (Act Id)) (s : State Id), Run T acts s → s.handlers i = .done →
      (Whole wire i acts s ↔ (T i).pieces.length ≤ 1)) ∧
    ∀ (acts : List (Act Id)) (s : State Id), Run T acts s →
      ∃ acts' s', Run T (acts ++ acts') s' ∧ s'.handlers i = .done := by
  refine ⟨fun acts s h hdone => ?_, fun acts s h => exists_done h i⟩
  have hfollows := run_follows h i
  rw [Follows, hdone] at hfollows
  obtain ⟨id, hsteps, hchunk, hpub⟩ := hfollows
  rw [← Transport.first_eq_iff]
  constructor
  · rintro ⟨id', hsteps', hchunk', -⟩
    obtain rfl : id = id' := by simpa [hsteps] using hsteps'
    exact chunk_unique (reach_inv h.reach).ids hchunk hchunk'
  · intro hwhole
    rw [hwhole] at hchunk
    exact ⟨id, hsteps, hchunk, hpub⟩

/-- One byte for each connection, in one piece. -/
def onePiece (i : ℕ) : Transport (twoWire i) := ⟨[twoWire i], by simp [twoWire], by simp [twoWire], by simp⟩

/-- Some run of connection 0 gets done and takes in its byte. -/
theorem whole_iff_onePiece : ∃ (acts : List (Act ℕ)) (s : State ℕ),
    Run onePiece acts s ∧ s.handlers 0 = .done ∧ Whole twoWire 0 acts s := by
  obtain ⟨hwhole, hprogress⟩ := @whole_iff ℕ _ twoWire onePiece 0
  obtain ⟨acts, s, hrun, hdone⟩ := hprogress [] init .init
  exact ⟨acts, s, hrun, hdone, (hwhole acts s hrun hdone).mpr (by decide)⟩

/-- Two bytes on each connection, each in a piece of its own. -/
def twoPieces (_ : ℕ) : Transport [1, 2] := ⟨[[1], [2]], by simp, by simp, rfl⟩

/-- The handler of connection 0 stores the first byte and is done. -/
theorem whole_cut : ∃ (acts : List (Act ℕ)) (s : State ℕ), Run twoPieces acts s ∧ s.handlers 0 = .done ∧
    s.chunks = [(100, [1])] ∧ ¬ Whole (fun _ => [1, 2]) 0 acts s := by
  refine ⟨_, _, .step (.step (.step .init (.recv 0 [1] rfl ?_ ?_ ?_) ?_) (.bbStore 0 [1] 100 rfl ?_) ?_)
    (.publish 0 100 rfl) ?_, rfl, rfl, ?_⟩
  · decide
  · decide
  · decide
  · rintro i hi
    cases hi
    rfl
  · decide
  · rintro i hi
    cases hi
  · rintro i hi
    cases hi
  · rintro ⟨id, -, hchunk, -⟩
    simp [init] at hchunk

end Collector
end BlenderBottle
