/-
# How deep a call of `bb_nlog` nests

`bb_nlog` allocates before it does anything else, in `bb_loglower` if the
list is full; `_alloc_mem` logs every block it gets before it returns it. So
a call nests once for each `GC_MALLOC` that succeeds, whatever the list looks
like, and the first that fails ends the whole nest at a dereferenced NULL.

`allocMem gc env n` allows `n` nested calls of `_alloc_mem`. A call of
`bb_nlog` makes finitely many nested calls if and only if some bound is
enough for it, if and only if some `GC_MALLOC` from then on fails
(`bbNlog_depth_iff`).
-/
import BlenderBottle.Log

namespace BlenderBottle
namespace Log

variable {alloc : Alloc} {c : Call} {s : State} {e : Stop}

/-- Who allocates with this result stops with `e`: a NULL is dereferenced. -/
def Stops (r : Except Stop (Bool × State)) (e : Stop) : Prop :=
  r = .error e ∨ (e = .nullDeref ∧ ∃ s, r = .ok (false, s))

theorem Stops.withBlock (h : Stops (alloc s) e) (use : State → Except Stop State) :
    withBlock alloc s use = .error e := by
  unfold Log.withBlock
  rcases h with h | ⟨rfl, s', h⟩
  · rw [h]; rfl
  · rw [h]; rfl

/-- A flush allocates first, unless the program has no name. -/
theorem bbLoglower_stops (env : Env) (lvl : ℤ) (h : Stops (alloc s) e) :
    bbLoglower alloc env lvl s = .ok s ∨ bbLoglower alloc env lvl s = .error e := by
  unfold bbLoglower
  cases env.progname with
  | none => exact Or.inl rfl
  | some cp =>
    right
    have hopen : nlogOpen alloc (baseName cp) s = .error e := h.withBlock _
    simp only [hopen]
    rfl

theorem flushFull_stops (env : Env) (h : Stops (alloc s) e) :
    (∃ s', flushFull alloc env s = .ok s' ∧ s'.mallocs = s.mallocs) ∨ flushFull alloc env s = .error e := by
  unfold flushFull
  by_cases hf : s.ringlogCnt = logRingMax
  · rw [if_pos hf]
    rcases bbLoglower_stops env env.debugLevel h with hl | hl
    · rw [hl]
      exact Or.inl ⟨_, rfl, rfl⟩
    · rw [hl]
      exact Or.inr rfl
  · rw [if_neg hf]
    exact Or.inl ⟨s, rfl, rfl⟩

/-- The first allocation of a call decides: it is made in the flush of a full
list or for the record, before any other. -/
theorem bbNlog_stops (h : ∀ s', s'.mallocs = s.mallocs → Stops (alloc s') e) :
    bbNlog alloc c s = .error e := by
  unfold bbNlog
  rcases flushFull_stops c.env (h s rfl) with ⟨s', hs, hm⟩ | hs
  · simp only [hs, bind, Except.bind]
    exact (h s' hm).withBlock _
  · rw [hs]
    rfl

section Knot

variable (gc : ℕ → Bool) (env : Env)

/-- While every `GC_MALLOC` succeeds, no bound on the depth is enough. -/
theorem allocMem_depth : ∀ (n : ℕ) (s : State), (∀ i, s.mallocs ≤ i → gc i = true) →
    allocMem gc env n s = .error .depth
  | 0, _, _ => rfl
  | n + 1, s, h => by
    have hn : bbNlog (allocMem gc env n) (allocCall env { s with mallocs := s.mallocs + 1 })
        { s with mallocs := s.mallocs + 1 } = .error .depth := by
      apply bbNlog_stops
      intro s' hs'
      refine Or.inl (allocMem_depth n s' fun i hi => h i ?_)
      rw [hs'] at hi
      simp only at hi
      omega
    simp only [allocMem, h s.mallocs le_rfl, if_true, hn]
    rfl

/-- The first `GC_MALLOC` that fails, `d` calls on, ends the nest. -/
theorem allocMem_null : ∀ (d : ℕ) (s : State), (∀ i < d, gc (s.mallocs + i) = true) →
    gc (s.mallocs + d) = false → Stops (allocMem gc env (d + 1) s) .nullDeref
  | 0, s, _, h => by
    right
    simp only [add_zero] at h
    exact ⟨rfl, { s with mallocs := s.mallocs + 1 }, by simp [allocMem, h]; rfl⟩
  | d + 1, s, hlt, h => by
    left
    have hn : bbNlog (allocMem gc env (d + 1)) (allocCall env { s with mallocs := s.mallocs + 1 })
        { s with mallocs := s.mallocs + 1 } = .error .nullDeref := by
      apply bbNlog_stops
      intro s' hs'
      refine allocMem_null d s' (fun i hi => ?_) ?_
      · rw [hs', add_assoc, add_comm 1 i]
        exact hlt (i + 1) (by omega)
      · rw [hs', add_assoc, add_comm 1 d]
        exact h
    have h0 : gc s.mallocs = true := hlt 0 (by omega)
    rw [allocMem]
    simp only [h0, if_true, hn]
    rfl

end Knot

/-- **When logging ends.** From any state of the list, at any level and with
any message, a call of `bb_nlog` nests finitely often if and only if one of
the `GC_MALLOC`s to come returns NULL. -/
theorem bbNlog_depth_iff (gc : ℕ → Bool) (c : Call) (s : State) :
    (∃ n, bbNlog (allocMem gc c.env n) c s ≠ .error .depth) ↔ ∃ i, s.mallocs ≤ i ∧ gc i = false := by
  constructor
  · rintro ⟨n, hn⟩
    by_contra hno
    have hall : ∀ i, s.mallocs ≤ i → gc i = true := fun i hi => by
      by_contra hf
      exact hno ⟨i, hi, by simpa using hf⟩
    exact hn (bbNlog_stops fun s' hs' => Or.inl (allocMem_depth gc c.env n s' (hs' ▸ hall)))
  · intro h
    -- the first failure is the one that counts
    classical
    have hd : ∃ d, gc (s.mallocs + d) = false := by
      obtain ⟨i, hi, hg⟩ := h
      exact ⟨i - s.mallocs, by rwa [Nat.add_sub_cancel' hi]⟩
    refine ⟨Nat.find hd + 1, ?_⟩
    have hs : bbNlog (allocMem gc c.env (Nat.find hd + 1)) c s = .error .nullDeref := by
      apply bbNlog_stops
      intro s' hs'
      refine allocMem_null gc c.env _ s' (fun i hi => ?_) ?_
      · rw [hs']
        simpa using Nat.find_min hd hi
      · rw [hs']
        exact Nat.find_spec hd
    rw [hs]
    decide

/-- With memory left, not even the first message of a program is stored. -/
theorem bbNlog_nests_forever :
    ¬ ∃ n, bbNlog (allocMem (fun _ => true) ⟨none, false, 0⟩ n)
      ⟨⟨none, false, 0⟩, 0, ['h', 'i'], by decide⟩ init ≠ .error .depth := by
  rintro ⟨n, hn⟩
  exact hn (bbNlog_stops fun _ _ => Or.inl (allocMem_depth _ _ n _ fun _ _ => rfl))

end Log
end BlenderBottle
