/-
# What the flushes and the dump hand over

A run of `bb_nlog` is to hand every message to `nlog_msg` once, in the order
of the calls, if its own level passes the flush that meets it: the flush of
the next call on a full list, at that call's `bb_debug_level`, or the dump at
the end, at `INT_MAX` (`expected`).

The walk of `bb_loglower` stops before `curr_msg`, the record of the last
call, which the dump at `INT_MAX` is to hand over whatever its level. So the
run and its dump do what they should only when nothing is logged
(`dump_handed_iff`).
-/
import BlenderBottle.LogList

namespace BlenderBottle
namespace Log

open CInt LinkedList

/-! ### What is to be handed over -/

/-- Of the messages that wait, with their levels, those a flush is to hand
over. -/
def due (env : Env) (lvl : ℤ) (waiting : List (ℕ × ℤ)) : List ℕ :=
  (waiting.filter fun m => env.errorRaised = true ∨ m.2 ≤ lvl).map Prod.fst

/-- After `n` calls, with `waiting` not yet flushed: what the calls to come
and the dump in `env` are to hand over. -/
def expectedFrom (env : Env) : ℕ → List (ℕ × ℤ) → List Call → List ℕ
  | _, waiting, [] => due env intMax waiting
  | n, waiting, c :: calls =>
    if waiting.length = logRingMax then
      due c.env c.env.debugLevel waiting ++ expectedFrom env (n + 1) [(n + 1, c.level)] calls
    else expectedFrom env (n + 1) (waiting ++ [(n + 1, c.level)]) calls

/-- What a run from the start and the dump after it are to hand over. -/
def expected (env : Env) (calls : List Call) : List ℕ := expectedFrom env 0 [] calls

/-- A message at an `int` level that waits after the last call is due at the
dump, and so is the message of that call. -/
theorem last_mem_expectedFrom (env : Env) : ∀ (calls : List Call) (n : ℕ) (waiting : List (ℕ × ℤ)) (lvl : ℤ),
    IsInt32 lvl → (n, lvl) ∈ waiting → n + calls.length ∈ expectedFrom env n waiting calls
  | [], n, waiting, lvl, hlvl, h => by
    have hle : lvl ≤ intMax := by
      unfold IsInt32 at hlvl
      unfold intMax
      omega
    exact List.mem_map.mpr ⟨(n, lvl), List.mem_filter.mpr ⟨h, by simp [hle]⟩, rfl⟩
  | c :: calls, n, waiting, lvl, hlvl, h => by
    have ih := fun w hw => last_mem_expectedFrom env calls (n + 1) w c.level c.level_int hw
    rw [expectedFrom, List.length_cons, Nat.add_comm calls.length, ← Nat.add_assoc]
    split_ifs
    · exact List.mem_append_right _ (ih _ (by simp))
    · exact ih _ (by simp)

theorem length_mem_expected (env : Env) {calls : List Call} (hne : calls ≠ []) :
    calls.length ∈ expected env calls := by
  cases calls with
  | nil => exact absurd rfl hne
  | cons c calls =>
    have h := last_mem_expectedFrom env calls 1 [(1, c.level)] c.level c.level_int (List.mem_singleton_self _)
    rw [expected, expectedFrom, if_neg (by decide), List.length_cons, Nat.add_comm calls.length]
    exact h

/-! ### What is handed over -/

theorem mem_handed {s : State} {r : ℕ} : r ∈ s.handed ↔ .nlogMsg r ∈ s.events := by
  unfold State.handed
  rw [List.mem_filterMap]
  constructor
  · rintro ⟨e, he, hr⟩
    cases e with
    | nlogMsg r' =>
      cases hr
      exact he
    | _ => cases hr
  · exact fun h => ⟨_, h, rfl⟩

/-- A dump returns, and hands over no record but those before the last. -/
theorem bbDumplog_quiet {levels : List ℤ} {s : State} (hI : ListInv levels s) (env : Env) :
    ∃ s', bbDumplog quietAlloc env s = .ok s' ∧ ∀ r ∈ s'.handed, r < levels.length := by
  obtain ⟨k, hk⟩ := bbLoglower_quiet env intMax s hI.list hI.allocated
  refine ⟨_, hk, fun r hr => ?_⟩
  rcases List.mem_append.mp (mem_handed.mp hr) with h | h
  · exact hI.handed r h
  · obtain ⟨hmem, hcurr⟩ := mem_session h
    rw [hI.currMsg] at hcurr
    exact lt_of_le_of_ne (bounds_of_mem_kept hmem).2 hcurr

/-- **When no message is lost.** A run of `bb_nlog` and the dump after it
return, and hand over what they should if and only if nothing was logged. -/
theorem dump_handed_iff (calls : List Call) (env : Env) :
    ∃ s, (do bbDumplog quietAlloc env (← run quietAlloc calls init)) = .ok s ∧
      (s.handed = expected env calls ↔ calls = []) := by
  obtain ⟨s₁, h₁, hI⟩ := run_inv calls init_inv
  obtain ⟨s₂, h₂, hlt⟩ := bbDumplog_quiet hI env
  refine ⟨s₂, by rw [h₁]; exact h₂, fun h => ?_, fun h => ?_⟩
  · by_contra hne
    have := hlt _ (h ▸ length_mem_expected env hne)
    simp at this
  · subst h
    have hnil : s₂.handed = [] := List.eq_nil_iff_forall_not_mem.mpr fun r hr => by
      have := hlt r hr
      simp at this
    rw [hnil]
    rfl

/-- Three messages at level 0: the dump hands over the first two three times
each, and the last one never. -/
theorem dump_handed_three :
    let hi : Call := ⟨⟨some ['b', 'b'], false, 0⟩, 0, ['h', 'i'], by decide⟩
    ((do bbDumplog quietAlloc hi.env (← run quietAlloc [hi, hi, hi] init)).map State.handed =
      .ok [1, 1, 1, 2, 2, 2]) ∧ expected hi.env [hi, hi, hi] = [1, 2, 3] := by
  constructor <;> rfl

end Log
end BlenderBottle
