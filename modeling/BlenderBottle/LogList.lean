/-
# What a run of `bb_nlog` leaves in the list

With an allocator that succeeds and does not log, `n` calls from the initial
state allocate the records `1, …, n`. The list behind `bb_logmsgs` is then
exactly the last `fill n` of them, `curr_msg` is record `n` and every record
has the level of its call (`ListInv`, `run_inv`, `run_list`); a flush changes
none of it and never hands over `curr_msg`.
-/
import BlenderBottle.Log
import Mathlib.Data.List.TakeWhile

namespace BlenderBottle
namespace Log

open CInt LinkedList

/-! ### The flush -/

section Emit

variable (s : State) (es es' : List Event)

@[simp] theorem emit_nil : s.emit [] = s := by simp [State.emit]

@[simp] theorem emit_emit : (s.emit es).emit es' = s.emit (es ++ es') := by simp [State.emit]

@[simp] theorem emit_mem : (s.emit es).mem = s.mem := rfl

@[simp] theorem emit_records : (s.emit es).records = s.records := rfl

end Emit

/-- What the counting loop hands over for one record. -/
def repeats (raised : Bool) (lvl : ℤ) (s : State) (r : ℕ) : List Event :=
  if raised = true ∨ (s.mem bbLogmsgs).logLvl ≤ lvl then List.replicate s.ringlogCnt.toNat (.nlogMsg r) else []

theorem countLoop_eq (raised : Bool) (lvl : ℤ) (r : ℕ) : ∀ (n : ℕ) (s : State),
    countLoop raised lvl r n s =
      s.emit (if raised = true ∨ (s.mem bbLogmsgs).logLvl ≤ lvl then List.replicate n (.nlogMsg r) else [])
  | 0, s => by simp [countLoop]
  | n + 1, s => by
    rw [countLoop, countLoop_eq raised lvl r n]
    by_cases h : raised = true ∨ (s.mem bbLogmsgs).logLvl ≤ lvl
    · simp [h, List.replicate_succ]
    · simp [h]

/-- The walk hands over, for each record before `curr_msg`, what the counting
loop does. -/
theorem walk_eq (raised : Bool) (lvl : ℤ) : ∀ (fuel : ℕ) (l : List ℕ) (p : Option ℕ) (s : State),
    Follows s.next p l → l.length < fuel →
    walk raised lvl fuel p s = .ok (s.emit ((l.takeWhile (· ≠ s.currMsg)).flatMap (repeats raised lvl s)))
  | 0, _, _, _, _, hl => by omega
  | _ + 1, _, _, s, .nil, _ => by simp [walk]
  | fuel + 1, r :: l, _, s, .cons h, hl => by
    rw [walk]
    by_cases hr : r = s.currMsg
    · simp [hr]
    · have ih := walk_eq raised lvl fuel l (s.next r) (s.emit (repeats raised lvl s r)) h (by simpa using hl)
      rw [if_neg hr, countLoop_eq]
      apply ih.trans
      rw [List.takeWhile_cons_of_pos (by simpa using hr), List.flatMap_cons, emit_emit]
      rfl

/-- The session of a flush: every record before `curr_msg`, as often as the
counter says. -/
def session (env : Env) (lvl : ℤ) (s : State) (l : List ℕ) : List Event :=
  match env.progname with
  | none => []
  | some cp =>
    .nlogOpen (baseName cp) ::
      ((l.takeWhile (· ≠ s.currMsg)).flatMap (repeats env.errorRaised lvl s) ++ [.nlogClose])

/-- No flush hands over `curr_msg`. -/
theorem mem_session {env : Env} {lvl : ℤ} {s : State} {l : List ℕ} {r : ℕ}
    (h : .nlogMsg r ∈ session env lvl s l) : r ∈ l ∧ r ≠ s.currMsg := by
  unfold session at h
  cases hp : env.progname with
  | none => simp [hp] at h
  | some cp =>
    simp only [hp, List.mem_cons, reduceCtorEq, false_or, List.mem_append, List.mem_flatMap,
      List.not_mem_nil, or_false] at h
    obtain ⟨x, hx, hr⟩ := h
    have hxr : x = r := by
      unfold repeats at hr
      split_ifs at hr
      · exact (Event.nlogMsg.inj (List.eq_of_mem_replicate hr)).symm
      · cases hr
    subst hxr
    exact ⟨(List.takeWhile_prefix _).subset hx, by simpa using List.mem_takeWhile_imp hx⟩

/-- A flush of a list of allocated records returns, and leaves the list as it
was. -/
theorem bbLoglower_quiet (env : Env) (lvl : ℤ) (s : State) {l : List ℕ}
    (h : Follows s.next (s.next bbLogmsgs) l) (hl : ∀ r ∈ l, 1 ≤ r ∧ r ≤ s.records) :
    ∃ k, bbLoglower quietAlloc env lvl s = .ok { s.emit (session env lvl s l) with mallocs := k } := by
  unfold bbLoglower session
  cases env.progname with
  | none => exact ⟨s.mallocs, by simp; rfl⟩
  | some cp =>
    refine ⟨s.mallocs + 1, ?_⟩
    have hlen := h.length_le hl
    have hw := walk_eq env.errorRaised lvl (s.records + 1) l (s.next bbLogmsgs)
      ({ s with mallocs := s.mallocs + 1 }.emit [.nlogOpen (baseName cp)]) h (by omega)
    simp only [nlogOpen, withBlock, quietAlloc, bind, Except.bind, pure, Except.pure, if_true]
    simp only [emit_records, hw, emit_emit]
    rfl

/-! ### One call -/

/-- The state a call finds when it allocates its record. -/
def flushed (env : Env) (s : State) (l : List ℕ) : State :=
  if s.ringlogCnt = logRingMax then
    { s.emit (session env env.debugLevel s l) with ringlogCnt := 0, currMsg := bbLogmsgs }
  else s

theorem flushed_mem (env : Env) (s : State) (l : List ℕ) : (flushed env s l).mem = s.mem := by
  unfold flushed; split_ifs <;> rfl

theorem flushed_records (env : Env) (s : State) (l : List ℕ) : (flushed env s l).records = s.records := by
  unfold flushed; split_ifs <;> rfl

theorem flushFull_quiet (env : Env) (s : State) {l : List ℕ} (h : Follows s.next (s.next bbLogmsgs) l)
    (hl : ∀ r ∈ l, 1 ≤ r ∧ r ≤ s.records) :
    ∃ k, flushFull quietAlloc env s = .ok { flushed env s l with mallocs := k } := by
  unfold flushFull flushed
  by_cases hf : s.ringlogCnt = logRingMax
  · obtain ⟨k, hk⟩ := bbLoglower_quiet env env.debugLevel s h hl
    refine ⟨k, ?_⟩
    simp only [if_pos hf, hk]
    rfl
  · exact ⟨s.mallocs, by simp only [if_neg hf]; rfl⟩

/-- A call returns: the record is new, and linked behind the last one, or
behind `bb_logmsgs` after a flush. -/
theorem bbNlog_quiet (c : Call) (s : State) {l : List ℕ} (h : Follows s.next (s.next bbLogmsgs) l)
    (hl : ∀ r ∈ l, 1 ≤ r ∧ r ≤ s.records) :
    ∃ k, bbNlog quietAlloc c s = .ok { ((flushed c.env s l).newRecord c.level).link (s.records + 1) c.text with
      mallocs := k } := by
  obtain ⟨k, hk⟩ := flushFull_quiet c.env s h hl
  refine ⟨k + 2, ?_⟩
  rw [← flushed_records c.env s l]
  simp only [bbNlog, hk, withBlock, quietAlloc, bind, Except.bind, pure, Except.pure, if_true]
  rfl

section Step

variable (c : Call) (s : State) (l : List ℕ)

/-- What a call leaves in memory: the new record, and its link. -/
theorem link_mem (hne : (flushed c.env s l).currMsg ≠ s.records + 1) (r : ℕ) :
    (((flushed c.env s l).newRecord c.level).link (s.records + 1) c.text).mem r =
      if r = s.records + 1 then { logLvl := c.level, logmsg := c.text }
      else if r = (flushed c.env s l).currMsg then { s.mem r with next := some (s.records + 1) }
      else s.mem r := by
  simp only [State.link, State.newRecord, flushed_mem, flushed_records]
  by_cases hr : r = s.records + 1
  · subst hr
    simp [hne.symm]
  · by_cases hc : r = (flushed c.env s l).currMsg
    · subst hc
      simp [hne]
    · simp [hr, hc]

end Step

/-! ### Runs -/

/-- The length of the list after `n` calls. -/
def fill (n : ℕ) : ℕ := if n = 0 then 0 else (n - 1) % 4096 + 1

theorem fill_succ_of_full {n : ℕ} (h : fill n = 4096 ∨ n = 0) : fill (n + 1) = 1 := by
  unfold fill at *
  split_ifs at * <;> omega

theorem fill_succ {n : ℕ} (h : fill n ≠ 4096) : fill (n + 1) = fill n + 1 := by
  unfold fill at *
  split_ifs at * <;> omega

theorem fill_le (n : ℕ) : fill n ≤ n ∧ fill n ≤ 4096 := by
  unfold fill
  split_ifs <;> omega

/-- The records in the list after `n` calls. -/
def kept (n : ℕ) : List ℕ := List.range' (n - fill n + 1) (fill n)

theorem kept_succ_of_full {n : ℕ} (h : fill n = 4096 ∨ n = 0) : kept (n + 1) = [n + 1] := by
  simp [kept, fill_succ_of_full h]

theorem kept_eq_snoc {n : ℕ} (h : n ≠ 0) : kept n = List.range' (n - fill n + 1) (fill n - 1) ++ [n] := by
  have hf : 1 ≤ fill n := by unfold fill; split_ifs <;> omega
  have := fill_le n
  obtain ⟨f, hf⟩ : ∃ f, fill n = f + 1 := ⟨fill n - 1, by omega⟩
  rw [kept, hf, List.range'_concat]
  congr 2
  · omega

theorem kept_succ {n : ℕ} (h0 : n ≠ 0) (h : fill n ≠ 4096) :
    kept (n + 1) = List.range' (n - fill n + 1) (fill n - 1) ++ [n, n + 1] := by
  have := fill_le n
  have hk : kept (n + 1) = kept n ++ [n + 1] := by
    rw [kept, kept, fill_succ h, List.range'_concat]
    congr 2
    · omega
    · omega
  rw [hk, kept_eq_snoc h0, List.append_assoc]
  rfl

theorem bounds_of_mem_kept {n r : ℕ} (h : r ∈ kept n) : 1 ≤ r ∧ r ≤ n := by
  have := fill_le n
  rw [kept, List.mem_range'_1] at h
  omega

/-- After calls at `levels`. -/
structure ListInv (levels : List ℤ) (s : State) : Prop where
  records : s.records = levels.length
  currMsg : s.currMsg = levels.length
  ringlogCnt : s.ringlogCnt = fill levels.length
  list : Follows s.next (s.next bbLogmsgs) (kept levels.length)
  level : ∀ i (h : i < levels.length), (s.mem (i + 1)).logLvl = levels[i]
  sentinel : (s.mem bbLogmsgs).logLvl = 0
  /-- the last record is never among those handed over -/
  handed : ∀ r, .nlogMsg r ∈ s.events → r < levels.length

theorem init_inv : ListInv [] init :=
  ⟨rfl, rfl, rfl, by simpa [kept, fill, init, State.next] using Follows.nil, fun i h => by simp at h, rfl,
    fun r h => by cases h⟩

theorem ListInv.allocated {levels : List ℤ} {s : State} (hI : ListInv levels s) :
    ∀ r ∈ kept levels.length, 1 ≤ r ∧ r ≤ s.records := by
  intro r hr
  rw [hI.records]
  exact bounds_of_mem_kept hr

/-- The list does not see allocations. -/
theorem ListInv.mallocs {levels : List ℤ} {s : State} (hI : ListInv levels s) (k : ℕ) :
    ListInv levels { s with mallocs := k } :=
  ⟨hI.records, hI.currMsg, hI.ringlogCnt, hI.list, hI.level, hI.sentinel, hI.handed⟩

/-- A call links its record behind `bb_logmsgs`, which then starts the list
anew, or behind the record of the call before. -/
theorem ListInv.flushed_cases {levels : List ℤ} {s : State} (hI : ListInv levels s) (env : Env) (l : List ℕ) :
    ((flushed env s l).currMsg = bbLogmsgs ∧ (flushed env s l).ringlogCnt = 0 ∧
        (fill levels.length = 4096 ∨ levels.length = 0)) ∨
      ((flushed env s l).currMsg = levels.length ∧ (flushed env s l).ringlogCnt = fill levels.length ∧
        levels.length ≠ 0 ∧ fill levels.length ≠ 4096) := by
  have hfull : s.ringlogCnt = logRingMax ↔ fill levels.length = 4096 := by
    rw [hI.ringlogCnt, logRingMax]
    exact_mod_cast Iff.rfl
  unfold flushed
  by_cases h : s.ringlogCnt = logRingMax
  · rw [if_pos h]
    exact Or.inl ⟨rfl, rfl, Or.inl (hfull.mp h)⟩
  · rw [if_neg h, hI.currMsg, hI.ringlogCnt]
    by_cases h0 : levels.length = 0
    · exact Or.inl ⟨h0, by rw [h0]; rfl, Or.inr h0⟩
    · exact Or.inr ⟨rfl, rfl, h0, fun hf => h (hfull.mpr hf)⟩

theorem ListInv.flushed_handed {levels : List ℤ} {s : State} (hI : ListInv levels s) (env : Env) {r : ℕ}
    (h : .nlogMsg r ∈ (flushed env s (kept levels.length)).events) : r ≤ levels.length := by
  unfold flushed at h
  by_cases hf : s.ringlogCnt = logRingMax
  · rw [if_pos hf] at h
    rcases List.mem_append.mp h with h | h
    · exact (hI.handed r h).le
    · exact (bounds_of_mem_kept (mem_session h).1).2
  · rw [if_neg hf] at h
    exact (hI.handed r h).le

/-- The record `levels.length + 1`, linked behind `curr`, ends the list. -/
theorem ListInv.list_succ {levels : List ℤ} {s s' : State} (hI : ListInv levels s) {curr : ℕ}
    (hcurr : (curr = bbLogmsgs ∧ (fill levels.length = 4096 ∨ levels.length = 0)) ∨
      (curr = levels.length ∧ levels.length ≠ 0 ∧ fill levels.length ≠ 4096))
    (hother : ∀ r, r ≠ levels.length + 1 → r ≠ curr → s'.next r = s.next r)
    (hlast : s'.next curr = some (levels.length + 1)) (hnew : s'.next (levels.length + 1) = none) :
    Follows s'.next (s'.next bbLogmsgs) (kept (levels.length + 1)) := by
  rcases hcurr with ⟨h, hf⟩ | ⟨h, h0, hf⟩
  · -- the old chain behind `bb_logmsgs` is cut off
    rw [← h, hlast, kept_succ_of_full hf]
    apply Follows.cons
    rw [hnew]
    exact .nil
  · have hfl := fill_le levels.length
    have hlist := hI.list
    rw [kept_eq_snoc h0] at hlist
    rw [kept_succ h0 hf, hother bbLogmsgs (by simp [bbLogmsgs]) (by rw [h]; exact Ne.symm h0)]
    apply hlist.snoc (h ▸ hlast) hnew
    intro r hr
    rw [List.mem_range'_1] at hr
    exact hother r (by omega) (by omega)

/-- The new record has the level of its call, the others keep theirs. -/
theorem ListInv.level_succ {levels : List ℤ} {s s' : State} (hI : ListInv levels s) {lvl : ℤ}
    (hold : ∀ r ≤ levels.length, (s'.mem r).logLvl = (s.mem r).logLvl)
    (hnew : (s'.mem (levels.length + 1)).logLvl = lvl) :
    ∀ i (h : i < (levels ++ [lvl]).length), (s'.mem (i + 1)).logLvl = (levels ++ [lvl])[i] := by
  intro i hi
  rw [List.length_append, List.length_singleton] at hi
  by_cases h : i < levels.length
  · rw [hold _ (by omega), hI.level i h, List.getElem_append_left h]
  · obtain rfl : i = levels.length := by omega
    rw [hnew, List.getElem_append_right le_rfl]
    simp

/-- A call appends its record to the list, or starts the list anew with it. -/
theorem step_inv {levels : List ℤ} {s : State} (hI : ListInv levels s) (c : Call) :
    ∃ s', bbNlog quietAlloc c s = .ok s' ∧ ListInv (levels ++ [c.level]) s' := by
  have hfl := fill_le levels.length
  obtain ⟨k, hk⟩ := bbNlog_quiet c s hI.list hI.allocated
  refine ⟨_, hk, ListInv.mallocs ?_ k⟩
  have hcases := hI.flushed_cases c.env (kept levels.length)
  have hle : (flushed c.env s (kept levels.length)).currMsg ≤ levels.length := by
    rcases hcases with ⟨h, -⟩ | ⟨h, -⟩
    · exact h ▸ Nat.zero_le _
    · exact h.le
  have hmem := link_mem c s (kept levels.length) (by rw [hI.records]; omega)
  have hrec := flushed_records c.env s (kept levels.length)
  have hev := fun r => hI.flushed_handed c.env (r := r)
  rw [hI.records] at hmem hrec ⊢
  generalize flushed c.env s (kept levels.length) = F at *
  generalize hs' : (F.newRecord c.level).link (levels.length + 1) c.text = s' at *
  have hold : ∀ r ≤ levels.length, (s'.mem r).logLvl = (s.mem r).logLvl := by
    intro r hr
    rw [hmem, if_neg (by omega)]
    split_ifs <;> rfl
  constructor
  case records => rw [List.length_append, ← hs', State.link, State.newRecord, hrec]; rfl
  case currMsg => rw [List.length_append, ← hs']; rfl
  case ringlogCnt =>
    have hcnt : s'.ringlogCnt = int32 (F.ringlogCnt + 1) := by rw [← hs']; rfl
    rw [List.length_append, List.length_singleton]
    rcases hcases with ⟨-, h, hf⟩ | ⟨-, h, -, hf⟩
    · rw [hcnt, h, fill_succ_of_full hf]
      rfl
    · rw [hcnt, h, fill_succ hf, int32_eq (by constructor <;> omega), Nat.cast_succ]
  case list =>
    rw [List.length_append, List.length_singleton]
    apply hI.list_succ (hcases.imp (fun h => ⟨h.1, h.2.2⟩) (fun h => ⟨h.1, h.2.2⟩))
    · intro r h1 h2
      rw [State.next, hmem, if_neg h1, if_neg h2]
      rfl
    · rw [State.next, hmem, if_neg (by omega), if_pos rfl]
    · rw [State.next, hmem, if_pos rfl]
  case level => exact hI.level_succ hold (by rw [hmem, if_pos rfl])
  case sentinel => rw [hold bbLogmsgs (Nat.zero_le _), hI.sentinel]
  case handed =>
    intro r hr
    rw [← hs'] at hr
    rw [List.length_append]
    exact Nat.lt_succ_of_le (hev r hr)

/-- **Runs keep the list.** -/
theorem run_inv : ∀ (calls : List Call) {levels : List ℤ} {s : State}, ListInv levels s →
    ∃ s', run quietAlloc calls s = .ok s' ∧ ListInv (levels ++ calls.map Call.level) s'
  | [], levels, s, hI => ⟨s, rfl, by simpa using hI⟩
  | c :: calls, levels, s, hI => by
    obtain ⟨s₁, h₁, hI₁⟩ := step_inv hI c
    obtain ⟨s₂, h₂, hI₂⟩ := run_inv calls hI₁
    refine ⟨s₂, ?_, by simpa using hI₂⟩
    rw [run, List.foldlM_cons, h₁]
    exact h₂

/-- The levels read along the list are those of the last calls. -/
theorem ListInv.map_level {levels : List ℤ} {s : State} (hI : ListInv levels s) :
    (kept levels.length).map (fun r => (s.mem r).logLvl) = levels.drop (levels.length - fill levels.length) := by
  have hfl := fill_le levels.length
  refine List.ext_getElem (by simp [kept]; omega) fun i hi _ => ?_
  have hlt : levels.length - fill levels.length + i < levels.length := by
    simp only [kept, List.length_map, List.length_range'] at hi
    omega
  rw [List.getElem_map, List.getElem_drop, ← hI.level _ hlt]
  simp only [kept, List.getElem_range', one_mul]
  congr 2
  omega

/-- **The log list.** After any run of at least one call, following `next`
from `bb_logmsgs` visits `ringlog_cnt` records, the last of them `curr_msg`,
and then ends; they hold the levels of the last calls in order, and their
number starts again at 1 after every `LOG_RING_MAX` calls. -/
theorem run_list (calls : List Call) (hne : calls ≠ []) :
    ∃ s l, run quietAlloc calls init = .ok s ∧ Follows s.next (s.next bbLogmsgs) l ∧
      l.length = s.ringlogCnt ∧ l.getLast? = some s.currMsg ∧
      1 ≤ s.ringlogCnt ∧ s.ringlogCnt ≤ logRingMax ∧
      s.ringlogCnt = ((calls.length : ℤ) - 1) % logRingMax + 1 ∧
      l.map (fun r => (s.mem r).logLvl) = (calls.map Call.level).drop (calls.length - l.length) := by
  obtain ⟨s, hs, hI⟩ := run_inv calls init_inv
  rw [List.nil_append] at hI
  have h0 : (calls.map Call.level).length ≠ 0 := by simpa using hne
  have hcnt : s.ringlogCnt = ((calls.length : ℤ) - 1) % logRingMax + 1 := by
    rw [hI.ringlogCnt, fill, if_neg h0, List.length_map, logRingMax]
    rw [List.length_map] at h0
    omega
  refine ⟨s, kept (calls.map Call.level).length, hs, hI.list, ?_, ?_, ?_, ?_, hcnt, ?_⟩
  · rw [hI.ringlogCnt, kept, List.length_range']
  · rw [kept_eq_snoc h0, hI.currMsg, List.getLast?_concat]
  · rw [hcnt, logRingMax]; omega
  · rw [hcnt, logRingMax]; omega
  · rw [hI.map_level, List.length_map, kept, List.length_range']

/-- One message: the list is its record. -/
theorem run_list_one : ∃ s l, run quietAlloc [⟨⟨none, false, 0⟩, 3, ['h', 'i'], by decide⟩] init = .ok s ∧
    Follows s.next (s.next bbLogmsgs) l ∧ l.map (fun r => (s.mem r).logLvl) = [3] := by
  obtain ⟨s, l, hs, hl, hlen, -, -, -, hcnt, hlvl⟩ :=
    run_list [⟨⟨none, false, 0⟩, 3, ['h', 'i'], by decide⟩] (List.cons_ne_nil _ _)
  have h1 : l.length = 1 := by
    have h : (l.length : ℤ) = 1 := hlen.trans hcnt
    exact_mod_cast h
  exact ⟨s, l, hs, hl, by rw [hlvl, h1]; rfl⟩

end Log
end BlenderBottle
