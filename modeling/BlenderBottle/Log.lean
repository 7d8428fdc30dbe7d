/-
# `log.c` and `memory.c`: the log list, its flush and its allocations

Messages are kept in a linked list of records behind the static record
`bb_logmsgs`; `curr_msg` is its last record and `ringlog_cnt` counts it. A
call of `bb_nlog` on a full list first hands the list to `nlog_msg`
(`bb_loglower`), then starts it anew.

Both functions allocate through `alloc_mem`, which itself logs. They are
written over any allocator (`Alloc`); `allocMem` ties the knot, with a bound
on the depth of nested calls, and `quietAlloc` is the allocator that always
succeeds and does not log.

The header of the loop over the list in `bb_loglower` does not parse; it is
read as `for (; logmsg && logmsg != curr_msg; logmsg = logmsg->next)`, with
the counting loop below it as its body, and `bb_logmsgs->log_lvl` there as
the static record's field.

Records are numbered in the order they are allocated; the static record is
number 0. Blocks of text and of a session are objects of their own.
-/
import BlenderBottle.Lib.CInt
import BlenderBottle.Lib.LinkedList

namespace BlenderBottle
namespace Log

open CInt LinkedList

/-- `LOG_RING_MAX`. -/
def logRingMax : ℤ := 4096

/-- `LOG_MSG_MAX`. -/
def logMsgMax : ℕ := 4096

/-- `INT_MAX`. -/
def intMax : ℤ := 2147483647

/-- The record `bb_logmsgs`. -/
def bbLogmsgs : ℕ := 0

/-- `struct bb_logmsg`, zeroed. -/
structure LogMsg where
  logLvl : ℤ := 0
  logmsg : List Char := []
  next : Option ℕ := none

/-- What a flush does to the session it opens. -/
inductive Event
  | nlogOpen (tag : List Char)
  | nlogMsg (r : ℕ)
  | nlogClose
  deriving DecidableEq

/-- The log list in memory, the events so far and the number of calls of
`GC_MALLOC` so far. -/
structure State where
  mem : ℕ → LogMsg
  records : ℕ
  currMsg : ℕ
  ringlogCnt : ℤ
  events : List Event
  mallocs : ℕ

def init : State := ⟨fun _ => {}, 0, bbLogmsgs, 0, [], 0⟩

def State.emit (s : State) (es : List Event) : State := { s with events := s.events ++ es }

/-- The links of the list. -/
def State.next (s : State) (r : ℕ) : Option ℕ := (s.mem r).next

/-- The records handed to `nlog_msg`, in order. -/
def State.handed (s : State) : List ℕ :=
  s.events.filterMap fun
    | .nlogMsg r => some r
    | _ => none

/-- What the program reads of its surroundings: the environment's `PROGNAME`
or else `progname`, `bb_error_raised` and `bb_debug_level`. -/
structure Env where
  progname : Option (List Char)
  errorRaised : Bool
  debugLevel : ℤ

/-- A call of `bb_nlog`; `body` is what the format and its arguments print. -/
structure Call where
  env : Env
  level : ℤ
  body : List Char
  level_int : IsInt32 level

/-- How a call can fail to return: a NULL is dereferenced, calls nest deeper
than the bound, or the walk over the list does not end. -/
inductive Stop
  | nullDeref
  | depth
  | endless
  deriving DecidableEq

/-- `alloc_mem`: whether the pointer is not NULL. -/
abbrev Alloc := State → Except Stop (Bool × State)

/-- Allocate a block and go on with it: every caller writes to it at once, so
a NULL is dereferenced. -/
def withBlock (alloc : Alloc) (s : State) (use : State → Except Stop State) : Except Stop State := do
  let (m, s) ← alloc s
  if m then use s else throw .nullDeref

/-! ### `bb_loglower` and `bb_dumplog` -/

/-- The part of a program's name after its last slash. -/
def baseName (cp : List Char) : List Char := (cp.reverse.takeWhile (· ≠ '/')).reverse

/-- The counting loop: it tests the static record's level. -/
def countLoop (raised : Bool) (lvl : ℤ) (r : ℕ) : ℕ → State → State
  | 0, s => s
  | i + 1, s =>
    countLoop raised lvl r i
      (if raised = true ∨ (s.mem bbLogmsgs).logLvl ≤ lvl then s.emit [.nlogMsg r] else s)

/-- The loop over the list, up to `curr_msg`. No list of allocated records
is longer than their number: a walk that is has met one of them again. -/
def walk (raised : Bool) (lvl : ℤ) : ℕ → Option ℕ → State → Except Stop State
  | 0, _, _ => .error .endless
  | _ + 1, none, s => .ok s
  | fuel + 1, some r, s =>
    if r = s.currMsg then .ok s
    else walk raised lvl fuel (s.next r) (countLoop raised lvl r s.ringlogCnt.toNat s)

/-- `nlog_open`, as far as it allocates. -/
def nlogOpen (alloc : Alloc) (tag : List Char) (s : State) : Except Stop State :=
  withBlock alloc s fun s => pure (s.emit [.nlogOpen tag])

def bbLoglower (alloc : Alloc) (env : Env) (lvl : ℤ) (s : State) : Except Stop State :=
  let logmsg := s.next bbLogmsgs
  match env.progname with
  | none => pure s
  | some cp => do
    let s ← nlogOpen alloc (baseName cp) s
    let s ← walk env.errorRaised lvl (s.records + 1) logmsg s
    pure (s.emit [.nlogClose])

def bbDumplog (alloc : Alloc) (env : Env) (s : State) : Except Stop State := bbLoglower alloc env intMax s

/-! ### `bb_nlog` -/

/-- The text the record keeps: the cursor has moved past the file and line
when the body is printed, cut to the buffer's length. -/
def Call.text (c : Call) : List Char := c.body.take (logMsgMax - 1)

/-- A full list is flushed and started anew. -/
def flushFull (alloc : Alloc) (env : Env) (s : State) : Except Stop State :=
  if s.ringlogCnt = logRingMax then do
    let s ← bbLoglower alloc env env.debugLevel s
    pure { s with ringlogCnt := 0, currMsg := bbLogmsgs }
  else pure s

/-- A fresh zeroed record gets the level; the list is one longer. -/
def State.newRecord (s : State) (level : ℤ) : State :=
  { s with
    records := s.records + 1
    mem := Function.update s.mem (s.records + 1) { logLvl := level }
    ringlogCnt := int32 (s.ringlogCnt + 1) }

/-- Record `r` gets its text and is linked behind `curr_msg`. -/
def State.link (s : State) (r : ℕ) (text : List Char) : State :=
  let mem := Function.update s.mem r { s.mem r with logmsg := text }
  { s with
    mem := Function.update mem s.currMsg { mem s.currMsg with next := some r }
    currMsg := r }

/-- The record is allocated and counted before its text is allocated, and
linked last. -/
def bbNlog (alloc : Alloc) (c : Call) (s : State) : Except Stop State := do
  let s ← flushFull alloc c.env s
  withBlock alloc s fun s =>
    withBlock alloc (s.newRecord c.level) fun s' => pure (s'.link (s.records + 1) c.text)

/-! ### Allocators -/

/-- The allocator that succeeds and does not log. -/
def quietAlloc : Alloc := fun s => .ok (true, { s with mallocs := s.mallocs + 1 })

/-- The message of `_alloc_mem`. -/
def allocCall (env : Env) (s : State) : Call where
  env := env
  level := 100
  body := "alloc [0x".toList ++ Nat.toDigits 16 s.mallocs ++ "]\n".toList
  level_int := by decide

/-- `_alloc_mem`, where `gc i` tells whether the `i`-th `GC_MALLOC` succeeds:
a block it got is logged before it is returned. -/
def allocMem (gc : ℕ → Bool) (env : Env) : ℕ → Alloc
  | 0, _ => .error .depth
  | depth + 1, s =>
    let s' := { s with mallocs := s.mallocs + 1 }
    if gc s.mallocs then do
      let s' ← bbNlog (allocMem gc env depth) (allocCall env s') s'
      pure (true, s')
    else pure (false, s')

/-- A run of calls. -/
def run (alloc : Alloc) (calls : List Call) (s : State) : Except Stop State :=
  calls.foldlM (fun s c => bbNlog alloc c s) s

end Log
end BlenderBottle
