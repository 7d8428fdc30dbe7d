/-
# `datetime.c`: `set_tz` and `reset_tz`

`set_tz` saves the variable `TZ` as text in `tz_save`, writes a setting into
`tz_set_string` and hands that buffer to `putenv`; `reset_tz` hands `tz_save`
to `putenv`. `putenv` keeps the buffer itself, so the environment refers to
one of the two buffers from then on, and the next `set_tz` reads `TZ` out of
the buffer it is about to write.

A text that does not fit its buffer has no defined outcome (`none`). The value
of an unset variable is printed as `(null)`, which is what `reset_tz` then
binds, so an unset `TZ` is never restored. Where the value was set and every
text fits, a pair of calls leaves it as it was (`setTz_bracket`), and so does
any number of them.

Key theorem: `brackets_iff`.
-/
import BlenderBottle.Lib.CText

namespace BlenderBottle
namespace Tz

open CText

/-- What the environment holds for `TZ`: nothing, a string that is not ours,
or one of the two static buffers. -/
inductive Binding
  | unset
  | other (value : List Char)
  | tzSave
  | tzSetString

/-- The binding of `TZ` and the two buffers, each up to its NUL. -/
structure Env where
  tz : Binding
  tzSave : List Char := []
  tzSetString : List Char := []

/-- The bytes of each buffer. -/
def bufSize : ℕ := 20

/-- The bytes of `tz_offset_min_string`. -/
def minSize : ℕ := 10

namespace Env

/-- `getenv("TZ")`: behind the `TZ=` of a buffer. -/
def getenv (e : Env) : Option (List Char) :=
  match e.tz with
  | .unset => none
  | .other value => some value
  | .tzSave => some (e.tzSave.drop 3)
  | .tzSetString => some (e.tzSetString.drop 3)

/-- A process that has not called `set_tz` yet. -/
def initial (tz : Option CString) : Env where
  tz := match tz with
    | none => .unset
    | some s => .other s.bytes

end Env

/-- A row of `zone_info`. -/
structure Zi where
  hourOffset : ℤ
  minuteOffset : ℤ
  st : List Char
  dt : List Char

def central : Zi := ⟨6, 0, "CST".toList, "CDT".toList⟩

def zoneInfo : List Zi :=
  [⟨4, 0, "AST".toList, "ADT".toList⟩, ⟨5, 0, "EST".toList, "EDT".toList⟩, central,
    ⟨7, 0, "MST".toList, "MDT".toList⟩, ⟨8, 0, "PST".toList, "PDT".toList⟩,
    ⟨3, 30, "NST".toList, "NDT".toList⟩]

/-- The row of an offset; Central if there is none. -/
def zoneOf (hr min : ℤ) : Zi :=
  (zoneInfo.find? fun z => z.hourOffset = hr ∧ z.minuteOffset = min).getD central

/-- The arguments of `set_tz`. -/
structure Args where
  offsetHr : ℤ
  offsetMin : ℤ
  daylight : ℤ

namespace Args

variable (a : Args)

def zone : Zi := zoneOf a.offsetHr a.offsetMin

/-- `tz_offset_min_string`. -/
def minString : List Char := if a.offsetMin = 0 then [] else ':' :: dec a.offsetMin

/-- `tz_daylight_str`; every name in the table fits its ten bytes. -/
def daylightStr : List Char := if a.daylight = 0 then [] else a.zone.dt

/-- The setting written into `tz_set_string`. -/
def setting : List Char := ['T', 'Z', '='] ++ a.zone.st ++ dec a.offsetHr ++ a.minString ++ a.daylightStr

/-- The texts of the minutes and of the setting fit their buffers: at most
eight characters of minutes, and 13 behind `TZ=` and the name of the zone. -/
def Fits : Prop :=
  (a.offsetMin = 0 ∨ (dec a.offsetMin).length ≤ 8) ∧
    (dec a.offsetHr).length + (if a.offsetMin = 0 then 0 else 1 + (dec a.offsetMin).length) +
      (if a.daylight = 0 then 0 else 3) ≤ 13

instance : Decidable a.Fits := by unfold Fits; infer_instance

end Args

/-- What `sprintf` prints for `"TZ=%s"`. -/
def saved (value : Option (List Char)) : List Char := ['T', 'Z', '='] ++ value.getD "(null)".toList

theorem length_saved (value : Option (List Char)) :
    (saved value).length = (value.getD "(null)".toList).length + 3 := by
  rw [saved, List.length_append, add_comm]
  rfl

/-- `set_tz`. Where `TZ` refers to `tz_save` itself, the copy writes each byte
onto itself. -/
def setTz (e : Env) (a : Args) : Option Env :=
  if bufSize ≤ (saved e.getenv).length then none
  else if minSize ≤ a.minString.length then none
  else if bufSize ≤ a.setting.length then none
  else some { tz := .tzSetString, tzSave := saved e.getenv, tzSetString := a.setting }

def resetTz (e : Env) : Env := { e with tz := .tzSave }

/-- Consecutive pairs of calls: each `set_tz` has an outcome, what it wrote
into `tz_save` fits with its NUL, and `reset_tz` brings `TZ` back. -/
def Brackets : Env → List Args → Prop
  | _, [] => True
  | e, a :: as => ∃ e', setTz e a = some e' ∧ e'.tzSave.length < bufSize ∧
      (resetTz e').getenv = e.getenv ∧ Brackets (resetTz e') as

/-! ### One pair of calls -/

theorem zoneOf_length (hr min : ℤ) : (zoneOf hr min).st.length = 3 ∧ (zoneOf hr min).dt.length = 3 := by
  have hall : ∀ z ∈ zoneInfo, z.st.length = 3 ∧ z.dt.length = 3 := by decide
  rw [zoneOf]
  cases hz : zoneInfo.find? fun z => z.hourOffset = hr ∧ z.minuteOffset = min with
  | none => decide
  | some z => exact hall z (List.mem_of_find?_eq_some hz)

theorem length_minString (a : Args) :
    a.minString.length = if a.offsetMin = 0 then 0 else 1 + (dec a.offsetMin).length := by
  rw [Args.minString]
  split_ifs
  · rfl
  · rw [List.length_cons, add_comm]

theorem length_setting (a : Args) :
    a.setting.length = 6 + (dec a.offsetHr).length + a.minString.length + if a.daylight = 0 then 0 else 3 := by
  obtain ⟨hst, hdt⟩ := zoneOf_length a.offsetHr a.offsetMin
  have hdl : a.daylightStr.length = if a.daylight = 0 then 0 else 3 := by
    rw [Args.daylightStr]
    split_ifs
    · rfl
    · exact hdt
  rw [Args.setting, List.length_append, List.length_append, List.length_append, List.length_append, hdl,
    Args.zone, hst]
  rfl

theorem fits_iff (a : Args) : a.Fits ↔ a.minString.length < minSize ∧ a.setting.length < bufSize := by
  rw [Args.Fits, length_setting, length_minString, minSize, bufSize]
  split_ifs <;> omega

theorem setTz_eq_some {e e' : Env} {a : Args} :
    setTz e a = some e' ↔ ((saved e.getenv).length < bufSize ∧ a.Fits) ∧
      e' = { tz := .tzSetString, tzSave := saved e.getenv, tzSetString := a.setting } := by
  rw [fits_iff, setTz]
  split_ifs with h1 h2 h3 <;> grind

/-- `reset_tz` binds what `set_tz` saved. -/
theorem getenv_resetTz {e e' : Env} {a : Args} (h : setTz e a = some e') :
    (resetTz e').getenv = some (e.getenv.getD "(null)".toList) := by
  obtain ⟨-, rfl⟩ := setTz_eq_some.mp h
  simp [resetTz, Env.getenv, saved]

/-! ### Any number of pairs -/

theorem brackets_set {value : List Char} (hv : value.length ≤ 16) :
    ∀ {args : List Args} {e : Env}, e.getenv = some value → (Brackets e args ↔ ∀ a ∈ args, a.Fits)
  | [], _, _ => by simp [Brackets]
  | a :: args, e, he => by
    have hsaved : (saved e.getenv).length < bufSize := by
      rw [length_saved, he, bufSize, Option.getD_some]
      omega
    rw [List.forall_mem_cons]
    constructor
    · rintro ⟨e', hset, -, hget, hrest⟩
      exact ⟨(setTz_eq_some.mp hset).1.2, (brackets_set hv (hget.trans he)).mp hrest⟩
    · rintro ⟨ha, hrest⟩
      obtain ⟨e', he'⟩ : ∃ e', setTz e a = some e' := ⟨_, setTz_eq_some.mpr ⟨⟨hsaved, ha⟩, rfl⟩⟩
      have hget : (resetTz e').getenv = some value := by rw [getenv_resetTz he', he, Option.getD_some]
      refine ⟨e', he', ?_, hget.trans he.symm, (brackets_set hv hget).mpr hrest⟩
      rw [(setTz_eq_some.mp he').2]
      exact hsaved

/-- **Bracketing.** Every pair of calls in a row brings `TZ` back just when
there are none, or `TZ` was set to at most 16 bytes and the texts of all
arguments fit. -/
theorem brackets_iff (tz : Option CString) (args : List Args) :
    Brackets (.initial tz) args ↔
      args = [] ∨ ((∃ s, tz = some s ∧ s.bytes.length ≤ 16) ∧ ∀ a ∈ args, a.Fits) := by
  cases args with
  | nil => simp [Brackets]
  | cons a args =>
    rw [or_iff_right (by simp)]
    constructor
    · intro h
      obtain ⟨e', hset, -, hget, -⟩ := id h
      rw [getenv_resetTz hset] at hget
      cases tz with
      | none => simp [Env.initial, Env.getenv] at hget
      | some s =>
        have hlen : s.bytes.length ≤ 16 := by
          have := (setTz_eq_some.mp hset).1.1
          rw [length_saved, bufSize] at this
          change s.bytes.length + 3 < 20 at this
          omega
        exact ⟨⟨s, rfl, hlen⟩, (brackets_set hlen rfl).mp h⟩
    · rintro ⟨⟨s, rfl, hlen⟩, hargs⟩
      exact (brackets_set hlen rfl).mpr hargs

/-- With `TZ` unset, one pair of calls leaves it set to `(null)`. -/
theorem setTz_resetTz_unset :
    (setTz (.initial none) ⟨6, 0, 0⟩).map (fun e => (resetTz e).getenv) = some (some "(null)".toList) ∧
      (Env.initial none).getenv = none := by
  decide

end Tz
end BlenderBottle
