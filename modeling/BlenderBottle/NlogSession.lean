/-
# A session and its headers

`nlog_msg` clears the header, lets `syslog_rfc5424_header` make a new one and
calls `write_output`. The function that makes it returns early when the tag is
too long or `localtime` fails, and nobody tells `nlog_msg`: `write_output`
then takes the length of a NULL header. So a session on an open connection
sends every message under a header of its own, and nothing under none, if and
only if every header it needs can be made (`sessionValid_iff`).
-/
import BlenderBottle.NlogFraming

namespace BlenderBottle
namespace Nlog

open CInt CText Log

/-- `hdr` is what a call under `sys` makes of the logger. -/
def Made (sys : System) (ctl : Nlogger) (hdr : List Char) : Prop :=
  ∃ time, timeField sys ctl = some time ∧
    hdr = headerText ctl.pri time (hostField sys ctl) ctl.tag (procField ctl) (msgidField ctl)

/-- The tag is short enough and `localtime` has a result. -/
def CanMake (sys : System) (ctl : Nlogger) : Prop :=
  ctl.tag.length ≤ 48 ∧ (sys.localtime sys.sec).isSome = true

/-- The calls of `nlog_msg` in a session, each with its surroundings: if a
call gets to `write_output`, the header it finds there is not NULL and was
made by this call; a call whose header cannot be made returns and sends
nothing. -/
def SessionValid (logLenMax : ℕ) : List (System × Option LogMsg) → Nlogger → Prop
  | [], _ => True
  | (sys, m) :: calls, ctl =>
    (ctl.fd ≠ -1 → m ≠ none → ∃ hdr, (generateSyslogHeader sys ctl).hdr = some hdr ∧ Made sys ctl hdr) ∧
    ∃ ctl' out, nlogMsg logLenMax sys m ctl = some (ctl', out) ∧
      (¬ CanMake sys ctl → out.socket = []) ∧ SessionValid logLenMax calls ctl'

/-- A logger on an open connection, with or without a header. -/
structure Connected (ctl : Nlogger) : Prop where
  fd : 0 ≤ ctl.fd
  time : ctl.rfc5424Time = true
  act : ctl.noact = false
  tcp : ctl.socketType = .tcp
  octets : ctl.octetCount = false

/-! ### One call -/

section Call

variable {logLenMax : ℕ} {sys : System} {ctl : Nlogger}

theorem Connected.ready (hc : Connected ctl) (htag : ctl.tag.length ≤ 48) : Ready ctl :=
  ⟨hc.fd, htag, hc.act, hc.tcp, hc.octets⟩

theorem Connected.update (hc : Connected ctl) (hdr : Option (List Char)) (inc : ℤ) :
    Connected { ctl with hdr, inc } :=
  ⟨hc.fd, hc.time, hc.act, hc.tcp, hc.octets⟩

/-- A header is there after the call just when it could be made. -/
theorem Connected.made_iff (hc : Connected ctl) :
    (∃ hdr, (generateSyslogHeader sys ctl).hdr = some hdr ∧ Made sys ctl hdr) ↔ CanMake sys ctl := by
  constructor
  · rintro ⟨hdr, hhdr, time, htime, -⟩
    rcases generateSyslogHeader_cases sys ctl with ⟨-, -, -, htag, -⟩ | ⟨-, hnull⟩
    · refine ⟨htag, ?_⟩
      rw [timeField, if_pos hc.time, timestamp] at htime
      cases hl : sys.localtime sys.sec with
      | none => rw [hl] at htime; cases htime
      | some p => rfl
    · rw [hnull] at hhdr
      cases hhdr
  · rintro ⟨htag, hlocal⟩
    obtain ⟨time, htime⟩ := timeField_isSome ctl fun _ => hlocal
    exact ⟨_, by rw [generateSyslogHeader_eq hc.fd htime htag], time, htime, rfl⟩

theorem nlogMsg_of_fd (hfd : ctl.fd = -1) (m : Option LogMsg) :
    nlogMsg logLenMax sys m ctl = some (ctl, {}) := if_pos hfd

theorem nlogMsg_none : nlogMsg logLenMax sys none ctl = some (ctl, {}) := by
  rw [nlogMsg]
  split_ifs <;> rfl

end Call

/-! ### A session -/

/-- Without a connection nothing is written. -/
theorem sessionValid_closed {logLenMax : ℕ} {ctl : Nlogger} (hfd : ctl.fd = -1) :
    ∀ calls : List (System × Option LogMsg), SessionValid logLenMax calls ctl
  | [] => trivial
  | (_, m) :: calls =>
    ⟨fun h => absurd hfd h, ctl, {}, nlogMsg_of_fd hfd m, fun _ => rfl, sessionValid_closed hfd calls⟩

theorem sessionValid_connected {logLenMax : ℕ} (hlen : logLenMax ≤ 2147483648) :
    ∀ (calls : List (System × Option LogMsg)) {ctl : Nlogger}, Connected ctl →
      (SessionValid logLenMax calls ctl ↔ ∀ call ∈ calls, call.2 ≠ none → CanMake call.1 ctl)
  | [], _, _ => by simp [SessionValid]
  | (sys, none) :: calls, ctl, hc => by
    have ih := sessionValid_connected hlen calls hc
    rw [List.forall_mem_cons, ← ih, SessionValid]
    constructor
    · rintro ⟨-, ctl', out, hmsg, -, hrest⟩
      rw [nlogMsg_none] at hmsg
      obtain ⟨rfl, -⟩ := Prod.ext_iff.mp (Option.some.inj hmsg)
      exact ⟨fun h => absurd rfl h, hrest⟩
    · rintro ⟨-, hrest⟩
      exact ⟨fun _ h => absurd rfl h, ctl, {}, nlogMsg_none, fun _ => rfl, hrest⟩
  | (sys, some m) :: calls, ctl, hc => by
    have hfd : ctl.fd ≠ -1 := by have := hc.fd; omega
    rw [List.forall_mem_cons, SessionValid]
    by_cases hcan : CanMake sys ctl
    · obtain ⟨out, hmsg, -⟩ := nlogMsg_sent hlen (hc.ready hcan.1) hcan.2 m
      have ih := sessionValid_connected hlen calls
        (hc.update (some (headerOf ctl sys)) (int32 (ctl.inc + 1)))
      constructor
      · rintro ⟨-, ctl', out', hmsg', -, hrest⟩
        rw [hmsg] at hmsg'
        obtain ⟨rfl, -⟩ := Prod.ext_iff.mp (Option.some.inj hmsg')
        exact ⟨fun _ => hcan, ih.mp hrest⟩
      · rintro ⟨-, hrest⟩
        exact ⟨fun _ _ => hc.made_iff.mpr hcan, _, out, hmsg, fun h => absurd hcan h, ih.mpr hrest⟩
    · constructor
      · rintro ⟨hwrite, -⟩
        exact absurd (hc.made_iff.mp (hwrite hfd (by simp))) hcan
      · rintro ⟨h, -⟩
        exact absurd (h (by simp)) hcan

/-! ### From `nlog_open` on -/

section Open

variable (net : Net) (sys : System) (pid : ℤ) (progname server : List Char) (port : Option (List Char))

theorem nlogOpen_fields : ∃ hdr inc, nlogOpen net sys pid progname server port =
    { fd := (inetSocket net server port .all).1, pid, pri := local7Debug, inc, tag := progname, server, port
      hdr, msgid := none, socketType := (inetSocket net server port .all).2
      rfc5424Time := true, rfc5424Host := true } :=
  generateSyslogHeader_fields sys _

/-- **Headers of a session.** Whatever comes of resolving, connecting and the
clock, every message of a session is sent under the header of its own call,
and nothing is sent without one, just when the connection was not opened or
every call with a message has a tag of at most 48 bytes and a local time. -/
theorem sessionValid_iff (logLenMax : ℕ) (hlen : logLenMax ≤ 2147483648) (hsock : -1 ≤ net.socket)
    (calls : List (System × Option LogMsg)) :
    SessionValid logLenMax calls (nlogOpen net sys pid progname server port) ↔
      (net.resolves server (port.getD "syslog-conn".toList) = false ∨ net.socket = -1 ∨
        net.connects = false) ∨
      ∀ call ∈ calls, call.2 ≠ none →
        progname.length ≤ 48 ∧ (call.1.localtime call.1.sec).isSome = true := by
  obtain ⟨hdr, inc, hopen⟩ := nlogOpen_fields net sys pid progname server port
  rw [hopen]
  by_cases hclosed : net.resolves server (port.getD "syslog-conn".toList) = false ∨ net.socket = -1 ∨
      net.connects = false
  · have hfd : (inetSocket net server port .all).1 = -1 := by
      rw [inetSocket]
      split_ifs <;> first | rfl | tauto
    exact iff_of_true (sessionValid_closed hfd calls) (.inl hclosed)
  · have hinet : inetSocket net server port .all = (net.socket, .tcp) := by
      rw [inetSocket, if_neg (by tauto), if_neg (by tauto), if_neg (by tauto)]
    rw [or_iff_right hclosed, hinet]
    exact sessionValid_connected hlen calls ⟨by simp only; omega, rfl, rfl, rfl, rfl⟩

end Open

/-- A message and a NULL at noon. -/
theorem sessionValid_noon :
    (4096 ≤ 2147483648 ∧ -1 ≤ (3 : ℤ)) ∧
      SessionValid 4096 [(noon, some ⟨0, ['h', 'i'], none⟩), (noon, none)] opened := by
  refine ⟨by decide, ?_⟩
  exact (sessionValid_iff ⟨fun _ _ => true, 3, true⟩ noon 7 ['b', 'b'] ['l'] none 4096 (by decide) (by decide)
    _).mpr (.inr (by decide))

/-- A tag of 49 bytes: the first message finds no header and has no outcome. -/
theorem nlogMsg_null_header :
    let ctl := nlogOpen ⟨fun _ _ => true, 3, true⟩ noon 7 (List.replicate 49 'b') ['l'] none
    ctl.fd = 3 ∧ (generateSyslogHeader noon ctl).hdr = none ∧
      (nlogMsg 4096 noon (some ⟨0, ['h', 'i'], none⟩) ctl).isNone = true := by
  decide +kernel

end Nlog
end BlenderBottle
