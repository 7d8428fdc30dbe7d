/-
# Records on the socket

`write_output` frames a record in one of two ways. With `octet_count` it
announces the length of header and message; `end`, the message's share of
it, is an `int`, so the stream decodes if and only if every message is
shorter than 2^31 bytes (`octets_decode_iff`). Without, it ends the record in
a newline. The byte it tests for one is the message's NUL, so a newline the
message has is followed by another, and a session splits into its records if
and only if no message keeps one (`session_records_iff`).
-/
import BlenderBottle.Lib.Framing
import BlenderBottle.NlogHeader

namespace BlenderBottle
namespace Nlog

open CInt CText Log Framing Syslog

/-! ### One record -/

theorem bytes_iovecAddString (iov : List Iovec) {str : List Char} {len : ℕ} (h : len = 0 ∨ len = str.length) :
    (iovecAddString iov str len).flatMap Iovec.bytes = iov.flatMap Iovec.bytes ++ str := by
  rcases h with rfl | rfl
  · simp [iovecAddString, Iovec.bytes]
  · simp [iovecAddString, Iovec.bytes]

theorem bytes_recordIov (ctl : Nlogger) (hdr cp : List Char) (last : ℤ) :
    (recordIov ctl hdr cp last).flatMap Iovec.bytes =
      (if ctl.octetCount then octets hdr last else []) ++ hdr ++ cp := by
  rw [recordIov, bytes_iovecAddString _ (.inl rfl), bytes_iovecAddString _ (.inl rfl)]
  by_cases ho : ctl.octetCount = true
  · rw [if_pos ho, if_pos ho, bytes_iovecAddString _ (.inr rfl)]
    rfl
  · rw [if_neg ho, if_neg ho]
    rfl

section Write

variable {ctl : Nlogger} {hdr : List Char} (hhdr : ctl.hdr = some hdr) (hact : ctl.noact = false)

include hhdr hact

theorem writeOutput_socket (msg : List Char) {iov : List Iovec}
    (h : addNewline ctl (stripNewlines msg) (int32 (stripNewlines msg).length)
      (recordIov ctl hdr (stripNewlines msg) (int32 (stripNewlines msg).length)) = some iov) :
    ∃ out, writeOutput ctl msg = some out ∧ out.socket = iov.flatMap Iovec.bytes := by
  simp only [writeOutput, hhdr, hact, Option.bind_eq_bind, Option.bind_some, h]
  exact ⟨_, rfl, rfl⟩

/-- The length announced is that of the header and `end`. -/
theorem writeOutput_octets (ho : ctl.octetCount = true) (msg : List Char) :
    ∃ out, writeOutput ctl msg = some out ∧
      out.socket = announce (toSize (hdr.length + int32 (stripNewlines msg).length)) (hdr ++ stripNewlines msg) := by
  obtain ⟨out, hout, hsock⟩ := writeOutput_socket hhdr hact msg (if_neg (by simp [ho]))
  refine ⟨out, hout, ?_⟩
  calc out.socket = (recordIov ctl hdr (stripNewlines msg) (int32 (stripNewlines msg).length)).flatMap
        Iovec.bytes := hsock
    _ = octets hdr (int32 (stripNewlines msg).length) ++ hdr ++ stripNewlines msg := by
      rw [bytes_recordIov, if_pos ho]
    _ = announce (toSize (hdr.length + int32 (stripNewlines msg).length)) (hdr ++ stripNewlines msg) := by
      rw [octets, announce, List.append_assoc, List.append_assoc]
      rfl

/-- `cp[end]` is the NUL: every record gets a newline. -/
theorem writeOutput_newline (ho : ctl.octetCount = false) (htcp : ctl.socketType = .tcp) {msg : List Char}
    (hlen : (stripNewlines msg).length < 2147483648) :
    ∃ out, writeOutput ctl msg = some out ∧ out.socket = hdr ++ stripNewlines msg ++ ['\n'] := by
  have hend : int32 (stripNewlines msg).length = (stripNewlines msg).length :=
    int32_eq ⟨by omega, by omega⟩
  have hnul : byteAt (stripNewlines msg) (int32 (stripNewlines msg).length) = some '\x00' := by
    rw [hend, byteAt, if_neg (by omega)]
    simp
  have hadd : addNewline ctl (stripNewlines msg) (int32 (stripNewlines msg).length)
      (recordIov ctl hdr (stripNewlines msg) (int32 (stripNewlines msg).length)) = _ :=
    if_pos ⟨hact, htcp, ho⟩
  rw [hnul] at hadd
  obtain ⟨out, hout, hsock⟩ := writeOutput_socket hhdr hact msg hadd
  refine ⟨out, hout, hsock.trans ?_⟩
  dsimp only
  rw [if_pos (by decide), bytes_iovecAddString _ (show 1 = 0 ∨ 1 = ['\n'].length from .inr rfl),
    bytes_recordIov, ho]
  rfl

end Write

/-! ### Octet counting -/

/-- The announced length is the true one if and only if `end` did not wrap. -/
theorem toSize_end_eq_iff (hdr msg : CString) :
    toSize (hdr.bytes.length + int32 (stripNewlines msg.bytes).length) =
        (hdr.bytes ++ stripNewlines msg.bytes).length ↔
      (stripNewlines msg.bytes).length < 2147483648 := by
  have hh := hdr.size
  have hm : (stripNewlines msg.bytes).length < 9223372036854775808 :=
    lt_of_le_of_lt (List.dropWhile_suffix _).length_le msg.size
  rw [toSize, List.length_append, int32]
  omega

/-- **Octet-counted framing.** Whatever the header and the message of each
pair and wherever else the output goes, the bytes on the socket decode to
header and stripped message of each pair if and only if every stripped
message is shorter than 2^31 bytes. -/
theorem octets_decode_iff (ctl : Nlogger) (hact : ctl.noact = false) (ho : ctl.octetCount = true)
    (ps : List (CString × CString)) :
    ∃ outs, ps.mapM (fun p => writeOutput { ctl with hdr := some p.1.bytes } p.2.bytes) = some outs ∧
      (decode (outs.flatMap Output.socket) = some (ps.map fun p => p.1.bytes ++ stripNewlines p.2.bytes) ↔
        ∀ p ∈ ps, (stripNewlines p.2.bytes).length < 2147483648) := by
  induction ps with
  | nil => exact ⟨[], rfl, by simp [decode, decodeFrames]⟩
  | cons p ps ih =>
    obtain ⟨outs, hmap, hiff⟩ := ih
    obtain ⟨out, hout, hsock⟩ := writeOutput_octets
      (show ({ ctl with hdr := some p.1.bytes } : Nlogger).hdr = some p.1.bytes from rfl) hact ho p.2.bytes
    refine ⟨out :: outs, by rw [List.mapM_cons, hout, hmap]; rfl, ?_⟩
    have hcons : (out :: outs).flatMap Output.socket =
        announce (toSize (p.1.bytes.length + int32 (stripNewlines p.2.bytes).length))
          (p.1.bytes ++ stripNewlines p.2.bytes ++ outs.flatMap Output.socket) := by
      rw [List.flatMap_cons, hsock, announce, announce, List.append_assoc, List.cons_append]
    rw [hcons, List.map_cons, decode_cons_iff, hiff, toSize_end_eq_iff, List.forall_mem_cons]

/-- A record of newlines and digits between others. -/
theorem octets_decode_newlines :
    let ctl : Nlogger :=
      { fd := 3, pri := 191, inc := 1, pid := 7, hdr := none, tag := ['b'], msgid := none, server := [], port := none
        socketType := .tcp, stderrPrintout := true, rfc5424Time := true, rfc5424Host := true, octetCount := true }
    let hdr : CString := { bytes := ['h', ' '] }
    let ps : List (CString × CString) :=
      [(hdr, { bytes := ['\n', '3', ' ', '\n'] }), (hdr, { bytes := [] }), (hdr, { bytes := ['o', 'k'] })]
    ∃ outs, ps.mapM (fun p => writeOutput { ctl with hdr := some p.1.bytes } p.2.bytes) = some outs ∧
      decode (outs.flatMap Output.socket) =
        some [['h', ' ', '3', ' ', '\n'], ['h', ' '], ['h', ' ', 'o', 'k']] := by
  intro ctl hdr ps
  obtain ⟨outs, houts, hiff⟩ := octets_decode_iff ctl rfl rfl ps
  exact ⟨outs, houts, hiff.mpr (by decide)⟩

/-- A message of 2^31 bytes announces 2^64 - 2^31 of them. -/
theorem octets_decode_long :
    let ctl : Nlogger :=
      { fd := 3, pri := 191, inc := 1, pid := 7, hdr := some [], tag := ['b'], msgid := none, server := [], port := none
        socketType := .tcp, rfc5424Time := true, rfc5424Host := true, octetCount := true }
    ∃ out, writeOutput ctl (List.replicate 2147483648 'a') = some out ∧
      decode out.socket ≠ some [List.replicate 2147483648 'a'] := by
  intro ctl
  have hstrip : stripNewlines (List.replicate 2147483648 'a') = List.replicate 2147483648 'a' := by
    rw [stripNewlines, List.dropWhile_replicate]
    rfl
  obtain ⟨out, hout, hsock⟩ :=
    writeOutput_octets (show ctl.hdr = some [] from rfl) rfl rfl (List.replicate 2147483648 'a')
  refine ⟨out, hout, fun h => ?_⟩
  rw [hsock, hstrip, List.nil_append] at h
  nth_rewrite 2 [← List.append_nil (List.replicate 2147483648 'a')] at h
  obtain ⟨hn, -⟩ := decode_cons_iff.mp h
  rw [List.length_replicate] at hn
  exact absurd hn (by decide)

/-! ### A session of newline-terminated records -/

/-- The header a message gets. -/
def headerOf (ctl : Nlogger) (sys : System) : List Char := (generateSyslogHeader sys ctl).hdr.getD []

/-- A text with exactly one newline at its end. -/
def terminated (s : List Char) : List Char := if s.getLast? = some '\n' then s else s ++ ['\n']

theorem terminated_of_notMem {s : List Char} (h : '\n' ∉ s) : terminated s = s ++ ['\n'] :=
  if_neg fun hl => h (List.mem_of_getLast? hl)

/-- The record of a session's message with its number. -/
def record (logLenMax : ℕ) (ctl : Nlogger) (x : (System × LogMsg) × ℕ) : List Char :=
  headerOf ctl x.1.1 ++ terminated ((msgText x.2 x.1.2).take (logLenMax - 1))

/-- What is sent before the newline; the number has gone through `inc`. -/
def sent (logLenMax : ℕ) (ctl : Nlogger) (x : (System × LogMsg) × ℕ) : List Char :=
  headerOf ctl x.1.1 ++ (msgText (int32 x.2) x.1.2).take (logLenMax - 1)

/-- A logger that sends newline-terminated records and can make headers. -/
structure Ready (ctl : Nlogger) : Prop where
  fd : 0 ≤ ctl.fd
  tag : ctl.tag.length ≤ 48
  act : ctl.noact = false
  tcp : ctl.socketType = .tcp
  octets : ctl.octetCount = false

/-- A text starts with its number, not with a newline. -/
theorem stripNewlines_msgText (inc : ℤ) (m : LogMsg) (n : ℕ) :
    stripNewlines ((msgText inc m).take n) = (msgText inc m).take n := by
  obtain ⟨c, r, hr⟩ := List.exists_cons_of_ne_nil (decZ_ne_nil 0 inc)
  have hc : c ≠ '\n' := by
    rintro rfl
    exact absurd (print_decZ 0 inc '\n' (hr ▸ List.mem_cons_self)) (by decide)
  cases n with
  | zero => rfl
  | succ n => simp [stripNewlines, msgText, dec, hr, hc]

section Session

variable {logLenMax : ℕ} {ctl : Nlogger} {sys : System}

theorem headerOf_update (hdr : Option (List Char)) (inc : ℤ) :
    headerOf { ctl with hdr, inc } = headerOf ctl := by
  funext sys
  unfold headerOf generateSyslogHeader syslogRfc5424Header
  have htime : timeField sys { ctl with hdr := none, inc } = timeField sys { ctl with hdr := none } := rfl
  dsimp only at htime ⊢
  rw [htime]
  split_ifs
  · rfl
  · cases timeField sys { ctl with hdr := none } <;> rfl
  · cases timeField sys { ctl with hdr := none } <;> rfl

/-- One message: its record, without the newline, and one newline. -/
theorem nlogMsg_sent (hlen : logLenMax ≤ 2147483648) (hc : Ready ctl)
    (hlocal : (sys.localtime sys.sec).isSome = true) (m : LogMsg) :
    ∃ out, nlogMsg logLenMax sys (some m) ctl =
        some ({ ctl with hdr := some (headerOf ctl sys), inc := int32 (ctl.inc + 1) }, out) ∧
      out.socket = headerOf ctl sys ++ (msgText ctl.inc m).take (logLenMax - 1) ++ ['\n'] := by
  obtain ⟨time, htime⟩ := timeField_isSome ctl fun _ => hlocal
  have hgen := generateSyslogHeader_eq hc.fd htime hc.tag
  have hhdr : generateSyslogHeader sys ctl =
      { ctl with hdr := some (headerOf ctl sys), inc := int32 (ctl.inc + 1) } := by
    rw [headerOf, hgen]
    rfl
  have hlt : (stripNewlines ((msgText ctl.inc m).take (logLenMax - 1))).length < 2147483648 := by
    rw [stripNewlines_msgText, List.length_take]
    exact lt_of_le_of_lt (min_le_left _ _) (by omega)
  obtain ⟨out, hout, hsock⟩ := writeOutput_newline
    (show ({ ctl with hdr := some (headerOf ctl sys), inc := int32 (ctl.inc + 1) } : Nlogger).hdr = _ from rfl)
    hc.act hc.octets hc.tcp hlt
  refine ⟨out, ?_, by rw [hsock, stripNewlines_msgText]⟩
  have hfd : ctl.fd ≠ -1 := by have := hc.fd; omega
  simp only [nlogMsg, if_neg hfd, hhdr, hout]
  rfl

/-- A session: its records, without their newlines, and a newline each. -/
theorem nlogMsgs_sent (hlen : logLenMax ≤ 2147483648) : ∀ (ms : List (System × LogMsg)) (i : ℕ) {ctl : Nlogger},
    Ready ctl → ctl.inc = int32 i → (∀ p ∈ ms, (p.1.localtime p.1.sec).isSome = true) →
    ∃ ctl', nlogMsgs logLenMax ms ctl = some (ctl', frames '\n' ((ms.zipIdx i).map (sent logLenMax ctl)))
  | [], _, ctl, _, _, _ => ⟨ctl, rfl⟩
  | (sys, m) :: ms, i, ctl, hc, hinc, hlocal => by
    rw [List.forall_mem_cons] at hlocal
    obtain ⟨out, hout, hsock⟩ := nlogMsg_sent hlen hc hlocal.1 m
    have hc' : Ready { ctl with hdr := some (headerOf ctl sys), inc := int32 (ctl.inc + 1) } :=
      ⟨hc.fd, hc.tag, hc.act, hc.tcp, hc.octets⟩
    have hinc' : int32 (ctl.inc + 1) = int32 (i + 1 : ℕ) := by
      rw [hinc, int32_int32_add]
      rfl
    obtain ⟨ctl', hms⟩ := nlogMsgs_sent hlen ms (i + 1) hc' hinc' hlocal.2
    have hsent : sent logLenMax { ctl with hdr := some (headerOf ctl sys), inc := int32 (ctl.inc + 1) } =
        sent logLenMax ctl := by
      funext x
      rw [sent, headerOf_update]
      rfl
    refine ⟨ctl', ?_⟩
    rw [hsent] at hms
    simp only [nlogMsgs, hout, hms, bind, Option.bind]
    rw [hsock, hinc, List.zipIdx_cons]
    rfl

end Session

/-! ### The newlines of a session -/

theorem notMem_take_concat {α : Type*} {c : α} {l : List α} (h : c ∉ l) (n : ℕ) :
    c ∉ (l ++ [c]).take n ↔ n ≤ l.length := by
  by_cases hn : n ≤ l.length
  · rw [List.take_append_of_le_length hn]
    exact iff_of_true (fun hc => h (List.mem_of_mem_take hc)) hn
  · rw [List.take_of_length_le (by simp; omega)]
    exact iff_of_false (fun hc => hc (by simp)) hn

/-- A text's only newline is at its end, and is left out when it is cut. -/
theorem notMem_take_msgText {m : LogMsg} (hm : '\n' ∉ m.logmsg.dropLast) (inc : ℤ) {n : ℕ} (hn : 0 < n) :
    '\n' ∉ (msgText inc m).take (n - 1) ↔ (m.logmsg.getLast? = some '\n' → n ≤ (msgText inc m).length) := by
  have hdec : ∀ k, '\n' ∉ dec k := fun k => (print_decZ 0 k).notMem (by decide)
  obtain ⟨p, htext, hp⟩ : ∃ p, msgText inc m = p ++ m.logmsg ∧ '\n' ∉ p := ⟨_, rfl, by simp [hdec]⟩
  rw [htext]
  rcases List.eq_nil_or_concat m.logmsg with hlog | ⟨l, c, hlog⟩
  · rw [hlog, List.append_nil]
    exact iff_of_true (fun h => hp (List.mem_of_mem_take h)) (fun h => by cases h)
  rw [List.concat_eq_append] at hlog
  rw [hlog, List.dropLast_concat] at hm
  rw [hlog, List.getLast?_concat, Option.some.injEq, ← List.append_assoc]
  have hfree : '\n' ∉ p ++ l := by simp [hp, hm]
  by_cases hc : c = '\n'
  · rw [hc, notMem_take_concat hfree, List.length_append, List.length_append, List.length_append]
    simp only [List.length_singleton, forall_const]
    omega
  · have hfree' : '\n' ∉ p ++ l ++ [c] := by simp [hp, hm, Ne.symm hc]
    exact iff_of_true (fun h => hfree' (List.mem_of_mem_take h)) (fun h => absurd h hc)

/-- A header's newlines are those of the host name and the tag. -/
theorem newline_mem_headerOf {ctl : Nlogger} {sys : System} (hc : Ready ctl)
    (hlocal : (sys.localtime sys.sec).isSome = true) (hhost : ctl.rfc5424Host = true) (hmsgid : ctl.msgid = none) :
    '\n' ∉ headerOf ctl sys ↔ '\n' ∉ ctl.tag ∧ '\n' ∉ sys.hostname := by
  obtain ⟨time, htime⟩ := timeField_isSome ctl fun _ => hlocal
  have hpri : '\n' ∉ dec ctl.pri := (print_decZ 0 ctl.pri).notMem (by decide)
  have htime' : '\n' ∉ time := (print_timeField htime).notMem (by decide)
  have hproc : '\n' ∉ procField ctl := (print_procField ctl).notMem (by decide)
  rw [headerOf, generateSyslogHeader_eq hc.fd htime hc.tag]
  simp [headerText, hostField, msgidField, nilvalue, hhost, hmsgid, hpri, htime', hproc]
  tauto

/-- At number 2^31 the number sent is negative. -/
theorem sent_wrapped {logLenMax : ℕ} (h : 1 < logLenMax) (ctl : Nlogger) (p : System × LogMsg) :
    sent logLenMax ctl (p, 2147483648) ++ ['\n'] ≠ record logLenMax ctl (p, 2147483648) := by
  obtain ⟨n, rfl⟩ : ∃ n, logLenMax = n + 2 := ⟨logLenMax - 2, by omega⟩
  intro heq
  rw [sent, record, List.append_assoc] at heq
  have hhead := congrArg List.head? (List.append_cancel_left heq)
  have hneg : dec (int32 (2147483648 : ℕ)) = ['-', '2', '1', '4', '7', '4', '8', '3', '6', '4', '8'] := by
    decide +kernel
  have hpos : dec (2147483648 : ℕ) = ['2', '1', '4', '7', '4', '8', '3', '6', '4', '8'] := by
    decide +kernel
  unfold terminated msgText at hhead
  rw [hneg, hpos] at hhead
  split_ifs at hhead <;> simp at hhead

theorem generateSyslogHeader_fd (sys : System) (ctl : Nlogger) : (generateSyslogHeader sys ctl).fd = ctl.fd := by
  obtain ⟨hdr, inc, h⟩ := generateSyslogHeader_fields sys ctl
  rw [h]

theorem inetSocket_cases (net : Net) (server : List Char) (port : Option (List Char)) (socketType : SocketType) :
    (inetSocket net server port socketType).1 = -1 ∨
      inetSocket net server port socketType = (net.socket, .tcp) := by
  unfold inetSocket
  split_ifs
  · exact Or.inl rfl
  · exact Or.inl rfl
  · exact Or.inl rfl
  · exact Or.inr rfl

section Open

variable {net : Net} {sys : System} {pid : ℤ} {progname server : List Char} {port : Option (List Char)}

/-- What a successful `nlog_open` returns: its header has advanced the number
to 1. -/
theorem nlogOpen_eq (hfd : 0 ≤ (nlogOpen net sys pid progname server port).fd) (htag : progname.length ≤ 48)
    (hlocal : (sys.localtime sys.sec).isSome = true) :
    0 ≤ net.socket ∧ ∃ hdr, nlogOpen net sys pid progname server port =
      { fd := net.socket, pid, pri := local7Debug, inc := 1, tag := progname, server, port, hdr, msgid := none
        socketType := .tcp, rfc5424Time := true, rfc5424Host := true } := by
  unfold nlogOpen loggerOpen at hfd ⊢
  rw [generateSyslogHeader_fd] at hfd
  rcases inetSocket_cases net server port .all with hsock | hsock
  · have : (0 : ℤ) ≤ -1 := hsock ▸ hfd
    omega
  · rw [hsock] at hfd ⊢
    obtain ⟨time, htime⟩ := timeField_isSome
      { fd := net.socket, pid, pri := local7Debug, inc := 0, tag := progname, server, port, hdr := none
        msgid := none, socketType := .tcp, rfc5424Time := true, rfc5424Host := true } fun _ => hlocal
    exact ⟨hfd, _, generateSyslogHeader_eq hfd htime htag⟩

end Open

/-- **Newline framing.** In a session that opens and whose headers can be
made, with texts whose only newline is at their end, splitting the bytes sent
after each newline gives the records of the messages if and only if there are
fewer than 2^31 of them, neither the program's name nor a host name has a
newline, and every text that ends in a newline loses it to the cut. -/
theorem session_records_iff (logLenMax : ℕ) (h1 : 1 < logLenMax) (h2 : logLenMax ≤ 2147483648) (net : Net)
    (sys : System) (pid : ℤ) (progname server : List Char) (port : Option (List Char))
    (ms : List (System × LogMsg)) (hfd : 0 ≤ (nlogOpen net sys pid progname server port).fd)
    (htag : progname.length ≤ 48) (hlocal : (sys.localtime sys.sec).isSome = true)
    (hms : ∀ p ∈ ms, (p.1.localtime p.1.sec).isSome = true) (htext : ∀ p ∈ ms, '\n' ∉ p.2.logmsg.dropLast) :
    ∃ ctl out, nlogMsgs logLenMax ms (nlogOpen net sys pid progname server port) = some (ctl, out) ∧
      (splitAfter '\n' out =
          (ms.zipIdx 1).map (record logLenMax (nlogOpen net sys pid progname server port)) ↔
        ms.length < 2147483648 ∧ ∀ x ∈ ms.zipIdx 1, '\n' ∉ progname ∧ '\n' ∉ x.1.1.hostname ∧
          (x.1.2.logmsg.getLast? = some '\n' → logLenMax ≤ (msgText x.2 x.1.2).length)) := by
  obtain ⟨hsock, hdr, hopen⟩ := nlogOpen_eq hfd htag hlocal
  rw [hopen]
  set ctl : Nlogger :=
    { fd := net.socket, pid, pri := local7Debug, inc := 1, tag := progname, server, port, hdr, msgid := none
      socketType := .tcp, rfc5424Time := true, rfc5424Host := true } with hctl
  have hc : Ready ctl := ⟨hsock, htag, rfl, rfl, rfl⟩
  obtain ⟨ctl', hout⟩ := nlogMsgs_sent h2 ms 1 hc rfl hms
  refine ⟨ctl', _, hout, ?_⟩
  have hnum : ∀ x ∈ ms.zipIdx 1, ms.length < 2147483648 → int32 x.2 = x.2 := fun x hx hlt => by
    obtain ⟨-, hle, -⟩ := List.mem_zipIdx hx
    exact int32_eq ⟨by omega, by omega⟩
  -- the newlines of what is sent for a message whose number has not wrapped
  have hsent : ∀ x ∈ ms.zipIdx 1, ms.length < 2147483648 →
      ('\n' ∉ sent logLenMax ctl x ↔ '\n' ∉ progname ∧ '\n' ∉ x.1.1.hostname ∧
        (x.1.2.logmsg.getLast? = some '\n' → logLenMax ≤ (msgText x.2 x.1.2).length)) := by
    intro x hx hlt
    have hm := List.fst_mem_of_mem_zipIdx hx
    rw [sent, hnum x hx hlt, List.mem_append, not_or, newline_mem_headerOf hc (hms _ hm) rfl rfl,
      notMem_take_msgText (htext _ hm) _ (by omega), and_assoc]
  constructor
  · intro h
    have hfree := notMem_of_length_eq '\n' ((congrArg List.length h).trans (by simp))
    rw [splitAfter_frames '\n' hfree, List.map_map, List.map_inj_left] at h
    have hlt : ms.length < 2147483648 := by
      by_contra hge
      have hx : (ms[2147483647], 2147483648) ∈ ms.zipIdx 1 :=
        List.mk_mem_zipIdx_iff_le_and_getElem?_sub.mpr
          ⟨by decide, List.getElem?_eq_getElem (by omega)⟩
      exact sent_wrapped h1 ctl _ (h _ hx)
    exact ⟨hlt, fun x hx => (hsent x hx hlt).mp (hfree _ (List.mem_map_of_mem hx))⟩
  · rintro ⟨hlt, h⟩
    have hfree : ∀ b ∈ (ms.zipIdx 1).map (sent logLenMax ctl), '\n' ∉ b := by
      intro b hb
      obtain ⟨x, hx, rfl⟩ := List.mem_map.mp hb
      exact (hsent x hx hlt).mpr (h x hx)
    rw [splitAfter_frames '\n' hfree, List.map_map, List.map_inj_left]
    intro x hx
    have hcut := hfree _ (List.mem_map_of_mem hx)
    rw [sent, hnum x hx hlt, List.mem_append, not_or] at hcut
    rw [Function.comp_apply, sent, record, hnum x hx hlt, terminated_of_notMem hcut.2, List.append_assoc]

/-- Two messages without a newline. -/
theorem session_records_plain :
    let ms : List (System × LogMsg) := [(noon, ⟨0, ['h', 'i'], none⟩), (noon, ⟨7, [], none⟩)]
    ∃ ctl out, nlogMsgs 4096 ms opened = some (ctl, out) ∧
      splitAfter '\n' out = (ms.zipIdx 1).map (record 4096 opened) := by
  intro ms
  obtain ⟨ctl, out, hout, hiff⟩ := session_records_iff 4096 (by decide) (by decide) ⟨fun _ _ => true, 3, true⟩
    noon 7 ['b', 'b'] ['l'] none ms (by decide) (by decide) rfl (by decide) (by decide)
  exact ⟨ctl, out, hout, hiff.mpr (by decide)⟩

/-- A message that ends in a newline, as most do: an empty record follows. -/
theorem session_newline_doubled :
    let ms : List (System × LogMsg) := [(noon, ⟨0, ['h', 'i', '\n'], none⟩)]
    let first := "<191>1 2026-11-15T12:00:00.000005+01:00 h bb 7 - 1 LVL[0] hi\n".toList
    (nlogMsgs 4096 ms opened).map (fun r => splitAfter '\n' r.2) = some [first, ['\n']] ∧
      (ms.zipIdx 1).map (record 4096 opened) = [first] := by
  decide +kernel

end Nlog
end BlenderBottle
