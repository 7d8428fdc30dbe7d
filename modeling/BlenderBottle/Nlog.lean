/-
# `nlog.c`: syslog records on a socket

A `struct nlogger` is opened on a TCP connection (`nlog_open`), gets a fresh
RFC 5424 header for every message (`generate_syslog_header`) and writes
header and message to the socket, behind their length or with a newline
after them (`write_output`).

What the program asks of its surroundings is an argument: the network when
the connection is opened (`Net`), and clock, time zone and host name when a
header is made (`System`). `sendmsg` and `writev` take everything they are
given. A call that dereferences a NULL or reads outside a string has no
result. `logmsg.log_lvl` in `nlog_msg` is read as `logmsg->log_lvl`, and
`LOG_LEN_MAX`, which no header defines, is an argument.
-/
import BlenderBottle.Lib.CInt
import BlenderBottle.Lib.CText
import BlenderBottle.Log
import BlenderBottle.Tm

namespace BlenderBottle
namespace Nlog

open CInt CText Log

/-! ### The state of a logger -/

/-- `TYPE_UDP`, `TYPE_TCP` and `ALL_TYPES`. -/
inductive SocketType
  | udp
  | tcp
  | all
  deriving DecidableEq

/-- The fields of `struct nlogger` that `nlog.c` reads. -/
structure Nlogger where
  fd : ℤ
  pri : ℤ
  inc : ℤ
  pid : ℤ
  hdr : Option (List Char)
  tag : List Char
  msgid : Option (List Char)
  server : List Char
  port : Option (List Char)
  socketType : SocketType
  noact : Bool := false
  stderrPrintout : Bool := false
  rfc5424Time : Bool := false
  rfc5424Host : Bool := false
  octetCount : Bool := false

/-- What the network does when a connection is opened: whether a server and
port resolve, the descriptor `socket` returns, and whether it connects. -/
structure Net where
  resolves : List Char → List Char → Bool
  socket : ℤ
  connects : Bool

/-- What a header is made of: the time of day, its local fields with their
offset from UTC in seconds, and what `gethostname` writes. -/
structure System where
  sec : ℤ
  usec : ℕ
  localtime : ℤ → Option (Tm × ℤ)
  hostname : List Char

/-! ### The header -/

/-- `NILVALUE`. -/
def nilvalue : List Char := ['-']

/-- `strftime`'s `%z`. -/
def zoneText (gmtoff : ℤ) : List Char :=
  (if gmtoff < 0 then '-' else '+') ::
    decZ 4 ((gmtoff.natAbs / 3600 * 100 + gmtoff.natAbs / 60 % 60 : ℕ) : ℤ)

/-- `strftime` of `"%Y-%m-%dT%H:%M:%S.%%06u%z"`, before the space. -/
def dateFmt (tm : Tm) (gmtoff : ℤ) : List Char :=
  dec (tm.year + 1900) ++ ['-'] ++ decZ 2 (tm.mon + 1) ++ ['-'] ++ decZ 2 tm.mday ++ ['T'] ++
    decZ 2 tm.hour ++ [':'] ++ decZ 2 tm.min ++ [':'] ++ decZ 2 tm.sec ++ ['.', '%', '0', '6', 'u'] ++
    zoneText gmtoff

/-- The last three bytes: the zone's minutes move over the space, and a colon
goes before them. -/
def patchZone (fmt : List Char) : List Char :=
  let i := fmt.length
  let fmt := fmt.set (i - 1) (fmt.getD (i - 2) '\x00')
  let fmt := fmt.set (i - 2) (fmt.getD (i - 3) '\x00')
  fmt.set (i - 3) ':'

/-- `asprintf` of a format with one `%06u`. -/
def printUsec (n : ℕ) : List Char → List Char
  | '%' :: '0' :: '6' :: 'u' :: fmt => decZ 6 n ++ fmt
  | c :: fmt => c :: printUsec n fmt
  | [] => []

/-- The time of a header. -/
def timestamp (sys : System) : Option (List Char) := do
  let (tm, gmtoff) ← sys.localtime sys.sec
  some (printUsec sys.usec (patchZone (dateFmt tm gmtoff ++ [' '])))

/-- `"<%d>1 %s %s %s %s %s "`. -/
def headerText (pri : ℤ) (time hostname appName procid msgid : List Char) : List Char :=
  ['<'] ++ dec pri ++ ['>', '1', ' '] ++ time ++ [' '] ++ hostname ++ [' '] ++ appName ++ [' '] ++
    procid ++ [' '] ++ msgid ++ [' ']

section Fields

variable (sys : System) (ctl : Nlogger)

def timeField : Option (List Char) := if ctl.rfc5424Time then timestamp sys else some nilvalue

def hostField : List Char := if ctl.rfc5424Host then sys.hostname else nilvalue

def procField : List Char := if ctl.pid ≠ 0 then dec ctl.pid else nilvalue

def msgidField : List Char := ctl.msgid.getD nilvalue

end Fields

/-- A header that cannot be made leaves everything as it was. -/
def syslogRfc5424Header (sys : System) (ctl : Nlogger) : Nlogger :=
  if ctl.fd < 0 then ctl
  else match timeField sys ctl with
    | none => ctl
    | some time =>
      if 48 < ctl.tag.length then ctl
      else
        { ctl with
          hdr := some (headerText ctl.pri time (hostField sys ctl) ctl.tag (procField ctl) (msgidField ctl))
          inc := int32 (ctl.inc + 1) }

/-- `syslogfp` is `syslog_rfc5424_header`, the only value it ever gets. -/
def generateSyslogHeader (sys : System) (ctl : Nlogger) : Nlogger :=
  syslogRfc5424Header sys { ctl with hdr := none }

/-! ### Opening -/

def inetSocket (net : Net) (server : List Char) (port : Option (List Char)) (socketType : SocketType) :
    ℤ × SocketType :=
  if net.resolves server (port.getD "syslog-conn".toList) = false then (-1, socketType)
  else if net.socket = -1 then (-1, socketType)
  else if net.connects = false then (-1, socketType)
  else (net.socket, .tcp)

/-- The tag is the program's name already. -/
def loggerOpen (net : Net) (sys : System) (ctl : Nlogger) : Nlogger :=
  let (fd, socketType) := inetSocket net ctl.server ctl.port ctl.socketType
  generateSyslogHeader sys { ctl with fd, socketType }

/-- `LOG_LOCAL7 | LOG_DEBUG`. -/
def local7Debug : ℤ := 191

def nlogOpen (net : Net) (sys : System) (pid : ℤ) (progname server : List Char) (port : Option (List Char)) :
    Nlogger :=
  loggerOpen net sys
    { fd := -1, pid, pri := local7Debug, inc := 0, tag := progname, server, port, hdr := none, msgid := none
      socketType := .all, rfc5424Time := true, rfc5424Host := true }

/-! ### Writing -/

/-- `struct iovec`: a string and how much of it is sent. -/
structure Iovec where
  base : List Char
  len : ℕ

def Iovec.bytes (v : Iovec) : List Char := v.base.take v.len

/-- A length of 0 stands for the whole string. -/
def iovecAddString (iov : List Iovec) (str : List Char) (len : ℕ) : List Iovec :=
  iov ++ [⟨str, if len ≠ 0 then len else str.length⟩]

/-- Whether the last vector starts with a newline; an empty string starts
with its NUL. -/
def endsInNewline (iov : List Iovec) : Bool :=
  iov.getLast?.any fun v => (v.base ++ ['\x00']).head? == some '\n'

/-- What a call puts on the socket and on the standard error output. -/
structure Output where
  socket : List Char := []
  stderr : List Char := []

/-- The byte `cp[end]`. -/
def byteAt (cp : List Char) (i : ℤ) : Option Char :=
  if i < 0 then none else (cp ++ ['\x00'])[i.toNat]?

/-- `"%zu "` of the header's length and `end`, which is added as a `size_t`. -/
def octets (hdr : List Char) (last : ℤ) : List Char :=
  dec (toSize (hdr.length + last)) ++ [' ']

/-- The loop over a message's leading newlines. -/
def stripNewlines (msg : List Char) : List Char := msg.dropWhile (· = '\n')

/-- The octet count, the header and the message. -/
def recordIov (ctl : Nlogger) (hdr cp : List Char) (last : ℤ) : List Iovec :=
  let iov := if ctl.octetCount then iovecAddString [] (octets hdr last) (octets hdr last).length else []
  iovecAddString (iovecAddString iov hdr 0) cp 0

/-- The newline that makes sure the message is terminated. -/
def addNewline (ctl : Nlogger) (cp : List Char) (last : ℤ) (iov : List Iovec) : Option (List Iovec) :=
  if ctl.noact = false ∧ ctl.socketType = .tcp ∧ ctl.octetCount = false then
    (byteAt cp last).map fun c => if c ≠ '\n' then iovecAddString iov ['\n'] 1 else iov
  else some iov

def writeOutput (ctl : Nlogger) (msg : List Char) : Option Output := do
  let cp := stripNewlines msg
  let last := int32 cp.length
  let hdr ← ctl.hdr
  let iov ← addNewline ctl cp last (recordIov ctl hdr cp last)
  let iovErr := if endsInNewline iov then iov else iovecAddString iov ['\n'] 1
  some
    { socket := if ctl.noact then [] else iov.flatMap Iovec.bytes
      stderr := if ctl.stderrPrintout then iovErr.flatMap Iovec.bytes else [] }

/-- `"%d LVL[%d] %s"`. -/
def msgText (inc : ℤ) (m : LogMsg) : List Char :=
  dec inc ++ [' ', 'L', 'V', 'L', '['] ++ dec m.logLvl ++ [']', ' '] ++ m.logmsg

/-- The number is that of the header before, which the call's own header then
advances. -/
def nlogMsg (logLenMax : ℕ) (sys : System) (logmsg : Option LogMsg) (ctl : Nlogger) : Option (Nlogger × Output) :=
  if ctl.fd = -1 then some (ctl, {})
  else match logmsg with
    | none => some (ctl, {})
    | some m => do
      let msg := (msgText ctl.inc m).take (logLenMax - 1)
      let ctl := generateSyslogHeader sys ctl
      let out ← writeOutput ctl msg
      some (ctl, out)

/-- A session's messages, and the bytes they put on the socket. -/
def nlogMsgs (logLenMax : ℕ) : List (System × LogMsg) → Nlogger → Option (Nlogger × List Char)
  | [], ctl => some (ctl, [])
  | (sys, m) :: ms, ctl => do
    let (ctl, out) ← nlogMsg logLenMax sys (some m) ctl
    let (ctl, bytes) ← nlogMsgs logLenMax ms ctl
    some (ctl, out.socket ++ bytes)

end Nlog
end BlenderBottle
