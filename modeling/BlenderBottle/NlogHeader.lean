/-
# The header against the grammar of RFC 5424

Time and process id are visible ASCII (`print_timestamp`), so where tag, host
name and msgid are, a header has exactly the six spaces of its format string
(`count_space_headerText`), and ends in one of them. The format has no
STRUCTURED-DATA: before the MSG of an RFC 5424 message there are seven
spaces. So no record is one with the message text as its MSG
(`header_not_rfc5424`).
-/
import BlenderBottle.Lib.Syslog
import BlenderBottle.Nlog

namespace BlenderBottle
namespace Nlog

open CInt CText Log Syslog

/-! ### The time -/

theorem print_zoneText (gmtoff : ℤ) : Print (zoneText gmtoff) :=
  print_cons.mpr ⟨by split_ifs <;> decide, print_decZ _ _⟩

theorem print_dateFmt (tm : Tm) (gmtoff : ℤ) : Print (dateFmt tm gmtoff) := by
  simp +decide [dateFmt, dec, print_zoneText]

theorem exists_append_pair {l : List Char} (h : 2 ≤ l.length) : ∃ l' a b, l = l' ++ [a, b] := by
  rcases List.eq_nil_or_concat l with rfl | ⟨l₁, b, rfl⟩
  · simp at h
  · rcases List.eq_nil_or_concat l₁ with rfl | ⟨l₂, a, rfl⟩
    · simp at h
    · exact ⟨l₂, a, b, by simp⟩

/-- The format ends in the two digits of the zone's minutes. -/
theorem dateFmt_eq_append (tm : Tm) (gmtoff : ℤ) : ∃ fmt a b, dateFmt tm gmtoff = fmt ++ [a, b] := by
  have hlen : 2 ≤ (zoneText gmtoff).length := by
    have := le_length_decZ 4 ((gmtoff.natAbs / 3600 * 100 + gmtoff.natAbs / 60 % 60 : ℕ) : ℤ)
    rw [zoneText, List.length_cons]
    omega
  obtain ⟨l, a, b, h⟩ := exists_append_pair hlen
  exact ⟨_, a, b, by rw [dateFmt, h, ← List.append_assoc]⟩

theorem patchZone_append (fmt : List Char) (a b c : Char) :
    patchZone (fmt ++ [a, b, c]) = fmt ++ [':', a, b] := by
  simp [patchZone]

theorem print_printUsec (n : ℕ) (fmt : List Char) (h : Print fmt) : Print (printUsec n fmt) := by
  fun_induction printUsec n fmt with
  | case1 fmt => simp_all
  | case2 c fmt _ ih =>
    rw [print_cons] at h ⊢
    exact ⟨h.1, ih h.2⟩
  | case3 => exact h

/-- The space behind the format is gone. -/
theorem print_timestamp {sys : System} {time : List Char} (h : timestamp sys = some time) : Print time := by
  unfold timestamp at h
  cases hl : sys.localtime sys.sec with
  | none => rw [hl] at h; cases h
  | some p =>
    obtain ⟨tm, gmtoff⟩ := p
    rw [hl] at h
    obtain rfl := Option.some.inj h
    obtain ⟨fmt, a, b, hfmt⟩ := dateFmt_eq_append tm gmtoff
    have hp := print_dateFmt tm gmtoff
    apply print_printUsec
    rw [hfmt] at hp ⊢
    rw [List.append_assoc]
    refine (patchZone_append fmt a b ' ').symm ▸ ?_
    simp only [print_append, print_cons, print_nil, and_true] at hp ⊢
    exact ⟨hp.1, by decide, hp.2⟩

/-! ### The header -/

section Header

variable {sys : System} {ctl : Nlogger}

theorem print_timeField {time : List Char} (h : timeField sys ctl = some time) : Print time := by
  unfold timeField at h
  by_cases ht : ctl.rfc5424Time = true
  · rw [if_pos ht] at h
    exact print_timestamp h
  · rw [if_neg ht] at h
    obtain rfl := Option.some.inj h
    decide

theorem print_procField (ctl : Nlogger) : Print (procField ctl) := by
  unfold procField
  by_cases hp : ctl.pid ≠ 0
  · rw [if_pos hp]
    exact print_decZ _ _
  · rw [if_neg hp]
    decide

/-- What can become of a header: it is made and the number goes up, or it is
NULL and nothing else has changed. -/
theorem generateSyslogHeader_cases (sys : System) (ctl : Nlogger) :
    (∃ time, 0 ≤ ctl.fd ∧ timeField sys ctl = some time ∧ ctl.tag.length ≤ 48 ∧
      generateSyslogHeader sys ctl =
        { ctl with
          hdr := some (headerText ctl.pri time (hostField sys ctl) ctl.tag (procField ctl) (msgidField ctl))
          inc := int32 (ctl.inc + 1) }) ∨
    ((ctl.fd < 0 ∨ timeField sys ctl = none ∨ 48 < ctl.tag.length) ∧
      generateSyslogHeader sys ctl = { ctl with hdr := none }) := by
  rw [generateSyslogHeader, syslogRfc5424Header]
  by_cases hfd : ctl.fd < 0
  · exact .inr ⟨.inl hfd, if_pos hfd⟩
  rw [if_neg hfd, show timeField sys { ctl with hdr := none } = timeField sys ctl from rfl]
  cases htime : timeField sys ctl with
  | none => exact .inr ⟨.inr (.inl rfl), rfl⟩
  | some time =>
    by_cases htag : 48 < ctl.tag.length
    · exact .inr ⟨.inr (.inr htag), if_pos htag⟩
    · exact .inl ⟨time, not_lt.mp hfd, rfl, not_lt.mp htag, if_neg htag⟩

/-- What a header that can be made is. -/
theorem generateSyslogHeader_eq {time : List Char} (hfd : 0 ≤ ctl.fd) (htime : timeField sys ctl = some time)
    (htag : ctl.tag.length ≤ 48) :
    generateSyslogHeader sys ctl =
      { ctl with
        hdr := some (headerText ctl.pri time (hostField sys ctl) ctl.tag (procField ctl) (msgidField ctl))
        inc := int32 (ctl.inc + 1) } := by
  rcases generateSyslogHeader_cases sys ctl with ⟨time', -, htime', -, h⟩ | ⟨hfail | hfail | hfail, -⟩
  · rw [htime] at htime'
    rw [h, Option.some.inj htime']
  · omega
  · rw [htime] at hfail
    cases hfail
  · omega

/-- Making a header touches the header and the number only. -/
theorem generateSyslogHeader_fields (sys : System) (ctl : Nlogger) :
    ∃ hdr inc, generateSyslogHeader sys ctl = { ctl with hdr, inc } := by
  rcases generateSyslogHeader_cases sys ctl with ⟨time, -, -, -, h⟩ | ⟨-, h⟩
  · exact ⟨_, _, h⟩
  · exact ⟨_, _, h⟩

theorem timeField_isSome (ctl : Nlogger)
    (h : ctl.rfc5424Time = true → (sys.localtime sys.sec).isSome = true) :
    ∃ time, timeField sys ctl = some time := by
  unfold timeField timestamp
  by_cases ht : ctl.rfc5424Time = true
  · obtain ⟨p, hp⟩ := Option.isSome_iff_exists.mp (h ht)
    exact ⟨_, by rw [if_pos ht, hp]; rfl⟩
  · exact ⟨_, if_neg ht⟩

theorem count_space_of_print {s : List Char} (h : Print s) : s.count ' ' = 0 :=
  List.count_eq_zero.mpr (h.notMem (by decide))

/-- Six spaces, and no more. -/
theorem count_space_headerText {pri : ℤ} {time hostname appName procid msgid : List Char} (htime : Print time)
    (hhost : Print hostname) (happ : Print appName) (hproc : Print procid) (hmsgid : Print msgid) :
    (headerText pri time hostname appName procid msgid).count ' ' = 6 := by
  have hpri : Print (dec pri) := print_decZ _ _
  simp [headerText, List.count_append, count_space_of_print, htime, hhost, happ, hproc, hmsgid, hpri]

/-- Six spaces, the last of them at the end, are too few for a message. -/
theorem headerText_not_message {pri : ℤ} {time hostname appName procid msgid : List Char} (htime : Print time)
    (hhost : Print hostname) (happ : Print appName) (hproc : Print procid) (hmsgid : Print msgid)
    (msg : List Char) : ¬ Message (headerText pri time hostname appName procid msgid ++ msg) msg := by
  intro h
  rcases h.spaces with hc | hl
  · rw [count_space_headerText htime hhost happ hproc hmsgid] at hc
    omega
  · exact hl (by rw [headerText, List.getLast?_concat])

end Header

/-- **Records and RFC 5424.** Whatever the process id, the settings of time
and host, the number and the message: no header that `syslog_rfc5424_header`
makes and the text that `nlog_msg` puts behind it are an RFC 5424 message
with that text as its MSG. -/
theorem header_not_rfc5424 (sys : System) (ctl : Nlogger) (hfd : 0 ≤ ctl.fd) (htag : Printable 48 ctl.tag)
    (hmsgid : ∀ m, ctl.msgid = some m → Msgid m) (hhost : Hostname sys.hostname)
    (hlocal : ctl.rfc5424Time = true → (sys.localtime sys.sec).isSome = true) (logLenMax : ℕ) (m : LogMsg) :
    ∃ hdr, (generateSyslogHeader sys ctl).hdr = some hdr ∧
      ¬ Message (hdr ++ (msgText ctl.inc m).take (logLenMax - 1)) ((msgText ctl.inc m).take (logLenMax - 1)) := by
  obtain ⟨time, htime⟩ := timeField_isSome ctl hlocal
  have hhost' : Print (hostField sys ctl) := by
    unfold hostField
    by_cases hh : ctl.rfc5424Host = true
    · rw [if_pos hh]
      exact hhost.print
    · rw [if_neg hh]
      decide
  have hmsgid' : Print (msgidField ctl) := by
    unfold msgidField
    cases hm : ctl.msgid with
    | none => decide
    | some m => exact (hmsgid m hm).print
  refine ⟨_, by rw [generateSyslogHeader_eq hfd htime htag.le], ?_⟩
  exact headerText_not_message (print_timeField htime) hhost' htag.print (print_procField ctl) hmsgid' _

/-- Noon on 15 November 2026 on host `h`, an hour ahead of UTC. -/
def noon : System := ⟨0, 5, fun _ => some ({ year := 126, mon := 10, mday := 15, hour := 12 }, 3600), ['h']⟩

/-- The logger that process 7 opens then as `bb`. -/
def opened : Nlogger := nlogOpen ⟨fun _ _ => true, 3, true⟩ noon 7 ['b', 'b'] ['l'] none

/-- The header of a logger that has just been opened. -/
theorem header_not_rfc5424_opened :
    ∃ hdr, (generateSyslogHeader noon opened).hdr = some hdr ∧
      ¬ Message (hdr ++ (msgText opened.inc ⟨0, ['h', 'i'], none⟩).take 4095)
        ((msgText opened.inc ⟨0, ['h', 'i'], none⟩).take 4095) :=
  header_not_rfc5424 noon opened (by decide) (by decide) (fun m hm => by cases hm) (.inr (by decide))
    (fun _ => rfl) 4096 ⟨0, ['h', 'i'], none⟩

/-- The first record of a session, as it is sent. -/
theorem first_record_not_rfc5424 :
    let hdr := "<191>1 2026-11-15T12:00:00.000005+01:00 h bb 7 - ".toList
    let msg := "1 LVL[0] hi".toList
    (nlogMsg 4096 noon (some ⟨0, ['h', 'i'], none⟩) opened).map (·.2.socket) = some (hdr ++ msg ++ ['\n']) ∧
      ¬ Message (hdr ++ msg) msg := by
  refine ⟨by decide +kernel, fun h => ?_⟩
  rcases h.spaces with hc | hl
  · exact absurd hc (by decide +kernel)
  · exact hl (by decide +kernel)

end Nlog
end BlenderBottle
