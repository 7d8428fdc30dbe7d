/-
# The time of a header

`syslog_rfc5424_header` makes the TIMESTAMP in three steps: `strftime` prints
date and zone around a `%06u`, an in-place patch moves the zone's minutes over
the trailing space and puts a colon before them, and `asprintf` takes the
result as its format and fills in the microseconds. In a zone of constant
offset the result is the RFC 3339 text of the local time
(`timestamp_eq_text`), so it reads back to the time that was asked for.
-/
import BlenderBottle.Lib.Rfc3339
import BlenderBottle.NlogHeader

namespace BlenderBottle
namespace Nlog

open CText Gregorian Syslog

/-! ### The three steps -/

/-- The format is filled in at its only `%`. -/
theorem printUsec_append (n : ℕ) {p : List Char} (hp : '%' ∉ p) (r : List Char) :
    printUsec n (p ++ '%' :: '0' :: '6' :: 'u' :: r) = p ++ (decZ 6 n ++ r) := by
  induction p with
  | nil => rfl
  | cons c p ih =>
    have hc : c ≠ '%' := fun h => hp (h ▸ List.mem_cons_self)
    rw [List.cons_append, List.cons_append, ← ih fun h => hp (List.mem_cons_of_mem _ h)]
    rw [printUsec]
    rintro _ rfl
    exact absurd rfl hc

theorem zoneText_minutes {k : ℤ} (h0 : -1440 < k) (h1 : k < 1440) :
    zoneText (60 * k) = (if k < 0 then '-' else '+') ::
      (decZ 2 (k.natAbs / 60 : ℕ) ++ decZ 2 (k.natAbs % 60 : ℕ)) := by
  have hnum : (((60 * k).natAbs / 3600 * 100 + (60 * k).natAbs / 60 % 60 : ℕ) : ℤ) =
      10 ^ 2 * ((k.natAbs / 60 : ℕ) : ℤ) + ((k.natAbs % 60 : ℕ) : ℤ) := by
    have hdiv : (60 * k).natAbs / 60 = k.natAbs := by omega
    have hdiv' : (60 * k).natAbs / 3600 = k.natAbs / 60 := by omega
    rw [hdiv, hdiv']
    push_cast
    ring
  rw [zoneText, hnum, decZ_append (w := 2) (v := 2) (by norm_num) (by norm_num) (by omega) (by omega)
    (by omega) (by omega)]
  congr 1
  exact if_congr (by omega) rfl rfl

/-- The local time of a zone `k` minutes ahead of UTC, as a stamp. -/
def localStamp (sec : ℤ) (usec : ℕ) (k : ℤ) (hu : usec < 1000000) (hk : -1440 < k ∧ k < 1440)
    (hy : 1000 ≤ (breakdown (sec + 60 * k)).year + 1900 ∧ (breakdown (sec + 60 * k)).year + 1900 ≤ 9999) :
    Rfc3339.Stamp where
  year := (breakdown (sec + 60 * k)).year + 1900
  month := (breakdown (sec + 60 * k)).mon
  mday := (breakdown (sec + 60 * k)).mday
  hour := (breakdown (sec + 60 * k)).hour
  min := (breakdown (sec + 60 * k)).min
  sec := (breakdown (sec + 60 * k)).sec
  usec := usec
  offset := k
  year_four := by omega
  date := (breakdown_inRange _).date
  hour_lt := (breakdown_inRange _).hour
  min_lt := (breakdown_inRange _).min
  sec_lt := (breakdown_inRange _).sec
  usec_lt := by omega
  offset_lt := hk

section Constant

variable {sec : ℤ} {usec : ℕ} {k : ℤ} (hu : usec < 1000000) (hk : -1440 < k ∧ k < 1440)
  (hy : 1000 ≤ (breakdown (sec + 60 * k)).year + 1900 ∧ (breakdown (sec + 60 * k)).year + 1900 ≤ 9999)

/-- `strftime`: date, time, the place of the microseconds and the zone. -/
theorem dateFmt_localStamp : dateFmt (breakdown (sec + 60 * k)) (60 * k) =
    (localStamp sec usec k hu hk hy).dateText ++ 'T' :: ((localStamp sec usec k hu hk hy).timeText ++
      ['.', '%', '0', '6', 'u'] ++ zoneText (60 * k)) := by
  have hyear : dec ((breakdown (sec + 60 * k)).year + 1900) = decZ 4 ((breakdown (sec + 60 * k)).year + 1900) :=
    (decZ_eq_dec (w := 3) (by norm_num) (by omega)).symm
  simp [dateFmt, Rfc3339.Stamp.dateText, Rfc3339.Stamp.timeText, localStamp, hyear]

theorem percent_notMem_date (s : Rfc3339.Stamp) : '%' ∉ s.dateText ++ 'T' :: (s.timeText ++ ['.']) := by
  obtain ⟨m0, -, d0, -⟩ := s.date
  have hnot : ∀ {w : ℕ} {n : ℤ}, 0 ≤ n → '%' ∉ decZ w n := fun h => notMem_decZ h (by decide)
  simp [Rfc3339.Stamp.dateText, Rfc3339.Stamp.timeText, hnot s.year_four.1,
    hnot (show 0 ≤ s.month + 1 by omega), hnot (show 0 ≤ s.mday by omega), hnot s.hour_lt.1, hnot s.min_lt.1,
    hnot s.sec_lt.1]

/-- **The timestamp.** In a zone of constant offset it is the RFC 3339 text of
the local time. -/
theorem timestamp_eq_text (hostname : List Char) :
    timestamp ⟨sec, usec, fun s => some (breakdown (s + 60 * k), 60 * k), hostname⟩ =
      some (localStamp sec usec k hu hk hy).text := by
  obtain ⟨a, b, hab⟩ := List.length_eq_two.mp
    (length_decZ (w := 2) (n := (k.natAbs % 60 : ℕ)) (by norm_num) (by omega) (by omega))
  have hfmt := dateFmt_localStamp hu hk hy
  have hpercent := percent_notMem_date (localStamp sec usec k hu hk hy)
  have hoffset : (localStamp sec usec k hu hk hy).offsetText =
      (if k < 0 then '-' else '+') :: (decZ 2 (k.natAbs / 60 : ℕ) ++ [':', a, b]) := by
    rw [← hab]
    rfl
  have htext : (localStamp sec usec k hu hk hy).text = (localStamp sec usec k hu hk hy).dateText ++
      'T' :: ((localStamp sec usec k hu hk hy).timeText ++ '.' ::
        (decZ 6 usec ++ (localStamp sec usec k hu hk hy).offsetText)) := rfl
  rw [zoneText_minutes hk.1 hk.2, hab] at hfmt
  rw [htext, hoffset]
  generalize (localStamp sec usec k hu hk hy).dateText = date at *
  generalize (localStamp sec usec k hu hk hy).timeText = time at *
  -- the patch, at the two digits of the zone's minutes and the space
  have hpatch : patchZone (dateFmt (breakdown (sec + 60 * k)) (60 * k) ++ [' ']) =
      date ++ 'T' :: (time ++ ['.']) ++ '%' :: '0' :: '6' :: 'u' ::
        ((if k < 0 then '-' else '+') :: (decZ 2 (k.natAbs / 60 : ℕ) ++ [':', a, b])) := by
    have hsplit : dateFmt (breakdown (sec + 60 * k)) (60 * k) ++ [' '] =
        (date ++ 'T' :: (time ++ ['.', '%', '0', '6', 'u'] ++
          (if k < 0 then '-' else '+') :: decZ 2 (k.natAbs / 60 : ℕ))) ++ [a, b, ' '] := by
      rw [hfmt]
      simp
    rw [hsplit, patchZone_append]
    simp
  calc timestamp ⟨sec, usec, fun s => some (breakdown (s + 60 * k), 60 * k), hostname⟩
      = some (printUsec usec (patchZone (dateFmt (breakdown (sec + 60 * k)) (60 * k) ++ [' ']))) := rfl
    _ = _ := by
      rw [hpatch, printUsec_append usec hpercent]
      simp

theorem seconds_localStamp : (localStamp sec usec k hu hk hy).seconds = sec := by
  have hgm := timegm_breakdown (sec + 60 * k)
  obtain ⟨m0, m1, -, -⟩ := (breakdown_inRange (sec + 60 * k)).date
  rw [timegm_of_mon m0 m1] at hgm
  rw [Rfc3339.Stamp.seconds]
  simp only [localStamp]
  omega

end Constant

/-- **Timestamps lose nothing.** For every time of day with its microseconds
and every zone a whole number of minutes, less than a day, ahead of or behind
UTC, in a local year of 1000 to 9999: the TIMESTAMP is the text
`YYYY-MM-DDTHH:MM:SS.uuuuuu±HH:MM` of the local time, has no space, and is
read back as the same seconds and microseconds. -/
theorem timestamp_lossless (sec : ℤ) (usec : ℕ) (k : ℤ) (hostname : List Char) (hu : usec < 1000000)
    (hk : -1440 < k ∧ k < 1440)
    (hy : 1000 ≤ (breakdown (sec + 60 * k)).year + 1900 ∧ (breakdown (sec + 60 * k)).year + 1900 ≤ 9999) :
    ∃ text, timestamp ⟨sec, usec, fun s => some (breakdown (s + 60 * k), 60 * k), hostname⟩ = some text ∧
      text = (localStamp sec usec k hu hk hy).text ∧ ' ' ∉ text ∧
      Rfc3339.parse text = some (sec, (usec : ℤ)) := by
  have htext := timestamp_eq_text hu hk hy hostname
  refine ⟨_, htext, rfl, (print_timestamp htext).notMem (by decide), ?_⟩
  rw [Rfc3339.parse_text, seconds_localStamp]
  rfl

/-- One second before the epoch, five and a half hours ahead of UTC. -/
theorem timestamp_lossless_epoch :
    (1970 = (breakdown (-1 + 60 * 330)).year + 1900 ∧ (7 : ℕ) < 1000000) ∧
      ∃ text, timestamp ⟨-1, 7, fun s => some (breakdown (s + 60 * 330), 60 * 330), ['h']⟩ = some text ∧
        text = "1970-01-01T05:29:59.000007+05:30".toList ∧ Rfc3339.parse text = some (-1, 7) := by
  refine ⟨by decide, ?_⟩
  obtain ⟨text, htime, htext, -, hparse⟩ :=
    timestamp_lossless (-1) 7 330 ['h'] (by decide) (by decide) (by decide)
  exact ⟨text, htime, htext.trans (by decide +kernel), hparse⟩

end Nlog
end BlenderBottle
