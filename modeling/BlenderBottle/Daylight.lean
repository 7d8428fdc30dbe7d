/-
# `add_seconds` where the clock is put forward and back

A zone with daylight saving: its offset changes by an hour, forward or back,
at finitely many instants. `localtime` shows the offset in force; `mktime`
with the daylight flag cleared knows only the local fields, so it is any
function of them that answers with an instant showing them when there is one
(`IsMktime`). That is said of fields in their ranges. What `mktime` makes of
`tm_sec` outside 0..59 is left to the C library: it may count the seconds
beyond the minute as elapsed time, after the conversion (`Elapses`), or carry
them into the other fields before it (`Normalises`).

`add_seconds` goes through the local fields and clears the flag. It is exact
only where no second instant shows the fields that the conversion is asked
for and the offset there is the one at `t`; which fields these are depends on
the library (`addSeconds_iff`). So it fails in a repeated hour, whatever `n`.
-/
import BlenderBottle.Datetime

namespace BlenderBottle

open Gregorian CInt

/-- The offset of a zone from the epoch's, in seconds, and its changes: each
an instant, and whether the clock is put forward (or back) an hour then. -/
structure DstRule where
  base : ℤ
  changes : List (ℤ × Bool)

namespace DstRule

def shift (t : ℤ) (change : ℤ × Bool) : ℤ :=
  if change.1 ≤ t then (if change.2 then 3600 else -3600) else 0

/-- The offset in force at `t`. -/
def off (R : DstRule) (t : ℤ) : ℤ := R.base + (R.changes.map (shift t)).sum

/-- The reading of the local clock at `t`. -/
def reading (R : DstRule) (t : ℤ) : ℤ := t + R.off t

def localtime (R : DstRule) (isdst : ℤ → ℤ) (t : ℤ) : Tm :=
  { breakdown (R.reading t) with isdst := isdst t }

def zone (R : DstRule) (isdst : ℤ → ℤ) (mktime : Tm → ℤ) (tzname : Bool → List Char) : Zone where
  localtime := R.localtime isdst
  mktime := mktime
  tzname := tzname

/-- `mktime` of a zone, asked to decide about daylight saving itself. -/
structure IsMktime (R : DstRule) (mktime : Tm → ℤ) : Prop where
  /-- It reads the date and the time of day only. -/
  fields : ∀ tm tm' : Tm, tm.isdst = -1 → tm'.isdst = -1 → tm.sec = tm'.sec → tm.min = tm'.min →
    tm.hour = tm'.hour → tm.mday = tm'.mday → tm.mon = tm'.mon → tm.year = tm'.year → mktime tm = mktime tm'
  /-- Its answer shows the fields asked for, if any instant does. -/
  shows : ∀ tm : Tm, tm.InRange → tm.isdst = -1 → (∃ s, R.reading s = timegm tm) → R.reading (mktime tm) = timegm tm

/-- The nearest second of a minute. -/
def clampSec (sec : ℤ) : ℤ := max 0 (min sec 59)

/-- Seconds beyond the minute are added to the instant that the conversion gives,
as the GNU library does. -/
def Elapses (mktime : Tm → ℤ) : Prop :=
  ∀ tm : Tm, tm.isdst = -1 →
    mktime tm = mktime { tm with sec := clampSec tm.sec } + (tm.sec - clampSec tm.sec)

/-- Fields beyond their ranges are carried before the conversion. -/
def Normalises (mktime : Tm → ℤ) : Prop :=
  ∀ tm tm' : Tm, tm.isdst = -1 → tm'.isdst = -1 → timegm tm = timegm tm' → mktime tm = mktime tm'

/-- The clock at `s` runs as at `t`, and shows what it shows at no other instant. -/
def Alone (R : DstRule) (t s : ℤ) : Prop := R.off s = R.off t ∧ ∀ s', R.reading s' = R.reading s → s' = s

/-! ### The choice of an instant -/

/-- A choice of an instant for each reading that the clock shows. -/
def Picks (R : DstRule) (pick : ℤ → ℤ) : Prop := ∀ L, (∃ s, R.reading s = L) → R.reading (pick L) = L

/-- A reading can be answered by any instant that shows it, and by anything
if none does. -/
theorem exists_pick (R : DstRule) {L v : ℤ} (hv : (∃ s, R.reading s = L) → R.reading v = L) :
    ∃ pick, R.Picks pick ∧ pick L = v := by
  classical
  refine ⟨fun L' => if L' = L then v else if h : ∃ s, R.reading s = L' then h.choose else 0,
    fun L' hL' => ?_, if_pos rfl⟩
  by_cases h : L' = L
  · subst h
    simpa using hv hL'
  · simp only [h, if_false, dif_pos hL']
    exact hL'.choose_spec

/-- All choices agree on a reading where there is none: one instant shows it. -/
theorem forall_picks_iff (R : DstRule) (L v : ℤ) :
    (∀ pick, R.Picks pick → pick L = v) ↔ R.reading v = L ∧ ∀ s, R.reading s = L → s = v := by
  constructor
  · intro h
    have key : ∀ w, ((∃ s, R.reading s = L) → R.reading w = L) → w = v := by
      intro w hw
      obtain ⟨pick, hpick, hL⟩ := R.exists_pick hw
      exact hL.symm.trans (h pick hpick)
    have hshown : ∃ s, R.reading s = L := by
      by_contra hno
      have h0 := key (v + 1) fun hs => absurd hs hno
      omega
    obtain ⟨s, hs⟩ := hshown
    obtain rfl := key s fun _ => hs
    exact ⟨hs, fun s' hs' => key s' fun _ => hs'⟩
  · rintro ⟨hv, huniq⟩ pick hpick
    exact huniq _ (hpick L ⟨v, hv⟩)

theorem alone_iff (R : DstRule) (t k : ℤ) :
    R.Alone t (t + k) ↔ R.reading (t + k) = R.reading t + k ∧ ∀ s, R.reading s = R.reading t + k → s = t + k := by
  have hoff : R.off (t + k) = R.off t ↔ R.reading (t + k) = R.reading t + k := by
    unfold reading
    omega
  rw [Alone, hoff]
  constructor
  · rintro ⟨h, huniq⟩
    exact ⟨h, h ▸ huniq⟩
  · rintro ⟨h, huniq⟩
    exact ⟨h, h.symm ▸ huniq⟩

/-- A choice within the minute and some answer beyond it make a `mktime`. -/
def mktimeOf (pick : ℤ → ℤ) (beyond : ℤ → ℤ → ℤ) (tm : Tm) : ℤ :=
  if 0 ≤ tm.sec ∧ tm.sec < 60 then pick (timegm tm) else beyond tm.sec (timegm tm)

theorem isMktime_mktimeOf {R : DstRule} {pick : ℤ → ℤ} (h : R.Picks pick) (beyond : ℤ → ℤ → ℤ) :
    R.IsMktime (mktimeOf pick beyond) where
  fields tm tm' _ _ h1 h2 h3 h4 h5 h6 := by simp only [mktimeOf, timegm, h1, h2, h3, h4, h5, h6]
  shows tm hr _ hs := by
    rw [mktimeOf, if_pos hr.sec]
    exact h _ hs

theorem clampSec_bounds (sec : ℤ) : 0 ≤ clampSec sec ∧ clampSec sec < 60 := by
  unfold clampSec
  omega

theorem clampSec_eq {sec : ℤ} (h : 0 ≤ sec ∧ sec < 60) : clampSec sec = sec := by
  unfold clampSec
  omega

/-- The seconds beyond the minute, added to the choice. -/
def elapsed (pick : ℤ → ℤ) (sec L : ℤ) : ℤ := pick (L - (sec - clampSec sec)) + (sec - clampSec sec)

/-- With them `mktime` makes its choice within the minute. -/
theorem mktimeOf_elapsed (pick : ℤ → ℤ) (tm : Tm) :
    mktimeOf pick (elapsed pick) tm = elapsed pick tm.sec (timegm tm) := by
  rw [mktimeOf]
  split
  · rename_i h
    rw [elapsed, clampSec_eq h, sub_self, sub_zero, add_zero]
  · rfl

theorem elapses_mktimeOf (pick : ℤ → ℤ) : Elapses (mktimeOf pick (elapsed pick)) := by
  intro tm _
  have hsec : timegm { tm with sec := clampSec tm.sec } = timegm tm + (clampSec tm.sec - tm.sec) :=
    timegm_sec tm (clampSec tm.sec) tm.isdst
  rw [mktimeOf_elapsed, mktimeOf_elapsed, elapsed, elapsed, hsec, clampSec_eq (clampSec_bounds tm.sec), sub_self,
    sub_zero, add_zero]
  congr 2
  ring

theorem normalises_mktimeOf (pick : ℤ → ℤ) : Normalises (mktimeOf pick fun _ => pick) := by
  intro tm tm' _ _ h
  simp only [mktimeOf, ite_self, h]

section AddSeconds

variable (R : DstRule) (isdst : ℤ → ℤ) (tzname : Bool → List Char) (t n : ℤ)

/-- The fields of `t` with other seconds, as `add_seconds` passes them to `mktime`. -/
def asked (sec : ℤ) : Tm := { breakdown (R.reading t) with sec := sec, isdst := -1 }

theorem addSeconds_asks (hn : IsInt32 ((R.localtime isdst t).sec + n)) (mktime : Tm → ℤ) :
    addSeconds (R.zone isdst mktime tzname) t n = mktime (R.asked t ((R.localtime isdst t).sec + n)) := by
  have hs : int32 ((R.localtime isdst t).sec + n) = (R.localtime isdst t).sec + n := int32_eq hn
  show mktime { R.localtime isdst t with sec := int32 ((R.localtime isdst t).sec + n), isdst := -1 } = _
  rw [hs]
  rfl

theorem timegm_asked (sec : ℤ) : timegm (R.asked t sec) = R.reading t + (sec - (R.localtime isdst t).sec) := by
  rw [asked, timegm_sec, timegm_breakdown]
  rfl

theorem asked_inRange {sec : ℤ} (h : 0 ≤ sec ∧ sec < 60) : (R.asked t sec).InRange := by
  obtain ⟨hdate, hhour, hmin, -⟩ := breakdown_inRange (R.reading t)
  exact ⟨hdate, hhour, hmin, h⟩

/-- Asked for seconds of the minute of `t`, every `mktime` answers with the instant that
has them where it is alone with its fields. -/
theorem mktime_asked {mktime : Tm → ℤ} (hmk : R.IsMktime mktime) {k : ℤ}
    (hk : 0 ≤ (R.localtime isdst t).sec + k ∧ (R.localtime isdst t).sec + k < 60) (h : R.Alone t (t + k)) :
    mktime (R.asked t ((R.localtime isdst t).sec + k)) = t + k := by
  obtain ⟨hv, huniq⟩ := (R.alone_iff t k).mp h
  have htm : timegm (R.asked t ((R.localtime isdst t).sec + k)) = R.reading t + k := by
    rw [timegm_asked R isdst]
    ring
  apply huniq
  rw [← htm]
  exact hmk.shows _ (R.asked_inRange t hk) rfl ⟨t + k, hv.trans htm.symm⟩

/-- What `n` makes of the seconds, within the minute. -/
def within : ℤ := clampSec ((R.localtime isdst t).sec + n) - (R.localtime isdst t).sec

theorem addSeconds_iff_any (hn : IsInt32 ((R.localtime isdst t).sec + n)) :
    (∀ mktime, R.IsMktime mktime → addSeconds (R.zone isdst mktime tzname) t n = t + n) ↔
      (0 ≤ (R.localtime isdst t).sec + n ∧ (R.localtime isdst t).sec + n < 60) ∧ R.Alone t (t + n) := by
  constructor
  · intro h
    have hsec : 0 ≤ (R.localtime isdst t).sec + n ∧ (R.localtime isdst t).sec + n < 60 := by
      by_contra hsec
      -- beyond the minute a `mktime` may answer anything
      obtain ⟨pick, hpick, -⟩ := R.exists_pick (L := R.reading 0) (v := 0) fun _ => rfl
      have := h _ (isMktime_mktimeOf hpick fun _ _ => t + n + 1)
      rw [addSeconds_asks R isdst tzname t n hn, mktimeOf] at this
      have hsec' : ¬(0 ≤ (R.asked t ((R.localtime isdst t).sec + n)).sec ∧
          (R.asked t ((R.localtime isdst t).sec + n)).sec < 60) := hsec
      rw [if_neg hsec'] at this
      omega
    refine ⟨hsec, (R.alone_iff t n).mpr ((R.forall_picks_iff _ _).mp fun pick hpick => ?_)⟩
    have := h _ (isMktime_mktimeOf hpick fun _ => pick)
    rwa [addSeconds_asks R isdst tzname t n hn, mktimeOf, ite_self, timegm_asked R isdst, add_sub_cancel_left] at this
  · rintro ⟨hsec, halone⟩ mktime hmk
    rw [addSeconds_asks R isdst tzname t n hn]
    exact R.mktime_asked isdst t hmk hsec halone

theorem addSeconds_iff_elapses (hn : IsInt32 ((R.localtime isdst t).sec + n)) :
    (∀ mktime, R.IsMktime mktime → Elapses mktime → addSeconds (R.zone isdst mktime tzname) t n = t + n) ↔
      R.Alone t (t + R.within isdst t n) := by
  have hk : (R.localtime isdst t).sec + R.within isdst t n = clampSec ((R.localtime isdst t).sec + n) := by
    rw [within]
    ring
  have hbounds := clampSec_bounds ((R.localtime isdst t).sec + n)
  constructor
  · intro h
    refine (R.alone_iff t _).mpr ((R.forall_picks_iff _ _).mp fun pick hpick => ?_)
    have := h _ (isMktime_mktimeOf hpick (elapsed pick)) (elapses_mktimeOf pick)
    rw [addSeconds_asks R isdst tzname t n hn, mktimeOf_elapsed, timegm_asked R isdst, elapsed] at this
    change pick (R.reading t + ((R.localtime isdst t).sec + n - (R.localtime isdst t).sec) -
      ((R.localtime isdst t).sec + n - clampSec ((R.localtime isdst t).sec + n))) +
        ((R.localtime isdst t).sec + n - clampSec ((R.localtime isdst t).sec + n)) = t + n at this
    have harg : R.reading t + ((R.localtime isdst t).sec + n - (R.localtime isdst t).sec) -
        ((R.localtime isdst t).sec + n - clampSec ((R.localtime isdst t).sec + n)) =
          R.reading t + R.within isdst t n := by
      rw [within]
      ring
    rw [harg] at this
    rw [within] at this ⊢
    omega
  · intro halone mktime hmk hel
    have hin : mktime (R.asked t ((R.localtime isdst t).sec + R.within isdst t n)) = t + R.within isdst t n :=
      R.mktime_asked isdst t hmk (by rw [hk]; exact hbounds) halone
    rw [hk] at hin
    rw [addSeconds_asks R isdst tzname t n hn, hel _ rfl]
    change mktime (R.asked t (clampSec ((R.localtime isdst t).sec + n))) +
      ((R.localtime isdst t).sec + n - clampSec ((R.localtime isdst t).sec + n)) = t + n
    rw [hin, within]
    ring

theorem addSeconds_iff_normalises (hn : IsInt32 ((R.localtime isdst t).sec + n)) :
    (∀ mktime, R.IsMktime mktime → Normalises mktime → addSeconds (R.zone isdst mktime tzname) t n = t + n) ↔
      R.Alone t (t + n) := by
  have htm : timegm (R.asked t ((R.localtime isdst t).sec + n)) = R.reading t + n := by
    rw [timegm_asked R isdst]
    ring
  constructor
  · intro h
    refine (R.alone_iff t n).mpr ((R.forall_picks_iff _ _).mp fun pick hpick => ?_)
    have := h _ (isMktime_mktimeOf hpick fun _ => pick) (normalises_mktimeOf pick)
    rwa [addSeconds_asks R isdst tzname t n hn, mktimeOf, ite_self, htm] at this
  · intro halone mktime hmk hnorm
    obtain ⟨hv, huniq⟩ := (R.alone_iff t n).mp halone
    -- the fields of the reading itself are in range
    have hr : timegm { breakdown (R.reading t + n) with isdst := -1 } = R.reading t + n := by
      have := timegm_sec (breakdown (R.reading t + n)) (breakdown (R.reading t + n)).sec (-1)
      rwa [sub_self, add_zero, timegm_breakdown] at this
    have hrange : ({ breakdown (R.reading t + n) with isdst := -1 } : Tm).InRange := by
      obtain ⟨hdate, hhour, hmin, hsec⟩ := breakdown_inRange (R.reading t + n)
      exact ⟨hdate, hhour, hmin, hsec⟩
    rw [addSeconds_asks R isdst tzname t n hn,
      hnorm _ { breakdown (R.reading t + n) with isdst := -1 } rfl rfl (htm.trans hr.symm)]
    apply huniq
    have := hmk.shows _ hrange rfl ⟨t + n, hv.trans hr.symm⟩
    rwa [hr] at this

/-- **When `add_seconds` adds.** Under every `mktime` the zone can have it answers `t + n`
if and only if `tm_sec + n` stays in the minute, the offset at `t + n` is the one at `t`
and no other instant shows the fields of `t + n`. Where `mktime` counts seconds beyond the
minute as elapsed, the same is asked at the instant within the minute of `t` that is
nearest to `t + n`; where it carries them first, at `t + n`. -/
theorem addSeconds_iff (hn : IsInt32 ((R.localtime isdst t).sec + n)) :
    ((∀ mktime, R.IsMktime mktime → addSeconds (R.zone isdst mktime tzname) t n = t + n) ↔
        (0 ≤ (R.localtime isdst t).sec + n ∧ (R.localtime isdst t).sec + n < 60) ∧ R.Alone t (t + n)) ∧
      ((∀ mktime, R.IsMktime mktime → Elapses mktime → addSeconds (R.zone isdst mktime tzname) t n = t + n) ↔
        R.Alone t (t + R.within isdst t n)) ∧
      ((∀ mktime, R.IsMktime mktime → Normalises mktime → addSeconds (R.zone isdst mktime tzname) t n = t + n) ↔
        R.Alone t (t + n)) :=
  ⟨R.addSeconds_iff_any isdst tzname t n hn, R.addSeconds_iff_elapses isdst tzname t n hn,
    R.addSeconds_iff_normalises isdst tzname t n hn⟩

end AddSeconds

/-! ### The repeated hour -/

/-- The clock shows the epoch's time, and goes back an hour at instant 0. -/
def fallBack : DstRule := ⟨0, [(0, false)]⟩

theorem fallBack_reading (s : ℤ) : fallBack.reading s = if 0 ≤ s then s - 3600 else s := by
  unfold reading off fallBack shift
  by_cases hs : 0 ≤ s
  · simp [hs]; omega
  · simp [hs]

/-- The earlier of the two instants that show a reading of the repeated hour. -/
def earlier (L : ℤ) : ℤ := if L < 0 then L else L + 3600

theorem fallBack_earlier : fallBack.Picks earlier := by
  intro L _
  simp only [fallBack_reading, earlier]
  split_ifs <;> omega

def fallBackMktime : Tm → ℤ := mktimeOf earlier (elapsed earlier)

/-- Half an hour after the change, adding no seconds goes back an hour. -/
theorem addSeconds_repeated_hour :
    IsInt32 ((fallBack.localtime (fun _ => 0) 1800).sec + 0) ∧
      fallBack.IsMktime fallBackMktime ∧ Elapses fallBackMktime ∧
      addSeconds (fallBack.zone (fun _ => 0) fallBackMktime fun _ => []) 1800 0 ≠ 1800 + 0 :=
  ⟨by decide, isMktime_mktimeOf fallBack_earlier _, elapses_mktimeOf _, by decide⟩

/-- Two hours before the change the reading is shown once, and two hours can be added. -/
theorem addSeconds_over_change :
    addSeconds (fallBack.zone (fun _ => 0) fallBackMktime fun _ => []) (-7200) 7200 = -7200 + 7200 := by
  refine (addSeconds_iff fallBack (fun _ => 0) (fun _ => []) (-7200) 7200 (by decide)).2.1.mpr ⟨by decide, ?_⟩
    fallBackMktime (isMktime_mktimeOf fallBack_earlier _) (elapses_mktimeOf _)
  have hwithin : fallBack.within (fun _ => 0) (-7200) 7200 = 59 := by decide
  intro s hs
  simp only [fallBack_reading, hwithin] at hs ⊢
  split_ifs at hs <;> omega

end DstRule

end BlenderBottle
