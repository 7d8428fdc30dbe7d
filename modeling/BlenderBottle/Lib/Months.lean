/-
# Months counted through the years

A month is one integer, `12 * year + month`. `monthFirst k` is the day number
of the first of month `k`; one successor lemma (`monthFirst_succ`) makes it
strictly increasing, so the months cut the days into intervals and
`monthIndex` finds the interval of a day. A `Moment` is a month, a day that
exists in it and a second of that day; moments and counts of seconds are the
same thing (`momentEquiv`). The integers act by months on the moments up to
the 28th (`EarlyMoment`).

Key definitions: `monthFirst`, `monthDays`, `monthIndex`, `Moment`.
Key theorems: `monthFirst_strictMono`, `monthIndex_eq_iff`, `momentEquiv`.
-/
import BlenderBottle.Lib.Gregorian

namespace Gregorian

/-! ### Month numbers -/

/-- The day number of the first of month `k`, counted from January of year 0. -/
def monthFirst (k : ℤ) : ℤ := dayNumber (k / 12) (k % 12) 1

/-- The days of month `k`. -/
def monthDays (k : ℤ) : ℤ := monthLen (k / 12) (k % 12)

theorem monthDays_bounds (k : ℤ) : 28 ≤ monthDays k ∧ monthDays k ≤ 31 := monthLen_bounds _ _

theorem monthFirst_of_month {y m : ℤ} (h0 : 0 ≤ m) (h1 : m ≤ 11) :
    monthFirst (12 * y + m) = dayNumber y m 1 := by
  have hq : (12 * y + m) / 12 = y := by omega
  have hr : (12 * y + m) % 12 = m := by omega
  rw [monthFirst, hq, hr]

theorem monthDays_of_month {y m : ℤ} (h0 : 0 ≤ m) (h1 : m ≤ 11) : monthDays (12 * y + m) = monthLen y m := by
  have hq : (12 * y + m) / 12 = y := by omega
  have hr : (12 * y + m) % 12 = m := by omega
  rw [monthDays, hq, hr]

/-- The months follow each other without a gap. -/
theorem monthFirst_succ (k : ℤ) : monthFirst (k + 1) = monthFirst k + monthDays k := by
  obtain ⟨y, m, h0, h1, rfl⟩ : ∃ y m : ℤ, 0 ≤ m ∧ m ≤ 11 ∧ k = 12 * y + m :=
    ⟨k / 12, k % 12, by omega, by omega, by omega⟩
  rw [monthFirst_of_month h0 h1, monthDays_of_month h0 h1]
  rcases eq_or_lt_of_le h1 with rfl | h
  · -- December is followed by January of the next year
    have hd := monthStart_december y
    rw [show 12 * y + 11 + 1 = 12 * (y + 1) + 0 by ring, monthFirst_of_month le_rfl (by norm_num)]
    rw [dayNumber, dayNumber, yearStart_succ, monthStart_zero]
    omega
  · rw [add_assoc, monthFirst_of_month (by omega) (by omega), dayNumber, dayNumber,
      monthStart_succ h0 (by omega)]
    ring

theorem monthFirst_strictMono : StrictMono monthFirst := by
  apply strictMono_int_of_lt_succ
  intro k
  have hlen := monthDays_bounds k
  rw [monthFirst_succ]
  omega

/-- The month that day `n` lies in. -/
def monthIndex (n : ℤ) : ℤ := 12 * yearOf n + monthOf n

/-- A day is its month's first and the days of the month before it. -/
theorem monthFirst_monthIndex (n : ℤ) : monthFirst (monthIndex n) + (mdayOf n - 1) = n := by
  obtain ⟨m0, m1, -, -⟩ := validDate_of_day n
  have hn := dayNumber_of_day n
  rw [monthIndex, monthFirst_of_month m0 m1, dayNumber]
  rw [dayNumber] at hn
  omega

theorem mdayOf_bounds (n : ℤ) : 1 ≤ mdayOf n ∧ mdayOf n ≤ monthDays (monthIndex n) := by
  obtain ⟨m0, m1, d0, d1⟩ := validDate_of_day n
  rw [monthIndex, monthDays_of_month m0 m1]
  exact ⟨d0, d1⟩

/-- Month `k` holds the days from its first to before the next one's. -/
theorem monthIndex_eq_iff {n k : ℤ} : monthIndex n = k ↔ monthFirst k ≤ n ∧ n < monthFirst (k + 1) := by
  have hd := mdayOf_bounds n
  have hn := monthFirst_monthIndex n
  have hs := monthFirst_succ (monthIndex n)
  constructor
  · rintro rfl
    omega
  · rintro ⟨h1, h2⟩
    -- either order of the two months would put `n` outside one of them
    have hlt : monthFirst k < monthFirst (monthIndex n + 1) := by omega
    have hgt : monthFirst (monthIndex n) < monthFirst (k + 1) := by omega
    rw [monthFirst_strictMono.lt_iff_lt] at hlt hgt
    omega

/-- A day past the end of its month falls in the next one. -/
theorem monthIndex_carry {k d : ℤ} (h0 : 1 ≤ d) (h1 : d ≤ 31) :
    monthIndex (monthFirst k + (d - 1)) = if d ≤ monthDays k then k else k + 1 := by
  have hs := monthFirst_succ k
  have hs' := monthFirst_succ (k + 1)
  have hb := monthDays_bounds k
  have hb' := monthDays_bounds (k + 1)
  rw [monthIndex_eq_iff]
  split_ifs <;> omega

theorem monthIndex_mono : Monotone monthIndex := by
  intro n n' h
  have h1 := (monthIndex_eq_iff (n := n)).mp rfl
  have h2 := (monthIndex_eq_iff (n := n')).mp rfl
  have hlt : monthFirst (monthIndex n) < monthFirst (monthIndex n' + 1) := by omega
  rw [monthFirst_strictMono.lt_iff_lt] at hlt
  omega

theorem mdayOf_eq {n k d : ℤ} (hk : monthIndex n = k) (hd : monthFirst k + (d - 1) = n) : mdayOf n = d := by
  have hn := monthFirst_monthIndex n
  rw [hk] at hn
  omega

/-- The date of day `n` as the decimal number `YYYYMMDD`. -/
def dateCode (n : ℤ) : ℤ := yearOf n * 10000 + (monthOf n + 1) * 100 + mdayOf n

/-- Later days have larger codes. -/
theorem dateCode_strictMono : StrictMono dateCode := by
  intro n n' h
  have hm := monthIndex_mono h.le
  have hn := monthFirst_monthIndex n
  have hn' := monthFirst_monthIndex n'
  obtain ⟨m0, m1, d0, d1⟩ := validDate_of_day n
  obtain ⟨m0', m1', d0', -⟩ := validDate_of_day n'
  have hl := monthLen_bounds (yearOf n) (monthOf n)
  rcases eq_or_lt_of_le hm with he | hlt
  · -- in one month the days decide
    rw [← he] at hn'
    unfold monthIndex at he
    unfold dateCode
    omega
  · unfold monthIndex at hlt
    unfold dateCode
    omega

/-! ### Moments -/

/-- A day of a month and a second of that day. -/
@[ext]
structure Moment where
  month : ℤ
  mday : ℤ
  second : ℤ
  mday_mem : 1 ≤ mday ∧ mday ≤ monthDays month
  second_mem : 0 ≤ second ∧ second < 86400

namespace Moment

variable (p : Moment)

/-- The seconds from the epoch to `p`. -/
def count : ℤ := 86400 * (monthFirst p.month + (p.mday - 1)) + p.second

/-- The moment `n` seconds from the epoch. -/
def ofCount (n : ℤ) : Moment where
  month := monthIndex (n / 86400)
  mday := mdayOf (n / 86400)
  second := n % 86400
  mday_mem := mdayOf_bounds _
  second_mem := by omega

/-- Day `d` of month `k` at the time of day of `p`. -/
def onDay (k d : ℤ) (h : 1 ≤ d ∧ d ≤ monthDays k) : Moment := ⟨k, d, p.second, h, p.second_mem⟩

/-- The first day of the month of `p`, at the time of day of `p`. -/
def first : Moment := p.onDay p.month 1 ⟨le_rfl, by have := monthDays_bounds p.month; omega⟩

/-- The last day of the month of `p`, at the time of day of `p`. -/
def last : Moment := p.onDay p.month (monthDays p.month) ⟨by have := monthDays_bounds p.month; omega, le_rfl⟩

theorem first_le : p.first.count ≤ p.count := by
  have hd := p.mday_mem
  simp only [count, first, onDay]
  omega

theorem le_last : p.count ≤ p.last.count := by
  have hd := p.mday_mem
  simp only [count, last, onDay]
  omega

/-- The day after the last is the next month's first. -/
theorem last_count_succ : p.last.count + 86400 = 86400 * monthFirst (p.month + 1) + p.second := by
  rw [monthFirst_succ]
  simp only [count, last, onDay]
  ring

theorem count_div : p.count / 86400 = monthFirst p.month + (p.mday - 1) := by
  have := p.second_mem
  unfold count
  omega

theorem count_mod : p.count % 86400 = p.second := by
  have := p.second_mem
  unfold count
  omega

theorem monthIndex_count : monthIndex (p.count / 86400) = p.month := by
  have hd := p.mday_mem
  rw [monthIndex_eq_iff, count_div, monthFirst_succ]
  omega

theorem mdayOf_count : mdayOf (p.count / 86400) = p.mday := mdayOf_eq p.monthIndex_count p.count_div.symm

theorem count_ofCount (n : ℤ) : (ofCount n).count = n := by
  have hn := monthFirst_monthIndex (n / 86400)
  unfold count ofCount
  dsimp only
  omega

theorem ofCount_count : ofCount p.count = p :=
  Moment.ext p.monthIndex_count p.mdayOf_count p.count_mod

end Moment

/-- A moment on a day that every month has. -/
@[ext]
structure EarlyMoment extends Moment where
  early : mday ≤ 28

namespace EarlyMoment

theorem mday_mem_month (p : EarlyMoment) (k : ℤ) : 1 ≤ p.mday ∧ p.mday ≤ monthDays k :=
  ⟨p.mday_mem.1, p.early.trans (monthDays_bounds k).1⟩

/-- The integers act on these moments by months. -/
instance : AddAction ℤ EarlyMoment where
  vadd n p := ⟨p.onDay (n + p.month) p.mday (p.mday_mem_month _), p.early⟩
  zero_vadd p := EarlyMoment.ext (zero_add p.month) rfl rfl
  add_vadd m n p := EarlyMoment.ext (add_assoc m n p.month) rfl rfl

@[simp] theorem vadd_month (n : ℤ) (p : EarlyMoment) : (n +ᵥ p).month = n + p.month := rfl

@[simp] theorem vadd_mday (n : ℤ) (p : EarlyMoment) : (n +ᵥ p).mday = p.mday := rfl

end EarlyMoment

/-- **Moments and counts of seconds are the same thing.** -/
def momentEquiv : Moment ≃ ℤ where
  toFun := Moment.count
  invFun := Moment.ofCount
  left_inv := Moment.ofCount_count
  right_inv := Moment.count_ofCount

end Gregorian
