import Mathlib.Algebra.BigOperators.Group.Finset.Basic
import Mathlib.Tactic

/-! The calendar of dates.

`DateCache` converts day numbers to dates by taking whole cycles of 400, 100, 4 and 1 years off a number that has been
made positive, and keeps the last date in a cache of one entry. Divisions are those of the machine, which round towards
zero; no value leaves the range of an `int` for the days that a time can have. -/
namespace V8Multithread.Date
open List

/-! ### The proleptic Gregorian calendar -/

def IsLeapYear (year : ℤ) : Prop := year % 4 = 0 ∧ (year % 100 ≠ 0 ∨ year % 400 = 0)

instance (year : ℤ) : Decidable (IsLeapYear year) := inferInstanceAs (Decidable (_ ∧ _))

/-- The length of a month. Months are counted from January of the year 0. -/
def monthLength (k : ℤ) : ℤ :=
  if k % 12 = 1 then if IsLeapYear (k / 12) then 29 else 28
  else if k % 12 = 3 ∨ k % 12 = 5 ∨ k % 12 = 8 ∨ k % 12 = 10 then 30
  else 31

def epoch : ℤ := 12 * 1970

/-- The number of days from 1970-01-01 to the first day of a month, negative for an earlier month. -/
def firstDay (k : ℤ) : ℤ :=
  ∑ i ∈ Finset.range (k - epoch).toNat, monthLength (epoch + i) - ∑ i ∈ Finset.range (epoch - k).toNat, monthLength (k + i)

structure IsDate (days year month day : ℤ) : Prop where
  month_nonneg : 0 ≤ month
  month_le : month ≤ 11
  day_pos : 1 ≤ day
  day_le : day ≤ monthLength (12 * year + month)
  eq : firstDay (12 * year + month) + day - 1 = days

/-! ### The model -/

def kDaysIn4Years : ℤ := 4 * 365 + 1
def kDaysIn100Years : ℤ := 25 * kDaysIn4Years - 1
def kDaysIn400Years : ℤ := 4 * kDaysIn100Years + 1
def kDays1970to2000 : ℤ := 30 * 365 + 7
def kDaysOffset : ℤ := 1000 * kDaysIn400Years + 5 * kDaysIn400Years - kDays1970to2000
def kYearsOffset : ℤ := 400000
def kDaysInMonths : List ℤ := [31, 28, 31, 30, 31, 30, 31, 31, 30, 31, 30, 31]

def dayFromMonth : List ℤ := [0, 31, 59, 90, 120, 151, 181, 212, 243, 273, 304, 334]
def dayFromMonthLeap : List ℤ := [0, 31, 60, 91, 121, 152, 182, 213, 244, 274, 305, 335]

def daysFromYearMonth (year month : ℤ) : ℤ :=
  let year := year + month.tdiv 12
  let month := month.tmod 12
  let (year, month) := if month < 0 then (year - 1, month + 12) else (year, month)
  let yearDelta := 399999
  let baseDay := 365 * (1970 + yearDelta) + (1970 + yearDelta).tdiv 4 - (1970 + yearDelta).tdiv 100 +
    (1970 + yearDelta).tdiv 400
  let year1 := year + yearDelta
  let dayFromYear := 365 * year1 + year1.tdiv 4 - year1.tdiv 100 + year1.tdiv 400 - baseDay
  if year.tmod 4 ≠ 0 ∨ year.tmod 100 = 0 ∧ year.tmod 400 ≠ 0 then dayFromYear + dayFromMonth.getD month.toNat 0
  else dayFromYear + dayFromMonthLeap.getD month.toNat 0

structure DateCache where
  ymdValid : Bool
  ymdYear : ℤ
  ymdMonth : ℤ
  ymdDay : ℤ
  ymdDays : ℤ

/-- What `ResetDateCache` does to the entry. -/
def DateCache.resetDateCache (c : DateCache) : DateCache := {c with ymdValid := false}

/-- The year, whether it is a leap year, and the day in it, counted from zero. -/
def yearFromDays (days : ℤ) : ℤ × Bool × ℤ :=
  let days := days + kDaysOffset
  let year := 400 * days.tdiv kDaysIn400Years - kYearsOffset
  let days := days.tmod kDaysIn400Years - 1
  let yd1 := days.tdiv kDaysIn100Years
  let days := days.tmod kDaysIn100Years + 1
  let yd2 := days.tdiv kDaysIn4Years
  let days := days.tmod kDaysIn4Years - 1
  let yd3 := days.tdiv 365
  let days := days.tmod 365
  let isLeap : Bool := (yd1 = 0 ∨ yd2 ≠ 0) ∧ yd3 = 0
  (year + 100 * yd1 + 4 * yd2 + yd3, isLeap, days + if isLeap then 1 else 0)

/-- The loop over the months from March on. Nothing is found if the year is over. -/
def fromMarch (days : ℤ) (i : ℤ) : List ℤ → Option (ℤ × ℤ)
  | [] => none
  | length :: rest => if days < length then some (i, days + 1) else fromMarch (days - length) (i + 1) rest

def monthFromDays (isLeap : Bool) (days : ℤ) : Option (ℤ × ℤ) :=
  let march := 31 + 28 + if isLeap then 1 else 0
  if march ≤ days then fromMarch (days - march) 2 (kDaysInMonths.drop 2)
  else if days < 31 then some (0, days + 1)
  else some (1, days - 31 + 1)

def yearMonthDayFromDays (c : DateCache) (days : ℤ) : Option ((ℤ × ℤ × ℤ) × DateCache) :=
  let newDay := c.ymdDay + (days - c.ymdDays)
  if c.ymdValid ∧ 1 ≤ newDay ∧ newDay ≤ 28 then
    some ((c.ymdYear, c.ymdMonth, newDay), {c with ymdDay := newDay, ymdDays := days})
  else do
    let (year, isLeap, rest) := yearFromDays days
    let (month, day) ← monthFromDays isLeap rest
    return ((year, month, day), ⟨true, year, month, day, days⟩)

def run (c : DateCache) : List ℤ → Option (List (ℤ × ℤ × ℤ) × DateCache)
  | [] => some ([], c)
  | days :: rest => do
    let (date, c) ← yearMonthDayFromDays c days
    let (dates, c) ← run c rest
    return (date :: dates, c)

/-! ### The number of days before a month -/

/-- The days before a year, and in it before a month. -/
def dayFromYear (year : ℤ) : ℤ := 365 * (year - 1970) + (year - 1) / 4 - (year - 1) / 100 + (year - 1) / 400 - 477

def dayInYear (year month : ℤ) : ℤ :=
  (if IsLeapYear year then dayFromMonthLeap else dayFromMonth).getD month.toNat 0

theorem dayFromYear_succ (year : ℤ) : dayFromYear (year + 1) = dayFromYear year + if IsLeapYear year then 366 else 365 := by
  rw [dayFromYear, dayFromYear]
  by_cases hl : IsLeapYear year
  · rw [if_pos hl]
    rw [IsLeapYear] at hl
    omega
  · rw [if_neg hl]
    rw [IsLeapYear] at hl
    omega

/-- From one month to the next. -/
theorem dayInYear_succ (k : ℤ) : dayFromYear ((k + 1) / 12) + dayInYear ((k + 1) / 12) ((k + 1) % 12) =
      dayFromYear (k / 12) + dayInYear (k / 12) (k % 12) + monthLength k := by
  obtain ⟨year, hy⟩ : ∃ year, year = k / 12 := ⟨_, rfl⟩
  have hsu := dayFromYear_succ year
  rw [monthLength, ← hy]
  have hlo := Int.emod_nonneg k (show (12 : ℤ) ≠ 0 by decide)
  have hhi := Int.emod_lt_of_pos k (show (0 : ℤ) < 12 by decide)
  by_cases hla : k % 12 = 11
  · rw [show (k + 1) / 12 = year + 1 by omega, show (k + 1) % 12 = 0 by omega, hla, hsu]
    have hzero : dayInYear (year + 1) 0 = 0 := by
      rw [dayInYear]
      split <;> rfl
    rw [hzero, dayInYear]
    by_cases hl : IsLeapYear year <;> simp [hl, dayFromMonth, dayFromMonthLeap] <;> omega
  · rw [show (k + 1) / 12 = year by omega, show (k + 1) % 12 = k % 12 + 1 by omega, dayInYear, dayInYear]
    generalize k % 12 = month at *
    by_cases hl : IsLeapYear year <;> interval_cases month <;>
      simp [hl, dayFromMonth, dayFromMonthLeap] at * <;> omega

theorem sum_monthLength (k : ℤ) (n : Nat) :
    ∑ i ∈ Finset.range n, monthLength (k + i) = dayFromYear ((k + n) / 12) + dayInYear ((k + n) / 12) ((k + n) % 12) -
      (dayFromYear (k / 12) + dayInYear (k / 12) (k % 12)) := by
  induction n with
  | zero => simp
  | succ n ih =>
    rw [Finset.sum_range_succ, ih, Nat.cast_succ, ← add_assoc, dayInYear_succ (k + n)]
    ring

theorem firstDay_eq (k : ℤ) : firstDay k = dayFromYear (k / 12) + dayInYear (k / 12) (k % 12) := by
  have hep : dayFromYear (epoch / 12) + dayInYear (epoch / 12) (epoch % 12) = 0 := by decide
  rw [firstDay, sum_monthLength, sum_monthLength, hep]
  rcases le_total epoch k with h | h
  · rw [Int.toNat_of_nonneg (by omega), Int.toNat_of_nonpos (show epoch - k ≤ 0 by omega), Nat.cast_zero, add_zero,
      add_sub_cancel]
    ring
  · rw [Int.toNat_of_nonneg (show 0 ≤ epoch - k by omega), Int.toNat_of_nonpos (by omega), Nat.cast_zero, add_zero,
      add_sub_cancel, hep]
    ring

theorem firstDay_year_month {year month : ℤ} (hlo : 0 ≤ month) (hhi : month ≤ 11) :
    firstDay (12 * year + month) = dayFromYear year + dayInYear year month := by
  rw [firstDay_eq, show (12 * year + month) / 12 = year by omega, show (12 * year + month) % 12 = month by omega]

theorem monthLength_year_month {year month : ℤ} (hlo : 0 ≤ month) (hhi : month ≤ 11) :
    monthLength (12 * year + month) = kDaysInMonths.getD month.toNat 0 + if month = 1 ∧ IsLeapYear year then 1 else 0 := by
  rw [monthLength, show (12 * year + month) / 12 = year by omega, show (12 * year + month) % 12 = month by omega]
  interval_cases month <;> simp [kDaysInMonths]
  split <;> rfl

/-- The quotient and the remainder of a division that rounds towards zero, for a number that may be -1. -/
theorem truncated {days c : ℤ} (hda : -1 ≤ days) (hc : 1 < c) :
    c * days.tdiv c + days.tmod c = days ∧ 0 ≤ days.tdiv c ∧ -1 ≤ days.tmod c ∧ days.tmod c < c ∧
      (days.tmod c < 0 → days = -1 ∧ days.tdiv c = 0) := by
  refine ⟨Int.mul_tdiv_add_tmod days c, ?_⟩
  by_cases hneg : days = -1
  · have hdiv : (-1 : ℤ).tdiv c = 0 := by rw [Int.neg_tdiv, Int.tdiv_eq_zero_of_lt (by decide) hc, neg_zero]
    have hmod : (-1 : ℤ).tmod c = -1 := by rw [Int.tmod_def, hdiv, mul_zero, sub_zero]
    rw [hneg, hdiv, hmod]
    omega
  · have hno : 0 ≤ days := by omega
    have hmod := Int.tmod_nonneg c hno
    exact ⟨Int.tdiv_nonneg hno (by omega), by omega, Int.tmod_lt_of_pos days (by omega), fun h => by omega⟩

theorem tmod_eq_zero_iff (a c : ℤ) : a.tmod c = 0 ↔ a % c = 0 :=
  Int.dvd_iff_tmod_eq_zero.symm.trans Int.dvd_iff_emod_eq_zero

theorem daysFromYearMonth_eq {year month : ℤ} (h : -399998 ≤ year + month / 12) :
    daysFromYearMonth year month = firstDay (12 * year + month) := by
  have hmod := Int.mul_tdiv_add_tmod month 12
  have hlo := Int.lt_tmod_of_pos month (show (0 : ℤ) < 12 by decide)
  have hhi := Int.tmod_lt_of_pos month (show (0 : ℤ) < 12 by decide)
  have hno : (if month.tmod 12 < 0 then (year + month.tdiv 12 - 1, month.tmod 12 + 12)
      else (year + month.tdiv 12, month.tmod 12)) = ((12 * year + month) / 12, (12 * year + month) % 12) := by
    split <;> refine Prod.ext ?_ ?_ <;> dsimp only <;> omega
  rw [daysFromYearMonth, hno, firstDay_eq, dayInYear]
  dsimp only
  generalize hy : (12 * year + month) / 12 = year'
  rw [Int.tdiv_eq_ediv_of_nonneg (show 0 ≤ year' + 399999 by omega),
    Int.tdiv_eq_ediv_of_nonneg (show 0 ≤ year' + 399999 by omega),
    Int.tdiv_eq_ediv_of_nonneg (show 0 ≤ year' + 399999 by omega)]
  have hda : ∀ x, 365 * (year' + 399999) + (year' + 399999) / 4 - (year' + 399999) / 100 + (year' + 399999) / 400 -
      (365 * (1970 + 399999) + (1970 + 399999 : ℤ).tdiv 4 - (1970 + 399999 : ℤ).tdiv 100 + (1970 + 399999 : ℤ).tdiv 400) + x =
        dayFromYear year' + x := by
    intro x
    rw [dayFromYear, show (1970 + 399999 : ℤ).tdiv 4 = 100492 by decide, show (1970 + 399999 : ℤ).tdiv 100 = 4019 by decide,
      show (1970 + 399999 : ℤ).tdiv 400 = 1004 by decide]
    omega
  have hl : (year'.tmod 4 ≠ 0 ∨ year'.tmod 100 = 0 ∧ year'.tmod 400 ≠ 0) ↔ ¬IsLeapYear year' := by
    rw [Ne, Ne, tmod_eq_zero_iff, tmod_eq_zero_iff, tmod_eq_zero_iff, IsLeapYear]
    omega
  rw [hda, hda]
  by_cases h : IsLeapYear year'
  · rw [if_pos h, if_neg (fun h' => hl.mp h' h)]
  · rw [if_neg h, if_pos (hl.mpr h)]

/-! ### From days to dates -/

/-- The days that a time can have, and some more. -/
def InRange (days : ℤ) : Prop := -100000030 ≤ days ∧ days ≤ 100000030

/-- A cycle has one day more than its parts if it begins with a leap year. -/
theorem dayFromYear_cycles (q0 : ℤ) {q1 q2 q3 : ℤ} (h1 : 0 ≤ q1 ∧ q1 ≤ 3) (h2 : 0 ≤ q2 ∧ q2 ≤ 24) (h3 : 0 ≤ q3 ∧ q3 ≤ 3) :
    dayFromYear (400 * q0 - 400000 + 100 * q1 + 4 * q2 + q3) = 146097 * q0 + 36524 * q1 + 1461 * q2 + 365 * q3 - 146816527 -
      (if q3 = 0 then 1 else 0) + (if q2 = 0 ∧ q3 = 0 then 1 else 0) - if q1 = 0 ∧ q2 = 0 ∧ q3 = 0 then 1 else 0 := by
  have h4 : (400 * q0 - 400000 + 100 * q1 + 4 * q2 + q3 - 1) / 4 =
      100 * q0 - 100000 + 25 * q1 + q2 - if q3 = 0 then 1 else 0 := by split <;> omega
  have h100 : (400 * q0 - 400000 + 100 * q1 + 4 * q2 + q3 - 1) / 100 =
      4 * q0 - 4000 + q1 - if q2 = 0 ∧ q3 = 0 then 1 else 0 := by split <;> omega
  have h400 : (400 * q0 - 400000 + 100 * q1 + 4 * q2 + q3 - 1) / 400 =
      q0 - 1000 - if q1 = 0 ∧ q2 = 0 ∧ q3 = 0 then 1 else 0 := by split <;> omega
  rw [dayFromYear, h4, h100, h400]
  ring

theorem yearFromDays_spec {days : ℤ} (h : InRange days) :
    ∃ year d, yearFromDays days = (year, decide (IsLeapYear year), d) ∧ dayFromYear year + d = days ∧ 0 ≤ d ∧
      (d < 365 + if IsLeapYear year then 1 else 0) ∧ -399998 ≤ year ∧ year ≤ 1000000 := by
  obtain ⟨hlo, hhi⟩ := h
  have ho : kDaysOffset = 146816528 := by decide
  have h400 : kDaysIn400Years = 146097 := by decide
  have h100 : kDaysIn100Years = 36524 := by decide
  have h4 : kDaysIn4Years = 1461 := by decide
  rw [yearFromDays, ho, h400, h100, h4, show kYearsOffset = 400000 from rfl]
  obtain ⟨heq0, hq0, hr0, hlt0, hneg0⟩ := truncated (show -1 ≤ days + 146816528 by omega) (show (1 : ℤ) < 146097 by decide)
  generalize (days + 146816528).tdiv 146097 = q0 at *
  generalize (days + 146816528).tmod 146097 = r0 at *
  obtain ⟨heq1, hq1, hr1, hlt1, hneg1⟩ := truncated (show -1 ≤ r0 - 1 by omega) (show (1 : ℤ) < 36524 by decide)
  generalize (r0 - 1).tdiv 36524 = q1 at *
  generalize (r0 - 1).tmod 36524 = r1 at *
  obtain ⟨heq2, hq2, hr2, hlt2, hneg2⟩ := truncated (show -1 ≤ r1 + 1 by omega) (show (1 : ℤ) < 1461 by decide)
  generalize (r1 + 1).tdiv 1461 = q2 at *
  generalize (r1 + 1).tmod 1461 = r2 at *
  obtain ⟨heq3, hq3, hr3, hlt3, hneg3⟩ := truncated (show -1 ≤ r2 - 1 by omega) (show (1 : ℤ) < 365 by decide)
  generalize (r2 - 1).tdiv 365 = q3 at *
  generalize (r2 - 1).tmod 365 = r3 at *
  have hl : ((q1 = 0 ∨ q2 ≠ 0) ∧ q3 = 0) ↔ IsLeapYear (400 * q0 - 400000 + 100 * q1 + 4 * q2 + q3) := by
    rw [IsLeapYear]
    omega
  rw [decide_eq_decide.mpr hl]
  refine ⟨_, _, rfl, ?_⟩
  rw [dayFromYear_cycles q0 (by omega) (by omega) (by omega)]
  simp only [decide_eq_true_eq, ← hl]
  split_ifs <;> omega

/-- The loop finds the month in which the day lies. -/
theorem fromMarch_spec {lengths : List ℤ} {days : ℤ} (i : ℤ) (hno : 0 ≤ days) (hlt : days < lengths.sum) :
    ∃ j : Nat, j < lengths.length ∧ fromMarch days i lengths = some (i + j, days - (lengths.take j).sum + 1) ∧
      (lengths.take j).sum ≤ days ∧ days - (lengths.take j).sum < lengths.getD j 0 := by
  induction lengths generalizing days i with
  | nil => exact absurd hlt (not_lt.mpr hno)
  | cons length rest ih =>
    rw [fromMarch]
    by_cases hfound : days < length
    · exact ⟨0, by simp, by simp [hfound], by simpa using hno, by simpa using hfound⟩
    · rw [sum_cons] at hlt
      obtain ⟨j, hj, heq, hle, hlt'⟩ := @ih (days - length) (i + 1) (by omega) (by omega)
      refine ⟨j + 1, by simpa using hj, ?_, ?_, ?_⟩
      · rw [if_neg hfound, heq, take_succ_cons, sum_cons, Nat.cast_succ]
        congr 2 <;> ring
      · rw [take_succ_cons, sum_cons]
        omega
      · rw [take_succ_cons, sum_cons, getD_cons_succ]
        omega

theorem monthFromDays_spec {year d : ℤ} (hno : 0 ≤ d) (hlt : d < 365 + if IsLeapYear year then 1 else 0) :
    ∃ month day, monthFromDays (decide (IsLeapYear year)) d = some (month, day) ∧ 0 ≤ month ∧ month ≤ 11 ∧ 1 ≤ day ∧
      day ≤ monthLength (12 * year + month) ∧ dayInYear year month + day - 1 = d := by
  suffices h : ∃ month day, monthFromDays (decide (IsLeapYear year)) d = some (month, day) ∧ 0 ≤ month ∧ month ≤ 11 ∧
      1 ≤ day ∧ (day ≤ kDaysInMonths.getD month.toNat 0 + if month = 1 ∧ IsLeapYear year then 1 else 0) ∧
      dayInYear year month + day - 1 = d by
    obtain ⟨month, day, hmo, hlo, hhi, hpos, hle, heq⟩ := h
    exact ⟨month, day, hmo, hlo, hhi, hpos, (monthLength_year_month hlo hhi).symm ▸ hle, heq⟩
  rw [monthFromDays]
  simp only [decide_eq_true_eq]
  by_cases hma : 31 + 28 + (if IsLeapYear year then 1 else 0) ≤ d
  · obtain ⟨j, hj, heq, hle, hlt'⟩ := @fromMarch_spec (kDaysInMonths.drop 2) (d - (31 + 28 + if IsLeapYear year then 1 else 0)) 2
      (by omega) (by rw [show (kDaysInMonths.drop 2).sum = 306 by decide]; split at hlt <;> simp_all <;> omega)
    rw [if_pos hma]
    refine ⟨_, _, heq, ?_⟩
    have hj' : j < 10 := hj
    have hl : (kDaysInMonths.drop 2).getD j 0 = kDaysInMonths.getD (2 + j : ℤ).toNat 0 := by
      interval_cases j <;> rfl
    have hfi : dayInYear year (2 + j) = (31 + 28 + if IsLeapYear year then 1 else 0) + ((kDaysInMonths.drop 2).take j).sum := by
      rw [dayInYear]
      by_cases hlea : IsLeapYear year
      · simp only [hlea, if_true]
        interval_cases j <;> rfl
      · simp only [hlea, if_false]
        interval_cases j <;> rfl
    rw [← hl, hfi, if_neg (show ¬((2 + j : ℤ) = 1 ∧ IsLeapYear year) by omega)]
    omega
  · have hzero : dayInYear year 0 = 0 ∧ dayInYear year 1 = 31 := by
      rw [dayInYear, dayInYear]
      split <;> exact ⟨rfl, rfl⟩
    rw [if_neg hma]
    by_cases hja : d < 31
    · rw [if_pos hja]
      refine ⟨0, _, rfl, by decide, by decide, by omega, ?_, by omega⟩
      rw [show kDaysInMonths.getD (0 : ℤ).toNat 0 = 31 from rfl, if_neg (by omega)]
      omega
    · rw [if_neg hja]
      refine ⟨1, _, rfl, by decide, by decide, by omega, ?_, by omega⟩
      rw [show kDaysInMonths.getD (1 : ℤ).toNat 0 = 28 from rfl]
      simp only [true_and]
      omega

/-! ### Runs -/

structure DateCache.Holds (c : DateCache) : Prop where
  date : c.ymdValid = true → IsDate c.ymdDays c.ymdYear c.ymdMonth c.ymdDay
  year : c.ymdValid = true → -399998 ≤ c.ymdYear ∧ c.ymdYear ≤ 1000000

theorem holds_resetDateCache (c : DateCache) : c.resetDateCache.Holds :=
  ⟨fun h => (Bool.false_ne_true h).elim, fun h => (Bool.false_ne_true h).elim⟩

theorem monthLength_ge (k : ℤ) : 28 ≤ monthLength k := by
  rw [monthLength]
  split_ifs <;> decide

theorem yearMonthDayFromDays_spec {c : DateCache} (hc : c.Holds) {days : ℤ} (h : InRange days) :
    ∃ year month day c', yearMonthDayFromDays c days = some ((year, month, day), c') ∧ c'.Holds ∧
      IsDate days year month day ∧ -399998 ≤ year ∧ year ≤ 1000000 := by
  rw [yearMonthDayFromDays]
  by_cases hhit : c.ymdValid ∧ 1 ≤ c.ymdDay + (days - c.ymdDays) ∧ c.ymdDay + (days - c.ymdDays) ≤ 28
  · obtain ⟨hva, hlo, hhi⟩ := hhit
    have hda := hc.date hva
    have heq := hda.eq
    have hnew : IsDate days c.ymdYear c.ymdMonth (c.ymdDay + (days - c.ymdDays)) :=
      ⟨hda.month_nonneg, hda.month_le, hlo, hhi.trans (monthLength_ge _), by omega⟩
    rw [if_pos ⟨hva, hlo, hhi⟩]
    exact ⟨_, _, _, _, rfl, ⟨fun _ => hnew, hc.year⟩, hnew, hc.year hva⟩
  · obtain ⟨year, d, hy, hday, hno, hlt, hra⟩ := yearFromDays_spec h
    obtain ⟨month, day, hmo, hlo, hhi, hpos, hle, heq⟩ := monthFromDays_spec hno hlt
    have hda : IsDate days year month day :=
      ⟨hlo, hhi, hpos, hle, by rw [firstDay_year_month hlo hhi]; omega⟩
    rw [if_neg hhit, hy]
    dsimp only
    rw [hmo]
    exact ⟨year, month, day, _, rfl, ⟨fun _ => hda, fun _ => hra⟩, hda, hra⟩

theorem run_spec (calls : List ℤ) {c : DateCache} (hc : c.Holds) (hca : ∀ days ∈ calls, InRange days) :
    ∃ dates c', run c calls = some (dates, c') ∧ c'.Holds ∧ List.Forall₂ (fun days date =>
      IsDate days date.1 date.2.1 date.2.2 ∧ daysFromYearMonth date.1 date.2.1 + date.2.2 - 1 = days) calls dates := by
  induction calls generalizing c with
  | nil => exact ⟨[], c, rfl, hc, .nil⟩
  | cons days rest ih =>
    obtain ⟨year, month, day, c₁, hcal, hc₁, hdat, hra⟩ :=
      yearMonthDayFromDays_spec hc (hca days (mem_cons_self ..))
    obtain ⟨dates, c₂, hrun, hc₂, hda⟩ := ih hc₁ fun days' h => hca days' (mem_cons_of_mem _ h)
    have hba : daysFromYearMonth year month = firstDay (12 * year + month) := by
      have hlo := hdat.month_nonneg
      exact daysFromYearMonth_eq (by omega)
    refine ⟨(year, month, day) :: dates, c₂, ?_, hc₂, .cons ⟨hdat, ?_⟩ hda⟩
    · rw [run, hcal, Option.bind_eq_bind, Option.bind_some]
      dsimp only
      rw [hrun]
      rfl
    · rw [hba]
      exact hdat.eq

/-- Calendar conversion: call after call, whatever is in the cache, the dates are those of the days, and the number of
days before a month is right. -/
theorem calendar_conversion : (∀ (c : DateCache) (calls : List ℤ), (∀ days ∈ calls, -100000030 ≤ days ∧ days ≤ 100000030) →
      ∃ dates c', run c.resetDateCache calls = some (dates, c') ∧ List.Forall₂ (fun days date =>
        IsDate days date.1 date.2.1 date.2.2 ∧ daysFromYearMonth date.1 date.2.1 + date.2.2 - 1 = days) calls dates) ∧
    ∀ year month : ℤ, -399998 ≤ year + month / 12 → year + month / 12 ≤ 1000000 →
      daysFromYearMonth year month = firstDay (12 * year + month) := by
  refine ⟨fun c calls hcalls => ?_, fun year month hlo _ => daysFromYearMonth_eq hlo⟩
  obtain ⟨dates, c', hrun, -, hdates⟩ := run_spec calls (holds_resetDateCache c) hcalls
  exact ⟨dates, c', hrun, hdates⟩

theorem calendar_conversion_leap_day :
    (∃ dates c', run (DateCache.resetDateCache ⟨true, 0, 0, 0, 0⟩) [11016, -1] = some (dates, c') ∧
      List.Forall₂ (fun days date => IsDate days date.1 date.2.1 date.2.2 ∧
        daysFromYearMonth date.1 date.2.1 + date.2.2 - 1 = days) [11016, -1] dates) ∧
    daysFromYearMonth 2001 (-11) = firstDay (12 * 2001 + -11) :=
  ⟨calendar_conversion.1 ⟨true, 0, 0, 0, 0⟩ [11016, -1] (by decide), calendar_conversion.2 2001 (-11) (by decide) (by decide)⟩

/-! ### Equivalent times -/

def kMsPerDay : ℤ := 24 * 60 * 60 * 1000
def kMaxTimeInMs : ℤ := 864000000 * 10000000

def daysFromTime (time : ℤ) : ℤ := (if time < 0 then time - (kMsPerDay - 1) else time).tdiv kMsPerDay

def weekday (days : ℤ) : ℤ :=
  let result := (days + 4).tmod 7
  if 0 ≤ result then result else result + 7

def isLeap (year : ℤ) : Bool := year.tmod 4 = 0 ∧ (year.tmod 100 ≠ 0 ∨ year.tmod 400 = 0)

def equivalentYear (year : ℤ) : ℤ :=
  let weekDay := weekday (daysFromYearMonth year 0)
  let recentYear := (if isLeap year then 1956 else 1967) + (weekDay * 12).tmod 28
  2008 + (recentYear + 3 * 28 - 2008).tmod 28

def equivalentTime (c : DateCache) (time : ℤ) : Option (ℤ × DateCache) := do
  let days := daysFromTime time
  let timeWithinDay := time - days * kMsPerDay
  let ((year, month, day), c) ← yearMonthDayFromDays c days
  let newDays := daysFromYearMonth (equivalentYear year) month + day - 1
  return (newDays * kMsPerDay + timeWithinDay, c)

theorem daysFromTime_eq (time : ℤ) : daysFromTime time = time / kMsPerDay := by
  rw [daysFromTime, show kMsPerDay = 86400000 by decide]
  split
  · have hdiv := Int.mul_tdiv_add_tmod (time - (86400000 - 1)) 86400000
    have hlo := Int.lt_tmod_of_pos (time - (86400000 - 1)) (show (0 : ℤ) < 86400000 by decide)
    have hhi := Int.tmod_nonneg 86400000 (show 0 ≤ -(time - (86400000 - 1)) by omega)
    rw [Int.neg_tmod] at hhi
    omega
  · exact Int.tdiv_eq_ediv_of_nonneg (by omega)

theorem weekday_eq (days : ℤ) : weekday days = (days + 4) % 7 := by
  have hdiv := Int.mul_tdiv_add_tmod (days + 4) 7
  have hlo := Int.lt_tmod_of_pos (days + 4) (show (0 : ℤ) < 7 by decide)
  have hhi := Int.tmod_lt_of_pos (days + 4) (show (0 : ℤ) < 7 by decide)
  rw [weekday]
  split <;> omega

theorem isLeap_eq (year : ℤ) : isLeap year = decide (IsLeapYear year) := by
  refine decide_eq_decide.mpr ?_
  rw [IsLeapYear, Ne, tmod_eq_zero_iff, tmod_eq_zero_iff, tmod_eq_zero_iff]

/-- The year begins on the same day of the week, and is a leap year if the other one is. -/
theorem equivalentYear_spec {year : ℤ} (h : -399998 ≤ year) :
    2008 ≤ equivalentYear year ∧ equivalentYear year ≤ 2035 ∧ (IsLeapYear (equivalentYear year) ↔ IsLeapYear year) ∧
      (dayFromYear (equivalentYear year) + 4) % 7 = (dayFromYear year + 4) % 7 := by
  have hfi : daysFromYearMonth year 0 = dayFromYear year := by
    rw [daysFromYearMonth_eq (by omega), firstDay_year_month le_rfl (by decide), dayInYear]
    split <;> exact add_zero _
  have hlo := Int.emod_nonneg (dayFromYear year + 4) (show (7 : ℤ) ≠ 0 by decide)
  have hhi := Int.emod_lt_of_pos (dayFromYear year + 4) (show (0 : ℤ) < 7 by decide)
  rw [equivalentYear, hfi, weekday_eq, isLeap_eq]
  generalize (dayFromYear year + 4) % 7 = weekDay at hlo hhi ⊢
  by_cases hl : IsLeapYear year
  · simp only [hl, decide_true, if_true, iff_true]
    interval_cases weekDay <;> decide
  · simp only [hl, decide_false, Bool.false_eq_true, if_false, iff_false]
    interval_cases weekDay <;> decide

/-- Equivalent times: whatever was asked before, a time of the range is taken to one in the years 2008 to 2035 that has
the same month, day of the month, day of the week and time of the day, in a leap year if the year of the time is one. -/
theorem equivalent_time_keeps_shape (c₀ : DateCache) (calls : List ℤ)
    (hcalls : ∀ days ∈ calls, -100000030 ≤ days ∧ days ≤ 100000030) (time : ℤ) (hlo : -kMaxTimeInMs ≤ time)
    (hhi : time ≤ kMaxTimeInMs) :
    ∃ dates c time' c', run c₀.resetDateCache calls = some (dates, c) ∧ equivalentTime c time = some (time', c') ∧
      ∃ year year' month day, IsDate (time / kMsPerDay) year month day ∧ IsDate (time' / kMsPerDay) year' month day ∧
        2008 ≤ year' ∧ year' ≤ 2035 ∧ (IsLeapYear year' ↔ IsLeapYear year) ∧
        weekday (time' / kMsPerDay) = weekday (time / kMsPerDay) ∧ time' % kMsPerDay = time % kMsPerDay := by
  obtain ⟨dates, c, hrun, hc, -⟩ := run_spec calls (holds_resetDateCache c₀) hcalls
  have hms : kMsPerDay = 86400000 := by decide
  have hmax : kMaxTimeInMs = 8640000000000000 := by decide
  have hrange : InRange (time / kMsPerDay) := by
    rw [hms, InRange]
    omega
  obtain ⟨year, month, day, c', hcall, -, hdate, hyear, -⟩ := yearMonthDayFromDays_spec hc hrange
  obtain ⟨hge, hle, hleap, hweek⟩ := equivalentYear_spec hyear
  have hmlo := hdate.month_nonneg
  have hmhi := hdate.month_le
  -- The days before the month are the same in both years.
  have hin : dayInYear (equivalentYear year) month = dayInYear year month := by
    rw [dayInYear, dayInYear]
    exact congrArg (List.getD · _ _) (if_congr hleap rfl rfl)
  have hfirst := @firstDay_year_month year month hmlo hmhi
  have hfirst' := @firstDay_year_month (equivalentYear year) month hmlo hmhi
  have hback := @daysFromYearMonth_eq (equivalentYear year) month (by omega)
  have heq := hdate.eq
  obtain ⟨newDays, hnew⟩ : ∃ newDays, newDays = daysFromYearMonth (equivalentYear year) month + day - 1 := ⟨_, rfl⟩
  obtain ⟨time', htime'⟩ : ∃ time', time' = newDays * kMsPerDay + (time - time / kMsPerDay * kMsPerDay) := ⟨_, rfl⟩
  have hdays : time' / kMsPerDay = newDays ∧ time' % kMsPerDay = time % kMsPerDay := by
    rw [hms] at htime' ⊢
    omega
  refine ⟨dates, c, time', c', hrun, ?_, year, equivalentYear year, month, day, hdate, ?_, hge, hle, hleap, ?_, hdays.2⟩
  · rw [equivalentTime, daysFromTime_eq, hcall, htime', hnew]
    rfl
  · refine ⟨hmlo, hmhi, hdate.day_pos, ?_, by omega⟩
    have hlength := hdate.day_le
    rw [monthLength_year_month hmlo hmhi] at hlength ⊢
    rwa [if_congr (and_congr_right fun _ => hleap) rfl rfl]
  · rw [weekday_eq, weekday_eq, hdays.1]
    omega

theorem equivalent_time_keeps_shape_leap_day :
    ∃ dates c time' c', run (DateCache.resetDateCache ⟨true, 0, 0, 0, 0⟩) [11016] = some (dates, c) ∧
      equivalentTime c (-62162208000000) = some (time', c') ∧
      ∃ year year' month day, IsDate (-62162208000000 / kMsPerDay) year month day ∧
        IsDate (time' / kMsPerDay) year' month day ∧
        2008 ≤ year' ∧ year' ≤ 2035 ∧ (IsLeapYear year' ↔ IsLeapYear year) ∧
        weekday (time' / kMsPerDay) = weekday (-62162208000000 / kMsPerDay) ∧
        time' % kMsPerDay = -62162208000000 % kMsPerDay :=
  equivalent_time_keeps_shape ⟨true, 0, 0, 0, 0⟩ [11016] (by decide) (-62162208000000) (by decide) (by decide)

end V8Multithread.Date
