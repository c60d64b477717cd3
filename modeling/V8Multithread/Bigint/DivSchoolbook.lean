import V8Multithread.Base.LongDivision
import V8Multithread.Bigint.DivHelpers

/-! Schoolbook division.

The names are those of the code, which are those of the book it follows. -/
namespace V8Multithread.Bigint
open Base.Limbs Base.LongDivision Digits

variable {t : Target}

/-- Whether `factor1 * factor2 > (high << kDigitBits) + low`. -/
def productGreaterThan (factor1 factor2 high low : Digit t) : Bool :=
  let (resultLow, resultHigh) := digitMul factor1 factor2
  high < resultHigh || (resultHigh = high && low < resultLow)

def qLengthOK (Q A B : Digits) (m : Memory t) : Bool :=
  if greaterThanOrEqual (A.slice (A.len - B.len) B.len) B m then A.len - B.len + 1 ≤ Q.len
  else A.len - B.len ≤ Q.len

/-! ### The division of two digits by one -/

structure MultiplicativeDigitDiv (t : Target) where
  divisor : Digit t
  inverse : Digit t

namespace MultiplicativeDigitDiv

def computeInverse (divisor : Digit t) : Digit t :=
  let high : Nat := t.base - 1 - divisor
  let low : Nat := t.base - 1
  toDigit t ((high <<< t.kDigitBits ||| low) / divisor)

def make (divisor : Digit t) : Option (MultiplicativeDigitDiv t) := do
  dcheck ((divisor : Nat) >>> (t.kDigitBits - 1) = 1)
  return ⟨divisor, computeInverse divisor⟩

/-- Steps 5 to 7 of the paper's algorithm. -/
def decrease (d : MultiplicativeDigitDiv t) (q0 q1 r : Digit t) : Digit t × Digit t :=
  if q0 < r then (q1 - 1, r + d.divisor) else (q1, r)

/-- Steps 8 to 10. -/
def increase (d : MultiplicativeDigitDiv t) (q1 r : Digit t) : Digit t × Digit t :=
  if d.divisor ≤ r then (q1 + 1, r - d.divisor) else (q1, r)

def div (d : MultiplicativeDigitDiv t) (high low : Digit t) : Digit t × Digit t :=
  let (q0, q1) := digitMul high d.inverse
  let (q0, carry) := digitAdd2 q0 low
  let (q1, _) := digitAdd3 q1 high carry
  let q1 := q1 + 1
  let r := low - q1 * d.divisor
  let (q1, r) := d.decrease q0 q1 r
  d.increase q1 r

end MultiplicativeDigitDiv

theorem productGreaterThan_iff (factor1 factor2 high low : Digit t) :
    productGreaterThan factor1 factor2 high low ↔ (high : Nat) * t.base + low < factor1 * factor2 := by
  have hmul := digitMul_eq factor1 factor2
  rw [productGreaterThan]
  cases hre : digitMul factor1 factor2 with | mk resultLow resultHigh
  rw [hre] at hmul
  have hlow := low.isLt
  have hres := resultLow.isLt
  rw [← hmul]
  simp only [Bool.or_eq_true, Bool.and_eq_true, decide_eq_true_eq, Fin.lt_def, Fin.ext_iff]
  constructor
  · rintro (hlt | ⟨heq, hlt⟩)
    · nlinarith
    · rw [heq]
      nlinarith
  · intro hlt
    rcases Nat.lt_trichotomy (high : Nat) resultHigh with h | h | h
    · exact .inl h
    · refine .inr ⟨h.symm, ?_⟩
      nlinarith
    · nlinarith

/-! ### The steps of a round -/

/-- The loop that corrects the estimate with the next digits. -/
def correctEstimate (vn1 vn2 ujn2 qhat rhat : Digit t) : Digit t :=
  if h : productGreaterThan qhat vn2 rhat ujn2 then
    if rhat + vn1 < rhat then qhat - 1 else correctEstimate vn1 vn2 ujn2 (qhat - 1) (rhat + vn1)
  else qhat
termination_by (qhat : Nat)
decreasing_by
  have hlt := (productGreaterThan_iff _ _ _ _).mp h
  have hpos : 0 < (qhat : Nat) := by
    by_contra hzero
    rw [Nat.le_zero.mp (Nat.not_lt.mp hzero), zero_mul] at hlt
    omega
  rw [digit_sub_one hpos]
  omega

/-- Step D3: the estimate of a digit of the quotient. -/
def estimate (vn1Divisor : MultiplicativeDigitDiv t) (vn2 ujn ujn1 ujn2 : Digit t) : Digit t :=
  if ujn ≠ vn1Divisor.divisor then
    let (qhat, rhat) := vn1Divisor.div ujn ujn1
    correctEstimate vn1Divisor.divisor vn2 ujn2 qhat rhat
  else toDigit t (t.base - 1)

/-- Step D4: the product is subtracted, and once added back if it was too large. -/
def subtractProduct (qhatv BN U : Digits) (n j : Nat) (qhat : Digit t) (m : Memory t) : Option (Memory t × Digit t) := do
  if qhat ≠ 0 then
    let m ← multiplySingle qhatv BN qhat m
    let (m, c) := inplaceSubAndReturnBorrow (U.drop j) qhatv m
    if c ≠ 0 then
      let (m, c) := inplaceAddAndReturnCarry (U.drop j) BN m
      return (U.set m (j + n) (U.get m (j + n) + c), qhat - 1)
    return (m, qhat)
  return (m, qhat)

/-- A digit of the quotient is stored if there is room for it. -/
def storeQuotient (Q : Digits) (j : Nat) (qhat : Digit t) (m : Memory t) : Option (Memory t) := do
  if Q.len ≠ 0 then
    if Q.len ≤ j then
      dcheck (qhat = 0)
      return m
    return Q.set m j qhat
  return m

/-- The rounds `count - 1`, …, `0`. -/
def divideRounds (Q qhatv BN U : Digits) (n : Nat) (vn1Divisor : MultiplicativeDigitDiv t) :
    (count : Nat) → Memory t → Option (Memory t)
  | 0, m => some m
  | j + 1, m => do
    let qhat := estimate vn1Divisor (BN.get m (n - 2)) (U.get m (j + n)) (U.get m (j + n - 1)) (U.get m (j + n - 2))
    let (m, qhat) ← subtractProduct qhatv BN U n j qhat m
    let m ← storeQuotient Q j qhat m
    divideRounds Q qhatv BN U n vn1Divisor j m

/-- The remainder is what is left of the dividend, shifted back. -/
def storeRemainder (R U : Digits) (shift : Nat) (m : Memory t) : Option (Memory t) :=
  if R.len ≠ 0 then rightShift R U shift m else some m

/-- `ShiftedDigits(original, scratch)`: the vector and the shift. -/
def shiftedDigits (original scratch : Digits) (m : Memory t) : Option (Memory t × Digits × Nat) := do
  dcheck (original.len ≤ scratch.len)
  let shift := countLeadingZeros (original.msd m)
  if shift = 0 then return (m, original, shift)
  let view : Digits := ⟨scratch.start, original.len⟩
  let m ← leftShift view original shift m
  return (m, view, shift)

def kSmallScratchSize : Nat := 100

/-- The processor's own scratch memory if it is large enough, else newly allocated memory. -/
def divisionScratch (smallScratch free needed : Nat) : Digits :=
  if needed ≤ kSmallScratchSize then ⟨smallScratch, kSmallScratchSize⟩ else scratchDigits free needed

def divideSchoolbook (smallScratch free : Nat) (Q R A B : Digits) (m : Memory t) : Option (Memory t) := do
  dcheck (2 ≤ B.len)
  dcheck (B.len ≤ A.len)
  dcheck (Q.len = 0 ∨ qLengthOK Q A B m)
  dcheck (R.len = 0 ∨ B.len ≤ R.len)
  let n := B.len
  let scratch := divisionScratch smallScratch free (n + 1 + n + (A.len + 1))
  let qhatv := scratch.slice 0 (n + 1)
  let (m, BN, shift) ← shiftedDigits B (scratch.slice (n + 1) n) m
  let U := scratch.slice (n + 1 + n) (A.len + 1)
  let m ← leftShift U A shift m
  let vn1Divisor ← MultiplicativeDigitDiv.make (BN.get m (n - 1))
  let m ← divideRounds Q qhatv BN U n vn1Divisor (A.len - n + 1) m
  let m ← storeRemainder R U shift m
  return Q.clearFrom (A.len - n + 1) m

/-! ### The division of two digits by one is exact -/

namespace MultiplicativeDigitDiv

theorem computeInverse_eq {d : Digit t} (hd : t.base ≤ 2 * (d : Nat)) :
    ∃ k : Nat, k ≤ (d : Nat) ∧ ((t.base : ℤ) + (computeInverse d : Nat)) * (d : Nat) = t.base * t.base - k := by
  have hdi : (t.base - 1 - d) <<< t.kDigitBits ||| (t.base - 1) = (t.base - 1 - d) * t.base + (t.base - 1) := by
    rw [← Nat.shiftLeft_add_eq_or_of_lt (show t.base - 1 < 2 ^ t.kDigitBits from Nat.sub_one_lt t.base_pos.ne'),
      Nat.shiftLeft_eq]
    rfl
  set x := (t.base - 1 - d) * t.base + (t.base - 1) with hx
  have hxeq : (x : ℤ) = t.base * t.base - 1 - (d : Nat) * t.base := by
    rw [hx]
    push_cast [show (d : Nat) ≤ t.base - 1 by omega, show 1 ≤ t.base by omega]
    ring
  have hqu : x / d < t.base := by
    refine Nat.div_lt_of_lt_mul ?_
    zify
    nlinarith
  have hin : (computeInverse d : Nat) = x / d := by
    rw [computeInverse, hdi, toDigit_of_lt hqu]
  have hmod := Nat.mod_lt x (show 0 < (d : Nat) by omega)
  refine ⟨x % d + 1, hmod, ?_⟩
  have hdiv := Nat.div_add_mod x d
  rw [hin]
  zify at hdiv
  push_cast
  linarith

/-- The digits of the first two steps. -/
theorem candidate_eq {v u₁ u₀ d : Digit t} {k : Nat} (hin : ((t.base : ℤ) + (v : Nat)) * (d : Nat) = t.base * t.base - k)
    (hlt : u₁ < d) :
    let p := digitMul u₁ v
    let q₀ := digitAdd2 p.1 u₀
    let q₁ := digitAdd3 p.2 u₁ q₀.2
    ((q₁.1 : Nat) : ℤ) * t.base + (q₀.1 : Nat) = (t.base + (v : Nat)) * (u₁ : Nat) + (u₀ : Nat) := by
  intro p q₀ q₁
  have hmul : (p.1 : Nat) + t.base * (p.2 : Nat) = u₁ * v := digitMul_eq u₁ v
  have hlow : (q₀.1 : Nat) + t.base * (q₀.2 : Nat) = p.1 + u₀ := digitAdd2_eq p.1 u₀
  have hh : (q₁.1 : Nat) + t.base * (q₁.2 : Nat) = p.2 + u₁ + q₀.2 := digitAdd3_eq p.2 u₁ q₀.2
  have hu₁ : (u₁ : Nat) + 1 ≤ d := hlt
  have hu₀ := u₀.isLt
  zify at hmul hlow hh hu₁ hu₀
  -- No carry is lost: the sum of the first two steps has two digits.
  have hbo : ((t.base : ℤ) + (v : Nat)) * (u₁ : Nat) + (u₀ : Nat) < t.base * t.base := by
    have hst : ((t.base : ℤ) + (v : Nat)) * ((u₁ : Nat) + 1) ≤ (t.base + (v : Nat)) * (d : Nat) :=
      mul_le_mul_of_nonneg_left hu₁ (by omega)
    nlinarith
  have hca : (q₁.2 : Nat) = 0 := by
    by_contra hne
    have hone : (1 : ℤ) ≤ (q₁.2 : Nat) := by omega
    nlinarith [mul_le_mul_of_nonneg_left hone (show (0 : ℤ) ≤ t.base * t.base by positivity)]
  rw [hca] at hh
  push_cast at hh
  linear_combination hlow + (t.base : ℤ) * hh + hmul

/-- The digits `s` are a quotient of `u` and the rest `R` that it leaves, up to multiples of the base. -/
def Tracks (d : MultiplicativeDigitDiv t) (u : ℤ) (s : Digit t × Digit t) (R : ℤ) : Prop :=
  ∃ Q : ℤ, (s.1 : ℤ) ≡ Q [ZMOD t.base] ∧ (s.2 : ℤ) ≡ R [ZMOD t.base] ∧ Q * (d.divisor : Nat) + R = u

section
variable {d : MultiplicativeDigitDiv t} {s : Digit t × Digit t} {q₀ : Digit t} {R u : ℤ} (h : d.Tracks u s R)
include h

/-- A rest that is off by at most one divisor becomes a digit. -/
theorem Tracks.decrease (hneg : -((d.divisor : Nat) : ℤ) ≤ R) (hlow : ((q₀ : Nat) : ℤ) - t.base < R)
    (hh : R < max ((t.base : ℤ) - (d.divisor : Nat)) (q₀ : Nat)) :
    ∃ R', d.Tracks u (d.decrease q₀ s.1 s.2) R' ∧ 0 ≤ R' ∧ R' < t.base := by
  obtain ⟨Q, hq, hr, hu⟩ := h
  rw [MultiplicativeDigitDiv.decrease]
  by_cases hgt : q₀ < s.2
  · rw [if_pos hgt]
    refine ⟨R + (d.divisor : Nat), ⟨Q - 1, ?_, (digit_add_modEq _ _).trans (hr.add_right _), by linarith⟩, by omega, ?_⟩
    · exact (digit_sub_modEq _ 1).trans (by rw [digit_one]; exact hq.sub_right 1)
    · by_contra hge
      have hval := digit_eq_of_modEq hr (by omega) (by omega)
      rw [Fin.lt_def] at hgt
      omega
  · rw [if_neg hgt]
    refine ⟨R, ⟨Q, hq, hr, hu⟩, ?_, by omega⟩
    by_contra hlt
    have hval : (s.2 : ℤ) = R + t.base :=
      digit_eq_of_modEq (hr.trans (Int.modEq_iff_dvd.mpr ⟨1, by ring⟩)) (by omega) (by omega)
    rw [Fin.lt_def] at hgt
    omega

/-- A rest that is a digit becomes the remainder. -/
theorem Tracks.increase (hd : t.base ≤ 2 * (d.divisor : Nat)) (hlow : 0 ≤ R) (hh : R < t.base) :
    ∃ R', d.Tracks u (d.increase s.1 s.2) R' ∧ 0 ≤ R' ∧ R' < (d.divisor : Nat) := by
  obtain ⟨Q, hq, hr, hu⟩ := h
  have hval := digit_eq_of_modEq hr hlow hh
  rw [MultiplicativeDigitDiv.increase]
  by_cases hle : d.divisor ≤ s.2
  · rw [if_pos hle]
    rw [Fin.le_def] at hle
    refine ⟨R - (d.divisor : Nat), ⟨Q + 1, ?_, (digit_sub_modEq _ _).trans (hr.sub_right _), by linarith⟩, by omega, by omega⟩
    exact (digit_add_modEq _ 1).trans (by rw [digit_one]; exact hq.add_right 1)
  · rw [if_neg hle]
    rw [Fin.le_def] at hle
    exact ⟨R, ⟨Q, hq, hr, hu⟩, hlow, by omega⟩

end

/-- The quotient and the remainder of two digits by one. -/
theorem div_spec {d : MultiplicativeDigitDiv t} (hd : t.base ≤ 2 * (d.divisor : Nat))
    (hin : d.inverse = computeInverse d.divisor) {high low : Digit t} (hlt : high < d.divisor) :
    ((d.div high low).1 : Nat) * (d.divisor : Nat) + ((d.div high low).2 : Nat) = (high : Nat) * t.base + low ∧
      ((d.div high low).2 : Nat) < (d.divisor : Nat) := by
  obtain ⟨k, hk, hre⟩ := computeInverse_eq hd
  rw [← hin] at hre
  have hca := @candidate_eq t d.inverse high low d.divisor k hre hlt
  rw [div]
  dsimp only at hca ⊢
  generalize digitMul high d.inverse = p at *
  generalize digitAdd2 p.1 low = q₀ at *
  generalize (digitAdd3 p.2 high q₀.2).1 = q₁ at *
  have hdlt := d.divisor.isLt
  have hdp : 0 < (d.divisor : Nat) := by
    have := t.base_pos
    omega
  have hlow := low.isLt
  have hh : (high : Nat) < d.divisor := hlt
  have hq₀ := q₀.1.isLt
  have hrest := @rest_eq t.base (d.divisor : Nat) k d.inverse (high : Nat) (low : Nat) (q₁ : Nat) (q₀.1 : Nat) _
    hre hca rfl
  have hq : ((q₁ + 1 : Digit t) : ℤ) ≡ (q₁ : Nat) + 1 [ZMOD t.base] := by
    have hadd := digit_add_modEq q₁ 1
    rwa [digit_one] at hadd
  have hr : ((low - (q₁ + 1) * d.divisor : Digit t) : ℤ) ≡
      (high : Nat) * t.base + (low : Nat) - ((q₁ : Nat) + 1) * (d.divisor : Nat) [ZMOD t.base] := by
    refine (digit_sub_modEq _ _).trans ?_
    refine (((digit_mul_modEq _ _).trans (hq.mul_right _)).neg.add_left _).trans ?_
    exact Int.modEq_iff_dvd.mpr ⟨(high : Nat), by ring⟩
  have htr : d.Tracks ((high : Nat) * t.base + (low : Nat)) (q₁ + 1, low - (q₁ + 1) * d.divisor) _ :=
    ⟨_, hq, hr, by ring⟩
  obtain ⟨R, hde, hRl, hRh⟩ := htr.decrease
    (neg_le_rest hrest (by omega) (by omega) (by omega) (by omega) (by omega) (by omega))
    (lt_rest hrest (by omega) (by omega) (by omega) (by omega) (by omega) (by omega))
    (rest_lt hrest (by omega) (by omega) (by omega) (by omega) (by omega) (by omega))
  obtain ⟨R', ⟨Q, hQ, hR, hsum⟩, hlow', hh'⟩ := hde.increase hd hRl hRh
  rw [← digit_eq_of_modEq hR hlow' (by omega)] at hsum hh'
  have hrem := Int.ofNat_lt.mp hh'
  refine ⟨?_, hrem⟩
  -- The quotient has one digit.
  have hQl : 0 ≤ Q := by
    by_contra hneg
    nlinarith
  have hQh : Q < t.base := by
    by_contra hge
    nlinarith
  have hval := digit_eq_of_modEq hQ hQl hQh
  zify
  rw [hval, hsum]

end MultiplicativeDigitDiv

/-! ### The estimate of a digit of the quotient -/

/-- A number between its top digits and the next number with other top digits. -/
theorem value_top (m : Memory t) (s n k : Nat) :
    value m (s + n) k * t.base ^ n ≤ value m s (n + k) ∧ value m s (n + k) < (value m (s + n) k + 1) * t.base ^ n := by
  have hlow := Base.Limbs.value_lt m s n
  rw [value_add]
  constructor
  · rw [mul_comm]
    exact Nat.le_add_left _ _
  · rw [add_mul, one_mul, mul_comm]
    omega

theorem value_two (m : Memory t) (s : Nat) : value m s 2 = (m (s + 1) : Nat) * t.base + m s := by
  rw [value_succ, value_one, pow_one]
  ring

section
variable {vn1 vn2 ujn2 qhat rhat : Digit t} {p V W T : Nat}

theorem correctEstimate_spec (hV : ((vn1 : Nat) * t.base + vn2) * p ≤ V) (hV' : V < ((vn1 : Nat) * t.base + vn2 + 1) * p)
    (hW : (T * t.base + ujn2) * p ≤ W) (hW' : W < (T * t.base + ujn2 + 1) * p) (hvn1 : 0 < (vn1 : Nat)) (hpos : 0 < V)
    (hT : (qhat : Nat) * vn1 + rhat = T) (hge : W / V ≤ qhat) :
    W / V ≤ correctEstimate vn1 vn2 ujn2 qhat rhat ∧ (correctEstimate vn1 vn2 ujn2 qhat rhat : Nat) ≤ W / V + 1 := by
  -- An estimate that is too large is decreased, and the rest with it.
  have hst : ∀ {qhat rhat : Digit t}, (qhat : Nat) * vn1 + rhat = T → productGreaterThan qhat vn2 rhat ujn2 →
      W / V ≤ (qhat - 1 : Digit t) ∧ ((qhat - 1 : Digit t) : Nat) * vn1 + (rhat + vn1) = T := by
    intro qhat rhat hT hg
    have hl := quotient_lt_of_greater hV hW' hT ((productGreaterThan_iff _ _ _ _).mp hg)
    obtain ⟨q, hq⟩ := Nat.exists_eq_add_one_of_ne_zero (Nat.ne_zero_of_lt hl)
    rw [digit_sub_one (by omega), ← hT, hq, Nat.add_sub_cancel]
    exact ⟨by omega, by ring⟩
  induction qhat, rhat using correctEstimate.induct vn1 vn2 ujn2 with
  | case1 qhat rhat hg hwr =>
    rw [correctEstimate, dif_pos hg, if_pos hwr]
    obtain ⟨hge', hT'⟩ := hst hT hg
    have ho : t.base ≤ (rhat : Nat) + vn1 := by
      rw [Fin.add_lt_left_iff, Fin.lt_def, Fin.val_rev] at hwr
      omega
    have hnext : ((qhat - 1 : Digit t) : Nat) * vn2 ≤ (rhat + vn1) * t.base + ujn2 := by
      calc ((qhat - 1 : Digit t) : Nat) * vn2 ≤ t.base * t.base := Nat.mul_le_mul (qhat - 1).isLt.le vn2.isLt.le
        _ ≤ (rhat + vn1) * t.base := Nat.mul_le_mul_right _ ho
        _ ≤ _ := Nat.le_add_right _ _
    exact ⟨hge', le_quotient_succ hV' hpos hW hT' hnext (qhat - 1).isLt.le hvn1⟩
  | case2 qhat rhat hg hwr ih =>
    rw [correctEstimate, dif_pos hg, if_neg hwr]
    obtain ⟨hge', hT'⟩ := hst hT hg
    have hu : (rhat : Nat) + vn1 < t.base := by
      have hv := vn1.isLt
      rw [Fin.add_lt_left_iff, Fin.lt_def, Fin.val_rev] at hwr
      omega
    exact ih (by rw [digit_add_of_lt hu, hT']) hge'
  | case3 qhat rhat hnot =>
    rw [correctEstimate, dif_neg hnot]
    have hle : (qhat : Nat) * vn2 ≤ rhat * t.base + ujn2 := by
      by_contra hlt
      exact hnot ((productGreaterThan_iff _ _ _ _).mpr (by omega))
    exact ⟨hge, le_quotient_succ hV' hpos hW hT hle qhat.isLt.le hvn1⟩

end

/-- The divisor is shifted so that its top bit is set, and its reciprocal is known. -/
structure DivisorReady (d : MultiplicativeDigitDiv t) (BN : Digits) (m : Memory t) : Prop where
  long : 2 ≤ BN.len
  top : d.divisor = BN.get m (BN.len - 1)
  half : t.base ≤ 2 * (d.divisor : Nat)
  inverse : d.inverse = MultiplicativeDigitDiv.computeInverse d.divisor

section
variable {d : MultiplicativeDigitDiv t} {BN : Digits} {m : Memory t} {s : Nat}

section
variable (h : DivisorReady d BN m)
include h

theorem DivisorReady.pos : 0 < (d.divisor : Nat) := by
  have := t.base_pos
  have := h.half
  omega

/-- The two top digits of the divisor. -/
theorem DivisorReady.value_bounds :
    ((d.divisor : Nat) * t.base + BN.get m (BN.len - 2)) * t.base ^ (BN.len - 2) ≤ BN.value m ∧
      BN.value m < ((d.divisor : Nat) * t.base + BN.get m (BN.len - 2) + 1) * t.base ^ (BN.len - 2) := by
  have hl := h.long
  have htop := value_top m BN.start (BN.len - 2) 2
  rw [value_two, Nat.sub_add_cancel hl, show BN.start + (BN.len - 2) + 1 = BN.start + (BN.len - 1) by omega] at htop
  rw [h.top]
  exact htop

theorem DivisorReady.value_pos : 0 < BN.value m := by
  refine lt_of_lt_of_le ?_ h.value_bounds.1
  have := t.base_pos
  have := h.pos
  positivity

/-- The estimate is never too small and at most one too large, for every dividend that has a quotient of one
digit. The same is true of what the division of two digits gives, except that it may be larger. -/
theorem estimate_spec (hW : value m s (BN.len + 1) < t.base * BN.value m) :
    value m s (BN.len + 1) / BN.value m ≤ estimate d (BN.get m (BN.len - 2)) (m (s + BN.len)) (m (s + (BN.len - 1)))
        (m (s + (BN.len - 2))) ∧
      (estimate d (BN.get m (BN.len - 2)) (m (s + BN.len)) (m (s + (BN.len - 1))) (m (s + (BN.len - 2))) : Nat) ≤
        value m s (BN.len + 1) / BN.value m + 1 ∧
      (m (s + BN.len) ≠ d.divisor →
        value m s (BN.len + 1) / BN.value m ≤ (d.div (m (s + BN.len)) (m (s + (BN.len - 1)))).1) := by
  have hlo := h.long
  obtain ⟨hV, hV'⟩ := h.value_bounds
  have hpos := h.value_pos
  have hvn1 := h.pos
  -- The three top digits of the dividend.
  have htop := value_top m s (BN.len - 2) 3
  rw [show BN.len - 2 + 3 = BN.len + 1 by omega, value_succ', value_two,
    show s + (BN.len - 2) + 1 = s + (BN.len - 1) by omega, show s + (BN.len - 1) + 1 = s + BN.len by omega] at htop
  set T := (m (s + BN.len) : Nat) * t.base + m (s + (BN.len - 1)) with hT
  rw [Nat.add_comm _ (t.base * T), Nat.mul_comm t.base T] at htop
  obtain ⟨hWl, hWh⟩ := htop
  set p := t.base ^ (BN.len - 2) with hp
  have hpp : 0 < p := by
    rw [hp]
    exact Nat.pow_pos t.base_pos
  have hvn2 := (BN.get m (BN.len - 2)).isLt
  have hujn2 := (m (s + (BN.len - 2))).isLt
  by_cases heq : m (s + BN.len) = d.divisor
  · -- The same top digits: the estimate is the largest digit.
    have hle : value m s (BN.len + 1) / BN.value m < t.base := Nat.div_lt_of_lt_mul (by rwa [Nat.mul_comm] at hW)
    rw [estimate, if_neg (not_not.mpr heq), toDigit_of_lt (Nat.sub_one_lt t.base_pos.ne')]
    refine ⟨by omega, ?_, fun hne => absurd heq hne⟩
    refine @largest_le_quotient_succ t.base (t.base * p) d.divisor _ _ ?_ hpos ?_ h.half
    · nlinarith
    · rw [heq] at hT
      calc (d.divisor : Nat) * t.base * (t.base * p) = (d.divisor * t.base * t.base) * p := by ring
        _ ≤ (T * t.base + m (s + (BN.len - 2))) * p :=
          Nat.mul_le_mul_right p ((Nat.mul_le_mul_right _ (by omega)).trans (Nat.le_add_right _ _))
        _ ≤ _ := hWl
  · have hles : m (s + BN.len) < d.divisor := by
      have hne : (m (s + BN.len) : Nat) ≠ d.divisor := fun hval => heq (Fin.ext hval)
      have hle : (m (s + BN.len) : Nat) < d.divisor + 1 := by
        by_contra hge
        have hTge : ((d.divisor : Nat) + 1) * t.base ≤ T := by
          rw [hT]
          exact (Nat.mul_le_mul_right _ (by omega)).trans (Nat.le_add_right _ _)
        have hVle : BN.value m ≤ T * p := hV'.le.trans (Nat.mul_le_mul_right p (by linarith))
        have hWge : t.base * (T * p) ≤ value m s (BN.len + 1) := by
          refine le_trans ?_ hWl
          rw [← Nat.mul_assoc, Nat.mul_comm t.base T]
          exact Nat.mul_le_mul_right p (Nat.le_add_right _ _)
        exact absurd (hW.trans_le (Nat.mul_le_mul_left _ hVle)) (by omega)
      rw [Fin.lt_def]
      omega
    obtain ⟨hdiv, hrem⟩ := @MultiplicativeDigitDiv.div_spec t d h.half h.inverse _ (m (s + (BN.len - 1))) hles
    rw [← hT] at hdiv
    have hqu : T / d.divisor = ((d.div (m (s + BN.len)) (m (s + (BN.len - 1)))).1 : Nat) := by
      rw [← hdiv, Nat.mul_comm, Nat.mul_add_div hvn1, Nat.div_eq_of_lt hrem, Nat.add_zero]
    have hge : value m s (BN.len + 1) / BN.value m ≤ (d.div (m (s + BN.len)) (m (s + (BN.len - 1)))).1 := by
      rw [← hqu]
      refine quotient_le_of_top (p := t.base * p) hvn1 ?_ ?_
      · nlinarith
      · nlinarith
    obtain ⟨hl, hu⟩ := correctEstimate_spec hV hV' hWl hWh hvn1 hpos hdiv hge
    rw [estimate, if_pos heq]
    exact ⟨hl, hu, fun _ => hge⟩

end

/-! ### A round -/

variable {qhatv U : Digits} {j : Nat} {qhat : Digit t}

/-- Adding the divisor back: what is carried out of its digits goes to the digit above, and no further. -/
theorem addBack_value {m' : Memory t} {n x : Nat} {top c : Digit t} (hva : value m' s n + t.base ^ n * c = x) :
    value (Function.update m' (s + n) (top + c)) s (n + 1) = (x + t.base ^ n * top) % t.base ^ (n + 1) := by
  have hsp := Nat.mod_add_div ((top : Nat) + c) t.base
  have hlt := Base.Limbs.value_lt (Function.update m' (s + n) (top + c)) s (n + 1)
  rw [value_update, Fin.val_add] at hlt ⊢
  refine mod_of_carry (c := ((top : Nat) + c) / t.base) ?_ hlt
  zify at hva hsp
  push_cast
  rw [pow_succ]
  linear_combination hva + (t.base : ℤ) ^ n * hsp

theorem subtractProduct_spec (hBN : 0 < BN.value m) (hqha : qhatv.len = BN.len + 1) (hU : j + BN.len + 1 ≤ U.len)
    (hB : BN.Apart qhatv) (hBNU : BN.Apart U) (hqh : qhatv.Apart U)
    (hge : value m (U.start + j) (BN.len + 1) / BN.value m ≤ qhat)
    (hle : (qhat : Nat) ≤ value m (U.start + j) (BN.len + 1) / BN.value m + 1) :
    ∃ m' q, subtractProduct qhatv BN U BN.len j qhat m = some (m', q) ∧
      Changes (fun a => qhatv.Has a ∨ Within (U.start + j) (BN.len + 1) a) m m' ∧
      (q : Nat) = value m (U.start + j) (BN.len + 1) / BN.value m ∧
      value m' (U.start + j) (BN.len + 1) = value m (U.start + j) (BN.len + 1) % BN.value m := by
  set W := value m (U.start + j) (BN.len + 1) with hW
  set V := BN.value m with hV
  have hdivmod := Nat.div_add_mod W V
  have hmo := Nat.mod_lt W hBN
  by_cases hzero : qhat = 0
  · have hqu : W / V = 0 := by
      rw [hzero] at hge
      exact Nat.le_zero.mp hge
    refine ⟨m, qhat, by simp [subtractProduct, hzero], .refl _ _, ?_, ?_⟩
    · rw [hzero, hqu]
      rfl
    · rw [hqu] at hdivmod
      omega
  obtain ⟨m₁, hmul, hc₁, hp⟩ := multiplySingle_spec (m := m) hzero
    (hB.ahead (by omega)) (show BN.len < qhatv.len by omega)
  obtain ⟨hc₂, hbo, hdi⟩ := inplaceSubAndReturnBorrow_spec (m := m₁) (hqh.ahead_drop (i := j) (by omega) (by omega))
    (show qhatv.len ≤ (U.drop j).len by rw [drop_len]; omega)
  have hwin : value m₁ (U.start + j) (BN.len + 1) = W := by
    rw [hW]
    refine hc₁.value fun a hlow hh hhas => ?_
    exact hqh.not_has hhas ⟨by omega, by omega⟩
  have hdiv : BN.value m₁ = V := by
    rw [hV]
    exact hB.value hc₁
  rw [hp, ← hV, hqha, drop_start, hwin] at hdi
  rw [hqha, drop_start] at hc₂
  generalize hsub : inplaceSubAndReturnBorrow (U.drop j) qhatv m₁ = s₂ at *
  obtain ⟨m₂, c⟩ := s₂
  dsimp only at hc₂ hbo hdi
  have hlt₂ := Base.Limbs.value_lt m₂ (U.start + j) (BN.len + 1)
  have hc₁₂ : Changes (fun a => qhatv.Has a ∨ Within (U.start + j) (BN.len + 1) a) m m₂ :=
    (hc₁.mono fun a ha => .inl ha).trans (hc₂.mono fun a ha => .inr ha)
  by_cases hc : c = 0
  · -- Nothing is borrowed: the estimate was right.
    rw [hc, Fin.val_zero, mul_zero, add_zero] at hdi
    have hex : (qhat : Nat) = W / V := by
      refine le_antisymm ?_ hge
      rw [Nat.le_div_iff_mul_le hBN, mul_comm]
      omega
    refine ⟨m₂, qhat, ?_, hc₁₂, hex, ?_⟩
    · rw [subtractProduct, if_pos hzero, hmul]
      simp [hsub, hc]
    · rw [hex] at hdi
      omega
  · -- One is borrowed: the estimate was one too large, and one divisor is added back.
    have hone : (c : Nat) = 1 := by
      have hne : (c : Nat) ≠ 0 := fun h => hc (Fin.ext h)
      omega
    rw [hone, mul_one] at hdi
    have hlarge : (qhat : Nat) = W / V + 1 := by
      refine le_antisymm hle (Nat.lt_of_le_of_ne hge fun heq => ?_)
      rw [← heq] at hdi
      omega
    have hd₂ : BN.value m₂ = V := by
      rw [← hdiv]
      refine value_of_changes hc₂ fun a ha hwi => hBNU.not_has ha ⟨?_, ?_⟩
      · have := hwi.1
        omega
      · have := hwi.2
        omega
    obtain ⟨hc₃, -, hsum⟩ := inplaceAddAndReturnCarry_spec (m := m₂) (hBNU.ahead_drop (i := j) (by omega) (by omega))
      (show BN.len ≤ (U.drop j).len by rw [drop_len]; omega)
    rw [drop_start] at hc₃ hsum
    generalize hadd : inplaceAddAndReturnCarry (U.drop j) BN m₂ = s₃ at *
    obtain ⟨m₃, c'⟩ := s₃
    dsimp only at hc₃ hsum
    have htop : U.get m₃ (j + BN.len) = m₂ (U.start + j + BN.len) := by
      rw [Digits.get, ← add_assoc]
      refine hc₃ _ fun hwi => ?_
      have := hwi.2
      omega
    refine ⟨U.set m₃ (j + BN.len) (U.get m₃ (j + BN.len) + c'), qhat - 1, ?_,
      hc₁₂.trans (Changes.trans (hc₃.mono ?_) (.update ?_ _ _)), ?_, ?_⟩
    · rw [subtractProduct, if_pos hzero, hmul]
      simp [hsub, hc, hadd]
    · exact fun a ha => .inr ⟨ha.1, by have := ha.2; omega⟩
    · exact .inr ⟨by omega, by omega⟩
    · rw [digit_sub_one (by rw [hlarge]; exact Nat.succ_pos _), hlarge, Nat.add_sub_cancel]
    · rw [Digits.set, ← add_assoc, htop, addBack_value hsum, hd₂]
      have hnu : value m₂ (U.start + j) BN.len + V + t.base ^ BN.len * (m₂ (U.start + j + BN.len) : Nat) =
          W % V + t.base ^ (BN.len + 1) := by
        rw [value_succ] at hdi
        rw [hlarge, mul_add] at hdi
        omega
      rw [hnu, Nat.add_mod_right, Nat.mod_eq_of_lt]
      have hVlt := BN.value_lt m
      rw [← hV] at hVlt
      have hpow : t.base ^ BN.len ≤ t.base ^ (BN.len + 1) := Nat.pow_le_pow_right t.base_pos (by omega)
      omega

end

/-! ### The rounds -/

/-- How the vectors lie in memory. The dividend has `top` digits more than the divisor. -/
structure Layout (Q qhatv BN U : Digits) (top : Nat) : Prop where
  qhatvLen : qhatv.len = BN.len + 1
  uLen : U.len = top + BN.len + 1
  divisorProduct : BN.Apart qhatv
  divisorDividend : BN.Apart U
  productDividend : qhatv.Apart U
  quotientDivisor : Q.Apart BN
  quotientProduct : Q.Apart qhatv
  quotientDividend : Q.Apart U

/-- What holds before the rounds below `j`: the digits of the quotient so far are `q`, and what remains of the
dividend is less than the divisor times the weight of the next digit but one. -/
structure Progress (Q BN U : Digits) (top dividend j q : Nat) (m : Memory t) : Prop where
  total : dividend = q * t.base ^ j * BN.value m + U.value m
  rest : (U.drop j).value m < BN.value m
  stored : Q.len ≠ 0 → value m (Q.start + j) (min Q.len (top + 1) - j) = q

section
variable {d : MultiplicativeDigitDiv t} {Q qhatv BN U : Digits} {m m' : Memory t} {top dividend j q : Nat}

/-- The digits of the dividend above those of a round are zero. -/
theorem Progress.upper (hl : Layout Q qhatv BN U top) (h : Progress Q BN U top dividend (j + 1) q m) (hj : j ≤ top) :
    value m (U.start + j + (BN.len + 1)) (top - j) = 0 ∧ value m (U.start + j + 1) BN.len = (U.drop (j + 1)).value m := by
  have hrest := h.rest
  have hlt := BN.value_lt m
  have hlen := hl.uLen
  have hsp : (U.drop (j + 1)).value m = value m (U.start + j + 1) BN.len +
      t.base ^ BN.len * value m (U.start + j + (BN.len + 1)) (top - j) := by
    rw [Digits.value, drop_start, drop_len, show U.len - (j + 1) = BN.len + (top - j) by omega, value_add,
      ← add_assoc, show U.start + j + 1 + BN.len = U.start + j + (BN.len + 1) by omega]
  have hzero : value m (U.start + j + (BN.len + 1)) (top - j) = 0 := by
    by_contra hne
    have := Nat.mul_le_mul_left (t.base ^ BN.len) (Nat.one_le_iff_ne_zero.mpr hne)
    omega
  rw [hzero, mul_zero, add_zero] at hsp
  exact ⟨hzero, hsp.symm⟩

/-- The digits of a round and those below. -/
theorem value_window (hl : Layout Q qhatv BN U top) (hj : j ≤ top)
    (hu : value m (U.start + j + (BN.len + 1)) (top - j) = 0) :
    (U.drop j).value m = value m (U.start + j) (BN.len + 1) ∧
      U.value m = value m U.start j + t.base ^ j * value m (U.start + j) (BN.len + 1) := by
  have hlen := hl.uLen
  have hdr : (U.drop j).value m = value m (U.start + j) (BN.len + 1) := by
    rw [Digits.value, drop_start, drop_len, show U.len - j = BN.len + 1 + (top - j) by omega, value_add, hu,
      mul_zero, add_zero]
  refine ⟨hdr, ?_⟩
  rw [← hdr, Digits.value, Digits.value, drop_start, drop_len, ← value_add,
    show j + (U.len - j) = U.len by omega]

theorem Progress.window_lt (hl : Layout Q qhatv BN U top) (h : Progress Q BN U top dividend (j + 1) q m)
    (hj : j ≤ top) : value m (U.start + j) (BN.len + 1) < t.base * BN.value m := by
  have hdi := (m (U.start + j)).isLt
  have hrest := h.rest
  rw [value_succ', (h.upper hl hj).2]
  nlinarith

def RoundChanges (Q qhatv U : Digits) (a : Nat) : Prop := qhatv.Has a ∨ U.Has a ∨ Q.Has a

theorem storeQuotient_spec {digit : Digit t} (hdi : Q.len ≠ 0 → Q.len ≤ j → digit = 0) :
    ∃ m', storeQuotient Q j digit m = some m' ∧ Changes (fun a => a = Q.start + j ∧ j < Q.len) m m' ∧
      (j < Q.len → m' (Q.start + j) = digit) := by
  rw [storeQuotient]
  by_cases hzero : Q.len = 0
  · exact ⟨m, if_neg (not_not.mpr hzero), .refl _ _, fun h => by omega⟩
  · rw [if_pos hzero]
    by_cases hle : Q.len ≤ j
    · refine ⟨m, ?_, .refl _ _, fun h => by omega⟩
      rw [if_pos hle, dcheck_pos (hdi hzero hle)]
      rfl
    · refine ⟨Q.set m j digit, if_neg hle, .update ⟨rfl, by omega⟩ _ _, fun _ => ?_⟩
      exact Function.update_self _ _ _

theorem Layout.divisor_kept (hl : Layout Q qhatv BN U top) {a : Nat} (ha : BN.Has a) : ¬RoundChanges Q qhatv U a := by
  intro hch
  rcases hch with h | h | h
  · exact hl.divisorProduct.not_has ha h
  · exact hl.divisorDividend.not_has ha h
  · exact hl.quotientDivisor.not_has h ha

theorem DivisorReady.of_changes (h : DivisorReady d BN m) (hl : Layout Q qhatv BN U top)
    (hch : Changes (RoundChanges Q qhatv U) m m') : DivisorReady d BN m' := by
  have hlo := h.long
  refine ⟨h.long, ?_, h.half, h.inverse⟩
  rw [h.top]
  exact (get_of_changes hch (by omega) fun a => hl.divisor_kept).symm

/-- A round finds the next digit of the quotient. -/
theorem round_spec (hl : Layout Q qhatv BN U top) (hre : DivisorReady d BN m)
    (h : Progress Q BN U top dividend (j + 1) q m) (hj : j ≤ top)
    (hroom : Q.len ≠ 0 → Q.len ≤ top → Q.len = top ∧ dividend < BN.value m * t.base ^ top) :
    ∃ m₁ digit m₂, subtractProduct qhatv BN U BN.len j (estimate d (BN.get m (BN.len - 2)) (U.get m (j + BN.len))
          (U.get m (j + BN.len - 1)) (U.get m (j + BN.len - 2))) m = some (m₁, digit) ∧
      storeQuotient Q j digit m₁ = some m₂ ∧ Changes (RoundChanges Q qhatv U) m m₂ ∧
      Progress Q BN U top dividend j (q * t.base + digit) m₂ := by
  have hlo := hre.long
  have hlen := hl.uLen
  obtain ⟨hu, -⟩ := h.upper hl hj
  obtain ⟨-, hsp⟩ := value_window hl hj hu
  obtain ⟨hge, hle, -⟩ := estimate_spec hre (h.window_lt hl hj)
  rw [Digits.get, Digits.get, Digits.get, Digits.get, show U.start + (j + BN.len) = U.start + j + BN.len by omega,
    show U.start + (j + BN.len - 1) = U.start + j + (BN.len - 1) by omega,
    show U.start + (j + BN.len - 2) = U.start + j + (BN.len - 2) by omega]
  obtain ⟨m₁, digit, hrun, hc₁, hdig, hwin⟩ := subtractProduct_spec hre.value_pos hl.qhatvLen
    (show j + BN.len + 1 ≤ U.len by omega) hl.divisorProduct hl.divisorDividend hl.productDividend hge hle
  set W := value m (U.start + j) (BN.len + 1) with hW
  have hdi := Nat.div_add_mod W (BN.value m)
  have hto := h.total
  have hsto := h.stored
  -- A digit for which there is no room is zero.
  have hdr : Q.len ≠ 0 → Q.len ≤ j → digit = 0 := by
    intro hne hle'
    obtain ⟨htop, hsm⟩ := hroom hne (by omega)
    have hjt : j = top := by omega
    have hWlt : W < BN.value m := by
      refine Nat.lt_of_mul_lt_mul_left (a := t.base ^ j) ?_
      rw [mul_comm _ (BN.value m), hjt]
      refine lt_of_le_of_lt ?_ hsm
      rw [hto, hsp, hjt]
      omega
    exact Fin.ext (by rw [hdig, Nat.div_eq_of_lt hWlt]; rfl)
  obtain ⟨m₂, hstore, hc₂, hset⟩ := storeQuotient_spec (m := m₁) hdr
  have hc₁' : Changes (RoundChanges Q qhatv U) m m₁ := hc₁.mono fun a ha => by
    rcases ha with ha | ha
    · exact .inl ha
    · exact .inr (.inl ⟨by have := ha.1; omega, by have := ha.2; omega⟩)
  have hch : Changes Q.Has m₁ m₂ :=
    hc₂.mono fun a ha => ⟨by have := ha.1; omega, by have := ha.1; have := ha.2; omega⟩
  have hcha : Changes (RoundChanges Q qhatv U) m m₂ := hc₁'.trans (hch.mono fun a ha => .inr (.inr ha))
  have hBN : BN.value m₂ = BN.value m := value_of_changes hcha fun a => hl.divisor_kept
  have hst : ∀ s n, U.start ≤ s → s + n ≤ U.start + U.len → value m₂ s n = value m₁ s n := by
    intro s n hlow hh
    exact hch.value fun a hle' hlt ha => hl.quotientDividend.not_has ha ⟨by omega, by omega⟩
  have hp : ∀ s n, U.start ≤ s → s + n ≤ U.start + U.len →
      (∀ a, s ≤ a → a < s + n → ¬Within (U.start + j) (BN.len + 1) a) → value m₁ s n = value m s n := by
    intro s n hlow hh hout
    refine hc₁.value fun a hle' hlt ha => ?_
    rcases ha with ha | ha
    · exact hl.productDividend.not_has ha ⟨by omega, by omega⟩
    · exact hout a hle' hlt ha
  have hw₂ : value m₂ (U.start + j) (BN.len + 1) = W % BN.value m := by
    rw [hst _ _ (by omega) (by omega), hwin]
  have hu₂ : value m₂ (U.start + j + (BN.len + 1)) (top - j) = 0 := by
    rw [hst _ _ (by omega) (by omega), hp _ _ (by omega) (by omega), hu]
    intro a hle' _ hwi
    have := hwi.2
    omega
  have hl₂ : value m₂ U.start j = value m U.start j := by
    rw [hst _ _ (by omega) (by omega), hp _ _ (by omega) (by omega)]
    intro a _ hlt hwi
    have := hwi.1
    omega
  obtain ⟨hd₂, hs₂⟩ := value_window hl hj hu₂
  refine ⟨m₁, digit, m₂, hrun, hstore, hcha, ?_, ?_, ?_⟩
  · rw [hBN, hs₂, hl₂, hw₂, hto, hsp, hdig]
    zify at hdi ⊢
    rw [pow_succ]
    linear_combination -(t.base : ℤ) ^ j * hdi
  · rw [hd₂, hw₂, hBN]
    exact Nat.mod_lt W hre.value_pos
  · intro hne
    have hq := hsto hne
    by_cases hlt : j < Q.len
    · have hke : value m₂ (Q.start + j + 1) (min Q.len (top + 1) - (j + 1)) = q := by
        rw [← hq, ← add_assoc, hc₂.value, hc₁.value]
        · intro a hlow hh ha
          have hQ : Q.Has a := ⟨by omega, by omega⟩
          rcases ha with ha | ha
          · exact hl.quotientProduct.not_has hQ ha
          · exact hl.quotientDividend.not_has hQ ⟨by have := ha.1; omega, by have := ha.2; omega⟩
        · intro a hlow _ ha
          have := ha.1
          omega
      rw [show min Q.len (top + 1) - j = min Q.len (top + 1) - (j + 1) + 1 by omega, value_succ', hke, hset hlt]
      ring
    · rw [show min Q.len (top + 1) - j = 0 by omega, hdr hne (by omega)]
      rw [show min Q.len (top + 1) - (j + 1) = 0 by omega, value_zero] at hq
      rw [← hq]
      simp

/-- The rounds together. -/
theorem divideRounds_spec (hl : Layout Q qhatv BN U top) (count : Nat) (hco : count ≤ top + 1)
    (hre : DivisorReady d BN m) (h : Progress Q BN U top dividend count q m)
    (hroom : Q.len ≠ 0 → Q.len ≤ top → Q.len = top ∧ dividend < BN.value m * t.base ^ top) :
    ∃ m' q', divideRounds Q qhatv BN U BN.len d count m = some m' ∧ Changes (RoundChanges Q qhatv U) m m' ∧
      Progress Q BN U top dividend 0 q' m' := by
  induction count generalizing m q with
  | zero => exact ⟨m, q, rfl, .refl _ _, h⟩
  | succ j ih =>
    obtain ⟨m₁, digit, m₂, hpr, hstore, hch, hp⟩ := round_spec hl hre h (by omega) hroom
    have hBN : BN.value m₂ = BN.value m := value_of_changes hch fun a => hl.divisor_kept
    obtain ⟨m', q', hrun, hc', hdo⟩ := ih (by omega) (hre.of_changes hl hch) hp
      (by rw [hBN]; exact hroom)
    exact ⟨m', q', run_bind hpr (run_bind hstore hrun), hch.trans hc', hdo⟩

end

/-! ### The whole division -/

section
variable {B S : Digits} {m : Memory t}

theorem countLeadingZeros_spec {d : Digit t} (hd : (d : Nat) ≠ 0) :
    countLeadingZeros d < t.kDigitBits ∧ ((d : Nat) + 1) * 2 ^ countLeadingZeros d ≤ t.base ∧
      t.base ≤ 2 * ((d : Nat) * 2 ^ countLeadingZeros d) := by
  have hsize : Nat.size d ≤ t.kDigitBits := Nat.size_le.mpr d.isLt
  have hpos : 0 < Nat.size d := Nat.size_pos.mpr (Nat.pos_of_ne_zero hd)
  have hlt : (d : Nat) < 2 ^ Nat.size d := Nat.lt_size_self _
  have hge : 2 ^ (Nat.size d - 1) ≤ (d : Nat) := Nat.lt_size.mp (by omega)
  have hpow : 2 ^ Nat.size d * 2 ^ (t.kDigitBits - Nat.size d) = t.base := by
    rw [← pow_add, Nat.add_sub_cancel' hsize]
    rfl
  have hhalf : 2 ^ Nat.size d = 2 * 2 ^ (Nat.size d - 1) := by
    rw [← pow_succ', Nat.sub_add_cancel hpos]
  refine ⟨by rw [countLeadingZeros]; omega, ?_, ?_⟩
  · exact (Nat.mul_le_mul_right _ hlt).trans hpow.le
  · rw [hhalf, mul_assoc] at hpow
    exact hpow.ge.trans (Nat.mul_le_mul_left 2 (Nat.mul_le_mul_right _ hge))

/-- The divisor is shifted until its top bit is set. -/
theorem shiftedDigits_spec (hB : isDigitNormalized B m) (hpos : 0 < B.len) (hS : B.len ≤ S.len) (hap : B.Apart S) :
    ∃ m' BN shift, shiftedDigits B S m = some (m', BN, shift) ∧ shift < t.kDigitBits ∧ BN.len = B.len ∧
      (BN.start = B.start ∨ BN.start = S.start) ∧ Changes S.Has m m' ∧ BN.value m' = B.value m * 2 ^ shift ∧
      t.base ≤ 2 * (BN.get m' (BN.len - 1) : Nat) := by
  have hmsd : (B.msd m : Nat) ≠ 0 := by
    have hne : B.len ≠ 0 := by omega
    simpa [isDigitNormalized, hne] using hB
  obtain ⟨hshift, hh, hlow⟩ := countLeadingZeros_spec hmsd
  have htop := value_top m B.start (B.len - 1) 1
  rw [value_one, Nat.sub_add_cancel hpos] at htop
  have hmul : (B.msd m : Nat) * t.base ^ (B.len - 1) ≤ B.value m ∧
      B.value m < ((B.msd m : Nat) + 1) * t.base ^ (B.len - 1) := htop
  rw [shiftedDigits, dcheck_pos hS]
  by_cases hzero : countLeadingZeros (B.msd m) = 0
  · refine ⟨m, B, 0, ?_, by omega, rfl, .inl rfl, .refl _ _, by rw [pow_zero, Nat.mul_one], ?_⟩
    · simp [hzero]
    · rw [hzero, pow_zero, Nat.mul_one] at hlow
      exact hlow
  set shift := countLeadingZeros (B.msd m) with hs
  have hfit : B.value m * 2 ^ shift < t.base ^ B.len := by
    calc B.value m * 2 ^ shift < (((B.msd m : Nat) + 1) * t.base ^ (B.len - 1)) * 2 ^ shift :=
          Nat.mul_lt_mul_of_pos_right hmul.2 (Nat.two_pow_pos _)
      _ = ((B.msd m : Nat) + 1) * 2 ^ shift * t.base ^ (B.len - 1) := by ring
      _ ≤ t.base * t.base ^ (B.len - 1) := Nat.mul_le_mul_right _ hh
      _ = t.base ^ B.len := by rw [← pow_succ', Nat.sub_add_cancel hpos]
  have hah : B.Ahead ⟨S.start, B.len⟩ := hap.ahead_drop (by omega) (Nat.zero_le _)
  obtain ⟨m', hrun, hch, hva⟩ := @leftShift_spec t B ⟨S.start, B.len⟩ m shift hshift hah le_rfl hfit
  refine ⟨m', ⟨S.start, B.len⟩, shift, ?_, hshift, rfl, .inr rfl, ?_, hva, ?_⟩
  · simp [hzero, hrun]
  · exact hch.mono fun a ha => ⟨ha.1, lt_of_lt_of_le ha.2 (Nat.add_le_add_left hS _)⟩
  · -- The top digit is at least the shifted top digit of the divisor.
    have htop' := (value_top m' S.start (B.len - 1) 1).2
    rw [value_one, Nat.sub_add_cancel hpos] at htop'
    have hsh : (B.msd m : Nat) * 2 ^ shift * t.base ^ (B.len - 1) ≤ B.value m * 2 ^ shift := by
      rw [Nat.mul_right_comm]
      exact Nat.mul_le_mul_right _ hmul.1
    have hl : (B.msd m : Nat) * 2 ^ shift < (m' (S.start + (B.len - 1)) : Nat) + 1 := by
      refine Nat.lt_of_mul_lt_mul_right (a := t.base ^ (B.len - 1)) ?_
      refine lt_of_le_of_lt hsh ?_
      rw [← hva]
      exact htop'
    show t.base ≤ 2 * (m' (S.start + (B.len - 1)) : Nat)
    omega

end

section
variable {Q R A B : Digits} {m : Memory t}

/-- Where the quotient has no room for its top digit, that digit is zero. -/
theorem qLengthOK_room (hlen : B.len ≤ A.len) (hQ : Q.len = 0 ∨ qLengthOK Q A B m) (hne : Q.len ≠ 0)
    (hle : Q.len ≤ A.len - B.len) :
    Q.len = A.len - B.len ∧ A.value m < B.value m * t.base ^ (A.len - B.len) := by
  have hok := hQ.resolve_left hne
  rw [qLengthOK] at hok
  by_cases hge : greaterThanOrEqual (A.slice (A.len - B.len) B.len) B m
  · rw [if_pos hge, decide_eq_true_iff] at hok
    omega
  · rw [if_neg hge, decide_eq_true_iff] at hok
    rw [greaterThanOrEqual_iff, not_le] at hge
    refine ⟨by omega, ?_⟩
    have htop := (value_top m A.start (A.len - B.len) B.len).2
    rw [Nat.sub_add_cancel hlen] at htop
    have hsl : (A.slice (A.len - B.len) B.len).value m = value m (A.start + (A.len - B.len)) B.len := by
      rw [Digits.value, slice_start, slice_len, show min B.len (A.len - (A.len - B.len)) = B.len by omega]
    rw [hsl] at hge
    exact lt_of_lt_of_le htop (Nat.mul_le_mul_right _ hge)

/-- A quotient of shifted numbers. -/
theorem shifted_divMod {a b s q r : Nat} (hto : a * 2 ^ s = q * (b * 2 ^ s) + r) (hlt : r < b * 2 ^ s) :
    q = a / b ∧ r / 2 ^ s = a % b := by
  have hpos : 0 < 2 ^ s := Nat.two_pow_pos s
  have hqu : a * 2 ^ s / (b * 2 ^ s) = q := by
    rw [hto, mul_comm q, Nat.mul_add_div (by omega), Nat.div_eq_of_lt hlt, add_zero]
  have hre : a * 2 ^ s % (b * 2 ^ s) = r := by
    rw [hto, mul_comm q, Nat.mul_add_mod, Nat.mod_eq_of_lt hlt]
  rw [Nat.mul_div_mul_right _ _ hpos] at hqu
  rw [Nat.mul_mod_mul_right] at hre
  exact ⟨hqu.symm, by rw [← hre, Nat.mul_div_cancel _ hpos]⟩

theorem divisionScratch_len (smallScratch free needed : Nat) : needed ≤ (divisionScratch smallScratch free needed).len := by
  rw [divisionScratch]
  split
  · assumption
  · exact le_rfl

theorem make_spec {d : Digit t} (hd : t.base ≤ 2 * (d : Nat)) :
    MultiplicativeDigitDiv.make d = some ⟨d, MultiplicativeDigitDiv.computeInverse d⟩ := by
  have hbi := t.kDigitBits_ge
  have hba : t.base = 2 ^ (t.kDigitBits - 1) * 2 := by
    rw [← pow_succ, Nat.sub_add_cancel (by omega)]
    rfl
  have hlt := d.isLt
  have htop : (d : Nat) >>> (t.kDigitBits - 1) = 1 := by
    rw [Nat.shiftRight_eq_div_pow]
    exact Nat.div_eq_of_lt_le (by omega) (by omega)
  rw [MultiplicativeDigitDiv.make, dcheck_pos htop]
  rfl

/-- Steps D1 and D2: the shifted divisor and dividend, and the reciprocal. -/
theorem setup_spec {scratch : Digits} (hBl : 2 ≤ B.len) (hB : isDigitNormalized B m) (hlen : B.len ≤ A.len)
    (hne : B.len + 1 + B.len + (A.len + 1) ≤ scratch.len) (hsc : A.Apart scratch)
    (hscr : B.Apart scratch) (hscratchQ : Q.Apart scratch) (hQB : Q.Apart B) :
    ∃ m₁ m₂ BN shift d, shiftedDigits B (scratch.slice (B.len + 1) B.len) m = some (m₁, BN, shift) ∧
      leftShift (scratch.slice (B.len + 1 + B.len) (A.len + 1)) A shift m₁ = some m₂ ∧ shift < t.kDigitBits ∧
      MultiplicativeDigitDiv.make (BN.get m₂ (B.len - 1)) = some d ∧ BN.len = B.len ∧
      Layout Q (scratch.slice 0 (B.len + 1)) BN (scratch.slice (B.len + 1 + B.len) (A.len + 1)) (A.len - B.len) ∧
      DivisorReady d BN m₂ ∧ BN.value m₂ = B.value m * 2 ^ shift ∧
      Progress Q BN (scratch.slice (B.len + 1 + B.len) (A.len + 1)) (A.len - B.len) (A.value m * 2 ^ shift)
        (A.len - B.len + 1) 0 m₂ ∧ Changes scratch.Has m m₂ := by
  obtain ⟨U, hU⟩ : ∃ U, U = scratch.slice (B.len + 1 + B.len) (A.len + 1) := ⟨_, rfl⟩
  have hUs : U.start = scratch.start + (B.len + 1 + B.len) := by rw [hU]; rfl
  have hUl : U.len = A.len + 1 := by rw [hU, slice_len]; omega
  have hge := value_ge_of_normalized hB (by omega)
  unfold Digits.Apart at hsc hscr hscratchQ hQB
  obtain ⟨m₁, BN, shift, hsh, hshift, hBNl, hBNs, hc₁, hBN, hhalf⟩ :=
    @shiftedDigits_spec t B (scratch.slice (B.len + 1) B.len) m hB (by omega)
      (by rw [slice_len]; omega) (by unfold Digits.Apart; rw [slice_start, slice_len]; omega)
  rw [slice_start] at hBNs
  have hc₁' : Changes scratch.Has m m₁ := hc₁.mono fun a => slice_has
  have hA : A.value m₁ = A.value m := Digits.Apart.value hsc hc₁'
  have hpow : 2 ^ shift ≤ t.base := Nat.pow_le_pow_right (by decide) hshift.le
  have hfit : A.value m₁ * 2 ^ shift < t.base ^ U.len := by
    rw [hUl, hA, pow_succ]
    exact Nat.mul_lt_mul_of_lt_of_le (A.value_lt m) hpow (Nat.two_pow_pos _)
  have hah : A.Ahead U := by
    unfold Digits.Ahead
    omega
  obtain ⟨m₂, hlef, hc₂, hUv⟩ := leftShift_spec hshift hah (by omega) hfit
  rw [hA] at hUv
  have hBNU : BN.Apart U := by
    unfold Digits.Apart
    omega
  have hBN₂ : BN.value m₂ = B.value m * 2 ^ shift := by
    rw [hBNU.value hc₂, hBN]
  have htop : BN.get m₂ (BN.len - 1) = BN.get m₁ (BN.len - 1) :=
    get_of_changes hc₂ (by omega) fun _ => hBNU.not_has
  rw [← htop] at hhalf
  have hl : Layout Q (scratch.slice 0 (B.len + 1)) BN U (A.len - B.len) := by
    constructor
    · rw [slice_len]
      omega
    · omega
    all_goals
      unfold Digits.Apart
      try rw [slice_start, slice_len]
      omega
  refine ⟨m₁, m₂, BN, shift, _, hsh, by rw [← hU]; exact hlef, hshift, make_spec (by rw [← hBNl]; exact hhalf), hBNl,
    by rw [← hU]; exact hl, ⟨by omega, by rw [hBNl], by rw [← hBNl]; exact hhalf, rfl⟩, hBN₂, ?_, ?_⟩
  · rw [← hU]
    refine ⟨by rw [hUv]; ring, ?_, fun _ => ?_⟩
    · -- The dividend is less than the divisor times the weight of the first digit of the quotient.
      by_contra hnot
      have hsp := U.value_slice_add m₂ (A.len - B.len + 1)
      rw [hUv] at hsp
      have hlarge : t.base ^ (A.len - B.len + 1) * (B.value m * 2 ^ shift) ≤ A.value m * 2 ^ shift := by
        rw [hsp]
        refine le_trans (Nat.mul_le_mul_left _ ?_) (Nat.le_add_left _ _)
        rw [← hBN₂]
        omega
      have hca : t.base ^ (A.len - B.len + 1) * B.value m ≤ A.value m :=
        Nat.le_of_mul_le_mul_right (by rw [mul_assoc]; exact hlarge) (Nat.two_pow_pos shift)
      have hbig : t.base ^ A.len ≤ t.base ^ (A.len - B.len + 1) * B.value m := by
        rw [show A.len = A.len - B.len + 1 + (B.len - 1) by omega, pow_add]
        rw [show A.len - B.len + 1 + (B.len - 1) - B.len + 1 = A.len - B.len + 1 by omega]
        exact Nat.mul_le_mul_left _ hge
      have := A.value_lt m
      omega
    · rw [show min Q.len (A.len - B.len + 1) - (A.len - B.len + 1) = 0 by omega, value_zero]
  · rw [hU] at hc₂
    exact hc₁'.trans (hc₂.mono fun a => slice_has)

/-- The end: the remainder is shifted back, and digits of the quotient that are left over are cleared. -/
theorem finish_spec {BN U : Digits} {shift dividend top q : Nat} {m : Memory t} (hshift : shift < t.kDigitBits)
    (h : Progress Q BN U top dividend 0 q m) (hUR : U.Apart R) (hQR : Q.Apart R)
    (hR : R.len = 0 ∨ BN.len ≤ R.len) :
    ∃ m', storeRemainder R U shift m = some m' ∧ Changes (fun a => Q.Has a ∨ R.Has a) m (Q.clearFrom (top + 1) m') ∧
      (Q.len ≠ 0 → Q.value (Q.clearFrom (top + 1) m') = q) ∧
      (R.len ≠ 0 → R.value (Q.clearFrom (top + 1) m') = U.value m / 2 ^ shift) := by
  have hU : U.value m < BN.value m := by
    have hrest := h.rest
    rwa [show U.drop 0 = U from rfl] at hrest
  have hre : ∃ m', storeRemainder R U shift m = some m' ∧ Changes R.Has m m' ∧
      (R.len ≠ 0 → R.value m' = U.value m / 2 ^ shift) := by
    by_cases hne : R.len = 0
    · exact ⟨m, if_neg (not_not.mpr hne), .refl _ _, fun h => absurd hne h⟩
    · have hfit : U.value m < t.base ^ R.len :=
        hU.trans (lt_of_lt_of_le (BN.value_lt m) (Nat.pow_le_pow_right t.base_pos (hR.resolve_left hne)))
      obtain ⟨m', hrun, hch, hva⟩ := rightShift_spec hshift (hUR.ahead_drop (by omega) (Nat.zero_le _)) hfit
      exact ⟨m', (if_pos hne).trans hrun, hch, fun _ => hva⟩
  obtain ⟨m', hrun, hch, hva⟩ := hre
  have hcl : Changes Q.Has m' (Q.clearFrom (top + 1) m') := (Q.clearFrom_changes (top + 1) m').mono fun a => drop_has
  refine ⟨m', hrun, (hch.mono fun a ha => .inr ha).trans (hcl.mono fun a ha => .inl ha), ?_, ?_⟩
  · intro hne
    have hst := h.stored hne
    rw [Nat.sub_zero, Nat.add_zero] at hst
    rw [← hst]
    have hke : ∀ n ≤ Q.len, value m' Q.start n = value m Q.start n := by
      intro n hn
      exact hch.value fun a hlow hh ha => hQR.not_has ⟨hlow, by omega⟩ ha
    rcases Nat.le_total (top + 1) Q.len with hle | hle
    · rw [clearFrom_value m' hle, Nat.min_eq_right hle, hke _ hle]
    · rw [clearFrom_of_ge m' hle, Nat.min_eq_left hle, Digits.value, hke _ le_rfl]
  · intro hne
    rw [Digits.Apart.value hQR.symm hcl]
    exact hva hne

/-- Schoolbook division is exact. For every dividend that has a quotient of one digit, the estimate of that digit
is not too small and, once corrected, at most one too large. No check fails in a division: the borrow after a
product was subtracted is undone by adding the divisor back once, and a digit of the quotient that there is no
room for is zero. -/
theorem schoolbook_division_exact (smallScratch free : Nat) (hBlen : 2 ≤ B.len) (hB : isDigitNormalized B m)
    (hlen : B.len ≤ A.len) (hQ : Q.len = 0 ∨ qLengthOK Q A B m) (hR : R.len = 0 ∨ B.len ≤ R.len)
    (hscratchA : A.Apart (divisionScratch smallScratch free (B.len + 1 + B.len + (A.len + 1))))
    (hscratchB : B.Apart (divisionScratch smallScratch free (B.len + 1 + B.len + (A.len + 1))))
    (hscratchQ : Q.Apart (divisionScratch smallScratch free (B.len + 1 + B.len + (A.len + 1))))
    (hscratchR : R.Apart (divisionScratch smallScratch free (B.len + 1 + B.len + (A.len + 1))))
    (hQB : Q.Apart B) (hQR : Q.Apart R) :
    (∃ m', divideSchoolbook smallScratch free Q R A B m = some m' ∧
      (Q.len ≠ 0 → Q.value m' = A.value m / B.value m) ∧ (R.len ≠ 0 → R.value m' = A.value m % B.value m) ∧
      Changes (fun a => Q.Has a ∨ R.Has a ∨
        (divisionScratch smallScratch free (B.len + 1 + B.len + (A.len + 1))).Has a) m m') ∧
    ∀ (d : MultiplicativeDigitDiv t) (V : Digits) (m : Memory t) (s : Nat), DivisorReady d V m →
      value m s (V.len + 1) < t.base * V.value m →
      (m (s + V.len) ≠ d.divisor → value m s (V.len + 1) / V.value m ≤ (d.div (m (s + V.len)) (m (s + (V.len - 1)))).1) ∧
      value m s (V.len + 1) / V.value m ≤
        estimate d (V.get m (V.len - 2)) (m (s + V.len)) (m (s + (V.len - 1))) (m (s + (V.len - 2))) ∧
      (estimate d (V.get m (V.len - 2)) (m (s + V.len)) (m (s + (V.len - 1))) (m (s + (V.len - 2))) : Nat) ≤
        value m s (V.len + 1) / V.value m + 1 := by
  refine ⟨?_, fun d V m s hready hlt => ?_⟩
  · have hneeded := divisionScratch_len smallScratch free (B.len + 1 + B.len + (A.len + 1))
    set scratch := divisionScratch smallScratch free (B.len + 1 + B.len + (A.len + 1)) with hscratch
    obtain ⟨m₁, m₂, BN, shift, d, hshifted, hleft, hshift, hmake, hBNlen, hlayout, hready, hBN, hprogress, hchanges₂⟩ :=
      setup_spec (Q := Q) hBlen hB hlen hneeded hscratchA hscratchB hscratchQ hQB
    have hroom : Q.len ≠ 0 → Q.len ≤ A.len - B.len →
        Q.len = A.len - B.len ∧ A.value m * 2 ^ shift < BN.value m₂ * t.base ^ (A.len - B.len) := by
      intro hne hle
      obtain ⟨heq, hsmall⟩ := qLengthOK_room hlen hQ hne hle
      refine ⟨heq, ?_⟩
      rw [hBN, mul_right_comm]
      exact Nat.mul_lt_mul_of_pos_right hsmall (Nat.two_pow_pos shift)
    obtain ⟨m₃, q, hrounds, hchanges₃, hdone⟩ := divideRounds_spec hlayout (A.len - B.len + 1) le_rfl hready hprogress hroom
    obtain ⟨m₄, hfinish, hchanges₄, hquotient, hremainder⟩ := finish_spec hshift hdone (hscratchR.symm.slice _ _) hQR
      (by rw [hBNlen]; exact hR)
    have hBN₃ : BN.value m₃ = B.value m * 2 ^ shift := by
      rw [← hBN]
      exact value_of_changes hchanges₃ fun a => hlayout.divisor_kept
    have htotal := hdone.total
    have hrest := hdone.rest
    rw [pow_zero, mul_one, hBN₃] at htotal
    rw [hBN₃, show ∀ X : Digits, X.drop 0 = X from fun _ => rfl] at hrest
    obtain ⟨hq, hr⟩ := shifted_divMod htotal hrest
    refine ⟨Q.clearFrom (A.len - B.len + 1) m₄, ?_, ?_, ?_, ?_⟩
    · rw [← hBNlen] at hrounds hfinish
      rw [divideSchoolbook]
      refine run_bind (dcheck_pos hBlen) (run_bind (dcheck_pos hlen) (run_bind (dcheck_pos hQ) (run_bind (dcheck_pos hR)
        (run_bind hshifted (run_bind hleft (run_bind hmake ?_))))))
      rw [← hscratch, ← hBNlen]
      exact run_bind hrounds (run_bind hfinish rfl)
    · intro hne
      rw [hquotient hne, hq]
    · intro hne
      rw [hremainder hne, hr]
    · refine (hchanges₂.mono fun a ha => .inr (.inr ha)).trans ((hchanges₃.mono ?_).trans (hchanges₄.mono ?_))
      · intro a ha
        rcases ha with ha | ha | ha
        · exact .inr (.inr (slice_has ha))
        · exact .inr (.inr (slice_has ha))
        · exact .inl ha
      · intro a ha
        exact ha.imp id .inl
  · obtain ⟨hge, hle, hdiv⟩ := estimate_spec hready hlt
    exact ⟨hdiv, hge, hle⟩

/-- A number of two digits by itself, in 32-bit digits. -/
theorem schoolbook_division_exact_same : 2 ≤ (⟨0, 2⟩ : Digits).len ∧ isDigitNormalized (t := .bits32) ⟨0, 2⟩ (fun _ => 1) ∧
      ∃ m', divideSchoolbook (t := .bits32) 100 200 ⟨4, 1⟩ ⟨5, 2⟩ ⟨2, 2⟩ ⟨0, 2⟩ (fun _ => 1) = some m' ∧
        (1 ≠ 0 → (⟨4, 1⟩ : Digits).value m' =
          (⟨2, 2⟩ : Digits).value (t := .bits32) (fun _ => 1) / (⟨0, 2⟩ : Digits).value (t := .bits32) (fun _ => 1)) := by
  obtain ⟨⟨m', hrun, hquotient, -, -⟩, -⟩ := @schoolbook_division_exact .bits32 ⟨4, 1⟩ ⟨5, 2⟩ ⟨2, 2⟩ ⟨0, 2⟩ (fun _ => 1) 100 200
    (by decide) (by decide) (by decide) (by decide) (by decide) (by simp [Digits.Apart, divisionScratch, kSmallScratchSize])
    (by simp [Digits.Apart, divisionScratch, kSmallScratchSize]) (by simp [Digits.Apart, divisionScratch, kSmallScratchSize])
    (by simp [Digits.Apart, divisionScratch, kSmallScratchSize]) (by simp [Digits.Apart]) (by simp [Digits.Apart])
  exact ⟨by decide, by decide, m', hrun, hquotient⟩

end

end V8Multithread.Bigint
