import V8Multithread.Bigint.DivSchoolbook

/-! Division by a single digit.

The portable `digit_div` divides two digits by one in halves of digits; `DivideSingle` uses it from the top digit down. An
index that is not in its vector gives no result. The top digit that is returned besides is left out. -/
namespace V8Multithread.Bigint
open Base.Limbs Base.LongDivision Digits

variable {t : Target}

def Target.kHalfDigitBits (t : Target) : Nat := t.kDigitBits / 2

def Target.kHalfDigitBase (t : Target) : Nat := 1 <<< t.kHalfDigitBits

def highHalf (d : Digit t) : Digit t := toDigit t ((d : Nat) >>> t.kHalfDigitBits)

/-- The digit under `kHalfDigitMask`. -/
def lowHalf (d : Digit t) : Digit t := toDigit t ((d : Nat) &&& (t.kHalfDigitBase - 1))

theorem halfBase_sq (t : Target) : t.base = t.kHalfDigitBase * t.kHalfDigitBase := by
  cases t <;> rfl

theorem halfBase_ge (t : Target) : 2 ≤ t.kHalfDigitBase := by
  cases t <;> decide

theorem halfBase_val (t : Target) : (toDigit t t.kHalfDigitBase : Nat) = t.kHalfDigitBase := by
  have hge := halfBase_ge t
  refine toDigit_of_lt ?_
  rw [halfBase_sq]
  nlinarith

def correctHalf (vn1 vn0 un q rhat : Digit t) : Digit t :=
  if h : t.kHalfDigitBase ≤ q ∨ rhat * toDigit t t.kHalfDigitBase + un < q * vn0 then
    if t.kHalfDigitBase ≤ (rhat + vn1 : Digit t) then q - 1 else correctHalf vn1 vn0 un (q - 1) (rhat + vn1)
  else q
termination_by (q : Nat)
decreasing_by
  have hge := halfBase_ge t
  have hpos : 0 < (q : Nat) := by
    by_contra hzero
    have hq : q = 0 := Fin.ext (by simpa using hzero)
    rw [hq, zero_mul] at h
    exact h.elim (by simp; omega) (Fin.not_lt_zero _)
  rw [digit_sub_one hpos]
  omega

/-- A half digit of the quotient, and the rest. -/
def halfStep (divisor un32 un : Digit t) : Digit t × Digit t :=
  let vn1 := highHalf divisor
  let q := un32 / vn1
  let rhat := un32 - q * vn1
  let q := correctHalf vn1 (lowHalf divisor) un q rhat
  (q, un32 * toDigit t t.kHalfDigitBase + un - q * divisor)

def digitDiv (high low divisor : Digit t) : Option (Digit t × Digit t) := do
  dcheck (high < divisor)
  dcheck (divisor ≠ 0)
  let s := countLeadingZeros divisor
  dcheck (s ≠ t.kDigitBits)
  let divisor := toDigit t ((divisor : Nat) <<< s)
  let kShiftMask := t.kDigitBits - 1
  let sZeroMask := (((-(s : Int)) >>> (t.kDigitBits - 1)) % t.base).toNat
  let un32 := toDigit t ((high : Nat) <<< s ||| (((low : Nat) >>> ((t.kDigitBits - s) &&& kShiftMask)) &&& sZeroMask))
  let un10 := toDigit t ((low : Nat) <<< s)
  let (q1, un21) := halfStep divisor un32 (highHalf un10)
  let (q0, rest) := halfStep divisor un21 (lowHalf un10)
  return (q1 * toDigit t t.kHalfDigitBase + q0, toDigit t ((rest : Nat) >>> s))

def divideDown (Q A : Digits) (b : Digit t) : (i : Nat) → (rem : Digit t) → Memory t → Option (Memory t × Digit t)
  | 0, rem, m => some (m, rem)
  | i + 1, rem, m => do
    dcheck (i < A.len)
    dcheck (i < Q.len)
    let (q, rem) ← digitDiv rem (A.get m i) b
    divideDown Q A b i rem (Q.set m i q)

def divideSingle (Q A : Digits) (b : Digit t) (m : Memory t) : Option (Memory t × Digit t) := do
  dcheck (b ≠ 0)
  dcheck (0 < A.len)
  dcheck (A.len ≤ Q.len)
  let length := A.len
  if b ≤ A.get m (length - 1) then
    let (m, rem) ← divideDown Q A b length 0 m
    return (Q.clearFrom length m, rem)
  else
    let rem := A.get m (length - 1)
    -- An unsigned number of 32 bits: for a single digit, the difference wraps around and is not below zero.
    let i := (length + (2 ^ 32 - 2)) % 2 ^ 32
    let (m, rem) ← if 0 ≤ i then divideDown Q A b (i + 1) rem m else some (m, rem)
    return (Q.clearFrom (length - 1) m, rem)

/-! ### Half digits -/

theorem halves_eq (d : Digit t) : (highHalf d : Nat) * t.kHalfDigitBase + lowHalf d = d ∧
    (highHalf d : Nat) < t.kHalfDigitBase ∧ (lowHalf d : Nat) < t.kHalfDigitBase := by
  have hlt := d.isLt
  have hpow : t.kHalfDigitBase = 2 ^ t.kHalfDigitBits := Nat.one_shiftLeft _
  have hh : (highHalf d : Nat) = d / t.kHalfDigitBase := by
    rw [highHalf, Nat.shiftRight_eq_div_pow, ← hpow, toDigit_of_lt ((Nat.div_le_self _ _).trans_lt hlt)]
  have hlow : (lowHalf d : Nat) = d % t.kHalfDigitBase := by
    rw [lowHalf, hpow, Nat.and_two_pow_sub_one_eq_mod, toDigit_of_lt ((Nat.mod_le _ _).trans_lt hlt)]
  have hpos : 0 < t.kHalfDigitBase := hpow ▸ Nat.two_pow_pos _
  rw [hh, hlow, Nat.div_lt_iff_lt_mul hpos, ← halfBase_sq]
  exact ⟨Nat.div_add_mod' _ _, hlt, Nat.mod_lt _ hpos⟩

section
variable {vn1 vn0 un q rhat : Digit t} {T : Nat}

/-- What the loop tests, in numbers that do not wrap around. -/
theorem correctHalf_test (hvn0 : (vn0 : Nat) < t.kHalfDigitBase) (hun : (un : Nat) < t.kHalfDigitBase)
    (hr : (rhat : Nat) < t.kHalfDigitBase) :
    (t.kHalfDigitBase ≤ q ∨ rhat * toDigit t t.kHalfDigitBase + un < q * vn0) ↔
      t.kHalfDigitBase ≤ q ∨ (rhat : Nat) * t.kHalfDigitBase + un < q * vn0 := by
  refine or_congr_right' fun hq => ?_
  have hba := halfBase_sq t
  have hnext := Nat.mul_le_mul_right t.kHalfDigitBase hr
  rw [Nat.succ_mul] at hnext
  have hshift : ((rhat * toDigit t t.kHalfDigitBase : Digit t) : Nat) = rhat * t.kHalfDigitBase := by
    rw [Fin.val_mul, halfBase_val, Nat.mod_eq_of_lt (by omega)]
  have hmul := Nat.mul_lt_mul_of_lt_of_lt (Nat.not_le.mp hq) hvn0
  rw [Fin.lt_def, digit_add_of_lt (by omega), hshift, Fin.val_mul, Nat.mod_eq_of_lt (by omega)]

/-- A half digit that the next half does not show to be too large. -/
theorem half_mul_le {q v₁ v₂ r u b : Nat} (hT : q * v₁ + r = T) (hle : q * v₂ ≤ r * b + u) :
    q * (v₁ * b + v₂) ≤ T * b + u := by
  rw [← hT]
  linarith

/-- The loop finds the half digit of the quotient. -/
theorem correctHalf_eq (hvn1 : t.kHalfDigitBase ≤ 2 * (vn1 : Nat)) (hvn1lt : (vn1 : Nat) < t.kHalfDigitBase)
    (hvn0 : (vn0 : Nat) < t.kHalfDigitBase) (hun : (un : Nat) < t.kHalfDigitBase)
    (hlt : T < vn1 * t.kHalfDigitBase + vn0) (hr : (rhat : Nat) < t.kHalfDigitBase) (hT : (q : Nat) * vn1 + rhat = T)
    (hge : (T * t.kHalfDigitBase + un) / (vn1 * t.kHalfDigitBase + vn0) ≤ q) :
    (correctHalf vn1 vn0 un q rhat : Nat) = (T * t.kHalfDigitBase + un) / (vn1 * t.kHalfDigitBase + vn0) := by
  have hte := fun q rhat => @correctHalf_test t vn0 un q rhat hvn0 hun
  have hmul : 2 * t.kHalfDigitBase ≤ t.base := halfBase_sq t ▸ Nat.mul_le_mul_right _ (halfBase_ge t)
  have hpos : 0 < vn1 * t.kHalfDigitBase + vn0 := by omega
  -- A half digit that is decreased was too large.
  have hst : ∀ {q rhat : Digit t}, (q : Nat) * vn1 + rhat = T →
      t.kHalfDigitBase ≤ q ∨ (rhat : Nat) * t.kHalfDigitBase + un < q * vn0 →
      (T * t.kHalfDigitBase + un) / (vn1 * t.kHalfDigitBase + vn0) ≤ (q - 1 : Digit t) ∧
        ((q - 1 : Digit t) : Nat) * vn1 + (rhat + vn1) = T := by
    intro q rhat hT hq
    have hl : (T * t.kHalfDigitBase + un) / (vn1 * t.kHalfDigitBase + vn0) < q := by
      rcases hq with hb | hg
      · refine lt_of_lt_of_le (Nat.div_lt_of_lt_mul ?_) hb
        calc T * t.kHalfDigitBase + un < (T + 1) * t.kHalfDigitBase := by linarith
          _ ≤ (vn1 * t.kHalfDigitBase + vn0) * t.kHalfDigitBase := Nat.mul_le_mul_right _ hlt
      · exact quotient_lt_of_greater (by rw [mul_one]) (by rw [mul_one]; omega) hT hg
    obtain ⟨q', hq'⟩ := Nat.exists_eq_add_one_of_ne_zero (Nat.ne_zero_of_lt hl)
    have hsub : ((q - 1 : Digit t) : Nat) = q' := by rw [digit_sub_one (by omega), hq', Nat.add_sub_cancel]
    rw [hsub]
    refine ⟨by omega, ?_⟩
    rw [← hT, hq']
    ring
  have hadd : ∀ {rhat : Digit t}, (rhat : Nat) < t.kHalfDigitBase → ((rhat + vn1 : Digit t) : Nat) = rhat + vn1 :=
    fun hr => digit_add_of_lt (by omega)
  induction q, rhat using correctHalf.induct vn1 vn0 un with
  | case1 q rhat hq ho =>
    rw [correctHalf, dif_pos hq, if_pos ho]
    obtain ⟨hge', hT'⟩ := hst hT ((hte q rhat hr).mp hq)
    rw [hadd hr] at ho
    refine le_antisymm ((Nat.le_div_iff_mul_le hpos).mpr (half_mul_le hT' ?_)) hge'
    have hle : ((q - 1 : Digit t) : Nat) ≤ t.kHalfDigitBase := by
      by_contra hgt
      have := Nat.mul_le_mul_right (vn1 : Nat) (Nat.not_le.mp hgt)
      linarith
    calc ((q - 1 : Digit t) : Nat) * vn0 ≤ t.kHalfDigitBase * t.kHalfDigitBase := Nat.mul_le_mul hle hvn0.le
      _ ≤ (rhat + vn1) * t.kHalfDigitBase := Nat.mul_le_mul_right _ ho
      _ ≤ _ := Nat.le_add_right _ _
  | case2 q rhat hq ho ih =>
    rw [correctHalf, dif_pos hq, if_neg ho]
    obtain ⟨hge', hT'⟩ := hst hT ((hte q rhat hr).mp hq)
    exact ih (Nat.not_le.mp ho) (by rw [hadd hr, hT']) hge'
  | case3 q rhat hq =>
    rw [correctHalf, dif_neg hq]
    have hnot := (hte q rhat hr).not.mp hq
    exact le_antisymm ((Nat.le_div_iff_mul_le hpos).mpr (half_mul_le hT (by omega))) hge

/-- A rest that is computed modulo the base. -/
theorem rest_of_modEq {x : Digit t} {W q d r : Nat} (h : (x : ℤ) ≡ (W : ℤ) - (q : ℤ) * d [ZMOD t.base])
    (hW : q * d + r = W) (hr : r < t.base) : (x : Nat) = r := by
  have hrest : (W : ℤ) - q * d = r := by
    rw [← hW]
    push_cast
    ring
  rw [hrest] at h
  exact_mod_cast digit_eq_of_modEq h (by positivity) (by exact_mod_cast hr)

/-- A step divides by a divisor whose top bit is set. -/
theorem halfStep_spec {divisor un32 : Digit t} (hd : t.base ≤ 2 * (divisor : Nat)) (hlt : un32 < divisor)
    (hun : (un : Nat) < t.kHalfDigitBase) :
    ((halfStep divisor un32 un).1 : Nat) * divisor + (halfStep divisor un32 un).2 = un32 * t.kHalfDigitBase + un ∧
      ((halfStep divisor un32 un).2 : Nat) < divisor := by
  obtain ⟨hsp, hh, hlow⟩ := halves_eq divisor
  have hvn1 : t.kHalfDigitBase ≤ 2 * (highHalf divisor : Nat) := by
    by_contra hl
    have hba := halfBase_sq t
    have hev : t.kHalfDigitBase % 2 = 0 := by cases t <;> rfl
    have := Nat.mul_le_mul_right t.kHalfDigitBase (show 2 * (highHalf divisor : Nat) + 2 ≤ t.kHalfDigitBase by omega)
    linarith
  have hpos : 0 < (highHalf divisor : Nat) := by
    have := halfBase_ge t
    omega
  have hq : ((un32 / highHalf divisor : Digit t) : Nat) = (un32 : Nat) / highHalf divisor := rfl
  have hrh : ((un32 - un32 / highHalf divisor * highHalf divisor : Digit t) : Nat) = (un32 : Nat) % highHalf divisor :=
    rest_of_modEq ((digit_sub_modEq un32 _).trans ((digit_mul_modEq _ _).sub_left _)) (Nat.div_add_mod' _ _)
      ((Nat.mod_le _ _).trans_lt un32.isLt)
  have hmain := correctHalf_eq hvn1 hh hlow hun (by rwa [hsp]) (hrh ▸ (Nat.mod_lt _ hpos).trans hh)
    (by rw [hq, hrh, Nat.div_add_mod']) (hq ▸ quotient_le_of_top hpos (Nat.le_add_right _ _) (by linarith))
  rw [hsp] at hmain
  rw [halfStep]
  generalize correctHalf _ _ _ _ _ = q at *
  have hdiv := Nat.div_add_mod' ((un32 : Nat) * t.kHalfDigitBase + un) divisor
  have hl := Nat.mod_lt ((un32 : Nat) * t.kHalfDigitBase + un) (show 0 < (divisor : Nat) by omega)
  rw [← hmain] at hdiv
  have hmod := (digit_sub_modEq (un32 * toDigit t t.kHalfDigitBase + un) _).trans
    (((digit_add_modEq _ un).trans ((digit_mul_modEq un32 _).add_right _)).sub (digit_mul_modEq q divisor))
  rw [halfBase_val] at hmod
  have hrest : ((un32 * toDigit t t.kHalfDigitBase + un - q * divisor : Digit t) : Nat) = _ :=
    rest_of_modEq (by exact_mod_cast hmod) hdiv (hl.trans divisor.isLt)
  rw [hrest]
  exact ⟨hdiv, hl⟩

end

/-! ### Two digits by one -/

/-- The bits of the low digit that are shifted into the high one; none, if nothing is shifted. -/
theorem shifted_mask (low : Digit t) {s : Nat} (hs : s < t.kDigitBits) :
    ((low : Nat) >>> ((t.kDigitBits - s) &&& (t.kDigitBits - 1))) &&&
      (((-(s : Int)) >>> (t.kDigitBits - 1)) % t.base).toNat = toDigit t ((low : Nat) >>> (t.kDigitBits - s)) := by
  by_cases hzero : s = 0
  · have hno : (low : Nat) >>> t.kDigitBits = 0 := by
      rw [Nat.shiftRight_eq_div_pow]
      exact Nat.div_eq_of_lt low.isLt
    simp [hzero, hno]
  · have hand : (t.kDigitBits - s) &&& (t.kDigitBits - 1) = t.kDigitBits - s := by
      have hpow : t.kDigitBits = 2 ^ t.kLog2DigitBits := Nat.one_shiftLeft _
      rw [hpow, Nat.and_two_pow_sub_one_eq_mod, Nat.mod_eq_of_lt (by omega)]
    have hle : t.kDigitBits - 1 < 2 ^ (t.kDigitBits - 1) := Nat.lt_two_pow_self
    have hba := t.base_pos
    zify at hle
    have ho : (-(s : Int)) >>> (t.kDigitBits - 1) = -1 := by
      rw [Int.shiftRight_eq_div_pow]
      push_cast
      exact ((Int.ediv_emod_unique (r := 2 ^ (t.kDigitBits - 1) - s) (by positivity)).mpr ⟨by ring, by omega, by omega⟩).1
    have hmod : (-1 : Int) % t.base = (t.base - 1 : Nat) :=
      ((Int.ediv_emod_unique (q := -1) (by omega)).mpr ⟨by push_cast [hba]; ring, by omega, by omega⟩).2
    rw [hand, ho, hmod, Int.toNat_natCast]
    exact Nat.and_two_pow_sub_one_eq_mod _ _

theorem digitDiv_spec {high low divisor : Digit t} (h : high < divisor) :
    ∃ q r, digitDiv high low divisor = some (q, r) ∧ (q : Nat) * divisor + r = high * t.base + low ∧ r < divisor := by
  have hlt : (high : Nat) < divisor := h
  have hne : divisor ≠ 0 := fun hzero => by simp [hzero] at hlt
  obtain ⟨hs, hfit, hno⟩ := countLeadingZeros_spec (show (divisor : Nat) ≠ 0 by omega)
  obtain ⟨s, heq⟩ : ∃ s, s = countLeadingZeros divisor := ⟨_, rfl⟩
  rw [digitDiv, dcheck_pos h, dcheck_pos hne, ← heq]
  rw [← heq] at hs hfit hno
  dsimp only
  rw [dcheck_pos hs.ne, shifted_mask low hs]
  obtain ⟨hlow, hca⟩ := shifted low hs (Nat.two_pow_pos s)
  obtain ⟨hh, -⟩ := shifted high hs hca
  have hpos := Nat.two_pow_pos s
  have hfi : (high : Nat) >>> (t.kDigitBits - s) = 0 := by
    rw [Nat.shiftRight_eq_div_pow]
    refine Nat.div_eq_of_lt (Nat.lt_of_mul_lt_mul_right (a := 2 ^ s) ?_)
    rw [← pow_add, Nat.sub_add_cancel hs.le]
    exact (Nat.mul_lt_mul_of_pos_right (hlt.trans (Nat.lt_succ_self _)) hpos).trans_le hfit
  rw [Nat.or_zero] at hlow
  rw [hfi, toDigit_of_lt t.base_pos] at hh
  have hsh : (toDigit t ((divisor : Nat) <<< s) : Nat) = divisor * 2 ^ s := by
    rw [Nat.shiftLeft_eq, toDigit_of_lt (by linarith)]
  generalize toDigit t ((high : Nat) <<< s ||| _) = un32 at *
  generalize toDigit t ((low : Nat) <<< s) = un10 at *
  generalize toDigit t ((divisor : Nat) <<< s) = d at *
  rw [← hsh] at hno
  have hun32 : un32 < d := by
    have := Nat.mul_le_mul_right (2 ^ s) hlt
    rw [Fin.lt_def, hsh]
    linarith
  obtain ⟨hsp, hh1, hh0⟩ := halves_eq un10
  obtain ⟨hdiv1, hl1⟩ := halfStep_spec hno hun32 hh1
  obtain ⟨hdiv0, hl0⟩ := halfStep_spec hno hl1 hh0
  generalize halfStep d un32 (highHalf un10) = one at *
  generalize halfStep d one.2 (lowHalf un10) = two at *
  have hto : ((high : Nat) * t.base + low) * 2 ^ s = ((one.1 : Nat) * t.kHalfDigitBase + two.1) * (divisor * 2 ^ s) + two.2 := by
    rw [← hsh]
    have hsq := halfBase_sq t
    zify at *
    linear_combination (-(t.base : ℤ)) * hh - hlow - (t.kHalfDigitBase : ℤ) * hdiv1 - hdiv0 + (un32 : ℤ) * hsq - hsp
  obtain ⟨hqu, hre⟩ := shifted_divMod hto (hsh ▸ hl0)
  have hsm : ((high : Nat) * t.base + low) / divisor < t.base := by
    have := Nat.mul_le_mul_right t.base hlt
    have := low.isLt
    exact Nat.div_lt_of_lt_mul (by linarith)
  have hq : ((one.1 * toDigit t t.kHalfDigitBase + two.1 : Digit t) : Nat) = ((high : Nat) * t.base + low) / divisor := by
    rw [Fin.val_add, Fin.val_mul, halfBase_val, Nat.mod_add_mod, hqu, Nat.mod_eq_of_lt hsm]
  have hr : (toDigit t ((two.2 : Nat) >>> s) : Nat) = ((high : Nat) * t.base + low) % divisor := by
    rw [Nat.shiftRight_eq_div_pow, toDigit_of_lt ((Nat.div_le_self _ _).trans_lt two.2.isLt), hre]
  refine ⟨_, _, rfl, by rw [hq, hr, Nat.div_add_mod'], ?_⟩
  rw [Fin.lt_def, hr]
  exact Nat.mod_lt _ (by omega)

/-! ### The loop -/

section
variable {Q A : Digits} {b : Digit t} {m : Memory t}

/-- What is written does not reach the digits that are still to be read. -/
theorem divideDown_eq (hQA : A.start ≤ Q.start ∨ Q.start + Q.len ≤ A.start) {i : Nat} (hA : i ≤ A.len) (hQ : i ≤ Q.len)
    {rem : Digit t} (hrem : rem < b) :
    ∃ m' rem', divideDown Q A b i rem m = some (m', rem') ∧ Changes (Within Q.start i) m m' ∧ rem' < b ∧
      (rem : Nat) * t.base ^ i + A.low m i = value m' Q.start i * b + rem' := by
  induction i generalizing rem m with
  | zero => exact ⟨m, rem, rfl, .refl _ _, hrem, by simp [Digits.low]⟩
  | succ i ih =>
    obtain ⟨q, r, hrun, hdiv, hl⟩ := @digitDiv_spec t rem (A.get m i) b hrem
    obtain ⟨m', rem', hrest, hch, hrem', hva⟩ := @ih (Q.set m i q) (by omega) (by omega) r hl
    have hset : Changes (Within (Q.start + i) 1) m (Q.set m i q) := .update ⟨by omega, by omega⟩ m q
    have hlow : A.low (Q.set m i q) i = A.low m i := hset.value fun a ha hlt hin => by
      have := hin.1
      have := hin.2
      omega
    have htop : m' (Q.start + i) = q := by
      rw [hch (Q.start + i) fun hin => by have := hin.2; omega]
      exact Function.update_self _ _ _
    refine ⟨m', rem', ?_, ?_, hrem', ?_⟩
    · exact run_bind (dcheck_pos (by omega)) (run_bind (dcheck_pos (by omega)) (run_bind hrun hrest))
    · refine (hset.mono fun a ha => ?_).trans (hch.mono fun a ha => ⟨ha.1, by have := ha.2; omega⟩)
      have := ha.1
      have := ha.2
      exact ⟨by omega, by omega⟩
    · rw [A.low_succ m (by omega), value_succ, htop, pow_succ]
      rw [hlow] at hva
      zify at *
      linear_combination hva - (t.base : ℤ) ^ i * hdiv

/-- The quotient is written into `Q`, with zeros above it, nothing else is written, and the remainder is returned. -/
def Divides (Q A : Digits) (b : Digit t) (m : Memory t) : Prop :=
  ∃ m' rem, divideSingle Q A b m = some (m', rem) ∧ Changes Q.Has m m' ∧ Q.value m' = A.value m / b ∧
    (rem : Nat) = A.value m % b

theorem divides_of_loop {i : Nat} (hQA : A.start ≤ Q.start ∨ Q.start + Q.len ≤ A.start) (hA : i ≤ A.len) (hQ : i ≤ Q.len)
    {rem : Digit t} (hrem : rem < b) (hva : (rem : Nat) * t.base ^ i + A.low m i = A.value m)
    (hrun : divideSingle Q A b m = (divideDown Q A b i rem m).map fun s => (Q.clearFrom i s.1, s.2)) : Divides Q A b m := by
  obtain ⟨m', rem', hloop, hch, hlt, hto⟩ := @divideDown_eq t Q A b m hQA i hA hQ rem hrem
  obtain ⟨hcl, hres⟩ := clearFrom_after hch hQ
  rw [hva, mul_comm] at hto
  obtain ⟨hqu, hre⟩ := (Nat.div_mod_unique (by have : (rem' : Nat) < b := hlt; omega)).mpr
    ⟨(add_comm _ _).trans hto.symm, hlt⟩
  exact ⟨_, rem', by rw [hrun, hloop]; rfl, hcl, by rw [hres, hqu], hre.symm⟩

/-- A single digit that is less than the divisor: the index of the next digit is not in the vectors. -/
theorem divideSingle_less (hb : b ≠ 0) (hA : A.len = 1) (hQ : 1 ≤ Q.len) (hl : A.get m 0 < b) :
    divideSingle Q A b m = none := by
  have hwr : (1 + (2 ^ 32 - 2)) % 2 ^ 32 = 2 ^ 32 - 1 := by decide
  have hdo : divideDown Q A b (2 ^ 32 - 1 + 1) (A.get m 0) m = none := by
    rw [divideDown, hA, dcheck, if_neg (by decide)]
    rfl
  rw [divideSingle, dcheck_pos hb, hA, dcheck_pos Nat.one_pos, dcheck_pos hQ]
  refine (if_neg (not_le.mpr hl)).trans ?_
  dsimp only
  rw [hwr, if_pos (Nat.zero_le _), hdo]
  rfl

/-- The three divisions are exact, except that `DivideSingle` leaves its vectors if a single digit is less than the
divisor. -/
theorem single_digit_division_exact_iff (hb : b ≠ 0) (hA : 0 < A.len) (hQ : A.len ≤ Q.len) (hlen : Q.len < 2 ^ 32)
    (hQA : A.start ≤ Q.start ∨ Q.start + Q.len ≤ A.start) :
    (Divides Q A b m ∧
      (∀ high low divisor : Digit t, high < divisor → ∃ q r, digitDiv high low divisor = some (q, r) ∧
        (q : Nat) * divisor + r = high * t.base + low ∧ r < divisor) ∧
      ∀ divisor : Digit t, t.base ≤ 2 * (divisor : Nat) → ∃ d, MultiplicativeDigitDiv.make divisor = some d ∧
        ∀ high low, high < divisor → ((d.div high low).1 : Nat) * divisor + (d.div high low).2 = high * t.base + low ∧
          (d.div high low).2 < divisor) ↔
      ¬(A.len = 1 ∧ A.get m 0 < b) := by
  constructor
  · rintro ⟨⟨m', rem, hrun, -⟩, -⟩ ⟨hone, hless⟩
    rw [divideSingle_less hb hone (by omega) hless] at hrun
    cases hrun
  · intro hnot
    refine ⟨?_, fun _ _ _ => digitDiv_spec, fun divisor hd => ⟨_, make_spec hd, fun _ _ hlt =>
      MultiplicativeDigitDiv.div_spec (d := ⟨divisor, _⟩) hd rfl hlt⟩⟩
    have hpos : 0 < b := Nat.pos_of_ne_zero fun hzero => hb (Fin.ext hzero)
    by_cases htop : b ≤ A.get m (A.len - 1)
    · refine divides_of_loop hQA le_rfl hQ hpos (by rw [A.low_of_ge m le_rfl]; simp) ?_
      rw [divideSingle, dcheck_pos hb, dcheck_pos hA, dcheck_pos hQ]
      refine (if_pos htop).trans ?_
      cases divideDown Q A b A.len 0 m <;> rfl
    · have hlong : A.len ≠ 1 := fun hone => hnot ⟨hone, by rw [hone] at htop; exact not_le.mp htop⟩
      refine divides_of_loop hQA (Nat.sub_le _ 1) (by omega) (not_le.mp htop) ?_ ?_
      · have hlast := A.low_succ m (show A.len - 1 < A.len by omega)
        rw [Nat.sub_add_cancel hA, A.low_of_ge m le_rfl] at hlast
        rw [hlast]
        ring
      · have hnext : (A.len + (2 ^ 32 - 2)) % 2 ^ 32 + 1 = A.len - 1 := by omega
        rw [divideSingle, dcheck_pos hb, dcheck_pos hA, dcheck_pos hQ]
        refine (if_neg htop).trans ?_
        dsimp only
        rw [if_pos (Nat.zero_le _), hnext]
        cases divideDown Q A b (A.len - 1) (A.get m (A.len - 1)) m <;> rfl

theorem single_digit_division_exact_iff_two : Divides (t := .bits64) ⟨2, 2⟩ ⟨0, 2⟩ 7 (fun _ => 5) :=
  ((single_digit_division_exact_iff (by decide) (by decide) (by decide) (by decide) (by decide)).mpr (by decide)).1

/-- One divided by two. -/
theorem single_digit_division_leaves : ¬Divides (t := .bits64) ⟨1, 1⟩ ⟨0, 1⟩ 2 fun _ => 1 := by
  rintro ⟨m', rem, hrun, -⟩
  cases hrun

end

end V8Multithread.Bigint
