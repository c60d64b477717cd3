import V8Multithread.Bigint.VectorArithmetic
import V8Multithread.Base.Spelling

/-! `BigInt.asIntN` and `BigInt.asUintN`.

The code works on magnitudes and predicts the sign from single bits. An index that the code checks when it reads or
writes a digit is checked here before the loop that uses it. -/
namespace V8Multithread.Bigint
open Option Base.Limbs Digits
open Nat (mod_lt mod_eq_of_lt two_pow_pos)

variable {t : Target}

/-- `DIV_CEIL`. -/
def divCeil (x y : Nat) : Nat := (x - 1) / y + 1

/-- `(msd << drop) >> drop`, where `drop` is `kDigitBits - bits`. -/
def keepBits (msd : Digit t) (bits : Nat) : Digit t :=
  let drop := t.kDigitBits - bits
  toDigit t ((toDigit t ((msd : Nat) <<< drop) : Nat) >>> drop)

def truncateToNBits (Z X : Digits) (n : Nat) (m : Memory t) : Option (Memory t) := do
  let digits := divCeil n t.kDigitBits
  let bits := n % t.kDigitBits
  let last := digits - 1
  dcheck (last < X.len)
  dcheck (last < Z.len)
  let m := (sweep Z.start (fun m i c => (X.get m i, c)) 0 last (m, ())).1
  let msd := X.get m last
  return Z.set m last (if bits ≠ 0 then keepBits msd bits else msd)

/-- The digits below the last one of a number subtracted from a power of two, and the borrow. -/
def subFromZero (Z X : Digits) (last : Nat) (m : Memory t) : Memory t × Digit t :=
  let haveX := min last X.len
  let s := sweep Z.start (fun m i borrow => digitSub2 0 (X.get m i) borrow) 0 haveX (m, (0 : Digit t))
  sweep Z.start (fun _ _ borrow => digitSub 0 borrow) haveX (last - haveX) s

def truncateAndSubFromPowerOfTwo (Z X : Digits) (n : Nat) (m : Memory t) : Option (Memory t) := do
  let digits := divCeil n t.kDigitBits
  let bits := n % t.kDigitBits
  let last := digits - 1
  dcheck (last < Z.len)
  let s := subFromZero Z X last m
  let msd := if last < X.len then X.get s.1 last else 0
  if bits = 0 then return Z.set s.1 last (digitSub2 0 msd s.2).1
  let minuendMsd := toDigit t (1 <<< bits)
  let result := digitSub2 minuendMsd (keepBits msd bits) s.2
  dcheck (result.2 = 0)
  return Z.set s.1 last (toDigit t ((result.1 : Nat) &&& ((minuendMsd - 1 : Digit t) : Nat)))

/-- `for (int i = count - 1; i >= 0; i--) if (X[i] != 0) …`. -/
def findsNonZero (X : Digits) (m : Memory t) : (count : Nat) → Bool
  | 0 => false
  | i + 1 => if X.get m i ≠ 0 then true else findsNonZero X m i

def asIntNResultLength (X : Digits) (xNegative : Bool) (n : Nat) (m : Memory t) : Int :=
  let neededDigits := divCeil n t.kDigitBits
  if X.len < neededDigits then -1
  else if neededDigits < X.len then neededDigits
  else
    let topDigit := X.get m (neededDigits - 1)
    let compareDigit := toDigit t (1 <<< ((n - 1) % t.kDigitBits))
    if topDigit < compareDigit then -1
    else if compareDigit < topDigit then neededDigits
    else if !xNegative then neededDigits
    else if findsNonZero X m (neededDigits - 1) then neededDigits
    else -1

/-- The result's magnitude goes to `Z`; whether it is negative is returned. -/
def asIntN (Z X : Digits) (xNegative : Bool) (n : Nat) (m : Memory t) : Option (Memory t × Bool) := do
  dcheck (0 < X.len)
  dcheck (0 < n)
  dcheck (0 < asIntNResultLength X xNegative n m)
  let neededDigits := divCeil n t.kDigitBits
  let topDigit := X.get m (neededDigits - 1)
  let compareDigit := toDigit t (1 <<< ((n - 1) % t.kDigitBits))
  let hasBit := (topDigit : Nat) &&& compareDigit = (compareDigit : Nat)
  if ¬hasBit then
    let m ← truncateToNBits Z X n m
    return (m, xNegative)
  let m ← truncateAndSubFromPowerOfTwo Z X n m
  if !xNegative then return (m, true)
  if (topDigit : Nat) &&& ((compareDigit - 1 : Digit t) : Nat) ≠ 0 then return (m, false)
  return (m, !findsNonZero X m (neededDigits - 1))

def asUintNPosResultLength (X : Digits) (n : Nat) (m : Memory t) : Int :=
  let neededDigits := divCeil n t.kDigitBits
  if X.len < neededDigits then -1
  else if neededDigits < X.len then neededDigits
  else
    let bitsInTopDigit := n % t.kDigitBits
    if bitsInTopDigit = 0 then -1
    else if (X.get m (neededDigits - 1) : Nat) >>> bitsInTopDigit = 0 then -1
    else neededDigits

def asUintNPos (Z X : Digits) (n : Nat) (m : Memory t) : Option (Memory t) := do
  dcheck (0 < asUintNPosResultLength X n m)
  truncateToNBits Z X n m

def asUintNNegResultLength (t : Target) (n : Nat) : Nat := (n - 1) / t.kDigitBits + 1

def asUintNNeg (Z X : Digits) (n : Nat) (m : Memory t) : Option (Memory t) := truncateAndSubFromPowerOfTwo Z X n m

/-! ### The low bits of a number -/

section
variable {X Z : Digits} {m : Memory t} {n : Nat}

def topBits (t : Target) (n : Nat) : Nat := (n - 1) % t.kDigitBits + 1

theorem topBits_le (t : Target) (n : Nat) : topBits t n ≤ t.kDigitBits := by
  have := mod_lt (n - 1) (show 0 < t.kDigitBits by have := t.kDigitBits_ge; omega)
  rw [topBits]
  omega

theorem mul_add_topBits (t : Target) (hn : 0 < n) : t.kDigitBits * ((n - 1) / t.kDigitBits) + topBits t n = n := by
  have := Nat.div_add_mod (n - 1) t.kDigitBits
  rw [topBits]
  omega

theorem two_pow_eq (t : Target) (hn : 0 < n) : 2 ^ n = t.base ^ ((n - 1) / t.kDigitBits) * 2 ^ topBits t n := by
  rw [Target.base, ← pow_mul, ← pow_add, mul_add_topBits t hn]

theorem two_pow_pred_eq (t : Target) (hn : 0 < n) :
    2 ^ (n - 1) = t.base ^ ((n - 1) / t.kDigitBits) * 2 ^ (topBits t n - 1) := by
  have hone : 1 ≤ topBits t n := by
    rw [topBits]
    omega
  have heq := mul_add_topBits t hn
  rw [Target.base, ← pow_mul, ← pow_add]
  congr 1
  omega

/-- The code's count of the bits is that, unless the whole digit is wanted. -/
theorem mod_kDigitBits (t : Target) (hn : 0 < n) : n % t.kDigitBits = 0 ∧ topBits t n = t.kDigitBits ∨
      n % t.kDigitBits ≠ 0 ∧ n % t.kDigitBits = topBits t n ∧ topBits t n < t.kDigitBits := by
  have hle := topBits_le t n
  have heq := mul_add_topBits t hn
  rcases Nat.lt_or_eq_of_le hle with hlt | hfu
  · have hbi : n % t.kDigitBits = topBits t n := by
      conv_lhs => rw [← heq]
      rw [Nat.mul_add_mod, mod_eq_of_lt hlt]
    exact .inr ⟨by rw [hbi, topBits]; omega, hbi, hlt⟩
  · refine .inl ⟨?_, hfu⟩
    conv_lhs => rw [← heq]
    rw [Nat.mul_add_mod, hfu, Nat.mod_self]

theorem keepBits_eq (d : Digit t) {bits : Nat} (h : bits ≤ t.kDigitBits) : (keepBits d bits : Nat) = d % 2 ^ bits := by
  have hba : t.base = 2 ^ bits * 2 ^ (t.kDigitBits - bits) := by
    rw [← pow_add, Nat.add_sub_cancel' h]
    rfl
  have hshift : (toDigit t ((d : Nat) <<< (t.kDigitBits - bits)) : Nat) = d % 2 ^ bits * 2 ^ (t.kDigitBits - bits) := by
    rw [toDigit_val, Nat.shiftLeft_eq, ← Nat.mul_mod_mul_right]
    exact congrArg (_ % ·) hba
  have hlt : (d : Nat) % 2 ^ bits < t.base :=
    lt_of_lt_of_le (mod_lt _ (two_pow_pos _)) (Nat.pow_le_pow_right (by decide) h)
  rw [keepBits, hshift, Nat.shiftRight_eq_div_pow, Nat.mul_div_cancel _ (two_pow_pos _), toDigit_of_lt hlt]

/-- The digit at a place, zero above the vector. -/
theorem digit_or_zero (X : Digits) (m : Memory t) (i : Nat) :
    ((if i < X.len then X.get m i else 0 : Digit t) : Nat) = X.value m / t.base ^ i % t.base := by
  split
  · next h => exact digit_eq m X.start h
  · next h => rw [Digits.value, digit_eq_zero m X.start (by omega), Nat.zero_mod, Fin.val_zero]

variable {r last v x : Nat}

/-- The low bits: whole digits and bits of the last one. -/
theorem mod_two_pow (x n : Nat) (hr : r ≤ t.kDigitBits) :
    x % (t.base ^ ((n - 1) / t.kDigitBits) * 2 ^ r) = x % t.base ^ ((n - 1) / t.kDigitBits) +
      t.base ^ ((n - 1) / t.kDigitBits) * (x / t.base ^ ((n - 1) / t.kDigitBits) % t.base % 2 ^ r) := by
  rw [Nat.mod_mul, Nat.mod_mod_of_dvd _ (show 2 ^ r ∣ t.base from pow_dvd_pow 2 hr)]

/-! ### Truncation -/

/-- Writing the last digit of a vector. -/
theorem set_last {m₀ : Memory t} (hch : Changes (Within Z.start last) m₀ m) (hlen : Z.len = last + 1) (d : Digit t) :
    Changes Z.Has m₀ (Z.set m last d) ∧ Z.value (Z.set m last d) = value m Z.start last + t.base ^ last * d := by
  obtain ⟨hc', hva⟩ := set_clearFrom (Z := Z) hch (by omega) d
  rw [clearFrom_of_ge _ (by omega)] at hc' hva
  exact ⟨hc', hva⟩

theorem truncateToNBits_spec (hn : 0 < n) (hX : (n - 1) / t.kDigitBits < X.len) (hXZ : X.Apart Z)
    (hZ : Z.len = (n - 1) / t.kDigitBits + 1) :
    ∃ m', truncateToNBits Z X n m = some m' ∧ Changes Z.Has m m' ∧ Z.value m' = X.value m % 2 ^ n := by
  set last := (n - 1) / t.kDigitBits with hl
  have hst : Swept Z.start m (fun _ : Unit => True) (fun _ => 0) (fun i => X.low m i) 0 (m, ()) := .start trivial (by simp)
  have hsw := hst.sweep (fun m i c => (X.get m i, c)) last (fun i => (X.get m i : Nat)) fun i m' c _ hi hch _ => by
    rw [hXZ.get (by omega) hch (by omega), X.low_succ m (by omega)]
    refine ⟨trivial, by simp, ?_⟩
    push_cast
    ring
  rw [zero_add] at hsw
  obtain ⟨hch, -, hva⟩ := hsw
  beta_reduce at hva
  rw [mul_zero, add_zero, low_eq_mod] at hva
  have hke : ∀ d : Digit t, ((if n % t.kDigitBits ≠ 0 then keepBits d (n % t.kDigitBits) else d : Digit t) : Nat) =
      d % 2 ^ topBits t n := by
    intro d
    rcases mod_kDigitBits t hn with ⟨hzero, hfu⟩ | ⟨hne, hbi, hlt⟩
    · rw [if_neg (by omega), hfu]
      exact (mod_eq_of_lt d.isLt).symm
    · rw [if_pos hne, hbi, keepBits_eq d hlt.le]
  obtain ⟨hc', hv'⟩ := set_last hch (hl ▸ hZ) (if n % t.kDigitBits ≠ 0 then
    keepBits (X.get m last) (n % t.kDigitBits) else X.get m last)
  refine ⟨_, ?_, hc', ?_⟩
  · rw [truncateToNBits, divCeil, Nat.add_sub_cancel, ← hl, dcheck_pos (hl ▸ hX), dcheck_pos (by omega)]
    dsimp only [bind_eq_bind, bind_some]
    rw [hXZ.get (by omega) hch (by omega)]
    rfl
  · have hget : (X.get m last : Nat) = X.value m / t.base ^ last % t.base := digit_eq m X.start (hl ▸ hX)
    have hlow : value (sweep Z.start (fun m i c => (X.get m i, c)) 0 last (m, ())).1 Z.start last =
        X.value m % t.base ^ last := by exact_mod_cast hva
    rw [hv', hke, hlow, hget, two_pow_eq t hn, mod_two_pow _ n (topBits_le t n), ← hl]

theorem subFromZero_spec (hXZ : X.Apart Z) (hZ : last < Z.len) :
    Changes (Within Z.start last) m (subFromZero Z X last m).1 ∧ ((subFromZero Z X last m).2 : Nat) ≤ 1 ∧
      (value (subFromZero Z X last m).1 Z.start last : ℤ) - t.base ^ last * (subFromZero Z X last m).2 =
        -(X.value m % t.base ^ last : Nat) := by
  have hst : Swept Z.start m (fun c : Digit t => (c : Nat) ≤ 1) (fun c => -(c : ℤ)) (fun i => -(X.low m i : ℤ)) 0 (m, 0) :=
    .start (by simp) (by simp)
  have hfi := hst.sweep (fun m i borrow => digitSub2 0 (X.get m i) borrow) (min last X.len)
    (fun i => -(X.get m i : ℤ)) fun i m' c _ hi hch hc => by
      rw [hXZ.get (by omega) hch (by omega), X.low_succ m (by omega)]
      obtain ⟨heq, hle⟩ := digitSub2_eq 0 (X.get m i) c hc
      refine ⟨hle, ?_, ?_⟩
      · rw [heq, Fin.val_zero]
        ring
      · push_cast
        ring
  rw [zero_add] at hfi
  have hse := hfi.sweep (fun _ _ borrow => digitSub 0 borrow) (last - min last X.len) (fun _ => 0)
    fun i m' c hlo hi _ hc => by
      obtain ⟨heq, hle⟩ := digitSub_eq 0 c
      refine ⟨hle, ?_, ?_⟩
      · rw [heq, Fin.val_zero]
        ring
      · rw [X.low_of_ge m (by omega), X.low_of_ge m (by omega), mul_zero, add_zero]
  rw [Nat.add_sub_cancel' (min_le_left _ _)] at hse
  obtain ⟨hch, hle, hva⟩ := hse
  refine ⟨hch, hle, ?_⟩
  beta_reduce at hva
  rw [← low_eq_mod, ← hva, subFromZero]
  ring

theorem truncateAndSubFromPowerOfTwo_spec (hn : 0 < n) (hXZ : X.Apart Z) (hZ : Z.len = (n - 1) / t.kDigitBits + 1) :
    ∃ m', truncateAndSubFromPowerOfTwo Z X n m = some m' ∧ Changes Z.Has m m' ∧
      (Z.value m' : ℤ) ≡ -X.value m [ZMOD 2 ^ n] ∧ Z.value m' < 2 ^ n := by
  set last := (n - 1) / t.kDigitBits with hl
  obtain ⟨hch, hbo, hva⟩ := subFromZero_spec (m := m) hXZ (show last < Z.len by omega)
  set s := subFromZero Z X last m with hs
  set msd : Digit t := if last < X.len then X.get m last else 0 with hmsd
  have hrea : (if last < X.len then X.get s.1 last else 0) = msd := by
    rw [hmsd]
    split
    · next h => exact hXZ.get (by omega) hch h
    · rfl
  have htop : (msd : Nat) = X.value m / t.base ^ last % t.base := by rw [hmsd, digit_or_zero]
  have hwa : X.value m % 2 ^ n = X.value m % t.base ^ last + t.base ^ last * (msd % 2 ^ topBits t n) := by
    rw [htop, two_pow_eq t hn, mod_two_pow _ n (topBits_le t n), hl]
  have hpow : 2 ^ n = t.base ^ last * 2 ^ topBits t n := by rw [two_pow_eq t hn, hl]
  have hlow := value_lt s.1 Z.start last
  -- The last digit makes it a number that is congruent, and it has no bits that are not wanted.
  have hre : ∀ d : Digit t, (∃ c : ℤ, (d : ℤ) = 2 ^ topBits t n * c - (msd % 2 ^ topBits t n : Nat) - s.2) →
      (d : Nat) < 2 ^ topBits t n → Changes Z.Has m (Z.set s.1 last d) ∧
        (Z.value (Z.set s.1 last d) : ℤ) ≡ -X.value m [ZMOD 2 ^ n] ∧ Z.value (Z.set s.1 last d) < 2 ^ n := by
    intro d ⟨c, hd⟩ hlt
    obtain ⟨hc', hv'⟩ := set_last hch (hl ▸ hZ) d
    refine ⟨hc', ?_, ?_⟩
    · have hco : (Z.value (Z.set s.1 last d) : ℤ) ≡ -(X.value m % 2 ^ n : Nat) [ZMOD 2 ^ n] := by
        refine Int.modEq_iff_dvd.mpr ⟨-c, ?_⟩
        have hpow' : (2 : ℤ) ^ n = t.base ^ last * 2 ^ topBits t n := by exact_mod_cast hpow
        rw [hv', hwa, hpow']
        push_cast at hva hd ⊢
        rw [hd]
        linear_combination -hva
      refine hco.trans (Int.ModEq.neg ?_)
      push_cast
      exact Int.mod_modEq _ _
    · rw [hv', hpow]
      calc value s.1 Z.start last + t.base ^ last * d < t.base ^ last * 1 + t.base ^ last * d := by omega
        _ = t.base ^ last * (d + 1) := by ring
        _ ≤ t.base ^ last * 2 ^ topBits t n := Nat.mul_le_mul_left _ hlt
  rw [truncateAndSubFromPowerOfTwo, divCeil, Nat.add_sub_cancel, ← hl, dcheck_pos (by omega)]
  dsimp only [bind_eq_bind, bind_some]
  rw [← hs, hrea]
  rcases mod_kDigitBits t hn with ⟨hzero, hfu⟩ | ⟨hne, hbi, hlt⟩
  · rw [if_pos hzero]
    obtain ⟨heq, -⟩ := digitSub2_eq 0 msd s.2 hbo
    have hba : (2 : Nat) ^ topBits t n = t.base := by rw [hfu]; rfl
    obtain ⟨hc', hco, hsm⟩ := hre (digitSub2 0 msd s.2).1 ⟨((digitSub2 0 msd s.2).2 : Nat), by
      have hb' : (2 : ℤ) ^ topBits t n = t.base := by exact_mod_cast hba
      rw [hba, hb', mod_eq_of_lt msd.isLt, heq, Fin.val_zero]
      push_cast
      ring⟩ (by rw [hba]; exact Fin.isLt _)
    exact ⟨_, rfl, hc', hco, hsm⟩
  · rw [if_neg hne, hbi]
    set r := topBits t n with hr
    have hp : 2 ^ r < t.base := Nat.pow_lt_pow_right (by decide) hlt
    have hmi : (toDigit t (1 <<< r) : Nat) = 2 ^ r := by
      rw [Nat.one_shiftLeft, toDigit_of_lt hp]
    have hpr : ((toDigit t (1 <<< r) - 1 : Digit t) : Nat) = 2 ^ r - 1 := by
      rw [digit_sub_one (by rw [hmi]; exact two_pow_pos r), hmi]
    have hkep := keepBits_eq msd hlt.le
    have hke : (msd : Nat) % 2 ^ r < 2 ^ r := mod_lt _ (two_pow_pos r)
    obtain ⟨heq, hle⟩ := digitSub2_eq (toDigit t (1 <<< r)) (keepBits msd r) s.2 hbo
    rw [hmi, hkep] at heq
    set result := digitSub2 (toDigit t (1 <<< r)) (keepBits msd r) s.2 with hres
    have hno : result.2 = 0 := by
      have hdi := result.1.isLt
      refine Fin.ext ?_
      rw [Fin.val_zero]
      by_contra hne
      have hone : (result.2 : Nat) = 1 := by omega
      rw [hone] at heq
      push_cast at heq
      omega
    rw [hno, Fin.val_zero] at heq
    have hma : (toDigit t ((result.1 : Nat) &&& ((toDigit t (1 <<< r) - 1 : Digit t) : Nat)) : Nat) = result.1 % 2 ^ r := by
      rw [hpr, Nat.and_two_pow_sub_one_eq_mod, toDigit_of_lt]
      exact (Nat.mod_le _ _).trans_lt result.1.isLt
    have hdiv := Nat.div_add_mod (result.1 : Nat) (2 ^ r)
    obtain ⟨hc', hco, hsm⟩ :=
      hre (toDigit t ((result.1 : Nat) &&& ((toDigit t (1 <<< r) - 1 : Digit t) : Nat)))
        ⟨1 - (result.1 / 2 ^ r : Nat), by
          rw [hma]
          zify at hdiv
          push_cast at heq ⊢
          linear_combination hdiv + heq⟩ (by rw [hma]; exact mod_lt _ (two_pow_pos r))
    rw [dcheck_pos hno]
    exact ⟨_, rfl, hc', hco, hsm⟩

/-! ### The bits that decide -/

/-- The bit below the sign bit's value: whether a number's low bits reach it. -/
theorem and_two_pow_eq_iff (d k : Nat) : d &&& 2 ^ k = 2 ^ k ↔ 2 ^ k ≤ d % 2 ^ (k + 1) := by
  have hlt : d % 2 ^ k < 2 ^ k := mod_lt _ (two_pow_pos k)
  rw [Nat.and_two_pow, Nat.testBit_eq_decide_div_mod_eq, Nat.mod_pow_succ]
  rcases Nat.mod_two_eq_zero_or_one (d / 2 ^ k) with hbit | hbit
  · simp [hbit, hlt, (two_pow_pos k).ne]
  · simp [hbit]

theorem findsNonZero_eq_false (X : Digits) (m : Memory t) {count : Nat} :
    findsNonZero X m count = false ↔ value m X.start count = 0 := by
  induction count with
  | zero => simp [findsNonZero]
  | succ i ih =>
    rw [findsNonZero, value_succ, Nat.add_eq_zero_iff, Nat.mul_eq_zero, ← ih]
    have hpow : t.base ^ i ≠ 0 := (Nat.pow_pos t.base_pos).ne'
    have hdi : X.get m i = 0 ↔ (m (X.start + i) : Nat) = 0 := by
      rw [Fin.ext_iff]
      rfl
    by_cases hzero : X.get m i = 0
    · rw [if_neg (not_not.mpr hzero)]
      simp [hdi.mp hzero]
    · rw [if_pos hzero]
      constructor
      · intro h
        exact absurd h (by decide)
      · intro h
        exact absurd (hdi.mpr (h.2.resolve_left hpow)) hzero

/-- The low bits of a number whose last digit is known, compared with a power of two. -/
theorem low_add_lt_iff {P low D K : Nat} (hlow : low < P) : low + P * D < P * K ↔ D < K := by
  constructor
  · intro h
    exact Nat.lt_of_mul_lt_mul_left (a := P) (by omega)
  · intro h
    calc low + P * D < P * 1 + P * D := by omega
      _ = P * (D + 1) := by ring
      _ ≤ P * K := Nat.mul_le_mul_left P h

/-- The digit that the code compares with. -/
theorem compareDigit_eq (t : Target) (n : Nat) :
    (toDigit t (1 <<< ((n - 1) % t.kDigitBits)) : Nat) = 2 ^ (topBits t n - 1) := by
  have hle := topBits_le t n
  have hlt : 2 ^ ((n - 1) % t.kDigitBits) < t.base := Nat.pow_lt_pow_right (by decide) (by rw [topBits] at hle; omega)
  rw [Nat.one_shiftLeft, toDigit_of_lt hlt, topBits, Nat.add_sub_cancel]

def InIntN (n : Nat) (x : ℤ) : Prop := -2 ^ (n - 1) ≤ x ∧ x < 2 ^ (n - 1)

theorem inIntN_of_lt (h : v < 2 ^ (n - 1)) (negative : Bool) : InIntN n (signed negative v) := by
  have h' : (v : ℤ) < 2 ^ (n - 1) := by exact_mod_cast h
  cases negative
  · exact ⟨by rw [signed_false]; omega, h'⟩
  · exact ⟨by rw [signed_true]; omega, by rw [signed_true]; omega⟩

/-- A vector whose last digit is at `last`. -/
theorem value_of_last (hlen : X.len = last + 1) : X.value m = value m X.start last + t.base ^ last * X.get m last := by
  rw [Digits.value, hlen, value_succ]
  rfl

theorem value_lt_of_short (hsh : X.len < last + 1) : X.value m < t.base ^ last * 2 ^ r :=
  calc X.value m < t.base ^ X.len := X.value_lt m
    _ ≤ t.base ^ last := Nat.pow_le_pow_right t.base_pos (by omega)
    _ ≤ t.base ^ last * 2 ^ r := Nat.le_mul_of_pos_right _ (two_pow_pos r)

theorem asIntNResultLength_spec (hn : 0 < n) (X : Digits) (xNegative : Bool) (m : Memory t) :
    asIntNResultLength X xNegative n m = -1 ∧ InIntN n (signed xNegative (X.value m)) ∨
      asIntNResultLength X xNegative n m = ((n - 1) / t.kDigitBits + 1 : Nat) ∧ (n - 1) / t.kDigitBits < X.len := by
  have hpow := two_pow_pred_eq t hn
  rw [asIntNResultLength, divCeil, Nat.add_sub_cancel]
  dsimp only
  set last := (n - 1) / t.kDigitBits with hla
  by_cases hsh : X.len < last + 1
  · exact .inl ⟨if_pos hsh, inIntN_of_lt (hpow ▸ value_lt_of_short hsh) xNegative⟩
  rw [if_neg hsh]
  by_cases hlo : last + 1 < X.len
  · exact .inr ⟨if_pos hlo, by omega⟩
  rw [if_neg hlo]
  have hva := value_of_last (m := m) (show X.len = last + 1 by omega)
  have hlow := value_lt m X.start last
  have hco := compareDigit_eq t n
  by_cases hl : X.get m last < toDigit t (1 <<< ((n - 1) % t.kDigitBits))
  · refine .inl ⟨if_pos hl, inIntN_of_lt ?_ xNegative⟩
    rw [Fin.lt_def, hco] at hl
    rw [hva, hpow]
    exact (low_add_lt_iff hlow).mpr hl
  rw [if_neg hl]
  by_cases hmo : toDigit t (1 <<< ((n - 1) % t.kDigitBits)) < X.get m last
  · exact .inr ⟨if_pos hmo, by omega⟩
  rw [if_neg hmo]
  cases xNegative with
  | false => exact .inr ⟨rfl, by omega⟩
  | true =>
    rw [if_neg (by decide)]
    cases hfi : findsNonZero X m last with
    | true => exact .inr ⟨rfl, by omega⟩
    | false =>
      refine .inl ⟨rfl, ?_⟩
      rw [findsNonZero_eq_false] at hfi
      have hequ : (X.get m last : Nat) = 2 ^ (topBits t n - 1) := by
        rw [Fin.lt_def, hco] at hl hmo
        omega
      have hmin : (X.value m : ℤ) = 2 ^ (n - 1) := by
        rw [hva, hfi, zero_add, hequ, ← hpow]
        push_cast
        rfl
      have hpos : (0 : ℤ) < 2 ^ (n - 1) := by positivity
      rw [InIntN, signed_true, hmin]
      omega

/-- The sign bit of the low bits of a magnitude. -/
theorem hasBit_iff (hn : 0 < n) (hX : (n - 1) / t.kDigitBits < X.len) :
    (X.get m ((n - 1) / t.kDigitBits) : Nat) &&& (toDigit t (1 <<< ((n - 1) % t.kDigitBits)) : Nat) =
        (toDigit t (1 <<< ((n - 1) % t.kDigitBits)) : Nat) ↔
      2 ^ (n - 1) ≤ X.value m % 2 ^ n := by
  have hone : topBits t n - 1 + 1 = topBits t n := by
    rw [topBits]
    omega
  have hdi : (X.get m ((n - 1) / t.kDigitBits) : Nat) = X.value m / t.base ^ ((n - 1) / t.kDigitBits) % t.base :=
    digit_eq m X.start hX
  have hlow : X.value m % t.base ^ ((n - 1) / t.kDigitBits) < t.base ^ ((n - 1) / t.kDigitBits) :=
    Nat.mod_lt _ (Nat.pow_pos t.base_pos)
  rw [compareDigit_eq, and_two_pow_eq_iff, hone, two_pow_pred_eq t hn, two_pow_eq t hn, mod_two_pow _ n (topBits_le t n),
    ← not_lt, ← not_lt, low_add_lt_iff hlow, hdi]

/-- All bits of a magnitude below the sign bit are zero. -/
theorem lowBits_eq_zero_iff (hn : 0 < n) (hX : (n - 1) / t.kDigitBits < X.len) :
    (X.get m ((n - 1) / t.kDigitBits) : Nat) &&& ((toDigit t (1 <<< ((n - 1) % t.kDigitBits)) - 1 : Digit t) : Nat) = 0 ∧
        findsNonZero X m ((n - 1) / t.kDigitBits) = false ↔
      X.value m % 2 ^ (n - 1) = 0 := by
  have hle := topBits_le t n
  have hdi : (X.get m ((n - 1) / t.kDigitBits) : Nat) = X.value m / t.base ^ ((n - 1) / t.kDigitBits) % t.base :=
    digit_eq m X.start hX
  have hpos : 0 < (toDigit t (1 <<< ((n - 1) % t.kDigitBits)) : Nat) := by
    rw [compareDigit_eq]
    exact Nat.two_pow_pos _
  have hpow : t.base ^ ((n - 1) / t.kDigitBits) ≠ 0 := (Nat.pow_pos t.base_pos).ne'
  rw [digit_sub_one hpos, compareDigit_eq, Nat.and_two_pow_sub_one_eq_mod, findsNonZero_eq_false, two_pow_pred_eq t hn,
    mod_two_pow _ n (by omega), ← hdi, Nat.add_eq_zero_iff, Nat.mul_eq_zero, or_iff_right hpow, and_comm,
    Digits.value, value_mod m X.start hX.le]

/-- The magnitude subtracted from the power of two. -/
theorem eq_sub_of_modEq (hv : v < 2 ^ n) (hco : (v : ℤ) ≡ -x [ZMOD 2 ^ n]) (hx : 0 < x % 2 ^ n) :
    v = 2 ^ n - x % 2 ^ n := by
  have hsa : ((v + x % 2 ^ n : Nat) : ℤ) ≡ 0 [ZMOD (2 ^ n : Nat)] := by
    push_cast
    refine (hco.add (Int.mod_modEq _ _)).trans ?_
    rw [neg_add_cancel]
  rw [Int.modEq_zero_iff_dvd, Int.natCast_dvd_natCast] at hsa
  have hsum := Nat.eq_of_dvd_of_lt_two_mul (by omega) hsa (by omega)
  omega

/-- The sign that the code predicts, and the range that the result is in. -/
theorem subtracted_inIntN (hn : 0 < n) (hv : v < 2 ^ n) (hco : (v : ℤ) ≡ -x [ZMOD 2 ^ n])
    (hbit : 2 ^ (n - 1) ≤ x % 2 ^ n) :
    ((signed true v ≡ signed false x [ZMOD 2 ^ n]) ∧ InIntN n (signed true v)) ∧
    (x % 2 ^ (n - 1) = 0 → (signed true v ≡ signed true x [ZMOD 2 ^ n]) ∧ InIntN n (signed true v)) ∧
    (x % 2 ^ (n - 1) ≠ 0 → (signed false v ≡ signed true x [ZMOD 2 ^ n]) ∧ InIntN n (signed false v)) := by
  have hhalf : 2 ^ n = 2 * 2 ^ (n - 1) := by
    rw [← pow_succ', Nat.sub_add_cancel hn]
  have hlt : x % 2 ^ n < 2 ^ n := mod_lt _ (two_pow_pos n)
  have heq := eq_sub_of_modEq hv hco (by omega)
  have hlow : x % 2 ^ (n - 1) = x % 2 ^ n - 2 ^ (n - 1) := by
    rw [← Nat.mod_mod_of_dvd x (show 2 ^ (n - 1) ∣ 2 ^ n from ⟨2, by rw [hhalf, mul_comm]⟩), Nat.mod_eq_sub_mod hbit,
      mod_eq_of_lt (by omega)]
  have hra : InIntN n (signed true v) := by
    rw [InIntN, signed_true]
    have : (v : ℤ) ≤ 2 ^ (n - 1) := by exact_mod_cast (by omega : v ≤ 2 ^ (n - 1))
    have : (0 : ℤ) < 2 ^ (n - 1) := by positivity
    omega
  refine ⟨⟨?_, hra⟩, fun hzero => ⟨?_, hra⟩, fun hne => ⟨hco, ?_⟩⟩
  · have := hco.neg
    rwa [neg_neg] at this
  · have hmid : v = x % 2 ^ n := by omega
    rw [signed_true, signed_true, hmid]
    refine Int.ModEq.neg ?_
    push_cast
    exact Int.mod_modEq _ _
  · exact inIntN_of_lt (by omega) false

theorem asIntN_spec (hn : 0 < n) (xNegative : Bool) (hlen : asIntNResultLength X xNegative n m = Z.len) (hXZ : X.Apart Z) :
    ∃ m' negative, asIntN Z X xNegative n m = some (m', negative) ∧ Changes Z.Has m m' ∧
      (signed negative (Z.value m') ≡ signed xNegative (X.value m) [ZMOD 2 ^ n]) ∧
      InIntN n (signed negative (Z.value m')) := by
  obtain ⟨last, hl⟩ : ∃ last, last = (n - 1) / t.kDigitBits := ⟨_, rfl⟩
  have hre : Z.len = last + 1 ∧ last < X.len := by
    rcases asIntNResultLength_spec hn X xNegative m with ⟨hno, -⟩ | ⟨hso, hX⟩
    · omega
    · rw [hl]
      exact ⟨by rw [hlen] at hso; exact_mod_cast hso, hX⟩
  obtain ⟨hZ, hX⟩ := hre
  have hbit := hasBit_iff (m := m) hn (hl ▸ hX)
  rw [asIntN, dcheck_pos (show 0 < X.len by omega), dcheck_pos hn, dcheck_pos (by rw [hlen]; omega), divCeil]
  dsimp only [bind_eq_bind, bind_some]
  rw [Nat.add_sub_cancel]
  by_cases hhas : 2 ^ (n - 1) ≤ X.value m % 2 ^ n
  · rw [if_neg (not_not.mpr (hbit.mpr hhas))]
    obtain ⟨m', hrun, hch, hco, hlt⟩ := truncateAndSubFromPowerOfTwo_spec (m := m) hn hXZ (hl ▸ hZ)
    rw [hrun]
    dsimp only [bind_some]
    obtain ⟨hp, hmin, ho⟩ := subtracted_inIntN hn hlt hco hhas
    cases xNegative with
    | false => exact ⟨m', true, rfl, hch, hp⟩
    | true =>
      have hzero := lowBits_eq_zero_iff (m := m') hn (hl ▸ hX)
      rw [hXZ.value hch, get_of_changes hch (hl ▸ hX) fun a => hXZ.not_has] at hzero
      rw [if_neg (by decide)]
      by_cases htop : (X.get m ((n - 1) / t.kDigitBits) : Nat) &&&
          ((toDigit t (1 <<< ((n - 1) % t.kDigitBits)) - 1 : Digit t) : Nat) = 0
      · rw [if_neg (not_not.mpr htop)]
        cases hfi : findsNonZero X m' ((n - 1) / t.kDigitBits) with
        | false => exact ⟨m', true, rfl, hch, hmin (hzero.mp ⟨htop, hfi⟩)⟩
        | true =>
          refine ⟨m', false, rfl, hch, ho fun hlow => ?_⟩
          rw [(hzero.mpr hlow).2] at hfi
          exact Bool.noConfusion hfi
      · rw [if_pos htop]
        exact ⟨m', false, rfl, hch, ho fun hlow => htop (hzero.mpr hlow).1⟩
  · rw [if_pos fun hbit' => hhas (hbit.mp hbit')]
    obtain ⟨m', hrun, hch, hva⟩ := truncateToNBits_spec (m := m) hn (hl ▸ hX) hXZ (hl ▸ hZ)
    rw [hrun]
    refine ⟨m', xNegative, rfl, hch, ?_, ?_⟩
    · have hco : ((X.value m % 2 ^ n : Nat) : ℤ) ≡ X.value m [ZMOD 2 ^ n] := by
        push_cast
        exact Int.mod_modEq _ _
      rw [hva]
      cases xNegative
      · exact hco
      · exact hco.neg
    · rw [hva]
      exact inIntN_of_lt (by omega) xNegative

theorem asUintNPosResultLength_spec (hn : 0 < n) (X : Digits) (m : Memory t) :
    asUintNPosResultLength X n m = -1 ∧ X.value m < 2 ^ n ∨
      asUintNPosResultLength X n m = ((n - 1) / t.kDigitBits + 1 : Nat) ∧ (n - 1) / t.kDigitBits < X.len := by
  have hpow := two_pow_eq t hn
  rw [asUintNPosResultLength, divCeil, Nat.add_sub_cancel]
  dsimp only
  set last := (n - 1) / t.kDigitBits with hla
  by_cases hsh : X.len < last + 1
  · exact .inl ⟨if_pos hsh, hpow ▸ value_lt_of_short hsh⟩
  rw [if_neg hsh]
  by_cases hl : last + 1 < X.len
  · exact .inr ⟨if_pos hl, by omega⟩
  rw [if_neg hl]
  have hva := value_of_last (m := m) (show X.len = last + 1 by omega)
  have hlow := value_lt m X.start last
  rcases mod_kDigitBits t hn with ⟨hzero, hfu⟩ | ⟨hne, hbi, -⟩
  · refine .inl ⟨if_pos hzero, ?_⟩
    rw [hva, hpow, hfu]
    exact (low_add_lt_iff hlow).mpr (Fin.isLt _)
  · rw [if_neg hne, hbi, Nat.shiftRight_eq_div_pow]
    by_cases htop : (X.get m last : Nat) / 2 ^ topBits t n = 0
    · refine .inl ⟨if_pos htop, ?_⟩
      rw [Nat.div_eq_zero_iff, or_iff_right (two_pow_pos _).ne'] at htop
      rw [hva, hpow]
      exact (low_add_lt_iff hlow).mpr htop
    · exact .inr ⟨if_neg htop, by omega⟩

/-- `asIntN` and `asUintN` wrap around. Where a result length says that the number stays as it is, it is in the range; in
all other cases the result is the number of the range that is congruent to it. -/
theorem asIntN_asUintN_wrap (X : Digits) (m : Memory t) (hn : 1 ≤ n) : (∀ xNegative,
      asIntNResultLength X xNegative n m = -1 ∧ InIntN n (signed xNegative (X.value m)) ∨
      asIntNResultLength X xNegative n m = divCeil n t.kDigitBits ∧
        ∀ Z, asIntNResultLength X xNegative n m = Z.len → X.Apart Z →
          ∃ m' negative, asIntN Z X xNegative n m = some (m', negative) ∧ Changes Z.Has m m' ∧
            (signed negative (Z.value m') ≡ signed xNegative (X.value m) [ZMOD 2 ^ n]) ∧
            InIntN n (signed negative (Z.value m'))) ∧
    (asUintNPosResultLength X n m = -1 ∧ X.value m < 2 ^ n ∨ asUintNPosResultLength X n m = divCeil n t.kDigitBits ∧
        ∀ Z, asUintNPosResultLength X n m = Z.len → X.Apart Z → ∃ m', asUintNPos Z X n m = some m' ∧ Changes Z.Has m m' ∧
            ((Z.value m' : ℤ) ≡ X.value m [ZMOD 2 ^ n]) ∧ Z.value m' < 2 ^ n) ∧
    ∀ Z, Z.len = asUintNNegResultLength t n → X.Apart Z → ∃ m', asUintNNeg Z X n m = some m' ∧ Changes Z.Has m m' ∧
        ((Z.value m' : ℤ) ≡ -X.value m [ZMOD 2 ^ n]) ∧ Z.value m' < 2 ^ n := by
  refine ⟨fun xNegative => ?_, ?_, fun Z hZ hXZ => truncateAndSubFromPowerOfTwo_spec hn hXZ hZ⟩
  · rcases asIntNResultLength_spec hn X xNegative m with hsame | ⟨hlen, -⟩
    · exact .inl hsame
    · exact .inr ⟨hlen, fun Z hZ hXZ => asIntN_spec hn xNegative hZ hXZ⟩
  · rcases asUintNPosResultLength_spec hn X m with hsame | ⟨hlen, hX⟩
    · exact .inl hsame
    · refine .inr ⟨hlen, fun Z hZ hXZ => ?_⟩
      obtain ⟨m', hrun, hchanges, hvalue⟩ := truncateToNBits_spec (m := m) hn hX hXZ (by rw [hZ] at hlen; exact_mod_cast hlen)
      refine ⟨m', ?_, hchanges, ?_, ?_⟩
      · have hpos : 0 < asUintNPosResultLength X n m := by
          rw [hlen]
          exact_mod_cast Nat.succ_pos _
        rw [asUintNPos, dcheck_pos hpos]
        exact hrun
      · rw [hvalue]
        push_cast
        exact Int.mod_modEq _ _
      · rw [hvalue]
        exact mod_lt _ (two_pow_pos n)

/-- `BigInt.asIntN(3, -12n)` is `-4n`. -/
theorem asIntN_asUintN_wrap_twelve : asIntNResultLength (t := .bits64) ⟨0, 1⟩ true 3 (fun _ => 12) = 1 ∧
      ∃ m' negative, asIntN (t := .bits64) ⟨1, 1⟩ ⟨0, 1⟩ true 3 (fun _ => 12) = some (m', negative) ∧
        InIntN 3 (signed negative ((⟨1, 1⟩ : Digits).value m')) := by
  have hlen : asIntNResultLength (t := .bits64) ⟨0, 1⟩ true 3 (fun _ => 12) = 1 := by decide
  rcases (@asIntN_asUintN_wrap .bits64 3 ⟨0, 1⟩ (fun _ => 12) (by decide)).1 true with ⟨hnone, -⟩ | ⟨-, hresult⟩
  · rw [hlen] at hnone
    exact absurd hnone (by decide)
  · obtain ⟨m', negative, hrun, -, -, hrange⟩ := hresult ⟨1, 1⟩ hlen (by simp [Digits.Apart])
    exact ⟨hlen, m', negative, hrun, hrange⟩

end

end V8Multithread.Bigint
