import V8Multithread.Bigint.DivHelpers
import V8Multithread.Base.Spelling
import Mathlib.Data.Int.Bitwise

/-! Bit operations and shifts on magnitudes with a sign.

A negative number is `~(x - 1)`; one is subtracted while its digits are read. The functions for the
combinations of signs differ in what they do with a pair of digits and in which of the operands they go on
with where the other one has no more digits. An index that the code checks when it reads or writes a digit
is checked here before the loop that uses it. -/
namespace V8Multithread.Bigint
open Nat List Option Base.Limbs Digits
open Nat (pow_le_pow_right ldiff two_pow_pos)

variable {t : Target}

/-- `Add(X, y)`. The loop goes on while there is a carry, whatever the length of the vector. -/
def addDigit (X : Digits) (y : Digit t) (m : Memory t) : Option (Memory t) := do
  dcheck (0 < X.len)
  let first := digitAdd2 (X.get m 0) y
  let s := sweepWhile X.start (fun m i carry => digitAdd2 (X.get m i) carry) (fun carry => carry ≠ 0) 1 (X.len - 1)
    (X.set m 0 first.1, first.2)
  -- With a carry left, the next digit would be written past the vector.
  dcheck (s.2 = 0)
  return s.1

/-- A digit of an operand, or of one less than it. -/
def operandDigit (negative : Bool) (X : Digits) (m : Memory t) (i : Nat) (borrow : Digit t) : Digit t × Digit t :=
  if negative then digitSub (X.get m i) borrow else (X.get m i, borrow)

section
variable (op : Nat → Nat → Nat) (xTail yTail xNegative yNegative : Bool) (Z X Y : Digits)

def bitwiseLength : Nat :=
  let i := if xTail then X.len else min X.len Y.len
  if yTail then max i Y.len else i

/-- The loop over the digits that both operands have, the loops over those that only one has, and the one that clears the
other digits of the result. The borrows are returned with the memory. -/
def bitwiseLoops (m : Memory t) : Option (Memory t × (Digit t × Digit t)) := do
  dcheck (bitwiseLength xTail yTail X Y ≤ Z.len)
  let pairs := min X.len Y.len
  let s := sweep Z.start (fun m i (borrow : Digit t × Digit t) =>
    let x := operandDigit xNegative X m i borrow.1
    let y := operandDigit yNegative Y m i borrow.2
    (toDigit t (op x.1 y.1), (x.2, y.2))) 0 pairs (m, (1, 1))
  let i := if xTail then X.len else pairs
  let s := sweep Z.start (fun m i (borrow : Digit t × Digit t) =>
    let x := operandDigit xNegative X m i borrow.1
    (x.1, (x.2, borrow.2))) pairs (i - pairs) s
  let s := sweep Z.start (fun m i (borrow : Digit t × Digit t) =>
    let y := operandDigit yNegative Y m i borrow.2
    (y.1, (borrow.1, y.2))) i (if yTail then Y.len - i else 0) s
  return (Z.clearFrom (bitwiseLength xTail yTail X Y) s.1, s.2)

end

/-- `x & ~y` for digits. -/
def digitAndNot (t : Target) (x y : Nat) : Nat := x &&& (t.base - 1 - y)

def bitwiseAndPosPos (Z X Y : Digits) (m : Memory t) : Option (Memory t) := do
  let s ← bitwiseLoops (· &&& ·) false false false false Z X Y m
  return s.1

def bitwiseAndNegNeg (Z X Y : Digits) (m : Memory t) : Option (Memory t) := do
  let s ← bitwiseLoops (· ||| ·) true true true true Z X Y m
  dcheck (s.2.1 = 0)
  dcheck (s.2.2 = 0)
  addDigit Z 1 s.1

def bitwiseAndPosNeg (Z X Y : Digits) (m : Memory t) : Option (Memory t) := do
  let s ← bitwiseLoops (digitAndNot t) true false false true Z X Y m
  return s.1

def bitwiseOrPosPos (Z X Y : Digits) (m : Memory t) : Option (Memory t) := do
  let s ← bitwiseLoops (· ||| ·) true true false false Z X Y m
  return s.1

def bitwiseOrNegNeg (Z X Y : Digits) (m : Memory t) : Option (Memory t) := do
  let s ← bitwiseLoops (· &&& ·) false false true true Z X Y m
  addDigit Z 1 s.1

def bitwiseOrPosNeg (Z X Y : Digits) (m : Memory t) : Option (Memory t) := do
  let s ← bitwiseLoops (fun x y => digitAndNot t y x) false true false true Z X Y m
  dcheck (s.2.2 = 0)
  addDigit Z 1 s.1

def bitwiseXorPosPos (Z X Y : Digits) (m : Memory t) : Option (Memory t) := do
  let (X, Y) := if Y.len < X.len then (Y, X) else (X, Y)
  dcheck (X.len ≤ Y.len)
  let s ← bitwiseLoops (· ^^^ ·) false true false false Z X Y m
  return s.1

def bitwiseXorNegNeg (Z X Y : Digits) (m : Memory t) : Option (Memory t) := do
  let s ← bitwiseLoops (· ^^^ ·) true true true true Z X Y m
  dcheck (s.2.1 = 0)
  dcheck (s.2.2 = 0)
  return s.1

def bitwiseXorPosNeg (Z X Y : Digits) (m : Memory t) : Option (Memory t) := do
  let s ← bitwiseLoops (· ^^^ ·) true true false true Z X Y m
  dcheck (s.2.2 = 0)
  addDigit Z 1 s.1

/-! ### Shifts -/

/-- `static_cast<uint32_t>(shift / kDigitBits)`. -/
def digitShift (shift : Digit t) : Nat := (shift : Nat) / t.kDigitBits % 2 ^ 32

def bitsShift (shift : Digit t) : Nat := (shift : Nat) % t.kDigitBits

/-- `LeftShift` by any number of bits. -/
def leftShiftBy (Z X : Digits) (shift : Digit t) (m : Memory t) : Option (Memory t) := do
  dcheck (X.len + digitShift shift ≤ Z.len)
  let m := (Z.slice 0 (digitShift shift)).clear m
  let Z := Z.drop (digitShift shift)
  if bitsShift shift = 0 then
    return Z.clearFrom X.len (sweep Z.start (fun m i c => (X.get m i, c)) 0 X.len (m, ())).1
  let s := sweep Z.start (fun m i (carry : Digit t) =>
    let d : Nat := X.get m i
    (toDigit t (d <<< bitsShift shift ||| carry), toDigit t (d >>> (t.kDigitBits - bitsShift shift)))) 0 X.len (m, 0)
  if s.2 ≠ 0 then
    dcheck (X.len < Z.len)
    return Z.clearFrom (X.len + 1) (Z.set s.1 X.len s.2)
  return Z.clearFrom X.len s.1

/-- The digits of `RightShift`, before it rounds. -/
def rightShiftDigits (Z X : Digits) (shift : Digit t) (m : Memory t) : Option (Memory t) := do
  -- The number of digits that are left would wrap around.
  dcheck (digitShift shift ≤ X.len)
  dcheck (X.len - digitShift shift ≤ Z.len)
  let X := X.drop (digitShift shift)
  if bitsShift shift = 0 then
    return Z.clearFrom X.len (sweep Z.start (fun m i c => (X.get m i, c)) 0 X.len (m, ())).1
  dcheck (0 < X.len)
  let s := rightShiftLoop Z X (bitsShift shift) m
  return Z.clearFrom (X.len - 1 + 1) (Z.set s.1 (X.len - 1) s.2)

/-- `RightShift` by any number of bits. -/
def rightShiftBy (Z X : Digits) (shift : Digit t) (mustRoundDown : Bool) (m : Memory t) : Option (Memory t) := do
  let m ← rightShiftDigits Z X shift m
  if mustRoundDown then addDigit Z 1 m else return m

def shiftsOut (X : Digits) (shift : Digit t) (m : Memory t) : Bool :=
  let mask : Digit t := toDigit t (1 <<< bitsShift shift) - 1
  if (X.get m (digitShift shift) : Nat) &&& mask ≠ 0 then true
  else (range (digitShift shift)).any fun i => X.get m i ≠ 0

def digitIsMax (x : Digit t) : Bool := (x : Nat) = t.base - 1

/-- The length of the result, and whether it is to be rounded down. -/
def rightShiftResultLength (X : Digits) (xSign : Bool) (shift : Digit t) (m : Memory t) : Nat × Bool :=
  if X.len ≤ digitShift shift then (0, false)
  else
    let resultLength := X.len - digitShift shift
    let mustRoundDown := if xSign then shiftsOut X shift m else false
    if mustRoundDown ∧ bitsShift shift = 0 ∧ digitIsMax (X.msd m) then (resultLength + 1, mustRoundDown)
    else (resultLength, mustRoundDown)

/-- The length that `MutableBigIntLeftShiftByAbsolute` allocates for a number that is not zero. -/
def leftShiftResultLength (X : Digits) (shift : Digit t) (m : Memory t) : Nat :=
  let resultLength := X.len + (shift : Nat) / t.kDigitBits
  if bitsShift shift ≠ 0 ∧ (X.msd m : Nat) >>> (t.kDigitBits - bitsShift shift) ≠ 0 then resultLength + 1 else resultLength

/-! ### Adding one -/

section
variable {X Y Z : Digits} {m : Memory t}

theorem addDigit_spec {y : Digit t} (hfit : X.value m + y < t.base ^ X.len) (hpos : 0 < X.len) :
    ∃ m', addDigit X y m = some m' ∧ Changes X.Has m m' ∧ X.value m' = X.value m + y := by
  have hst : Swept X.start m (fun _ : Digit t => True) (fun c => (c : Nat)) (fun i => X.low m i + (y : Nat)) 0 (m, y) :=
    .start trivial (by simp)
  have hsw := hst.sweep (fun m i carry => digitAdd2 (X.get m i) carry) X.len (fun i => (X.get m i : Nat))
    fun i m' c _ hi hch _ => by
      rw [X.ahead_self.get hch (by omega), X.low_succ m (by omega)]
      refine ⟨trivial, by exact_mod_cast digitAdd2_eq _ _, ?_⟩
      push_cast
      ring
  have hwh : sweepWhile X.start (fun m i carry => digitAdd2 (X.get m i) carry) (fun carry => carry ≠ 0) 1 (X.len - 1)
      (X.set m 0 (digitAdd2 (X.get m 0) y).1, (digitAdd2 (X.get m 0) y).2) =
      sweep X.start (fun m i carry => digitAdd2 (X.get m i) carry) 0 X.len (m, y) := by
    rw [sweepWhile_eq fun m i c hc => by
      rw [show c = 0 by simpa using hc]
      exact digitAdd2_carries.zero (.inl rfl) _]
    conv_rhs => rw [show X.len = X.len - 1 + 1 by omega, sweep_succ_front]
    rfl
  rw [zero_add] at hsw
  obtain ⟨hch, -, hva⟩ := hsw
  beta_reduce at hva
  rw [X.low_of_ge m le_rfl] at hva
  obtain ⟨hca, hsum⟩ := carry_eq_zero hva (by positivity) (by exact_mod_cast value_lt _ _ _) (by positivity)
    (by exact_mod_cast hfit)
  refine ⟨_, ?_, hch, by exact_mod_cast hsum⟩
  refine run_bind (dcheck_pos hpos) ?_
  dsimp only
  rw [hwh]
  exact run_bind (dcheck_pos (by exact_mod_cast hca)) rfl

/-! ### The digits of an operand -/

/-- An operand as the loops read it. -/
def operand (negative : Bool) (x : Nat) : Nat := if negative then x - 1 else x

/-- What is borrowed from an operand at a place. -/
def Borrows (negative : Bool) (b x i : Nat) (borrow : Nat) : Prop := negative = true → borrow = borrowAt b x i

variable {i n x v : Nat} {borrow : Digit t}

theorem operandDigit_spec (negative : Bool) {m' : Memory t} (hX : X.get m' i = X.get m i)
    (hi : i < X.len) (hpos : negative → 0 < X.value m) (hbo : Borrows negative t.base (X.value m) i borrow) :
    ((operandDigit negative X m' i borrow).1 : Nat) = operand negative (X.value m) / t.base ^ i % t.base ∧
      Borrows negative t.base (X.value m) (i + 1) (operandDigit negative X m' i borrow).2 := by
  have hdi : (X.get m i : Nat) = X.value m / t.base ^ i % t.base := digit_eq m X.start hi
  rw [operandDigit, operand, hX]
  cases negative with
  | false => exact ⟨hdi, fun h => absurd h (by decide)⟩
  | true =>
    rw [if_pos rfl, if_pos rfl]
    have hp := pred_digit t.base_pos (hpos rfl) i
    obtain ⟨heq, hle⟩ := digitSub_eq (X.get m i) borrow
    rw [← hdi, ← hbo rfl] at hp
    have hlt := (digitSub (X.get m i) borrow).1.isLt
    have hlt' := mod_lt ((X.value m - 1) / t.base ^ i) t.base_pos
    have hnext : borrowAt t.base (X.value m) (i + 1) ≤ 1 := by
      rw [borrowAt]
      split <;> omega
    obtain ⟨hb', hd'⟩ := carry_eq_zero (v := ((digitSub (X.get m i) borrow).1 : ℤ))
      (c := (borrowAt t.base (X.value m) (i + 1) : ℤ) - ((digitSub (X.get m i) borrow).2 : Nat))
      (s := (((X.value m - 1) / t.base ^ i % t.base : Nat) : ℤ)) (p := t.base) (by linear_combination heq - hp)
      (by positivity) (by exact_mod_cast hlt) (by positivity) (by exact_mod_cast hlt')
    exact ⟨by exact_mod_cast hd', fun _ => by omega⟩

theorem operand_lt (negative : Bool) (X : Digits) (m : Memory t) : operand negative (X.value m) < t.base ^ X.len := by
  have hlt := X.value_lt m
  rw [operand]
  split <;> omega

theorem operand_digit_eq_zero (negative : Bool) (X : Digits) (m : Memory t) (hi : X.len ≤ i) :
    operand negative (X.value m) / t.base ^ i = 0 :=
  div_eq_of_lt ((operand_lt negative X m).trans_le (pow_le_pow_right t.base_pos hi))

/-- Nothing is borrowed past the top digit of a number that is not zero. -/
theorem Borrows.eq_zero {negative : Bool}
    (h : Borrows negative t.base (X.value m) (min n X.len) borrow) (hpos : negative → 0 < X.value m)
    (hneg : negative) (hn : X.len ≤ n) : borrow = 0 := by
  refine Fin.ext ?_
  rw [h hneg, min_eq_right hn, borrowAt, mod_eq_of_lt (X.value_lt m), if_neg (hpos hneg).ne', Fin.val_zero]

/-! ### The loops -/

section
variable {op : Nat → Nat → Nat} {f : Bool → Bool → Bool} {xTail yTail : Bool}

/-- What the loops are to compute: the operation on all bits, of operands that are not zero if they are negative, with the
digits that only one operand has where they matter. -/
structure LoopsReady (t : Target) (op : Nat → Nat → Nat) (f : Bool → Bool → Bool) (xTail yTail : Bool) (Z X Y : Digits) :
    Prop where
  zero : f false false = false
  op_eq : ∀ x y, x < t.base → y < t.base → op x y = Nat.bitwise f x y
  x_tail : xTail = f true false
  y_tail : yTail = f false true
  xz : X.Apart Z
  yz : Y.Apart Z
  fits : bitwiseLength xTail yTail X Y ≤ Z.len

/-- The result has no digits but those that the loops write. -/
theorem LoopsReady.lt (h : LoopsReady t op f xTail yTail Z X Y) (xNegative yNegative : Bool) (m : Memory t) :
    Nat.bitwise f (operand xNegative (X.value m)) (operand yNegative (Y.value m)) <
      t.base ^ bitwiseLength xTail yTail X Y := by
  have hpow : t.base ^ bitwiseLength xTail yTail X Y = 2 ^ (t.kDigitBits * bitwiseLength xTail yTail X Y) := by
    rw [Target.base, ← pow_mul]
  refine (div_eq_zero_iff_lt (Nat.pow_pos t.base_pos)).mp ?_
  rw [hpow, bitwise_div h.zero, ← hpow]
  -- Where a loop over the rest of an operand is missing, that rest does not matter.
  have hlen : X.len ≤ bitwiseLength xTail yTail X Y ∧ Y.len ≤ bitwiseLength xTail yTail X Y ∨
      X.len ≤ bitwiseLength xTail yTail X Y ∧ yTail = false ∨ Y.len ≤ bitwiseLength xTail yTail X Y ∧ xTail = false := by
    rw [bitwiseLength]
    cases xTail <;> cases yTail <;> simp <;> omega
  rcases hlen with ⟨hX, hY⟩ | ⟨hX, hy⟩ | ⟨hY, hx⟩
  · rw [operand_digit_eq_zero xNegative X m hX, operand_digit_eq_zero yNegative Y m hY, bitwise_zero_left, ite_self]
  · rw [operand_digit_eq_zero xNegative X m hX, bitwise_zero_left, ← h.y_tail, hy, if_neg (by decide)]
  · rw [operand_digit_eq_zero yNegative Y m hY, bitwise_zero_right, ← h.x_tail, hx, if_neg (by decide)]

/-- Where the loops are with the operands' borrows. -/
def BothBorrow (xNegative yNegative : Bool) (X Y : Digits) (m : Memory t) (i : Nat) (borrow : Digit t × Digit t) : Prop :=
  Borrows xNegative t.base (X.value m) (min i X.len) borrow.1 ∧ Borrows yNegative t.base (Y.value m) (min i Y.len) borrow.2

theorem bitwiseLoops_spec (h : LoopsReady t op f xTail yTail Z X Y) (xNegative yNegative : Bool)
    (hX : xNegative → 0 < X.value m) (hY : yNegative → 0 < Y.value m) :
    ∃ m' borrow, bitwiseLoops op xTail yTail xNegative yNegative Z X Y m = some (m', borrow) ∧ Changes Z.Has m m' ∧
      Z.value m' = Nat.bitwise f (operand xNegative (X.value m)) (operand yNegative (Y.value m)) ∧
      (xNegative → X.len ≤ bitwiseLength xTail yTail X Y → borrow.1 = 0) ∧
      (yNegative → Y.len ≤ bitwiseLength xTail yTail X Y → borrow.2 = 0) := by
  have hfi := h.fits
  obtain ⟨N, hN⟩ : ∃ N, N = Nat.bitwise f (operand xNegative (X.value m)) (operand yNegative (Y.value m)) := ⟨_, rfl⟩
  have hdi : ∀ i, N / t.base ^ i % t.base = Nat.bitwise f (operand xNegative (X.value m) / t.base ^ i % t.base)
      (operand yNegative (Y.value m) / t.base ^ i % t.base) := by
    intro i
    rw [hN]
    exact bitwise_digit h.zero t.kDigitBits _ _ i
  have hle : min X.len Y.len ≤ bitwiseLength xTail yTail X Y ∧ (xTail = true → X.len ≤ bitwiseLength xTail yTail X Y) ∧
      (yTail = true → Y.len ≤ bitwiseLength xTail yTail X Y) := by
    rw [bitwiseLength]
    cases xTail <;> cases yTail <;> simp
  have hst : Spelt Z.start m (BothBorrow xNegative yNegative X Y m) N 0 (m, ((1 : Digit t), (1 : Digit t))) := by
    refine .start ⟨fun _ => ?_, fun _ => ?_⟩
    · rw [Nat.zero_min, borrowAt, pow_zero, mod_one, if_pos rfl, digit_one]
    · rw [Nat.zero_min, borrowAt, pow_zero, mod_one, if_pos rfl, digit_one]
  have hp := hst.sweep (fun m i (borrow : Digit t × Digit t) =>
    let x := operandDigit xNegative X m i borrow.1
    let y := operandDigit yNegative Y m i borrow.2
    (toDigit t (op x.1 y.1), (x.2, y.2))) (min X.len Y.len) fun i m' c _ hi hch hc => by
      obtain ⟨hcX, hcY⟩ := hc
      rw [min_eq_left (by omega)] at hcX hcY
      obtain ⟨hx, hx'⟩ := operandDigit_spec xNegative (h.xz.get (by omega) hch (by omega)) (by omega) hX hcX
      obtain ⟨hy, hy'⟩ := operandDigit_spec yNegative (h.yz.get (by omega) hch (by omega)) (by omega) hY hcY
      have hlt : Nat.bitwise f (operandDigit xNegative X m' i c.1).1 (operandDigit yNegative Y m' i c.2).1 < t.base :=
        bitwise_lt_two_pow (Fin.isLt _) (Fin.isLt _)
      dsimp only
      refine ⟨?_, ?_, ?_⟩
      · rw [h.op_eq _ _ (Fin.isLt _) (Fin.isLt _), toDigit_of_lt hlt, hx, hy, hdi]
      · rw [min_eq_left (by omega)]
        exact hx'
      · rw [min_eq_left (by omega)]
        exact hy'
  rw [zero_add] at hp
  have hxs := hp.sweep (fun m i (borrow : Digit t × Digit t) =>
    let x := operandDigit xNegative X m i borrow.1
    (x.1, (x.2, borrow.2))) ((if xTail then X.len else min X.len Y.len) - min X.len Y.len) fun i m' c hlo hi hch hc => by
      have hta : xTail = true := by
        by_contra hne
        rw [if_neg hne] at hi
        omega
      rw [if_pos hta] at hi
      obtain ⟨hcX, hcY⟩ := hc
      rw [min_eq_left (by omega)] at hcX
      rw [min_eq_right (by omega)] at hcY
      obtain ⟨hx, hx'⟩ := operandDigit_spec xNegative (h.xz.get (by have := hle.2.1 hta; omega) hch (by omega))
        (by omega) hX hcX
      refine ⟨?_, ?_, ?_⟩
      · rw [hx, hdi, operand_digit_eq_zero yNegative Y m (by omega), zero_mod, bitwise_zero_right, ← h.x_tail,
          if_pos hta]
      · rw [min_eq_left (by omega)]
        exact hx'
      · rw [min_eq_right (by omega)]
        exact hcY
  rw [Nat.add_sub_cancel' (by split <;> omega)] at hxs
  have hys := hxs.sweep (fun m i (borrow : Digit t × Digit t) =>
    let y := operandDigit yNegative Y m i borrow.2
    (y.1, (borrow.1, y.2))) (if yTail then Y.len - (if xTail then X.len else min X.len Y.len) else 0)
    fun i m' c hlo hi hch hc => by
      have hta : yTail = true := by
        by_contra hne
        rw [if_neg hne] at hi
        omega
      rw [if_pos hta] at hi
      have hYl := hle.2.2 hta
      have hpl : X.len ≤ i ∧ i < Y.len := by
        by_cases hxt : xTail = true
        · rw [if_pos hxt] at hlo hi
          omega
        · rw [if_neg hxt] at hlo hi
          omega
      obtain ⟨hXi, hYi⟩ := hpl
      obtain ⟨hcX, hcY⟩ := hc
      rw [min_eq_right (by omega)] at hcX
      rw [min_eq_left (by omega)] at hcY
      obtain ⟨hy, hy'⟩ := operandDigit_spec yNegative (h.yz.get (by omega) hch hYi) hYi hY hcY
      dsimp only
      refine ⟨?_, ?_, ?_⟩
      · rw [hy, hdi, operand_digit_eq_zero xNegative X m hXi, zero_mod, bitwise_zero_left, ← h.y_tail,
          if_pos hta]
      · rw [min_eq_right (by omega)]
        exact hcX
      · rw [min_eq_left (by omega)]
        exact hy'
  have hend : (if xTail then X.len else min X.len Y.len) +
      (if yTail then Y.len - (if xTail then X.len else min X.len Y.len) else 0) = bitwiseLength xTail yTail X Y := by
    rw [bitwiseLength]
    cases xTail <;> cases yTail <;> simp <;> omega
  rw [hend] at hys
  obtain ⟨hch, hva⟩ := clearFrom_after hys.changes hfi
  refine ⟨_, _, ?_, hch, ?_, hys.state.1.eq_zero hX, hys.state.2.eq_zero hY⟩
  · rw [bitwiseLoops, dcheck_pos hfi]
    rfl
  · rw [hva, hys.digits.value, ← hN, mod_eq_of_lt]
    rw [hN]
    exact h.lt xNegative yNegative m

end

/-- There is no rest of an operand that is not the longer one. -/
theorem bitwiseLoops_of_le {op : Nat → Nat → Nat} {yTail xNegative yNegative : Bool} (h : X.len ≤ Y.len) :
    bitwiseLoops op false yTail xNegative yNegative Z X Y m = bitwiseLoops op true yTail xNegative yNegative Z X Y m := by
  simp only [bitwiseLoops, bitwiseLength, min_eq_left h, Bool.false_eq_true, if_false, if_true]

/-! ### The combinations of signs -/

/-- A function writes the magnitude of a number to a vector, and nothing else. -/
def Computes (run : Memory t → Option (Memory t)) (Z : Digits) (m : Memory t) (v : Nat) : Prop :=
  ∃ m', run m = some m' ∧ Changes Z.Has m m' ∧ Z.value m' = v

theorem digitAndNot_eq {y : Nat} (hx : x < t.base) (hy : y < t.base) : digitAndNot t x y = ldiff x y := by
  refine eq_of_testBit_eq fun i => ?_
  have hnot : t.base - 1 - y = 2 ^ t.kDigitBits - (y + 1) := by
    rw [Nat.sub_sub, add_comm 1]
    rfl
  rw [digitAndNot, hnot, testBit_and, testBit_two_pow_sub_succ hy, ldiff, testBit_bitwise (by rfl)]
  rcases lt_or_ge i t.kDigitBits with hlt | hge
  · simp [hlt]
  · have hzero : x.testBit i = false :=
      testBit_lt_two_pow (hx.trans_le (pow_le_pow_right (by decide) hge))
    simp [hzero]

/-- One is added to what the loops have written. -/
theorem addOne_spec {m₁ : Memory t} (hch : Changes Z.Has m m₁) (hva : Z.value m₁ = v)
    (hfit : v + 1 < t.base ^ Z.len) :
    ∃ m₂, addDigit Z 1 m₁ = some m₂ ∧ Changes Z.Has m m₂ ∧ Z.value m₂ = v + 1 := by
  have hpos : 0 < Z.len := Nat.pos_of_ne_zero fun hzero => by
    rw [hzero, pow_zero] at hfit
    omega
  obtain ⟨m₂, hrun, hc', hv'⟩ := addDigit_spec (m := m₁) (y := 1) (by rw [digit_one, hva]; exact hfit) hpos
  exact ⟨m₂, hrun, hch.trans hc', by rw [hv', hva, digit_one]⟩

/-- There is room for one more in another digit. -/
theorem succ_lt_pow_succ (h : v < t.base ^ n) : v + 1 < t.base ^ (n + 1) := by
  have hba := t.base_ge
  calc v + 1 ≤ t.base ^ n * 1 := by omega
    _ < t.base ^ n * t.base := Nat.mul_lt_mul_of_pos_left (by omega) (Nat.pow_pos t.base_pos)
    _ = t.base ^ (n + 1) := (pow_succ _ _).symm

theorem not_negative {P : Prop} (h : false) : P := absurd h Bool.false_ne_true

section
variable (hXZ : X.Apart Z) (hYZ : Y.Apart Z)
include hXZ hYZ

theorem bitwiseAndPosPos_spec (hZ : Z.len = min X.len Y.len) :
    Computes (bitwiseAndPosPos Z X Y) Z m (X.value m &&& Y.value m) := by
  have hre : LoopsReady t (· &&& ·) and false false Z X Y :=
    ⟨rfl, fun _ _ _ _ => rfl, rfl, rfl, hXZ, hYZ, by simp [bitwiseLength, hZ]⟩
  obtain ⟨m', borrow, hrun, hch, hva, -⟩ := bitwiseLoops_spec (m := m) hre false false not_negative not_negative
  exact ⟨m', by rw [bitwiseAndPosPos, hrun]; rfl, hch, hva⟩

theorem bitwiseAndNegNeg_spec (hZ : Z.len = max X.len Y.len + 1) (hX : 0 < X.value m) (hY : 0 < Y.value m) :
    Computes (bitwiseAndNegNeg Z X Y) Z m ((X.value m - 1 ||| Y.value m - 1) + 1) := by
  have hre : LoopsReady t (· ||| ·) or true true Z X Y :=
    ⟨rfl, fun _ _ _ _ => rfl, rfl, rfl, hXZ, hYZ, by simp [bitwiseLength, hZ]⟩
  obtain ⟨m₁, borrow, hrun, hch, hva, hbo⟩ := bitwiseLoops_spec (m := m) hre true true (fun _ => hX) fun _ => hY
  obtain ⟨m₂, hrun₂, hc₂, hv₂⟩ := addOne_spec hch hva
    (by rw [hZ]; exact succ_lt_pow_succ (hre.lt true true m))
  exact ⟨m₂, run_bind hrun (run_bind (dcheck_pos (hbo.1 rfl (le_max_left _ _)))
    (run_bind (dcheck_pos (hbo.2 rfl (le_max_right _ _))) hrun₂)), hc₂, hv₂⟩

theorem bitwiseAndPosNeg_spec (hZ : Z.len = X.len) (hY : 0 < Y.value m) :
    Computes (bitwiseAndPosNeg Z X Y) Z m (ldiff (X.value m) (Y.value m - 1)) := by
  have hre : LoopsReady t (digitAndNot t) (fun a b => a && !b) true false Z X Y :=
    ⟨rfl, fun _ _ => digitAndNot_eq, rfl, rfl, hXZ, hYZ, by simp [bitwiseLength, hZ]⟩
  obtain ⟨m', borrow, hrun, hch, hva, -⟩ := bitwiseLoops_spec (m := m) hre false true not_negative fun _ => hY
  exact ⟨m', by rw [bitwiseAndPosNeg, hrun]; rfl, hch, hva⟩

section
variable (hZ : Z.len = max X.len Y.len)
include hZ

theorem bitwiseOrPosPos_spec : Computes (bitwiseOrPosPos Z X Y) Z m (X.value m ||| Y.value m) := by
  have hre : LoopsReady t (· ||| ·) or true true Z X Y :=
    ⟨rfl, fun _ _ _ _ => rfl, rfl, rfl, hXZ, hYZ, by simp [bitwiseLength, hZ]⟩
  obtain ⟨m', borrow, hrun, hch, hva, -⟩ := bitwiseLoops_spec (m := m) hre false false not_negative not_negative
  exact ⟨m', by rw [bitwiseOrPosPos, hrun]; rfl, hch, hva⟩

theorem bitwiseOrNegNeg_spec (hX : 0 < X.value m) (hY : 0 < Y.value m) :
    Computes (bitwiseOrNegNeg Z X Y) Z m ((X.value m - 1 &&& Y.value m - 1) + 1) := by
  have hre : LoopsReady t (· &&& ·) and false false Z X Y :=
    ⟨rfl, fun _ _ _ _ => rfl, rfl, rfl, hXZ, hYZ, by simp [bitwiseLength, hZ]⟩
  have hfit : (X.value m - 1 &&& Y.value m - 1) + 1 < t.base ^ Z.len := by
    have hle : X.value m - 1 &&& Y.value m - 1 ≤ X.value m - 1 := and_le_left
    have hpow : t.base ^ X.len ≤ t.base ^ Z.len := pow_le_pow_right t.base_pos (by omega)
    have hlt := X.value_lt m
    omega
  obtain ⟨m₁, borrow, hrun, hch, hva, -⟩ := bitwiseLoops_spec (m := m) hre true true (fun _ => hX) fun _ => hY
  obtain ⟨m₂, hrun₂, hc₂, hv₂⟩ := addOne_spec hch hva hfit
  refine ⟨m₂, ?_, hc₂, hv₂⟩
  rw [bitwiseOrNegNeg, hrun]
  exact hrun₂

theorem bitwiseOrPosNeg_spec (hY : 0 < Y.value m) :
    Computes (bitwiseOrPosNeg Z X Y) Z m (ldiff (Y.value m - 1) (X.value m) + 1) := by
  have hlen : bitwiseLength false true X Y = Y.len := by
    simp [bitwiseLength]
  have hsw : ∀ x y, Nat.bitwise (fun a b => b && !a) x y = ldiff y x :=
    fun x y => congrFun₂ (@bitwise_swap fun a b => a && !b) x y
  have hre : LoopsReady t (fun x y => digitAndNot t y x) (fun a b => b && !a) false true Z X Y := by
    refine ⟨rfl, fun x y hx hy => ?_, rfl, rfl, hXZ, hYZ, by omega⟩
    rw [hsw, digitAndNot_eq hy hx]
  have hfit : ldiff (Y.value m - 1) (X.value m) + 1 < t.base ^ Z.len := by
    have hle : ldiff (Y.value m - 1) (X.value m) ≤ Y.value m - 1 := by
      refine le_of_testBit fun i hi => ?_
      rw [testBit_ldiff, Bool.and_eq_true] at hi
      exact hi.1
    have hpow : t.base ^ Y.len ≤ t.base ^ Z.len := pow_le_pow_right t.base_pos (by omega)
    have hlt := Y.value_lt m
    omega
  obtain ⟨m₁, borrow, hrun, hch, hva, hbo⟩ := bitwiseLoops_spec (m := m) hre false true not_negative fun _ => hY
  rw [hsw] at hva
  obtain ⟨m₂, hrun₂, hc₂, hv₂⟩ := addOne_spec hch hva hfit
  exact ⟨m₂, run_bind hrun (run_bind (dcheck_pos (hbo.2 rfl hlen.ge)) hrun₂), hc₂, hv₂⟩

theorem bitwiseXorPosPos_spec : Computes (bitwiseXorPosPos Z X Y) Z m (X.value m ^^^ Y.value m) := by
  -- After the swap there is no rest of the first operand.
  have ho : ∀ {X Y : Digits}, X.Apart Z → Y.Apart Z → X.len ≤ Y.len → Z.len = Y.len → ∃ m', (do
        dcheck (X.len ≤ Y.len)
        let s ← bitwiseLoops (· ^^^ ·) false true false false Z X Y m
        return s.1) = some m' ∧ Changes Z.Has m m' ∧ Z.value m' = X.value m ^^^ Y.value m := by
    intro X Y hXZ hYZ hle hZ
    have hre : LoopsReady t (· ^^^ ·) xor true true Z X Y :=
      ⟨rfl, fun _ _ _ _ => rfl, rfl, rfl, hXZ, hYZ, by simp [bitwiseLength, hZ, hle]⟩
    obtain ⟨m', borrow, hrun, hch, hva, -⟩ := bitwiseLoops_spec (m := m) hre false false not_negative not_negative
    rw [bitwiseLoops_of_le hle]
    exact ⟨m', run_bind (dcheck_pos hle) (run_bind hrun rfl), hch, hva⟩
  rw [Computes, bitwiseXorPosPos]
  by_cases hlt : Y.len < X.len
  · rw [if_pos hlt, Nat.xor_comm]
    exact ho hYZ hXZ hlt.le (by omega)
  · rw [if_neg hlt]
    exact ho hXZ hYZ (by omega) (by omega)

theorem bitwiseXorNegNeg_spec (hX : 0 < X.value m) (hY : 0 < Y.value m) :
    Computes (bitwiseXorNegNeg Z X Y) Z m (X.value m - 1 ^^^ Y.value m - 1) := by
  have hre : LoopsReady t (· ^^^ ·) xor true true Z X Y :=
    ⟨rfl, fun _ _ _ _ => rfl, rfl, rfl, hXZ, hYZ, by simp [bitwiseLength, hZ]⟩
  obtain ⟨m', borrow, hrun, hch, hva, hbo⟩ := bitwiseLoops_spec (m := m) hre true true (fun _ => hX) fun _ => hY
  exact ⟨m', run_bind hrun (run_bind (dcheck_pos (hbo.1 rfl (le_max_left _ _)))
    (run_bind (dcheck_pos (hbo.2 rfl (le_max_right _ _))) rfl)), hch, hva⟩

end

theorem bitwiseXorPosNeg_spec (hZ : Z.len = max X.len Y.len + 1) (hY : 0 < Y.value m) :
    Computes (bitwiseXorPosNeg Z X Y) Z m ((X.value m ^^^ Y.value m - 1) + 1) := by
  have hre : LoopsReady t (· ^^^ ·) xor true true Z X Y :=
    ⟨rfl, fun _ _ _ _ => rfl, rfl, rfl, hXZ, hYZ, by simp [bitwiseLength, hZ]⟩
  obtain ⟨m₁, borrow, hrun, hch, hva, hbo⟩ := bitwiseLoops_spec (m := m) hre false true not_negative fun _ => hY
  obtain ⟨m₂, hrun₂, hc₂, hv₂⟩ := addOne_spec hch hva
    (by rw [hZ]; exact succ_lt_pow_succ (hre.lt false true m))
  exact ⟨m₂, run_bind hrun (run_bind (dcheck_pos (hbo.2 rfl (le_max_right _ _))) hrun₂), hc₂, hv₂⟩

end

/-! ### Shifting -/

variable {shift : Digit t}

theorem digitShift_eq (h : (shift : Nat) / t.kDigitBits < 2 ^ 32) :
    digitShift shift = (shift : Nat) / t.kDigitBits := mod_eq_of_lt h

theorem bitsShift_lt (shift : Digit t) : bitsShift shift < t.kDigitBits :=
  mod_lt _ (by have := t.kDigitBits_ge; omega)

theorem two_pow_shift (h : (shift : Nat) / t.kDigitBits < 2 ^ 32) :
    2 ^ (shift : Nat) = t.base ^ digitShift shift * 2 ^ bitsShift shift := by
  have hpow : ∀ n, t.base ^ n = 2 ^ (t.kDigitBits * n) := fun n => by rw [Target.base, ← pow_mul]
  rw [digitShift_eq h, hpow, ← pow_add, bitsShift, div_add_mod]

section
variable (hshift : (shift : Nat) / t.kDigitBits < 2 ^ 32)
include hshift

theorem leftShiftBy_spec (hXZ : X.Apart Z) (hlen : X.len + digitShift shift ≤ Z.len)
    (hfit : X.value m * 2 ^ bitsShift shift < t.base ^ (Z.len - digitShift shift)) :
    Computes (leftShiftBy Z X shift) Z m (X.value m * 2 ^ (shift : Nat)) := by
  have hbsl := bitsShift_lt shift
  have hpow := two_pow_shift hshift
  rw [Computes, leftShiftBy, dcheck_pos hlen]
  set ds := digitShift shift with hds
  set bs := bitsShift shift with hbs
  dsimp only [bind_eq_bind, bind_some]
  obtain ⟨hcl, hzero⟩ := @clearFrom_after t (Z.slice 0 ds) m 0 m (.refl _ _) (zero_le _)
  rw [value_zero] at hzero
  rw [clear]
  set m₁ := (Z.slice 0 ds).clearFrom 0 m with hm₁
  have hX₁ : X.value m₁ = X.value m := (hXZ.symm.slice 0 ds).symm.value hcl
  have hah : X.Ahead (Z.drop ds) := (hXZ.symm.drop ds).symm.ahead (by rw [drop_len]; omega)
  have hlen' : (Z.drop ds).len = Z.len - ds := Z.drop_len ds
  -- What is written above the digits that were cleared.
  have hre : ∀ {m₂ : Memory t}, Changes (Z.drop ds).Has m₁ m₂ → (Z.drop ds).value m₂ = X.value m * 2 ^ bs →
      Changes Z.Has m m₂ ∧ Z.value m₂ = X.value m * 2 ^ (shift : Nat) := by
    intro m₂ hch hva
    refine ⟨(hcl.mono fun a => slice_has).trans (hch.mono fun a => drop_has), ?_⟩
    have hlow : (Z.slice 0 ds).value m₂ = 0 := ((slice_apart_drop le_rfl).value hch).trans hzero
    rw [Z.value_slice_add m₂ ds, hlow, hva, hpow, zero_add]
    ring
  by_cases hbi : bs = 0
  · rw [if_pos hbi]
    obtain ⟨hch, hva⟩ := copyLoop_spec (m := m₁) hah (by omega)
    obtain ⟨hc', hv'⟩ := hre hch (by rw [hva, hX₁, hbi, pow_zero, mul_one])
    exact ⟨_, rfl, hc', hv'⟩
  rw [if_neg hbi]
  obtain ⟨hch, -, hva⟩ := leftShiftLoop_swept (m := m₁) hah hbsl
  beta_reduce at hva
  rw [X.low_of_ge m₁ le_rfl, hX₁] at hva
  generalize sweep (Z.drop ds).start (fun m i (carry : Digit t) =>
    let d : Nat := X.get m i
    (toDigit t (d <<< bs ||| carry), toDigit t (d >>> (t.kDigitBits - bs)))) 0 X.len (m₁, 0) = s at *
  by_cases hca : s.2 = 0
  · rw [if_neg (not_not.mpr hca)]
    obtain ⟨hc₂, hv₂⟩ := clearFrom_after hch (show X.len ≤ (Z.drop ds).len by omega)
    rw [hca, Fin.val_zero, cast_zero, mul_zero, add_zero] at hva
    obtain ⟨hc', hv'⟩ := hre hc₂ (by rw [hv₂]; exact_mod_cast hva)
    exact ⟨_, rfl, hc', hv'⟩
  · have hroom : X.len < (Z.drop ds).len := by
      by_contra hge
      have hone : 1 ≤ (s.2 : Nat) := one_le_iff_ne_zero.mpr fun hzero => hca (Fin.ext hzero)
      have hle := Nat.mul_le_mul_left (t.base ^ X.len) hone
      have hsum : value s.1 (Z.drop ds).start X.len + t.base ^ X.len * s.2 = X.value m * 2 ^ bs := by exact_mod_cast hva
      have hpow' : t.base ^ (Z.len - ds) ≤ t.base ^ X.len := pow_le_pow_right t.base_pos (by omega)
      omega
    rw [if_pos hca, dcheck_pos hroom]
    obtain ⟨hc₂, hv₂⟩ := set_clearFrom hch hroom s.2
    obtain ⟨hc', hv'⟩ := hre hc₂ (by rw [hv₂]; exact_mod_cast hva)
    exact ⟨_, rfl, hc', hv'⟩

/-- Where the callers allocate no digit for it, nothing is carried out of the top digit. -/
theorem leftShiftResultLength_fits (hpos : 0 < X.len) (hZ : Z.len = leftShiftResultLength X shift m) :
    X.len + digitShift shift ≤ Z.len ∧ X.value m * 2 ^ bitsShift shift < t.base ^ (Z.len - digitShift shift) := by
  have hbs := bitsShift_lt shift
  have hlt := X.value_lt m
  rw [leftShiftResultLength, ← digitShift_eq hshift] at hZ
  have hba : 2 ^ (t.kDigitBits - bitsShift shift) * 2 ^ bitsShift shift = t.base := by
    rw [← pow_add, Nat.sub_add_cancel hbs.le]
    rfl
  by_cases hmo : bitsShift shift ≠ 0 ∧ (X.msd m : Nat) >>> (t.kDigitBits - bitsShift shift) ≠ 0
  · rw [if_pos hmo] at hZ
    refine ⟨by omega, ?_⟩
    have hle : 2 ^ bitsShift shift ≤ t.base := pow_le_pow_right (by decide) hbs.le
    rw [hZ, show X.len + digitShift shift + 1 - digitShift shift = X.len + 1 by omega, pow_succ]
    exact Nat.mul_lt_mul_of_lt_of_le hlt hle (two_pow_pos _)
  · rw [if_neg hmo] at hZ
    refine ⟨by omega, ?_⟩
    rw [hZ, Nat.add_sub_cancel]
    by_cases hbi : bitsShift shift = 0
    · rw [hbi, pow_zero, mul_one]
      exact hlt
    · have hmsd : (X.msd m : Nat) < 2 ^ (t.kDigitBits - bitsShift shift) := by
        have hzero : (X.msd m : Nat) >>> (t.kDigitBits - bitsShift shift) = 0 := by
          by_contra hne
          exact hmo ⟨hbi, hne⟩
        rw [shiftRight_eq_div_pow, div_eq_zero_iff_lt (two_pow_pos _)] at hzero
        exact hzero
      have hsp : X.value m = value m X.start (X.len - 1) + t.base ^ (X.len - 1) * X.msd m := by
        rw [Digits.value, show X.len = X.len - 1 + 1 by omega, value_succ]
        rfl
      have hlow := value_lt m X.start (X.len - 1)
      calc X.value m * 2 ^ bitsShift shift
          < t.base ^ (X.len - 1) * 2 ^ (t.kDigitBits - bitsShift shift) * 2 ^ bitsShift shift := by
            refine Nat.mul_lt_mul_of_pos_right ?_ (two_pow_pos _)
            rw [hsp]
            calc value m X.start (X.len - 1) + t.base ^ (X.len - 1) * X.msd m
                < t.base ^ (X.len - 1) * (X.msd m + 1) := by rw [mul_succ]; omega
              _ ≤ _ := Nat.mul_le_mul_left _ hmsd
        _ = t.base ^ X.len := by
            rw [mul_assoc, hba, ← pow_succ, Nat.sub_add_cancel hpos]

omit hshift in
theorem drop_value (X : Digits) (m : Memory t) (i : Nat) : (X.drop i).value m = X.value m / t.base ^ i := by
  have hlow := X.low_eq_mod m i
  have hdiv := mod_add_div (X.value m) (t.base ^ i)
  have hsp := X.value_slice_add m i
  rw [value_slice_zero, hlow] at hsp
  exact Nat.eq_of_mul_eq_mul_left (@Nat.pow_pos t.base i t.base_pos) (by omega)

theorem rightShiftDigits_spec (hXZ : X.Apart Z) (hds : digitShift shift < X.len) (hlen : X.len - digitShift shift ≤ Z.len) :
    Computes (rightShiftDigits Z X shift) Z m (X.value m / 2 ^ (shift : Nat)) := by
  have hlen' : (X.drop (digitShift shift)).len = X.len - digitShift shift := X.drop_len _
  have hah := (hXZ.drop (digitShift shift)).ahead (hlen'.trans_le hlen)
  rw [Computes, rightShiftDigits, dcheck_pos hds.le, dcheck_pos hlen, two_pow_shift hshift, ← Nat.div_div_eq_div_mul,
    ← drop_value X m]
  dsimp only [bind_eq_bind, bind_some]
  by_cases hbi : bitsShift shift = 0
  · rw [if_pos hbi, hbi, pow_zero, Nat.div_one]
    obtain ⟨hch, hva⟩ := copyLoop_spec (m := m) hah (by omega)
    exact ⟨_, rfl, hch, hva⟩
  · rw [if_neg hbi, dcheck_pos (by omega)]
    obtain ⟨hch, hva⟩ := rightShiftLoop_spec (m := m) hah (bitsShift_lt shift) hbi (by omega) (by omega)
    exact ⟨_, rfl, hch, hva⟩

omit hshift in
theorem any_nonzero_iff (X : Digits) (m : Memory t) (n : Nat) :
    ((range n).any fun i => X.get m i ≠ 0) = true ↔ value m X.start n ≠ 0 := by
  rw [List.any_eq_true]
  constructor
  · intro h hzero
    obtain ⟨i, hi, hne⟩ := h
    rw [mem_range] at hi
    exact (decide_eq_true_eq.mp hne) (Fin.ext (eq_zero_of_value t.base_pos hzero hi))
  · intro h
    by_contra hno
    refine h (value_eq_zero fun i hi => ?_)
    by_contra hne
    exact hno ⟨i, mem_range.mpr hi, decide_eq_true fun hzero => hne (congrArg Fin.val hzero)⟩

/-- The code finds out whether the shift is exact. -/
theorem shiftsOut_iff (hds : digitShift shift < X.len) : shiftsOut X shift m ↔ X.value m % 2 ^ (shift : Nat) ≠ 0 := by
  have hbs := bitsShift_lt shift
  have hdvd : 2 ^ bitsShift shift ∣ t.base := pow_dvd_pow 2 hbs.le
  have hdi : (X.get m (digitShift shift) : Nat) = X.value m / t.base ^ digitShift shift % t.base := digit_eq m X.start hds
  have hone : (toDigit t (1 <<< bitsShift shift) : Nat) = 2 ^ bitsShift shift := by
    rw [one_shiftLeft, toDigit_of_lt (Nat.pow_lt_pow_right (by decide) hbs)]
  have hma : ((toDigit t (1 <<< bitsShift shift) - 1 : Digit t) : Nat) = 2 ^ bitsShift shift - 1 := by
    rw [digit_sub_one (by rw [hone]; exact Nat.two_pow_pos _), hone]
  have hpow : t.base ^ digitShift shift ≠ 0 := (Nat.pow_pos t.base_pos).ne'
  have hsp : X.value m % 2 ^ (shift : Nat) = value m X.start (digitShift shift) +
      t.base ^ digitShift shift * (X.get m (digitShift shift) % 2 ^ bitsShift shift) := by
    rw [two_pow_shift hshift, mod_mul, ← mod_mod_of_dvd (X.value m / _) hdvd, ← hdi]
    congr 1
    exact value_mod m X.start hds.le
  rw [shiftsOut, hma, and_two_pow_sub_one_eq_mod, hsp]
  by_cases hbit : (X.get m (digitShift shift) : Nat) % 2 ^ bitsShift shift = 0
  · rw [if_neg (not_not.mpr hbit), any_nonzero_iff, hbit, Nat.mul_zero, Nat.add_zero]
  · rw [if_pos hbit]
    refine ⟨fun _ hzero => ?_, fun _ => rfl⟩
    exact hbit ((Nat.mul_eq_zero.mp (Nat.add_eq_zero_iff.mp hzero).2).resolve_left hpow)

/-- One more fits in the digits that the code asks for. -/
theorem rounded_fits (hds : digitShift shift < X.len) (hZ : Z.len =
    if bitsShift shift = 0 ∧ digitIsMax (X.msd m) then X.len - digitShift shift + 1 else X.len - digitShift shift) :
    X.value m / 2 ^ (shift : Nat) + 1 < t.base ^ Z.len := by
  have hba := t.base_ge
  obtain ⟨L, hL⟩ : ∃ L, L + 1 = X.len - digitShift shift := ⟨X.len - digitShift shift - 1, by omega⟩
  rw [← hL] at hZ
  have hpos : 0 < t.base ^ L := Nat.pow_pos t.base_pos
  rw [two_pow_shift hshift, ← Nat.div_div_eq_div_mul, ← drop_value X m]
  have hsp : (X.drop (digitShift shift)).value m = value m (X.start + digitShift shift) L + t.base ^ L * X.msd m := by
    rw [Digits.value, drop_len, drop_start, ← hL, value_succ, msd, Digits.get,
      show X.start + digitShift shift + L = X.start + (X.len - 1) by omega]
  have hlow := value_lt m (X.start + digitShift shift) L
  have hlt : (X.drop (digitShift shift)).value m < t.base ^ (L + 1) := by
    rw [hL, ← X.drop_len]
    exact (X.drop _).value_lt m
  by_cases hzero : bitsShift shift = 0
  · rw [hzero, pow_zero, Nat.div_one, hsp]
    by_cases hmax : digitIsMax (X.msd m)
    · rw [if_pos ⟨hzero, hmax⟩] at hZ
      rw [hZ, ← hsp]
      exact succ_lt_pow_succ hlt
    · rw [if_neg fun h => hmax h.2] at hZ
      have hne : (X.msd m : Nat) ≠ t.base - 1 := by
        intro heq
        exact hmax (by simp [digitIsMax, heq])
      rw [hZ, pow_succ]
      have hle : (X.msd m : Nat) + 2 ≤ t.base := by omega
      have := Nat.mul_le_mul_left (t.base ^ L) hle
      nlinarith
  · rw [if_neg fun h => hzero h.1] at hZ
    have htwo : 2 ^ 1 ≤ 2 ^ bitsShift shift := Nat.pow_le_pow_right (by decide) (by omega)
    have hdiv : (X.drop (digitShift shift)).value m / 2 ^ bitsShift shift ≤ (X.drop (digitShift shift)).value m / 2 :=
      div_le_div_left (by omega) (by decide)
    have hbig : t.base ≤ t.base ^ (L + 1) := by
      rw [pow_succ]
      exact Nat.le_mul_of_pos_left _ hpos
    rw [hZ]
    omega

omit hshift in
/-- Division that rounds towards minus infinity, for magnitudes. -/
theorem neg_shiftRight (x s : Nat) :
    (-(x : ℤ)) >>> s = -((if x % 2 ^ s = 0 then x / 2 ^ s else x / 2 ^ s + 1 : Nat) : ℤ) := by
  rw [Int.shiftRight_eq_div_pow, Int.neg_ediv, Int.sign_eq_one_of_pos (by positivity)]
  by_cases hdvd : 2 ^ s ∣ x
  · rw [if_pos (by exact_mod_cast hdvd), if_pos (mod_eq_zero_of_dvd hdvd)]
    push_cast
    ring
  · rw [if_neg (by exact_mod_cast hdvd), if_neg fun h => hdvd (dvd_of_mod_eq_zero h)]
    push_cast
    ring

omit hshift in
theorem le_rightShiftResultLength (X : Digits) (xSign : Bool) (m : Memory t) (h : digitShift shift < X.len) :
    X.len - digitShift shift ≤ (rightShiftResultLength X xSign shift m).1 := by
  rw [rightShiftResultLength, if_neg (by omega)]
  generalize (if xSign then shiftsOut X shift m else false) = round
  dsimp only
  split
  · exact le_succ _
  · exact le_rfl

theorem rightShiftBy_spec (hXZ : X.Apart Z) (xSign : Bool)
    (hne : (rightShiftResultLength X xSign shift m).1 ≠ 0) (hZ : Z.len = (rightShiftResultLength X xSign shift m).1) :
    ∃ v, Computes (rightShiftBy Z X shift (rightShiftResultLength X xSign shift m).2) Z m v ∧
      signed xSign v = signed xSign (X.value m) >>> (shift : Nat) := by
  have hds : digitShift shift < X.len := by
    by_contra hge
    exact hne (by rw [rightShiftResultLength, if_pos (by omega)])
  set round := if xSign then shiftsOut X shift m else false with hround
  have hre : rightShiftResultLength X xSign shift m = if round ∧ bitsShift shift = 0 ∧ digitIsMax (X.msd m) then
      (X.len - digitShift shift + 1, round) else (X.len - digitShift shift, round) := by
    rw [rightShiftResultLength, if_neg (by omega), hround]
  have hsnd : (rightShiftResultLength X xSign shift m).2 = round := by
    rw [hre]
    split <;> rfl
  have hlen : X.len - digitShift shift ≤ Z.len := hZ ▸ le_rightShiftResultLength X xSign m hds
  obtain ⟨m₁, hrun₁, hc₁, hv₁⟩ := rightShiftDigits_spec (m := m) hshift hXZ hds hlen
  rw [hsnd]
  cases hca : round with
  | false =>
    refine ⟨_, ⟨m₁, ?_, hc₁, hv₁⟩, ?_⟩
    · rw [rightShiftBy, hrun₁]
      rfl
    · cases xSign with
      | false =>
        rw [signed_false, signed_false, Int.shiftRight_eq_div_pow]
        push_cast
        rfl
      | true =>
        have hex : X.value m % 2 ^ (shift : Nat) = 0 := by
          by_contra hrem
          rw [hca, if_pos rfl, (shiftsOut_iff hshift hds).mpr hrem] at hround
          exact absurd hround (by decide)
        rw [signed_true, signed_true, neg_shiftRight, if_pos hex]
  | true =>
    have hsi : xSign = true := by
      by_contra hpos
      rw [hca, if_neg hpos] at hround
      exact absurd hround (by decide)
    rw [hca, if_pos hsi] at hround
    have hrem := (shiftsOut_iff hshift hds).mp hround.symm
    have hfit : X.value m / 2 ^ (shift : Nat) + 1 < t.base ^ Z.len := by
      refine rounded_fits (m := m) hshift hds ?_
      rw [hZ, hre, hca]
      simp only [true_and]
      split <;> rfl
    obtain ⟨m₂, hrun₂, hc₂, hv₂⟩ := addOne_spec hc₁ hv₁ hfit
    refine ⟨_, ⟨m₂, ?_, hc₂, hv₂⟩, ?_⟩
    · rw [rightShiftBy, hrun₁]
      exact hrun₂
    · rw [hsi, signed_true, signed_true, neg_shiftRight, if_neg hrem]

/-- A shift that leaves no digit. -/
theorem shiftRight_of_short (xSign : Bool)
    (hpos : xSign → 0 < X.value m) (hzero : (rightShiftResultLength X xSign shift m).1 = 0) :
    signed xSign (X.value m) >>> (shift : Nat) = if xSign then -1 else 0 := by
  have hds : X.len ≤ digitShift shift := by
    by_contra hlt
    have hle := le_rightShiftResultLength X xSign m (Nat.lt_of_not_le hlt)
    omega
  have hlt : X.value m < 2 ^ (shift : Nat) := by
    rw [two_pow_shift hshift]
    calc X.value m < t.base ^ X.len := X.value_lt m
      _ ≤ t.base ^ digitShift shift * 1 := by rw [Nat.mul_one]; exact Nat.pow_le_pow_right t.base_pos hds
      _ ≤ _ := Nat.mul_le_mul_left _ (Nat.two_pow_pos _)
  cases xSign with
  | false =>
    rw [signed_false, Int.shiftRight_eq_div_pow, ← Int.natCast_ediv, div_eq_of_lt hlt]
    rfl
  | true =>
    rw [signed_true, neg_shiftRight, mod_eq_of_lt hlt, if_neg (hpos rfl).ne', div_eq_of_lt hlt]
    rfl

end

/-- A function writes the magnitude of a number with this sign to a vector, and nothing else. -/
def ComputesSigned (run : Memory t → Option (Memory t)) (Z : Digits) (m : Memory t) (negative : Bool) (z : ℤ) : Prop :=
  ∃ m', run m = some m' ∧ Changes Z.Has m m' ∧ signed negative (Z.value m') = z

theorem Computes.signed {run : Memory t → Option (Memory t)} (h : Computes run Z m v) (negative : Bool) {z : ℤ}
    (hv : Bigint.signed negative v = z) : ComputesSigned run Z m negative z := by
  obtain ⟨m', hrun, hch, hva⟩ := h
  exact ⟨m', hrun, hch, by rw [hva, hv]⟩

theorem neg_eq_negSucc (h : 0 < x) : -(x : ℤ) = Int.negSucc (x - 1) := by
  omega

/-- The bit operations are those on infinite two's complements, with a result of the length that the callers allocate. So are
the shifts, for a shift count whose whole digits can be counted in 32 bits; where a right shift leaves no digit, the
result is zero or minus one, which the callers make themselves. -/
theorem bit_operations_twos_complement (X Y Z : Digits) (m : Memory t) (hXZ : X.Apart Z) (hYZ : Y.Apart Z) :
    (Z.len = min X.len Y.len → ComputesSigned (bitwiseAndPosPos Z X Y) Z m false (Int.land (X.value m) (Y.value m))) ∧
    (Z.len = max X.len Y.len + 1 → 0 < X.value m → 0 < Y.value m →
      ComputesSigned (bitwiseAndNegNeg Z X Y) Z m true (Int.land (-X.value m) (-Y.value m))) ∧
    (Z.len = X.len → 0 < Y.value m →
      ComputesSigned (bitwiseAndPosNeg Z X Y) Z m false (Int.land (X.value m) (-Y.value m))) ∧
    (Z.len = max X.len Y.len → ComputesSigned (bitwiseOrPosPos Z X Y) Z m false (Int.lor (X.value m) (Y.value m))) ∧
    (Z.len = max X.len Y.len → 0 < X.value m → 0 < Y.value m →
      ComputesSigned (bitwiseOrNegNeg Z X Y) Z m true (Int.lor (-X.value m) (-Y.value m))) ∧
    (Z.len = max X.len Y.len → 0 < Y.value m →
      ComputesSigned (bitwiseOrPosNeg Z X Y) Z m true (Int.lor (X.value m) (-Y.value m))) ∧
    (Z.len = max X.len Y.len → ComputesSigned (bitwiseXorPosPos Z X Y) Z m false (Int.xor (X.value m) (Y.value m))) ∧
    (Z.len = max X.len Y.len → 0 < X.value m → 0 < Y.value m →
      ComputesSigned (bitwiseXorNegNeg Z X Y) Z m false (Int.xor (-X.value m) (-Y.value m))) ∧
    (Z.len = max X.len Y.len + 1 → 0 < Y.value m →
      ComputesSigned (bitwiseXorPosNeg Z X Y) Z m true (Int.xor (X.value m) (-Y.value m))) ∧
    ∀ shift : Digit t, (shift : Nat) / t.kDigitBits < 2 ^ 32 →
      (0 < X.len → Z.len = leftShiftResultLength X shift m → ∀ xSign,
        ComputesSigned (leftShiftBy Z X shift) Z m xSign (signed xSign (X.value m) * 2 ^ (shift : Nat))) ∧
      ∀ xSign, (xSign = true → 0 < X.value m) → ((rightShiftResultLength X xSign shift m).1 = 0 →
          signed xSign (X.value m) >>> (shift : Nat) = if xSign then -1 else 0) ∧
        ((rightShiftResultLength X xSign shift m).1 ≠ 0 → Z.len = (rightShiftResultLength X xSign shift m).1 →
          ComputesSigned (rightShiftBy Z X shift (rightShiftResultLength X xSign shift m).2) Z m xSign
            (signed xSign (X.value m) >>> (shift : Nat))) := by
  refine ⟨fun hZ => ?_, fun hZ hX hY => ?_, fun hZ hY => ?_, fun hZ => ?_, fun hZ hX hY => ?_, fun hZ hY => ?_, fun hZ => ?_,
    fun hZ hX hY => ?_, fun hZ hY => ?_, fun shift hshift => ⟨fun hpos hZ xSign => ?_, fun xSign hpos => ⟨?_, ?_⟩⟩⟩
  · exact (bitwiseAndPosPos_spec hXZ hYZ hZ).signed false rfl
  · refine (bitwiseAndNegNeg_spec hXZ hYZ hZ hX hY).signed true ?_
    rw [signed_true, neg_eq_negSucc hX, neg_eq_negSucc hY]
    rfl
  · refine (bitwiseAndPosNeg_spec hXZ hYZ hZ hY).signed false ?_
    rw [signed_false, neg_eq_negSucc hY]
    rfl
  · exact (bitwiseOrPosPos_spec hXZ hYZ hZ).signed false rfl
  · refine (bitwiseOrNegNeg_spec hXZ hYZ hZ hX hY).signed true ?_
    rw [signed_true, neg_eq_negSucc hX, neg_eq_negSucc hY]
    rfl
  · refine (bitwiseOrPosNeg_spec hXZ hYZ hZ hY).signed true ?_
    rw [signed_true, neg_eq_negSucc hY]
    rfl
  · exact (bitwiseXorPosPos_spec hXZ hYZ hZ).signed false rfl
  · refine (bitwiseXorNegNeg_spec hXZ hYZ hZ hX hY).signed false ?_
    rw [signed_false, neg_eq_negSucc hX, neg_eq_negSucc hY]
    rfl
  · refine (bitwiseXorPosNeg_spec hXZ hYZ hZ hY).signed true ?_
    rw [signed_true, neg_eq_negSucc hY]
    rfl
  · obtain ⟨hlen, hfit⟩ := leftShiftResultLength_fits hshift hpos hZ
    refine (leftShiftBy_spec hshift hXZ hlen hfit).signed xSign ?_
    cases xSign
    · rw [signed_false, signed_false]
      push_cast
      rfl
    · rw [signed_true, signed_true]
      push_cast
      ring
  · exact shiftRight_of_short hshift xSign hpos
  · intro hne hZ
    obtain ⟨v, hcomputes, hv⟩ := rightShiftBy_spec hshift hXZ xSign hne hZ
    exact hcomputes.signed xSign hv

theorem bit_operations_twos_complement_five : 0 < (⟨0, 1⟩ : Digits).value (t := .bits32) (fun _ => 5) ∧
      ComputesSigned (t := .bits32) (bitwiseAndNegNeg ⟨2, 2⟩ ⟨0, 1⟩ ⟨1, 1⟩) ⟨2, 2⟩ (fun _ => 5) true (Int.land (-5) (-5)) := by
  have hresult := (@bit_operations_twos_complement .bits32 ⟨0, 1⟩ ⟨1, 1⟩ ⟨2, 2⟩ (fun _ => 5) (by simp [Digits.Apart])
    (by simp [Digits.Apart])).2.1 rfl (by decide) (by decide)
  exact ⟨by decide, hresult⟩

/-- With digits of 64 bits, the number of whole digits of a shift count need not fit in 32 bits. -/
theorem right_shift_wraps_count : ((toDigit .bits64 (2 ^ 38) : Digit .bits64) : Nat) / Target.bits64.kDigitBits = 2 ^ 32 ∧
      rightShiftResultLength ⟨0, 1⟩ false (toDigit .bits64 (2 ^ 38)) (fun _ => 1) = (1, false) ∧
      (∃ m', rightShiftBy ⟨1, 1⟩ ⟨0, 1⟩ (toDigit .bits64 (2 ^ 38)) false (fun _ => 1) = some m' ∧
        (⟨1, 1⟩ : Digits).value m' = 1) ∧
      (1 : ℤ) >>> (2 ^ 38) = 0 := by
  refine ⟨by decide +kernel, by decide +kernel, ⟨_, rfl, by decide +kernel⟩, ?_⟩
  refine (Int.shiftRight_eq_div_pow 1 (2 ^ 38)).trans ?_
  exact Int.ediv_eq_zero_of_lt (by decide) (by exact_mod_cast Nat.one_lt_two_pow (by decide))

end

end V8Multithread.Bigint
