import V8Multithread.Bigint.Digits

/-! Addition, subtraction and schoolbook multiplication of vectors of digits.

The top digit that some of the functions return besides is left out. -/
namespace V8Multithread.Bigint
open Base.Limbs Digits

variable {t : Target}

/-! ### Addition -/

def inplaceAddAndReturnCarry (Z X : Digits) (m : Memory t) : Memory t × Digit t :=
  sweep Z.start (fun m i carry => digitAdd3 (Z.get m i) (X.get m i) carry) 0 X.len (m, 0)

def addAndReturnOverflow (Z X : Digits) (m : Memory t) : Option (Memory t × Digit t) := do
  let X := X.normalize m
  if X.len = 0 then return (m, 0)
  dcheck (X.len ≤ Z.len)
  let s := sweep Z.start (fun m i carry => digitAdd3 (Z.get m i) (X.get m i) carry) 0 X.len (m, 0)
  return sweepWhile Z.start (fun m i carry => digitAdd2 (Z.get m i) carry) (fun carry => carry ≠ 0) X.len (Z.len - X.len) s

/-! ### Subtraction -/

/-- The loops of `Subtract`. -/
def subtractLoops (Z X Y : Digits) (m : Memory t) : Option (Memory t) := do
  let s := sweep Z.start (fun m i borrow => digitSub2 (X.get m i) (Y.get m i) borrow) 0 Y.len (m, 0)
  let (m, borrow) := sweep Z.start (fun m i borrow => digitSub (X.get m i) borrow) Y.len (X.len - Y.len) s
  dcheck (borrow = 0)
  return Z.clearFrom X.len m

def inplaceSubAndReturnBorrow (Z X : Digits) (m : Memory t) : Memory t × Digit t :=
  sweep Z.start (fun m i borrow => digitSub2 (Z.get m i) (X.get m i) borrow) 0 X.len (m, 0)

def subAndReturnBorrow (Z X : Digits) (m : Memory t) : Option (Memory t × Digit t) := do
  let X := X.normalize m
  if X.len = 0 then return (m, 0)
  dcheck (X.len ≤ Z.len)
  let s := sweep Z.start (fun m i borrow => digitSub2 (Z.get m i) (X.get m i) borrow) 0 X.len (m, 0)
  return sweepWhile Z.start (fun m i borrow => digitSub (Z.get m i) borrow) (fun borrow => borrow ≠ 0) X.len
    (Z.len - X.len) s

/-! ### Multiplication -/

def multiplySingle (Z X : Digits) (y : Digit t) (m : Memory t) : Option (Memory t) := do
  dcheck (y ≠ 0)
  let s := sweep Z.start (fun m i (c : Digit t × Digit t) =>
    let (low, newHigh) := digitMul (X.get m i) y
    let (z, carry) := digitAdd3 low c.2 c.1
    (z, (carry, newHigh))) 0 X.len (m, (0, 0))
  let top := s.2.1 + s.2.2
  return Z.clearFrom (X.len + 1) (Z.set s.1 X.len top)

/-- What `MultiplySchoolbook` keeps from one column to the next. -/
structure Columns (t : Target) where
  next : Digit t
  nextCarry : Digit t
  carry : Digit t

/-- The loop of `BODY`: the products `X[j] * Y[i - j]` for `count` values of `j` from `lo` on. -/
def body (X Y : Digits) (m : Memory t) (i lo : Nat) : (count : Nat) → Digit t × Columns t → Digit t × Columns t
  | 0, s => s
  | count + 1, s =>
    let (zi, c) := body X Y m i lo count s
    let (low, high) := digitMul (X.get m (lo + count)) (Y.get m (i - (lo + count)))
    let (zi, carrybit) := digitAdd2 zi low
    let carry := c.carry + carrybit
    let (next, carrybit) := digitAdd2 c.next high
    let nextCarry := c.nextCarry + carrybit
    (zi, ⟨next, nextCarry, carry⟩)

def secondColumn (X Y : Digits) (m : Memory t) (i : Nat) (c : Columns t) : Digit t × Columns t :=
  let zi := c.next
  body X Y m i 0 2 (zi, ⟨0, c.nextCarry, c.carry⟩)

/-- A round of the loops after it, for `j` from `min` to `max`. -/
def nextColumn (X Y : Digits) (min max : Nat) (m : Memory t) (i : Nat) (c : Columns t) : Digit t × Columns t :=
  let (zi, carry) := digitAdd2 c.next c.carry
  body X Y m i min (max + 1 - min) (zi, ⟨c.nextCarry + carry, 0, 0⟩)

/-- The loops of `MultiplySchoolbook`: all columns but the last digit. -/
def schoolbookColumns (Z X Y : Digits) (m : Memory t) : Memory t × Columns t :=
  let (z, next) := digitMul (X.get m 0) (Y.get m 0)
  let s := (Z.set m 0 z, ⟨next, 0, 0⟩)
  let s := if 1 < Y.len then sweep Z.start (secondColumn X Y) 1 1 s else s
  let s := sweep Z.start (fun m i => nextColumn X Y 0 i m i) 2 (Y.len - 2) s
  sweep Z.start (fun m i => nextColumn X Y (i - (Y.len - 1)) (min i (X.len - 1)) m i) Y.len (X.len - 1) s

def multiplySchoolbook (Z X Y : Digits) (m : Memory t) : Option (Memory t) := do
  dcheck (isDigitNormalized X m)
  dcheck (isDigitNormalized Y m)
  dcheck (Y.len ≤ X.len)
  dcheck (X.len + Y.len ≤ Z.len)
  if X.len = 0 ∨ Y.len = 0 then return Z.clear m
  let s := schoolbookColumns Z X Y m
  let (top, carry) := digitAdd2 s.2.next s.2.carry
  dcheck (carry = 0)
  return Z.clearFrom (X.len + Y.len) (Z.set s.1 (X.len + Y.len - 1) top)

/-! ### What the additions and subtractions compute

A loop that adds digits and one that subtracts them differ in a sign, `σ`. -/

section
variable {X Y Z : Digits} {m : Memory t} {σ : ℤ}

theorem mod_of_carry {v c s p : Nat} (h : (v : ℤ) + p * c = s) (hlt : v < p) : v = s % p := by
  have heq : v + p * c = s := by exact_mod_cast h
  rw [← heq, Nat.add_mul_mod_self_left, Nat.mod_eq_of_lt hlt]

def Rounds (σ : ℤ) (op : Digit t → Digit t → Digit t → Digit t × Digit t) : Prop :=
  ∀ a b c : Digit t, (c : Nat) ≤ 1 → ((op a b c).2 : Nat) ≤ 1 ∧
    ((op a b c).1 : ℤ) + t.base * (σ * ((op a b c).2 : Nat)) = ((a : Nat) + σ * (b : Nat) : ℤ) + σ * (c : Nat)

def Carries (σ : ℤ) (op : Digit t → Digit t → Digit t × Digit t) : Prop :=
  ∀ a c : Digit t, ((op a c).2 : Nat) ≤ 1 ∧ ((op a c).1 : ℤ) + t.base * (σ * ((op a c).2 : Nat)) = ((a : Nat) : ℤ) + σ * (c : Nat)

theorem digitAdd3_rounds : Rounds (t := t) 1 digitAdd3 := by
  refine fun a b c h => ⟨digitAdd3_le a b c h, ?_⟩
  simpa only [one_mul] using mod_cast digitAdd3_eq a b c

theorem digitAdd2_carries : Carries (t := t) 1 digitAdd2 := by
  refine fun a c => ⟨digitAdd2_le a c, ?_⟩
  simpa only [one_mul] using mod_cast digitAdd2_eq a c

theorem digitSub2_rounds : Rounds (t := t) (-1) digitSub2 := by
  intro a b c h
  obtain ⟨heq, hle⟩ := digitSub2_eq a b c h
  exact ⟨hle, by rw [heq]; ring⟩

theorem digitSub_carries : Carries (t := t) (-1) digitSub := by
  intro a c
  obtain ⟨heq, hle⟩ := digitSub_eq a c
  exact ⟨hle, by rw [heq]; ring⟩

/-- Where nothing is carried, nothing is changed. -/
theorem Carries.zero {op : Digit t → Digit t → Digit t × Digit t} (hop : Carries σ op) (hσ : σ = 1 ∨ σ = -1) (a : Digit t) :
    op a 0 = (a, 0) := by
  obtain ⟨hle, heq⟩ := hop a 0
  have hca : ((op a 0).2 : Nat) = 0 := by
    by_contra hne
    have hone : ((op a 0).2 : Nat) = 1 := by omega
    rw [hone, Fin.val_zero] at heq
    rcases hσ with rfl | rfl <;> omega
  have hsa : ((op a 0).1 : Nat) = a := by
    rw [hca, Fin.val_zero] at heq
    omega
  exact Prod.ext (Fin.ext hsa) (Fin.ext hca)

/-- A loop has come to digit `n` of the result of an addition or a subtraction. -/
abbrev Carried (σ : ℤ) (Z X Y : Digits) (m : Memory t) (n : Nat) (s : Memory t × Digit t) : Prop :=
  Swept Z.start m (fun c : Digit t => (c : Nat) ≤ 1) (fun c => σ * (c : Nat)) (fun i => X.low m i + σ * Y.low m i) n s

/-- The loop over the digits of both operands. -/
theorem Rounds.swept {op : Digit t → Digit t → Digit t → Digit t × Digit t} (hop : Rounds σ op) (hX : X.Ahead Z)
    (hY : Y.Ahead Z) (hlen : Y.len ≤ X.len) :
    Carried σ Z X Y m Y.len (sweep Z.start (fun m i c => op (X.get m i) (Y.get m i) c) 0 Y.len (m, 0)) := by
  have hst : Carried σ Z X Y m 0 (m, 0) := .start (by simp) (by simp)
  have hsw := hst.sweep (fun m i c => op (X.get m i) (Y.get m i) c) Y.len
    (fun i => (X.get m i : Nat) + σ * (Y.get m i : Nat)) fun i m' c _ hi hch hc => by
      rw [hX.get hch (by omega), hY.get hch (by omega)]
      refine ⟨(hop _ _ c hc).1, (hop _ _ c hc).2, ?_⟩
      rw [X.low_succ m (by omega), Y.low_succ m (by omega)]
      push_cast
      ring
  rwa [zero_add] at hsw

/-- The loop over the digits that only the longer one has. -/
theorem Carries.swept {op : Digit t → Digit t → Digit t × Digit t} (hop : Carries σ op) (hX : X.Ahead Z)
    (hlen : Y.len ≤ X.len) {s : Memory t × Digit t} (h : Carried σ Z X Y m Y.len s) :
    Carried σ Z X Y m X.len (sweep Z.start (fun m i c => op (X.get m i) c) Y.len (X.len - Y.len) s) := by
  have hsw := h.sweep (fun m i c => op (X.get m i) c) (X.len - Y.len) (fun i => (X.get m i : Nat))
    fun i m' c hlo hi hch hc => by
      rw [hX.get hch (by omega)]
      refine ⟨(hop _ c).1, (hop _ c).2, ?_⟩
      rw [X.low_succ m (by omega), Y.low_of_ge m hlo, Y.low_of_ge m (Nat.le_succ_of_le hlo)]
      push_cast
      ring
  rwa [Nat.add_sub_cancel' hlen] at hsw

theorem inplaceAddAndReturnCarry_spec (hX : X.Ahead Z) (hlen : X.len ≤ Z.len) :
    Changes (Within Z.start X.len) m (inplaceAddAndReturnCarry Z X m).1 ∧ ((inplaceAddAndReturnCarry Z X m).2 : Nat) ≤ 1 ∧
      Base.Limbs.value (inplaceAddAndReturnCarry Z X m).1 Z.start X.len +
        t.base ^ X.len * (inplaceAddAndReturnCarry Z X m).2 = Base.Limbs.value m Z.start X.len + X.value m := by
  obtain ⟨hch, hca, hva⟩ := digitAdd3_rounds.swept (m := m) Z.ahead_self hX hlen
  refine ⟨hch, hca, ?_⟩
  beta_reduce at hva
  rw [X.low_of_ge m le_rfl, Digits.low, min_eq_left hlen, one_mul, one_mul] at hva
  exact_mod_cast hva

theorem inplaceSubAndReturnBorrow_spec (hX : X.Ahead Z) (hlen : X.len ≤ Z.len) :
    Changes (Within Z.start X.len) m (inplaceSubAndReturnBorrow Z X m).1 ∧ ((inplaceSubAndReturnBorrow Z X m).2 : Nat) ≤ 1 ∧
      Base.Limbs.value (inplaceSubAndReturnBorrow Z X m).1 Z.start X.len + X.value m =
        Base.Limbs.value m Z.start X.len + t.base ^ X.len * (inplaceSubAndReturnBorrow Z X m).2 := by
  obtain ⟨hch, hbo, hva⟩ := digitSub2_rounds.swept (m := m) Z.ahead_self hX hlen
  refine ⟨hch, hbo, ?_⟩
  beta_reduce at hva
  rw [X.low_of_ge m le_rfl, Digits.low, min_eq_left hlen] at hva
  rw [inplaceSubAndReturnBorrow]
  zify
  linear_combination hva

/-- The loops of an operation in place, which stop when nothing is carried any more. -/
theorem inplace_spec {op : Digit t → Digit t → Digit t → Digit t × Digit t} {op' : Digit t → Digit t → Digit t × Digit t}
    (hop : Rounds σ op) (hop' : Carries σ op') (hσ : σ = 1 ∨ σ = -1) (hX : X.Ahead Z) (hlen : X.len ≤ Z.len) :
    ∃ m' c, sweepWhile Z.start (fun m i c => op' (Z.get m i) c) (fun c => c ≠ 0) X.len (Z.len - X.len)
        (sweep Z.start (fun m i c => op (Z.get m i) (X.get m i) c) 0 X.len (m, 0)) = (m', c) ∧
      Changes Z.Has m m' ∧ (c : Nat) ≤ 1 ∧
      (Z.value m' : ℤ) + t.base ^ Z.len * (σ * (c : Nat)) = Z.value m + σ * X.value m := by
  obtain ⟨hch, hca, hva⟩ := hop'.swept Z.ahead_self hlen (hop.swept (m := m) Z.ahead_self hX hlen)
  beta_reduce at hva
  rw [Z.low_of_ge m le_rfl, X.low_of_ge m hlen] at hva
  refine ⟨_, _, sweepWhile_eq (fun m i c hc => ?_) _ _ _ _, hch, hca, hva⟩
  rw [show c = 0 by simpa using hc]
  exact hop'.zero hσ _

theorem addAndReturnOverflow_spec (hX : X.Ahead Z) (hfit : X.value m < t.base ^ Z.len) :
    ∃ m' c, addAndReturnOverflow Z X m = some (m', c) ∧ Changes Z.Has m m' ∧ (c : Nat) ≤ 1 ∧
      Z.value m' + t.base ^ Z.len * c = Z.value m + X.value m := by
  have hlen := normalize_len_le_of_lt hfit
  by_cases hzero : (X.normalize m).len = 0
  · refine ⟨m, 0, by simp [addAndReturnOverflow, hzero], .refl _ _, by simp, ?_⟩
    rw [Digits.normalize_len_eq_zero.mp hzero, Fin.val_zero, mul_zero]
  · obtain ⟨m', c, hrun, hch, hca, hva⟩ :=
      inplace_spec (m := m) digitAdd3_rounds digitAdd2_carries (.inl rfl) hX.normalize hlen
    rw [X.normalize_value, one_mul, one_mul] at hva
    refine ⟨m', c, ?_, hch, hca, by exact_mod_cast hva⟩
    simp only [addAndReturnOverflow, if_neg hzero, dcheck_pos hlen, hrun]
    rfl

theorem subAndReturnBorrow_spec (hX : X.Ahead Z) (hfit : X.value m < t.base ^ Z.len) :
    ∃ m' c, subAndReturnBorrow Z X m = some (m', c) ∧ Changes Z.Has m m' ∧ (c : Nat) ≤ 1 ∧
      Z.value m' + X.value m = Z.value m + t.base ^ Z.len * c := by
  have hlen := normalize_len_le_of_lt hfit
  by_cases hzero : (X.normalize m).len = 0
  · refine ⟨m, 0, by simp [subAndReturnBorrow, hzero], .refl _ _, by simp, ?_⟩
    rw [Digits.normalize_len_eq_zero.mp hzero, Fin.val_zero, mul_zero]
  · obtain ⟨m', c, hrun, hch, hbo, hva⟩ :=
      inplace_spec (m := m) digitSub2_rounds digitSub_carries (.inr rfl) hX.normalize hlen
    rw [X.normalize_value] at hva
    refine ⟨m', c, ?_, hch, hbo, ?_⟩
    · simp only [subAndReturnBorrow, if_neg hzero, dcheck_pos hlen, hrun]
      rfl
    · zify
      linear_combination hva

theorem subtractLoops_spec (hlen : Y.len ≤ X.len) (hfit : X.len ≤ Z.len) (hX : X.Ahead Z) (hY : Y.Ahead Z)
    (hle : Y.value m ≤ X.value m) :
    ∃ m', subtractLoops Z X Y m = some m' ∧ Changes Z.Has m m' ∧ Z.value m' = X.value m - Y.value m := by
  have hrest := digitSub_carries.swept hX hlen (digitSub2_rounds.swept (m := m) hX hY hlen)
  rw [subtractLoops]
  generalize sweep Z.start (fun m i borrow => digitSub (X.get m i) borrow) Y.len (X.len - Y.len)
    (sweep Z.start (fun m i borrow => digitSub2 (X.get m i) (Y.get m i) borrow) 0 Y.len (m, 0)) = s at *
  obtain ⟨m', borrow⟩ := s
  obtain ⟨hch, hbo, hva⟩ := hrest
  dsimp only at hch hbo hva ⊢
  rw [X.low_of_ge m le_rfl, Y.low_of_ge m hlen] at hva
  have hlt := Base.Limbs.value_lt m' Z.start X.len
  -- A borrow that is left over would make the difference negative.
  have hzero : (borrow : Nat) = 0 := by
    by_contra hne
    have hone : (borrow : Nat) = 1 := by omega
    rw [hone] at hva
    push_cast at hva
    linarith
  obtain ⟨hcl, hre⟩ := clearFrom_after hch hfit
  refine ⟨Z.clearFrom X.len m', ?_, hcl, ?_⟩
  · rw [dcheck_pos (Fin.ext hzero : borrow = 0)]
    rfl
  · rw [hre]
    rw [hzero] at hva
    push_cast at hva
    zify [hle]
    linarith

def signed (negative : Bool) (v : Nat) : ℤ := if negative then -v else v

@[simp] theorem signed_false (v : Nat) : signed false v = v := rfl
@[simp] theorem signed_true (v : Nat) : signed true v = -v := rfl

/-! ### What the multiplications compute -/

/-- What is carried out of the digits written is bounded by the number. -/
theorem lt_of_written {v w n p b : Nat} (h : v + p * w = n) (hlt : n < p * b) : w < b :=
  Nat.lt_of_mul_lt_mul_left ((Nat.le_add_left _ v).trans_lt (h.trans_lt hlt))

theorem multiplySingle_spec {y : Digit t} (hy : y ≠ 0) (hX : X.Ahead Z) (hlen : X.len < Z.len) :
    ∃ m', multiplySingle Z X y m = some m' ∧ Changes Z.Has m m' ∧ Z.value m' = X.value m * y := by
  have hst : Swept Z.start m (fun c : Digit t × Digit t => (c.1 : Nat) ≤ 1) (fun c => (c.1 : Nat) + (c.2 : Nat))
      (fun i => X.low m i * (y : Nat)) 0 (m, (0, 0)) := .start (by simp) (by simp)
  have hsw := hst.sweep (fun m i (c : Digit t × Digit t) =>
    let (low, newHigh) := digitMul (X.get m i) y
    let (z, carry) := digitAdd3 low c.2 c.1
    (z, (carry, newHigh))) X.len (fun i => (X.get m i : Nat) * (y : Nat)) fun i m' c _ hi hch hc => by
      rw [hX.get hch (by omega)]
      have hp := digitMul_eq (X.get m i) y
      have hsum := digitAdd3_eq (digitMul (X.get m i) y).1 c.2 c.1
      refine ⟨digitAdd3_le _ _ _ hc, ?_, ?_⟩
      · zify at hp hsum
        linarith
      · rw [X.low_succ m (by omega)]
        push_cast
        ring
  rw [zero_add] at hsw
  rw [multiplySingle, dcheck_pos hy]
  generalize sweep Z.start (fun m i (c : Digit t × Digit t) =>
    let (low, newHigh) := digitMul (X.get m i) y
    let (z, carry) := digitAdd3 low c.2 c.1
    (z, (carry, newHigh))) 0 X.len (m, (0, 0)) = s at *
  obtain ⟨m', carry, high⟩ := s
  obtain ⟨hch, -, hwr⟩ := hsw
  beta_reduce at hwr
  rw [X.low_of_ge m le_rfl] at hwr
  -- The product has at most one digit more than the factor.
  have htop : (carry : Nat) + high < t.base :=
    lt_of_written (by exact_mod_cast hwr) (Nat.mul_lt_mul_of_lt_of_lt (X.value_lt m) y.isLt)
  obtain ⟨hch, hva⟩ := set_clearFrom hch hlen (carry + high)
  refine ⟨_, rfl, hch, ?_⟩
  rw [hva, digit_add_of_lt htop]
  exact_mod_cast hwr

/-- What the columns below still owe to those above. -/
def Columns.weight (c : Columns t) : ℤ := (c.next : Nat) + (c.carry : Nat) + t.base * (c.nextCarry : Nat)

/-- The products are added up, and the counts of the carries do not wrap around. -/
theorem body_spec (X Y : Digits) (m : Memory t) (i lo : Nat) {count : Nat} (hco : count < t.base) (zi next : Digit t) :
    let r := body X Y m i lo count (zi, ⟨next, 0, 0⟩)
    (r.2.carry : Nat) ≤ count ∧ (r.2.nextCarry : Nat) ≤ count ∧
      (r.1 : ℤ) + t.base * r.2.weight = (zi : Nat) + t.base * (next : Nat) +
        ∑ k ∈ Finset.range count, (X.get m (lo + k) : ℤ) * (Y.get m (i - (lo + k)) : ℤ) := by
  induction count with
  | zero => simp [body, Columns.weight]
  | succ count ih =>
    obtain ⟨hcar, hnex, hsum⟩ := ih (by omega)
    intro r
    have hr : r = body X Y m i lo (count + 1) (zi, ⟨next, 0, 0⟩) := rfl
    rw [body] at hr
    generalize body X Y m i lo count (zi, ⟨next, 0, 0⟩) = s at *
    obtain ⟨z, n, nc, c⟩ := s
    dsimp only at hcar hnex hsum hr
    have hmul := digitMul_eq (X.get m (lo + count)) (Y.get m (i - (lo + count)))
    generalize digitMul (X.get m (lo + count)) (Y.get m (i - (lo + count))) = product at *
    have hlow := digitAdd2_eq z product.1
    have hl := digitAdd2_le z product.1
    have hhi := digitAdd2_eq n product.2
    have hh := digitAdd2_le n product.2
    have hca := @digit_add_of_lt t c (digitAdd2 z product.1).2 (by omega)
    have hne := @digit_add_of_lt t nc (digitAdd2 n product.2).2 (by omega)
    rw [hr]
    refine ⟨by rw [hca]; omega, by rw [hne]; omega, ?_⟩
    rw [Finset.sum_range_succ]
    simp only [Columns.weight, hca, hne] at hsum ⊢
    zify at hmul hlow hhi
    push_cast
    linear_combination hsum + hmul + hlow + (t.base : ℤ) * hhi

theorem secondColumn_spec (X Y : Digits) (m : Memory t) (i : Nat) (next : Digit t) :
    ((secondColumn X Y m i ⟨next, 0, 0⟩).2.nextCarry : Nat) ≤ 2 ∧
      ((secondColumn X Y m i ⟨next, 0, 0⟩).1 : ℤ) + t.base * (secondColumn X Y m i ⟨next, 0, 0⟩).2.weight =
        ∑ k ∈ Finset.range 2, (X.get m (0 + k) : ℤ) * (Y.get m (i - (0 + k)) : ℤ) + (⟨next, 0, 0⟩ : Columns t).weight := by
  have hba := t.base_ge
  obtain ⟨-, hne, hsum⟩ := body_spec X Y m i 0 (show 2 < t.base by omega) next 0
  refine ⟨hne, ?_⟩
  rw [secondColumn, hsum, Columns.weight]
  simp only [Fin.val_zero]
  push_cast
  ring

/-- One column more. -/
theorem nextColumn_spec (X Y : Digits) (lo hi : Nat) (m : Memory t) (i : Nat) {c : Columns t} {bound : Nat}
    (hbo : bound + 1 < t.base) (hco : hi + 1 - lo ≤ bound) (hc : (c.nextCarry : Nat) ≤ bound) :
    ((nextColumn X Y lo hi m i c).2.nextCarry : Nat) ≤ bound ∧
      ((nextColumn X Y lo hi m i c).1 : ℤ) + t.base * (nextColumn X Y lo hi m i c).2.weight =
        ∑ k ∈ Finset.range (hi + 1 - lo), (X.get m (lo + k) : ℤ) * (Y.get m (i - (lo + k)) : ℤ) + c.weight := by
  have hadd := digitAdd2_eq c.next c.carry
  have hle := digitAdd2_le c.next c.carry
  have hnext := @digit_add_of_lt t c.nextCarry (digitAdd2 c.next c.carry).2 (by omega)
  obtain ⟨-, hne, hsum⟩ := body_spec X Y m i lo (show hi + 1 - lo < t.base by omega)
    (digitAdd2 c.next c.carry).1 (c.nextCarry + (digitAdd2 c.next c.carry).2)
  rw [nextColumn]
  dsimp only at hne hsum ⊢
  refine ⟨hne.trans hco, ?_⟩
  rw [hsum, hnext, Columns.weight]
  zify at hadd
  push_cast
  linear_combination hadd

def columns (X Y : Digits) (m : Memory t) (i : Nat) : ℤ :=
  ∑ j ∈ Finset.range i, column m X.start X.len Y.start Y.len j * (t.base : ℤ) ^ j

theorem columns_succ (X Y : Digits) (m : Memory t) (i : Nat) :
    columns X Y m (i + 1) = columns X Y m i + (t.base : ℤ) ^ i * column m X.start X.len Y.start Y.len i := by
  rw [columns, Finset.sum_range_succ, mul_comm]
  rfl

/-- The products of a round are those of its column: what was written so far is in neither factor. -/
theorem column_of_changes {m' : Memory t} {i lo count : Nat} (hX : X.Apart Z) (hY : Y.Apart Z) (hi : i ≤ Z.len)
    (hch : Changes (Within Z.start i) m m')
    (hin : ∀ j, lo ≤ j → j < lo + count → j < X.len ∧ j ≤ i ∧ i - j < Y.len)
    (hout : ∀ j ≤ i, j < lo ∨ lo + count ≤ j → X.len ≤ j ∨ Y.len ≤ i - j) :
    ∑ k ∈ Finset.range count, (X.get m' (lo + k) : ℤ) * (Y.get m' (i - (lo + k)) : ℤ) =
      column m X.start X.len Y.start Y.len i := by
  have hZ : Changes Z.Has m m' := hch.mono fun a ha => ⟨ha.1, by have := ha.2; omega⟩
  rw [column_eq m hin hout]
  refine Finset.sum_congr rfl fun k hk => ?_
  have hlt := Finset.mem_range.mp hk
  obtain ⟨hXlt, -, hYlt⟩ := hin (lo + k) (by omega) (by omega)
  rw [get_of_changes hZ hXlt fun _ => hX.not_has, get_of_changes hZ hYlt fun _ => hY.not_has]
  rfl

abbrev ColumnsSwept (Z X Y : Digits) (m : Memory t) (n : Nat) (s : Memory t × Columns t) : Prop :=
  Swept Z.start m (fun c : Columns t => (c.nextCarry : Nat) ≤ Y.len) Columns.weight (columns X Y m) n s

theorem schoolbookColumns_swept (hpos : 0 < Y.len) (hlen : Y.len ≤ X.len) (hfit : X.len + Y.len ≤ Z.len)
    (hX : X.Apart Z) (hY : Y.Apart Z) (hbo : Y.len + 1 < t.base) :
    ColumnsSwept Z X Y m (Y.len + (X.len - 1)) (schoolbookColumns Z X Y m) := by
  have hst : ColumnsSwept Z X Y m 0 (m, ⟨0, 0, 0⟩) := .start (by simp) (by simp [columns, Columns.weight])
  rw [schoolbookColumns]
  have hmul := digitMul_eq (X.get m 0) (Y.get m 0)
  generalize digitMul (X.get m 0) (Y.get m 0) = product at *
  have hfi : ColumnsSwept Z X Y m 1 (Z.set m 0 product.1, ⟨product.2, 0, 0⟩) := by
    refine hst.write (by simp) (column m X.start X.len Y.start Y.len 0) ?_ (columns_succ X Y m 0)
    rw [← @column_of_changes t X Y Z m m 0 0 1 hX hY (by omega) (.refl _ _) (by omega) (by omega)]
    simp only [Columns.weight, Finset.sum_range_one, Fin.val_zero]
    zify at hmul
    push_cast
    linarith
  have hse : ColumnsSwept Z X Y m (min 2 Y.len) (if 1 < Y.len then sweep Z.start (secondColumn X Y) 1 1
      (Z.set m 0 product.1, ⟨product.2, 0, 0⟩) else (Z.set m 0 product.1, ⟨product.2, 0, 0⟩)) := by
    by_cases hone : 1 < Y.len
    · obtain ⟨hne, hsum⟩ := secondColumn_spec X Y (Z.set m 0 product.1) 1 product.2
      rw [column_of_changes hX hY (by omega) hfi.1 (by omega) (by omega)] at hsum
      rw [if_pos hone, min_eq_left hone]
      exact hfi.write (hne.trans hone) _ hsum (columns_succ X Y m 1)
    · rw [if_neg hone, show min 2 Y.len = 1 by omega]
      exact hfi
  dsimp only
  generalize (if 1 < Y.len then sweep Z.start (secondColumn X Y) 1 1 (Z.set m 0 product.1, ⟨product.2, 0, 0⟩)
    else (Z.set m 0 product.1, ⟨product.2, 0, 0⟩)) = second at *
  have hmain : ColumnsSwept Z X Y m Y.len (sweep Z.start (fun m i => nextColumn X Y 0 i m i) 2 (Y.len - 2) second) := by
    by_cases hone : 1 < Y.len
    · rw [min_eq_left hone] at hse
      have hsw := hse.sweep (fun m i => nextColumn X Y 0 i m i) (Y.len - 2)
        (column m X.start X.len Y.start Y.len) fun i m' c hlo hi hch hc => by
          obtain ⟨hne, hsum⟩ := nextColumn_spec X Y 0 i m' i hbo (by omega) hc
          rw [column_of_changes hX hY (by omega) hch (by omega) (by omega)] at hsum
          exact ⟨hne, hsum, columns_succ X Y m i⟩
      rwa [Nat.add_sub_cancel' hone] at hsw
    · have hl : Y.len = 1 := by omega
      rw [hl] at hse ⊢
      exact hse
  exact hmain.sweep (fun m i => nextColumn X Y (i - (Y.len - 1)) (min i (X.len - 1)) m i) (X.len - 1)
    (column m X.start X.len Y.start Y.len) fun i m' c hlo hi hch hc => by
      obtain ⟨hne, hsum⟩ := nextColumn_spec X Y (i - (Y.len - 1)) (min i (X.len - 1)) m' i hbo (by omega) hc
      rw [column_of_changes hX hY (by omega) hch (by omega) (by omega)] at hsum
      exact ⟨hne, hsum, columns_succ X Y m i⟩

theorem multiplySchoolbook_spec (hXn : isDigitNormalized X m) (hYn : isDigitNormalized Y m)
    (hlen : Y.len ≤ X.len) (hfit : X.len + Y.len ≤ Z.len) (hX : X.Apart Z) (hY : Y.Apart Z)
    (hbo : Y.len + 1 < t.base) :
    ∃ m', multiplySchoolbook Z X Y m = some m' ∧ Changes Z.Has m m' ∧ Z.value m' = X.value m * Y.value m := by
  rw [multiplySchoolbook, dcheck_pos hXn, dcheck_pos hYn, dcheck_pos hlen, dcheck_pos hfit]
  by_cases hzero : Y.len = 0
  · obtain ⟨hch, hva⟩ := @clearFrom_after t Z m 0 m (.refl _ _) (Nat.zero_le _)
    refine ⟨_, if_pos (.inr hzero), hch, ?_⟩
    rw [clear, hva, Digits.value.eq_def Y, hzero, value_zero, value_zero, Nat.mul_zero]
  have hpos : 0 < Y.len := by omega
  obtain ⟨hch, -, hva⟩ := schoolbookColumns_swept (m := m) hpos hlen hfit hX hY hbo
  have hl : Y.len + (X.len - 1) = X.len + Y.len - 1 := by omega
  rw [hl] at hch hva
  rw [columns, sum_column m (by omega) hpos] at hva
  generalize schoolbookColumns Z X Y m = s at *
  obtain ⟨m', next, nextCarry, carry⟩ := s
  dsimp only [Columns.weight] at hva
  -- The product has no more digits than the factors together.
  have hwe : (next : Nat) + carry + t.base * nextCarry < t.base := by
    refine lt_of_written (n := X.value m * Y.value m) (by exact_mod_cast hva) ?_
    rw [← pow_succ, Nat.sub_add_cancel (by omega), pow_add]
    exact Nat.mul_lt_mul_of_lt_of_lt (X.value_lt m) (Y.value_lt m)
  have hnex : (nextCarry : Nat) = 0 := by
    by_contra hne
    have := Nat.mul_le_mul_left t.base (Nat.one_le_iff_ne_zero.mpr hne)
    omega
  have hadd := digitAdd2_eq next carry
  cases hsum : digitAdd2 next carry with | mk top rest
  rw [hsum] at hadd
  dsimp only at hadd
  have hca : (rest : Nat) = 0 := by
    by_contra hne
    have := Nat.mul_le_mul_left t.base (Nat.one_le_iff_ne_zero.mpr hne)
    omega
  obtain ⟨hcl, hre⟩ := set_clearFrom hch (show X.len + Y.len - 1 < Z.len by omega) top
  rw [Nat.sub_add_cancel (by omega)] at hcl hre
  refine ⟨_, ?_, hcl, ?_⟩
  · have hnot : ¬(X.len = 0 ∨ Y.len = 0) := by omega
    rw [if_neg hnot]
    simp only [hsum, dcheck_pos (Fin.ext hca : rest = 0)]
    rfl
  · rw [hca, Nat.mul_zero, Nat.add_zero] at hadd
    rw [hre, hadd]
    rw [hnex] at hva
    zify
    push_cast at hva
    rw [Digits.value, Digits.value]
    linarith

end

end V8Multithread.Bigint
