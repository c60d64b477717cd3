import V8Multithread.Base.Limbs

/-! Digits, vectors of digits, and the arithmetic on them.

A vector is a range of addresses of one memory, so that vectors may overlap, as the code's do. A function
that would stop at one of the code's own checks has no result. Lengths are numbers without a bound; none
that the library is used with is near to that of its type. -/
namespace V8Multithread.Bigint
open Nat Base.Limbs

/-- The size of a digit is that of a register. -/
inductive Target where
  | bits32
  | bits64
  deriving DecidableEq, Repr

namespace Target

def kLog2DigitBits : Target → Nat
  | bits32 => 5
  | bits64 => 6

def kDigitBits (t : Target) : Nat := 1 <<< t.kLog2DigitBits

def base (t : Target) : Nat := 2 ^ t.kDigitBits

theorem kDigitBits_ge (t : Target) : 32 ≤ t.kDigitBits := by
  cases t <;> decide

theorem base_pos (t : Target) : 0 < t.base := Nat.two_pow_pos _

theorem base_ge (t : Target) : 2 ^ 32 ≤ t.base := Nat.pow_le_pow_right (by decide) t.kDigitBits_ge

end Target

abbrev Digit (t : Target) := Fin t.base

instance (t : Target) : NeZero t.base := ⟨t.base_pos.ne'⟩

variable {t : Target}

/-- `static_cast<digit_t>`. -/
def toDigit (t : Target) (x : Nat) : Digit t := ⟨x % t.base, mod_lt x t.base_pos⟩

@[simp] theorem toDigit_val (x : Nat) : (toDigit t x : Nat) = x % t.base := rfl

variable {x : Nat} {a : Digit t}

theorem toDigit_of_lt (h : x < t.base) : (toDigit t x : Nat) = x := mod_eq_of_lt h

theorem digit_one (t : Target) : ((1 : Digit t) : Nat) = 1 := by
  have hba := t.base_ge
  rw [Fin.val_one', mod_eq_of_lt (by omega)]

theorem digit_add_of_lt {b : Digit t} (h : (a : Nat) + b < t.base) : ((a + b : Digit t) : Nat) = a + b := by
  rw [Fin.val_add, mod_eq_of_lt h]

theorem digit_sub_one (h : 0 < (a : Nat)) : ((a - 1 : Digit t) : Nat) = a - 1 := by
  have hle : (1 : Digit t) ≤ a := by
    rw [Fin.le_def, digit_one]
    omega
  rw [Fin.sub_val_of_le hle, digit_one]

theorem digit_add_modEq (a b : Digit t) : ((a + b : Digit t) : ℤ) ≡ a + b [ZMOD t.base] := by
  rw [Fin.val_add]
  push_cast
  exact Int.mod_modEq _ _

theorem digit_mul_modEq (a b : Digit t) : ((a * b : Digit t) : ℤ) ≡ a * b [ZMOD t.base] := by
  rw [Fin.val_mul]
  push_cast
  exact Int.mod_modEq _ _

theorem digit_sub_modEq (a b : Digit t) : ((a - b : Digit t) : ℤ) ≡ a - b [ZMOD t.base] := by
  have hle := b.isLt.le
  rw [Fin.sub_def]
  push_cast [hle]
  refine (Int.mod_modEq _ _).trans ?_
  exact Int.modEq_iff_dvd.mpr ⟨-1, by ring⟩

theorem digit_eq_of_modEq {x : Digit t} {y : ℤ} (h : (x : ℤ) ≡ y [ZMOD t.base]) (hlow : 0 ≤ y) (hh : y < t.base) :
    (x : ℤ) = y := by
  rw [Int.ModEq, Int.emod_eq_of_lt (by omega) (by omega), Int.emod_eq_of_lt hlow hh] at h
  exact h

/-! ### Arithmetic on digits

Each of the functions returns the digit and what does not fit in it. -/

/-- A `twodigit_t`. -/
def twodigit (t : Target) (x : Int) : Nat := (x % (2 ^ (2 * t.kDigitBits) : Nat)).toNat

def digitAdd2 (a b : Digit t) : Digit t × Digit t :=
  let result := twodigit t (a + b)
  (toDigit t result, toDigit t (result >>> t.kDigitBits))

def digitAdd3 (a b c : Digit t) : Digit t × Digit t :=
  let result := twodigit t (a + b + c)
  (toDigit t result, toDigit t (result >>> t.kDigitBits))

def digitSub (a b : Digit t) : Digit t × Digit t :=
  let result := twodigit t (a - b)
  (toDigit t result, toDigit t ((result >>> t.kDigitBits) &&& 1))

def digitSub2 (a b borrowIn : Digit t) : Digit t × Digit t :=
  let subtrahend := twodigit t (b + borrowIn)
  let result := twodigit t (a - subtrahend)
  (toDigit t result, toDigit t ((result >>> t.kDigitBits) &&& 1))

def digitMul (a b : Digit t) : Digit t × Digit t :=
  let result := twodigit t (a * b)
  (toDigit t result, toDigit t (result >>> t.kDigitBits))

theorem base_sq (t : Target) : 2 ^ (2 * t.kDigitBits) = t.base * t.base := by
  rw [two_mul, pow_add]
  rfl

theorem twodigit_of_lt (h : x < t.base * t.base) : twodigit t x = x := by
  rw [twodigit, base_sq, Int.emod_eq_of_lt (by omega) (by exact_mod_cast h), Int.toNat_natCast]

/-- The two halves of a number of two digits. -/
theorem halves (t : Target) (h : x < t.base * t.base) :
    (toDigit t x : Nat) + t.base * (toDigit t (x >>> t.kDigitBits) : Nat) = x := by
  have hshift : x >>> t.kDigitBits = x / t.base := shiftRight_eq_div_pow x t.kDigitBits
  rw [toDigit_val, hshift, toDigit_of_lt (Nat.div_lt_of_lt_mul h)]
  exact mod_add_div x t.base

theorem digitAdd3_eq (a b c : Digit t) :
    ((digitAdd3 a b c).1 : Nat) + t.base * ((digitAdd3 a b c).2 : Nat) = a + b + c := by
  have hlt : (a + b + c : Nat) < t.base * t.base := by
    have := t.base_ge
    nlinarith [a.isLt, b.isLt, c.isLt]
  have htwo : twodigit t ((a : Int) + b + c) = (a + b + c : Nat) := twodigit_of_lt (by exact_mod_cast hlt)
  rw [digitAdd3, htwo]
  exact halves t hlt

theorem digitAdd2_eq (a b : Digit t) : ((digitAdd2 a b).1 : Nat) + t.base * ((digitAdd2 a b).2 : Nat) = a + b := by
  have hlt : (a + b : Nat) < t.base * t.base := by
    have := t.base_ge
    nlinarith [a.isLt, b.isLt]
  have htwo : twodigit t ((a : Int) + b) = (a + b : Nat) := twodigit_of_lt (by exact_mod_cast hlt)
  rw [digitAdd2, htwo]
  exact halves t hlt

theorem digitMul_eq (a b : Digit t) : ((digitMul a b).1 : Nat) + t.base * ((digitMul a b).2 : Nat) = a * b := by
  have hlt : (a * b : Nat) < t.base * t.base := Nat.mul_lt_mul_of_lt_of_lt a.isLt b.isLt
  have htwo : twodigit t ((a : Int) * b) = (a * b : Nat) := by
    rw [← cast_mul]
    exact twodigit_of_lt hlt
  rw [digitMul, htwo]
  exact halves t hlt

theorem two_dvd_base (t : Target) : t.base % 2 = 0 := by
  cases t <;> rfl

/-- A difference wraps around, and the bit above the digit is the borrow. -/
theorem wrapped {x : Int} (hlow : -(t.base : Int) ≤ x) (hh : x < t.base) :
    (toDigit t (twodigit t x) : Int) = x + t.base * (toDigit t ((twodigit t x >>> t.kDigitBits) &&& 1) : Int) ∧
      (toDigit t ((twodigit t x >>> t.kDigitBits) &&& 1) : Nat) ≤ 1 := by
  have hev := two_dvd_base t
  have hshift : twodigit t x >>> t.kDigitBits = twodigit t x / t.base := shiftRight_eq_div_pow _ _
  have hone : ((twodigit t x / t.base) % 2) < t.base := by omega
  rw [hshift, and_one_is_mod, toDigit_of_lt hone, toDigit_val]
  by_cases hneg : 0 ≤ x
  · obtain ⟨n, rfl⟩ := Int.eq_ofNat_of_zero_le hneg
    have hn : n < t.base := by exact_mod_cast hh
    rw [twodigit_of_lt (by nlinarith), mod_eq_of_lt hn, div_eq_of_lt hn]
    simp
  · obtain ⟨n, hn⟩ := Int.eq_ofNat_of_zero_le (show 0 ≤ x + t.base by omega)
    have hlt : n < t.base := by omega
    have htwo : twodigit t x = t.base * (t.base - 1) + n := by
      have hwr : x % ((2 ^ (2 * t.kDigitBits) : Nat) : Int) = (t.base * (t.base - 1) + n : Nat) := by
        rw [base_sq, ← Int.add_emod_right, Int.emod_eq_of_lt]
        · rw [Nat.mul_sub, Nat.mul_one]
          have : t.base ≤ t.base * t.base := Nat.le_mul_self _
          omega
        · push_cast
          nlinarith
        · omega
      rw [twodigit, hwr, Int.toNat_natCast]
    rw [htwo, mul_add_mod, mod_eq_of_lt hlt, mul_add_div t.base_pos, div_eq_of_lt hlt]
    have hodd : (t.base - 1 + 0) % 2 = 1 := by omega
    rw [hodd]
    omega

theorem digitSub_eq (a b : Digit t) :
    ((digitSub a b).1 : Int) = a - b + t.base * ((digitSub a b).2 : Int) ∧ ((digitSub a b).2 : Nat) ≤ 1 := by
  exact wrapped (by omega) (by omega)

theorem digitSub2_eq (a b borrowIn : Digit t) (h : (borrowIn : Nat) ≤ 1) :
    ((digitSub2 a b borrowIn).1 : Int) = a - b - borrowIn + t.base * ((digitSub2 a b borrowIn).2 : Int) ∧
      ((digitSub2 a b borrowIn).2 : Nat) ≤ 1 := by
  have hb := b.isLt
  have hsub : twodigit t ((b : Int) + borrowIn) = (b + borrowIn : Nat) := by
    have hba := t.base_ge
    exact twodigit_of_lt (by nlinarith)
  rw [digitSub2, hsub]
  have hwr := @wrapped t ((a : Int) - (b + borrowIn : Nat)) (by omega) (by omega)
  refine ⟨?_, hwr.2⟩
  rw [hwr.1]
  push_cast
  ring

theorem digitAdd3_le (a b c : Digit t) (h : (c : Nat) ≤ 1) : ((digitAdd3 a b c).2 : Nat) ≤ 1 := by
  have heq := digitAdd3_eq a b c
  have ha := a.isLt
  have hb := b.isLt
  by_contra hlt
  nlinarith

theorem digitAdd2_le (a b : Digit t) : ((digitAdd2 a b).2 : Nat) ≤ 1 := by
  have heq := digitAdd2_eq a b
  have ha := a.isLt
  have hb := b.isLt
  by_contra hlt
  nlinarith

/-! ### Vectors -/

abbrev Memory (t : Target) := Base.Limbs.Memory t.base

/-- `Digits` and `RWDigits`. -/
structure Digits where
  start : Nat
  len : Nat
  deriving DecidableEq, Repr

namespace Digits

/-- `Digits(src, offset, len)`. -/
def slice (X : Digits) (offset len : Nat) : Digits := ⟨X.start + offset, min len (X.len - offset)⟩

/-- `operator+`. -/
def drop (X : Digits) (i : Nat) : Digits := ⟨X.start + i, X.len - i⟩

/-- `operator[]`. -/
def get (X : Digits) (m : Memory t) (i : Nat) : Digit t := m (X.start + i)

def msd (X : Digits) (m : Memory t) : Digit t := X.get m (X.len - 1)

/-- `Z[i] = d`. -/
def set (Z : Digits) (m : Memory t) (i : Nat) (d : Digit t) : Memory t := Function.update m (Z.start + i) d

/-- `for (; i < Z.len(); i++) Z[i] = 0`. -/
def clearFrom (Z : Digits) (i : Nat) (m : Memory t) : Memory t :=
  (sweep Z.start (fun _ _ c => ((0 : Digit t), c)) i (Z.len - i) (m, ())).1

def clear (Z : Digits) (m : Memory t) : Memory t := Z.clearFrom 0 m

def normalizedLen (m : Memory t) (start : Nat) : Nat → Nat
  | 0 => 0
  | len + 1 => if (m (start + len) : Nat) = 0 then normalizedLen m start len else len + 1

def normalize (X : Digits) (m : Memory t) : Digits := ⟨X.start, normalizedLen m X.start X.len⟩

def value (X : Digits) (m : Memory t) : Nat := Base.Limbs.value m X.start X.len

/-- The number that the low `i` digits of a vector stand for. -/
def low (X : Digits) (m : Memory t) (i : Nat) : Nat := Base.Limbs.value m X.start (min i X.len)

def Has (X : Digits) (a : Nat) : Prop := Within X.start X.len a

def Apart (X Y : Digits) : Prop := X.len = 0 ∨ Y.len = 0 ∨ X.start + X.len ≤ Y.start ∨ Y.start + Y.len ≤ X.start

/-- A loop that writes to `Z` from its first digit on does not reach a digit of `X` before it has read it. -/
def Ahead (X Z : Digits) : Prop := X.len = 0 ∨ Z.start ≤ X.start ∨ X.start + X.len ≤ Z.start

end Digits

/-- `ScratchDigits`: the memory from `free` on is in use by no one. -/
def scratchDigits (free len : Nat) : Digits := ⟨free, len⟩

/-- The code's own checks. -/
def dcheck (condition : Prop) [Decidable condition] : Option Unit := if condition then some () else none

theorem dcheck_pos {condition : Prop} [Decidable condition] (h : condition) : dcheck condition = some () :=
  if_pos h

/-- A run goes on with what its first part returns. -/
theorem run_bind {α β : Type*} {x : Option α} {f : α → Option β} {a : α} {b : β} (hx : x = some a) (hf : f a = some b) :
    x.bind f = some b :=
  Option.bind_eq_some_iff.mpr ⟨a, hx, hf⟩

def isDigitNormalized (X : Digits) (m : Memory t) : Bool := X.len = 0 || (X.msd m : Nat) ≠ 0

/-- The digits below `i`, from the most significant one on. -/
def compareDigits (A B : Digits) (m : Memory t) : (i : Nat) → Int
  | 0 => 0
  | i + 1 => if A.get m i = B.get m i then compareDigits A B m i else if B.get m i < A.get m i then 1 else -1

def compareNoNormalize (A B : Digits) (m : Memory t) : Int :=
  let diff : Int := A.len - B.len
  if diff ≠ 0 then diff else compareDigits A B m A.len

def compare (A B : Digits) (m : Memory t) : Int := compareNoNormalize (A.normalize m) (B.normalize m) m

def greaterThanOrEqual (A B : Digits) (m : Memory t) : Bool := 0 ≤ compare A B m

namespace Digits
variable {X Y Z : Digits} {m m' : Memory t} {i : Nat}

section
variable (X m)

@[simp] theorem slice_start (offset len : Nat) : (X.slice offset len).start = X.start + offset := rfl
@[simp] theorem slice_len (offset len : Nat) : (X.slice offset len).len = min len (X.len - offset) := rfl
@[simp] theorem drop_start (i : Nat) : (X.drop i).start = X.start + i := rfl
@[simp] theorem drop_len (i : Nat) : (X.drop i).len = X.len - i := rfl
@[simp] theorem normalize_start : (X.normalize m).start = X.start := rfl

theorem value_lt : X.value m < t.base ^ X.len := Base.Limbs.value_lt _ _ _

@[simp] theorem low_zero : X.low m 0 = 0 := by
  simp [low]

theorem low_succ (h : i < X.len) : X.low m (i + 1) = X.low m i + t.base ^ i * X.get m i := by
  rw [low, low, min_eq_left h, min_eq_left (by omega)]
  rfl

theorem low_of_ge (h : X.len ≤ i) : X.low m i = X.value m := by
  rw [low, min_eq_right h]
  rfl

end

variable {at' : Nat → Prop} {a n len offset j k : Nat} {m₀ : Memory t}

/-- A vector is as it was where no digit of it was changed. -/
theorem value_of_changes (h : Changes at' m m') (hout : ∀ a, X.Has a → ¬at' a) : X.value m' = X.value m :=
  h.value fun a hlow hh => hout a ⟨hlow, hh⟩

theorem get_of_changes (h : Changes at' m m') (hi : i < X.len) (hout : ∀ a, X.Has a → ¬at' a) : X.get m' i = X.get m i :=
  h _ (hout _ ⟨by omega, by omega⟩)

/-- A digit that a loop has not reached is as it was. -/
theorem Ahead.get (h : X.Ahead Z) (hch : Changes (Within Z.start i) m m') (hi : i < X.len) :
    X.get m' i = X.get m i := by
  refine hch _ fun hwi => ?_
  unfold Ahead at h
  have := hwi.1
  have := hwi.2
  omega

theorem Apart.not_has (h : X.Apart Y) (ha : X.Has a) : ¬Y.Has a := by
  intro ha'
  unfold Apart at h
  have := ha.1
  have := ha.2
  have := ha'.1
  have := ha'.2
  omega

theorem Apart.symm (h : X.Apart Y) : Y.Apart X := by
  unfold Apart at *
  omega

theorem Apart.value (h : X.Apart Z) (hch : Changes Z.Has m m') : X.value m' = X.value m :=
  value_of_changes hch fun _ ha => h.not_has ha

/-- A digit is as it was, however far a loop that writes elsewhere has come. -/
theorem Apart.get (h : X.Apart Z) (hn : n ≤ Z.len) (hch : Changes (Within Z.start n) m m') (hi : i < X.len) :
    X.get m' i = X.get m i := by
  refine get_of_changes hch hi fun a ha hwi => h.not_has ha ⟨hwi.1, ?_⟩
  have := hwi.2
  omega

theorem Apart.ahead (h : X.Apart Z) (hlen : X.len ≤ Z.len) : X.Ahead Z := by
  unfold Apart at h
  unfold Ahead
  omega

theorem ahead_self (X : Digits) : X.Ahead X := .inr (.inl le_rfl)

/-! ### Parts of vectors -/

theorem slice_has (h : (X.slice offset len).Has a) : X.Has a := by
  simp only [Has, Within, slice_start, slice_len] at h ⊢
  omega

theorem drop_eq_slice (X : Digits) (i : Nat) : X.drop i = X.slice i X.len := by
  rw [drop, slice, min_eq_right (sub_le _ _)]

theorem drop_drop (X : Digits) (i j : Nat) : (X.drop i).drop j = X.drop (i + j) := by
  rw [drop, drop, drop, add_assoc, Nat.sub_sub]

theorem drop_has (h : (X.drop i).Has a) : X.Has a := by
  rw [drop_eq_slice] at h
  exact slice_has h

/-- Part of a vector is apart from whatever the vector is apart from. -/
theorem Apart.slice (h : X.Apart Z) (offset len : Nat) : (X.slice offset len).Apart Z := by
  unfold Apart at *
  rw [slice_start, slice_len]
  omega

theorem Apart.slices (h : X.Apart Z) (offset len offset' len' : Nat) :
    (X.slice offset len).Apart (Z.slice offset' len') := ((h.slice offset len).symm.slice offset' len').symm

theorem slice_apart {offset' : Nat} (h : offset + len ≤ offset') (len' : Nat) :
    (X.slice offset len).Apart (X.slice offset' len') := by
  unfold Apart
  simp only [slice_start, slice_len]
  omega

theorem slice_apart_drop (h : i ≤ j) : (X.slice 0 i).Apart (X.drop j) := by
  rw [drop_eq_slice]
  exact slice_apart (by omega) _

theorem Apart.drop (h : X.Apart Z) (i : Nat) : (X.drop i).Apart Z := by
  rw [drop_eq_slice]
  exact h.slice _ _

theorem Apart.ahead_drop (h : X.Apart Z) (hlen : 0 < Z.len) (hi : i ≤ Z.len) : X.Ahead (Z.drop i) := by
  unfold Apart at h
  unfold Ahead
  rw [drop_start]
  omega

section
variable (X m)

theorem low_lt (n : Nat) : X.low m n < t.base ^ min n X.len := Base.Limbs.value_lt _ _ _

/-- The low digits, and a part above them. -/
theorem low_add (i k : Nat) : X.low m (i + k) = X.low m i + t.base ^ i * (X.slice i k).value m := by
  rw [low, low, value, slice_start, slice_len]
  rcases le_total i X.len with hle | hle
  · rw [show min (i + k) X.len = i + min k (X.len - i) by omega, value_add, min_eq_left hle]
  · rw [show min (i + k) X.len = min i X.len by omega, show min k (X.len - i) = 0 by omega, value_zero, mul_zero,
      add_zero]

theorem value_slice_zero (n : Nat) : (X.slice 0 n).value m = X.low m n := by
  rfl

theorem value_drop_of_ge (h : X.len ≤ i) : (X.drop i).value m = 0 := by
  rw [value, drop_len, Nat.sub_eq_zero_of_le h, value_zero]

theorem value_slice_add (i : Nat) : X.value m = (X.slice 0 i).value m + t.base ^ i * (X.drop i).value m := by
  rw [drop_eq_slice, value_slice_zero, ← low_add, X.low_of_ge m (by omega)]

theorem low_eq_mod (i : Nat) : X.low m i = X.value m % t.base ^ i := by
  rw [X.value_slice_add m i, value_slice_zero, add_mul_mod_self_left, mod_eq_of_lt]
  exact (X.low_lt m i).trans_le (Nat.pow_le_pow_right t.base_pos (min_le_left _ _))

end

/-! ### Clearing -/

theorem clearFrom_changes (Z : Digits) (i : Nat) (m : Memory t) :
    Changes (Within (Z.start + i) (Z.len - i)) m (Z.clearFrom i m) :=
  sweep_changes i (Z.len - i) (m, ())

theorem clearFrom_get (h : i ≤ Z.len) (hj : i ≤ j) (hlt : j < Z.len) : (Z.get (Z.clearFrom i m) j : Nat) = 0 := by
  obtain ⟨n, hn⟩ : ∃ n, Z.len - i = n := ⟨_, rfl⟩
  rw [get, clearFrom, hn]
  have hjn : j < i + n := by omega
  clear hn h hlt
  induction n with
  | zero => omega
  | succ n ih =>
    rw [sweep]
    dsimp only
    by_cases hl : j = i + n
    · rw [hl, Function.update_self]
      rfl
    · rw [Function.update_of_ne (by omega)]
      exact ih (by omega)

/-- Clearing the digits from `i` on keeps the number that the digits below stand for. -/
theorem clearFrom_value (m : Memory t) (h : i ≤ Z.len) : Z.value (Z.clearFrom i m) = Base.Limbs.value m Z.start i := by
  have hlen : Z.len = i + (Z.len - i) := by omega
  have hh : Base.Limbs.value (Z.clearFrom i m) (Z.start + i) (Z.len - i) = 0 := by
    refine value_eq_zero fun j hj => ?_
    rw [add_assoc]
    exact clearFrom_get h (by omega) (by omega)
  have hlow : Base.Limbs.value (Z.clearFrom i m) Z.start i = Base.Limbs.value m Z.start i :=
    (clearFrom_changes Z i m).value fun a _ hlt hwi => by
      have := hwi.1
      omega
  rw [value, hlen, value_add, hh, hlow, mul_zero, add_zero]

theorem clearFrom_of_ge (m : Memory t) (h : Z.len ≤ i) : Z.clearFrom i m = m := by
  rw [clearFrom, Nat.sub_eq_zero_of_le h]
  rfl

/-- The end of a loop that has written the digits below `i`: one more digit, and zeros from there on. -/
theorem set_clearFrom (hch : Changes (Within Z.start i) m₀ m) (hlt : i < Z.len) (d : Digit t) :
    Changes Z.Has m₀ (Z.clearFrom (i + 1) (Z.set m i d)) ∧
      Z.value (Z.clearFrom (i + 1) (Z.set m i d)) = Base.Limbs.value m Z.start i + t.base ^ i * d := by
  constructor
  · refine (hch.mono ?_).trans (Changes.trans (.update ?_ m d) ((Z.clearFrom_changes (i + 1) _).mono ?_))
    · exact fun a ha => ⟨ha.1, by have := ha.2; omega⟩
    · exact ⟨by omega, by omega⟩
    · exact fun a ha => ⟨by have := ha.1; omega, by have := ha.2; omega⟩
  · rw [clearFrom_value _ hlt, set, value_update]

/-- The same without one more digit. -/
theorem clearFrom_after (hch : Changes (Within Z.start i) m₀ m) (hle : i ≤ Z.len) :
    Changes Z.Has m₀ (Z.clearFrom i m) ∧ Z.value (Z.clearFrom i m) = Base.Limbs.value m Z.start i := by
  refine ⟨(hch.mono ?_).trans ((Z.clearFrom_changes i m).mono ?_), clearFrom_value m hle⟩
  · exact fun a ha => ⟨ha.1, by have := ha.2; omega⟩
  · exact fun a ha => ⟨by have := ha.1; omega, by have := ha.2; omega⟩

/-! ### Normalization and comparison -/

theorem normalizedLen_le (m : Memory t) (start len : Nat) : normalizedLen m start len ≤ len := by
  induction len with
  | zero => exact le_rfl
  | succ len ih =>
    rw [normalizedLen]
    split <;> omega

section
variable (X m)

theorem normalize_len_le : (X.normalize m).len ≤ X.len := normalizedLen_le _ _ _

theorem normalize_value : (X.normalize m).value m = X.value m := by
  obtain ⟨start, len⟩ := X
  show Base.Limbs.value m start (normalizedLen m start len) = Base.Limbs.value m start len
  induction len with
  | zero => rfl
  | succ len ih =>
    rw [normalizedLen]
    split
    · next hzero => rw [ih, value_succ, hzero, mul_zero, add_zero]
    · rfl

theorem normalize_isDigitNormalized : isDigitNormalized (X.normalize m) m := by
  obtain ⟨start, len⟩ := X
  induction len with
  | zero => rfl
  | succ len ih =>
    rw [normalize, normalizedLen]
    split
    · exact ih
    · next hne => simpa [isDigitNormalized, msd, get] using hne

end

/-- The top digit of a normalized vector counts. -/
theorem value_ge_of_normalized (h : isDigitNormalized X m) (hpos : 0 < X.len) : t.base ^ (X.len - 1) ≤ X.value m := by
  have hlen : X.len = X.len - 1 + 1 := by omega
  have hmsd : (X.msd m : Nat) ≠ 0 := by
    have hne : X.len ≠ 0 := by omega
    simpa [isDigitNormalized, hne] using h
  rw [value, hlen, value_succ]
  have hdi : 1 ≤ (m (X.start + (X.len - 1)) : Nat) := one_le_iff_ne_zero.mpr hmsd
  calc t.base ^ (X.len - 1) = t.base ^ (X.len - 1) * 1 := (mul_one _).symm
    _ ≤ t.base ^ (X.len - 1) * m (X.start + (X.len - 1)) := Nat.mul_le_mul_left _ hdi
    _ ≤ _ := Nat.le_add_left _ _

/-- A normalized vector is as short as its number allows. -/
theorem len_le_of_value_lt (h : isDigitNormalized X m) (hlt : X.value m < t.base ^ k) : X.len ≤ k := by
  by_contra hlen
  have hge := value_ge_of_normalized h (by omega)
  have hpow : t.base ^ k ≤ t.base ^ (X.len - 1) := Nat.pow_le_pow_right t.base_pos (by omega)
  omega

theorem normalize_len_le_of_lt (h : X.value m < t.base ^ k) : (X.normalize m).len ≤ k :=
  len_le_of_value_lt (normalize_isDigitNormalized X m) (by rwa [normalize_value])

theorem normalize_len_eq_zero : (X.normalize m).len = 0 ↔ X.value m = 0 := by
  constructor
  · intro h
    have hlt := (X.normalize m).value_lt m
    rw [h, normalize_value, pow_zero] at hlt
    omega
  · intro h
    exact le_zero.mp (normalize_len_le_of_lt (by rw [h, pow_zero]; decide))

theorem Apart.normalize (h : X.Apart Z) : (X.normalize m).Apart Z := by
  have hle := X.normalize_len_le m
  unfold Apart at *
  rw [normalize_start]
  omega

theorem Ahead.normalize (h : X.Ahead Z) : (X.normalize m).Ahead Z := by
  have hle := X.normalize_len_le m
  unfold Ahead at *
  rw [normalize_start]
  omega

end Digits

section
variable {A B : Digits} {m : Memory t}

theorem compareDigits_nonneg (A B : Digits) (m : Memory t) (i : Nat) :
    0 ≤ compareDigits A B m i ↔ Base.Limbs.value m B.start i ≤ Base.Limbs.value m A.start i := by
  induction i with
  | zero => simp [compareDigits]
  | succ i ih =>
    have hA := Base.Limbs.value_lt m A.start i
    have hB := Base.Limbs.value_lt m B.start i
    -- The top digits decide unless they are the same: they weigh more than all that is below them.
    have htop : ∀ {a b x y p : Nat}, x < p → a < b → x + p * a < y + p * b := by
      intro a b x y p hx hab
      nlinarith [Nat.mul_le_mul_left p hab]
    rw [compareDigits, value_succ, value_succ]
    by_cases heq : A.get m i = B.get m i
    · have hdi : m (A.start + i) = m (B.start + i) := heq
      rw [if_pos heq, ih, hdi]
      omega
    · rw [if_neg heq]
      by_cases hlt : B.get m i < A.get m i
      · have := @htop _ _ _ (Base.Limbs.value m A.start i) _ hB (show (m (B.start + i) : Nat) < m (A.start + i) from hlt)
        simp only [if_pos hlt]
        omega
      · have hgt : (m (A.start + i) : Nat) < m (B.start + i) := by
          have hne : (m (A.start + i) : Nat) ≠ m (B.start + i) := fun h => heq (Fin.ext h)
          have : ¬(m (B.start + i) : Nat) < m (A.start + i) := hlt
          omega
        have := @htop _ _ _ (Base.Limbs.value m B.start i) _ hA hgt
        simp only [if_neg hlt]
        omega

theorem compareNoNormalize_nonneg (hA : isDigitNormalized A m) (hB : isDigitNormalized B m) :
    0 ≤ compareNoNormalize A B m ↔ B.value m ≤ A.value m := by
  have hpow : ∀ {X Y : Digits}, isDigitNormalized Y m → X.len < Y.len → X.value m < Y.value m := by
    intro X Y hY hlen
    calc X.value m < t.base ^ X.len := X.value_lt m
      _ ≤ t.base ^ (Y.len - 1) := Nat.pow_le_pow_right t.base_pos (by omega)
      _ ≤ Y.value m := Digits.value_ge_of_normalized hY (by omega)
  rw [compareNoNormalize]
  rcases Nat.lt_trichotomy A.len B.len with hlt | heq | hgt
  · have := hpow hB hlt
    rw [if_pos (by omega)]
    omega
  · rw [if_neg (by omega), compareDigits_nonneg, Digits.value, Digits.value, heq]
  · have := hpow hA hgt
    rw [if_pos (by omega)]
    omega

theorem greaterThanOrEqual_iff : greaterThanOrEqual A B m ↔ B.value m ≤ A.value m := by
  rw [greaterThanOrEqual, decide_eq_true_iff, compare, compareNoNormalize_nonneg (A.normalize_isDigitNormalized m)
    (B.normalize_isDigitNormalized m), A.normalize_value, B.normalize_value]

end

end V8Multithread.Bigint
