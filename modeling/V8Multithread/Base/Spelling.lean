import V8Multithread.Base.Limbs

/-! Numbers written digit by digit.

Where each digit of a result depends on the digits at its own place and on a state that is handed on, it
is simplest to say which digit of the result stands at each place. -/
namespace V8Multithread.Base.Limbs
open Nat

variable {b : Nat} {κ : Type}

/-- The digits from `z` on are the low digits of a number. -/
def Spells (m : Memory b) (z N i : Nat) : Prop := ∀ j < i, (m (z + j) : Nat) = N / b ^ j % b

theorem Spells.value {m : Memory b} {z N i : Nat} (h : Spells m z N i) : value m z i = N % b ^ i := by
  induction i with
  | zero => rw [value_zero, pow_zero, mod_one]
  | succ i ih => rw [value_succ, ih fun j hj => h j (by omega), h i (by omega), mod_pow_succ]

/-- A digit of a vector is that of its number. -/
theorem digit_eq (m : Memory b) (s : Nat) {n i : Nat} (hi : i < n) : (m (s + i) : Nat) = value m s n / b ^ i % b := by
  obtain ⟨k, hk⟩ : ∃ k, n = i + (1 + k) := ⟨n - (i + 1), by omega⟩
  have hpos : 0 < b := zero_lt_of_lt (m s).isLt
  rw [hk, value_add, value_add, value_one, add_mul_div_left _ _ (Nat.pow_pos hpos), div_eq_of_lt (value_lt _ _ _),
    Nat.zero_add, pow_one, add_mul_mod_self_left, mod_eq_of_lt (m (s + i)).isLt]

/-- There are no digits above those of a vector. -/
theorem digit_eq_zero (m : Memory b) (s : Nat) {n i : Nat} (hi : n ≤ i) : value m s n / b ^ i = 0 := by
  have hpos : 0 < b := zero_lt_of_lt (m s).isLt
  exact div_eq_of_lt (lt_of_lt_of_le (value_lt _ _ _) (Nat.pow_le_pow_right hpos hi))

/-- The low digits of a vector. -/
theorem value_mod (m : Memory b) (s : Nat) {n i : Nat} (hi : i ≤ n) : value m s n % b ^ i = value m s i := by
  obtain ⟨k, rfl⟩ := Nat.exists_eq_add_of_le hi
  rw [value_add, add_mul_mod_self_left, mod_eq_of_lt (value_lt _ _ _)]

/-- A loop has written the low digits of a number, and its state is one for the place at which it is. -/
structure Spelt (z : Nat) (m₀ : Memory b) (R : Nat → κ → Prop) (N i : Nat) (s : Memory b × κ) : Prop where
  changes : Changes (Within z i) m₀ s.1
  state : R i s.2
  digits : Spells s.1 z N i

namespace Spelt
variable {z N lo i : Nat} {m₀ : Memory b} {R : Nat → κ → Prop} {s : Memory b × κ}

theorem start {c : κ} (hc : R 0 c) : Spelt z m₀ R N 0 (m₀, c) := ⟨.refl _ _, hc, fun j hj => absurd hj (Nat.not_lt_zero j)⟩

/-- A round writes a digit. -/
theorem write (h : Spelt z m₀ R N i s) {d : Fin b} {c : κ} (hc : R (i + 1) c) (hd : (d : Nat) = N / b ^ i % b) :
    Spelt z m₀ R N (i + 1) (Function.update s.1 (z + i) d, c) := by
  refine ⟨?_, hc, fun j hj => ?_⟩
  · refine (h.changes.mono ?_).trans (.update ⟨by omega, by omega⟩ _ _)
    exact fun a ha => ⟨ha.1, by have := ha.2; omega⟩
  · dsimp only
    rcases Nat.lt_succ_iff_lt_or_eq.mp hj with hlt | heq
    · rw [Function.update_of_ne (by omega)]
      exact h.digits j hlt
    · rw [heq, Function.update_self]
      exact hd

/-- Rounds that each write the digit of their place. -/
theorem sweep (h : Spelt z m₀ R N lo s) (digit : Memory b → Nat → κ → Fin b × κ) (count : Nat)
    (hround : ∀ i m' c, lo ≤ i → i < lo + count → Changes (Within z i) m₀ m' → R i c →
      ((digit m' i c).1 : Nat) = N / b ^ i % b ∧ R (i + 1) (digit m' i c).2) :
    Spelt z m₀ R N (lo + count) (sweep z digit lo count s) := by
  induction count with
  | zero => exact h
  | succ count ih =>
    have hp := ih fun i m' c hlo hi => hround i m' c hlo (by omega)
    obtain ⟨hdi, hst⟩ := hround (lo + count) _ _ (by omega) (by omega) hp.changes hp.state
    exact hp.write hst hdi

end Spelt

/-! ### Digits of the results of some operations -/

/-- Bit operations work on each digit by itself. -/
theorem bitwise_digit {f : Bool → Bool → Bool} (hf : f false false = false) (w x y i : Nat) :
    Nat.bitwise f x y / (2 ^ w) ^ i % 2 ^ w = Nat.bitwise f (x / (2 ^ w) ^ i % 2 ^ w) (y / (2 ^ w) ^ i % 2 ^ w) := by
  refine eq_of_testBit_eq fun j => ?_
  rw [testBit_bitwise hf, ← pow_mul]
  simp only [testBit_mod_two_pow, testBit_div_two_pow, testBit_bitwise hf]
  by_cases hj : j < w
  · simp [hj]
  · simp [hj, hf]

theorem bitwise_div {f : Bool → Bool → Bool} (hf : f false false = false) (x y k : Nat) :
    Nat.bitwise f x y / 2 ^ k = Nat.bitwise f (x / 2 ^ k) (y / 2 ^ k) := by
  refine eq_of_testBit_eq fun j => ?_
  rw [testBit_bitwise hf, testBit_div_two_pow, testBit_div_two_pow, testBit_div_two_pow, testBit_bitwise hf]

/-- What is borrowed from place `i` on when one is subtracted. -/
def borrowAt (b x i : Nat) : Nat := if x % b ^ i = 0 then 1 else 0

theorem pred_div {c x : Nat} (hx : 0 < x) : (x - 1) / c = if x % c = 0 then x / c - 1 else x / c := by
  obtain ⟨y, rfl⟩ := Nat.exists_eq_add_of_lt hx
  rw [zero_add, Nat.add_sub_cancel, Nat.succ_div]
  simp only [dvd_iff_mod_eq_zero]
  generalize y / c = q
  split <;> omega

theorem pred_mod {c x : Nat} (hx : 0 < x) : (x - 1) % c = if x % c = 0 then c - 1 else x % c - 1 := by
  have hsp := div_add_mod x c
  have hs' := div_add_mod (x - 1) c
  rw [pred_div hx] at hs'
  split
  · next hzero =>
    have hle := le_of_dvd hx (dvd_of_mod_eq_zero hzero)
    rw [if_pos hzero, Nat.mul_sub_one] at hs'
    omega
  · next hne =>
    rw [if_neg hne] at hs'
    omega

/-- Subtracting one, digit by digit. -/
theorem pred_digit {b x : Nat} (hb : 0 < b) (hx : 0 < x) (i : Nat) :
    ((x - 1) / b ^ i % b : Nat) - (b : ℤ) * borrowAt b x (i + 1) = (x / b ^ i % b : Nat) - (borrowAt b x i : ℤ) := by
  have hpos : 0 < b ^ i := Nat.pow_pos hb
  rw [borrowAt, borrowAt, pred_div hx, mod_pow_succ]
  by_cases hzero : x % b ^ i = 0
  · have hq : 0 < x / b ^ i := Nat.pos_of_ne_zero fun hq => by
      have := div_add_mod x (b ^ i)
      rw [hq, hzero] at this
      omega
    rw [if_pos hzero, if_pos hzero, hzero, Nat.zero_add, pred_mod hq]
    by_cases hdi : x / b ^ i % b = 0
    · rw [if_pos hdi, if_pos (by rw [hdi, Nat.mul_zero]), hdi]
      push_cast [one_le_iff_ne_zero.mpr hb.ne']
      ring
    · have hne : ¬b ^ i * (x / b ^ i % b) = 0 := Nat.mul_ne_zero hpos.ne' hdi
      rw [if_neg hdi, if_neg hne]
      push_cast [one_le_iff_ne_zero.mpr hdi]
      ring
  · have hne : ¬x % b ^ i + b ^ i * (x / b ^ i % b) = 0 := fun h => hzero (Nat.add_eq_zero_iff.mp h).1
    rw [if_neg hzero, if_neg hzero, if_neg hne]
    simp

end V8Multithread.Base.Limbs
