import Mathlib

/-! Numbers in memory.

A memory has a digit of some base at every address, and a vector of digits is a range of addresses with
the least significant digit first. A loop that goes through a vector, writes a digit in each round and
keeps a carry is a sweep. What a sweep computes follows from one equation between what a round writes
and what it carries. -/
namespace V8Multithread.Base.Limbs

abbrev Memory (b : Nat) := Nat → Fin b

variable {b : Nat}

/-! ### Values -/

/-- The number that the `n` digits from `s` on stand for. -/
def value (m : Memory b) (s : Nat) : Nat → Nat
  | 0 => 0
  | n + 1 => value m s n + b ^ n * m (s + n)

section
variable (m : Memory b)

@[simp] theorem value_zero (s : Nat) : value m s 0 = 0 := rfl

theorem value_succ (s n : Nat) : value m s (n + 1) = value m s n + b ^ n * m (s + n) := rfl

theorem value_one (s : Nat) : value m s 1 = m s := by
  simp [value]

theorem value_add (s k n : Nat) : value m s (k + n) = value m s k + b ^ k * value m (s + k) n := by
  induction n with
  | zero => simp
  | succ n ih =>
    rw [← add_assoc, value_succ, value_succ, ih, pow_add, add_assoc s k n]
    ring

theorem value_succ' (s n : Nat) : value m s (n + 1) = m s + b * value m (s + 1) n := by
  rw [add_comm n 1, value_add, value_one, pow_one]

theorem value_lt (s n : Nat) : value m s n < b ^ n := by
  induction n with
  | zero => simp
  | succ n ih =>
    have hdi : (m (s + n) : Nat) + 1 ≤ b := (m (s + n)).isLt
    calc value m s n + b ^ n * m (s + n) < b ^ n + b ^ n * m (s + n) := by omega
      _ = b ^ n * (m (s + n) + 1) := by ring
      _ ≤ b ^ n * b := Nat.mul_le_mul_left _ hdi
      _ = b ^ (n + 1) := (pow_succ b n).symm

end

variable {m : Memory b} {s n : Nat}

theorem value_congr {m' : Memory b} {s' : Nat} (h : ∀ i < n, m' (s' + i) = m (s + i)) : value m' s' n = value m s n := by
  induction n with
  | zero => rfl
  | succ n ih => rw [value_succ, value_succ, ih fun i hi => h i (by omega), h n (by omega)]

theorem value_eq_zero (h : ∀ i < n, (m (s + i) : Nat) = 0) : value m s n = 0 := by
  induction n with
  | zero => rfl
  | succ n ih => rw [value_succ, ih fun i hi => h i (by omega), h n (by omega), Nat.mul_zero]

theorem eq_zero_of_value (hb : 0 < b) (h : value m s n = 0) {i : Nat} (hi : i < n) : (m (s + i) : Nat) = 0 := by
  induction n with
  | zero => omega
  | succ n ih =>
    rw [value_succ, Nat.add_eq_zero_iff, Nat.mul_eq_zero] at h
    rcases Nat.lt_succ_iff_lt_or_eq.mp hi with hlt | heq
    · exact ih h.1 hlt
    · rw [heq]
      exact h.2.resolve_left (Nat.pow_pos hb).ne'

/-- A number that the low digits have room for has no others. -/
theorem high_eq_zero {k : Nat} (hlt : value m s (k + n) < b ^ k) :
    value m (s + k) n = 0 ∧ value m s (k + n) = value m s k := by
  have hzero : value m (s + k) n = 0 := by
    by_contra hne
    have hle := Nat.mul_le_mul_left (b ^ k) (Nat.one_le_iff_ne_zero.mpr hne)
    rw [value_add] at hlt
    omega
  exact ⟨hzero, by rw [value_add, hzero, mul_zero, add_zero]⟩

theorem value_eq_sum (m : Memory b) (s n : Nat) :
    (value m s n : ℤ) = ∑ i ∈ Finset.range n, (m (s + i) : ℤ) * (b : ℤ) ^ i := by
  induction n with
  | zero => simp
  | succ n ih =>
    rw [Finset.sum_range_succ, ← ih, value_succ]
    push_cast
    ring

/-- Nothing is carried out of a sum that fits. -/
theorem carry_eq_zero {v c s p : ℤ} (h : v + p * c = s) (hv : 0 ≤ v) (hvp : v < p) (hs : 0 ≤ s) (hsp : s < p) :
    c = 0 ∧ v = s := by
  have hc : c = 0 := by
    by_contra hne
    rcases Int.lt_or_gt_of_ne hne with hneg | hpos
    · nlinarith
    · nlinarith
  rw [hc, mul_zero, add_zero] at h
  exact ⟨hc, h⟩

/-! ### Products -/

section
open Polynomial

/-- The digits of a vector as the coefficients of a polynomial. -/
noncomputable def poly (m : Memory b) (s n : Nat) : ℤ[X] := ∑ j ∈ Finset.range n, monomial j (m (s + j) : ℤ)

theorem poly_eval (m : Memory b) (s n : Nat) : (poly m s n).eval (b : ℤ) = value m s n := by
  rw [poly, eval_finsetSum, value_eq_sum]
  exact Finset.sum_congr rfl fun j _ => eval_monomial

theorem poly_coeff (m : Memory b) (s n j : Nat) : (poly m s n).coeff j = if j < n then (m (s + j) : ℤ) else 0 := by
  rw [poly, finsetSum_coeff]
  simp only [coeff_monomial, Finset.sum_ite_eq', Finset.mem_range]

theorem poly_natDegree_le (m : Memory b) (s n : Nat) : (poly m s n).natDegree ≤ n - 1 := by
  refine natDegree_sum_le_of_forall_le _ _ fun j hj => ?_
  have hlt := Finset.mem_range.mp hj
  exact (natDegree_monomial_le _).trans (by omega)

end

/-- Column `i` of a product: the products of digits whose places add up to `i`. -/
def column (m : Memory b) (s n s' l i : Nat) : ℤ :=
  ∑ j ∈ Finset.range (i + 1), (if j < n then (m (s + j) : ℤ) else 0) * if i - j < l then (m (s' + (i - j)) : ℤ) else 0

/-- A product is the sum of its columns. -/
theorem sum_column (m : Memory b) {s' l : Nat} (hn : 0 < n) (hl : 0 < l) :
    ∑ i ∈ Finset.range (n + l - 1), column m s n s' l i * (b : ℤ) ^ i = value m s n * value m s' l := by
  have hde : (poly m s n * poly m s' l).natDegree < n + l - 1 := by
    have hmul := @Polynomial.natDegree_mul_le ℤ _ (poly m s n) (poly m s' l)
    have hlef := poly_natDegree_le m s n
    have hri := poly_natDegree_le m s' l
    omega
  rw [← poly_eval, ← poly_eval, ← Polynomial.eval_mul, Polynomial.eval_eq_sum_range' hde]
  refine Finset.sum_congr rfl fun i _ => ?_
  rw [Polynomial.coeff_mul, Finset.Nat.sum_antidiagonal_eq_sum_range_succ_mk, column]
  congr 1
  exact Finset.sum_congr rfl fun j _ => by rw [poly_coeff, poly_coeff]

/-- The products of a column that can be other than zero are those with both digits there. -/
theorem column_eq (m : Memory b) {s' l i lo count : Nat} (hin : ∀ j, lo ≤ j → j < lo + count → j < n ∧ j ≤ i ∧ i - j < l)
    (hout : ∀ j ≤ i, j < lo ∨ lo + count ≤ j → n ≤ j ∨ l ≤ i - j) :
    column m s n s' l i = ∑ k ∈ Finset.range count, (m (s + (lo + k)) : ℤ) * m (s' + (i - (lo + k))) := by
  have hsu : Finset.Ico lo (lo + count) ⊆ Finset.range (i + 1) := by
    intro j hj
    rw [Finset.mem_Ico] at hj
    exact Finset.mem_range.mpr (Nat.lt_succ_of_le (hin j hj.1 hj.2).2.1)
  rw [column, ← Finset.sum_subset hsu]
  · rw [Finset.sum_Ico_eq_sum_range, Nat.add_sub_cancel_left]
    refine Finset.sum_congr rfl fun k hk => ?_
    have hlt := Finset.mem_range.mp hk
    obtain ⟨hn, -, hl⟩ := hin (lo + k) (by omega) (by omega)
    rw [if_pos hn, if_pos hl]
  · intro j hj hnot
    have hle := Nat.lt_succ_iff.mp (Finset.mem_range.mp hj)
    rw [Finset.mem_Ico] at hnot
    rcases hout j hle (by omega) with hn | hl
    · rw [if_neg (by omega), zero_mul]
    · rw [if_neg (show ¬i - j < l by omega), mul_zero]

/-! ### What a program changes -/

/-- Every address at which the memories differ is one of these. -/
def Changes (at' : Nat → Prop) (m m' : Memory b) : Prop := ∀ a, ¬at' a → m' a = m a

/-- An address of the `n` digits from `s` on. -/
def Within (s n a : Nat) : Prop := s ≤ a ∧ a < s + n

namespace Changes
variable {at' at'' : Nat → Prop} {m m' m'' : Memory b}

theorem refl (at' : Nat → Prop) (m : Memory b) : Changes at' m m := fun _ _ => rfl

theorem trans (h : Changes at' m m') (h' : Changes at' m' m'') : Changes at' m m'' :=
  fun a ha => (h' a ha).trans (h a ha)

theorem mono (h : Changes at' m m') (hle : ∀ a, at' a → at'' a) : Changes at'' m m' :=
  fun a ha => h a fun hat => ha (hle a hat)

theorem update {a : Nat} (ha : at' a) (m : Memory b) (d : Fin b) : Changes at' m (Function.update m a d) := by
  intro a' ha'
  refine Function.update_of_ne ?_ _ _
  intro heq
  rw [heq] at ha'
  exact ha' ha

/-- A number is not changed where nothing is. -/
theorem value (h : Changes at' m m') (hout : ∀ a, s ≤ a → a < s + n → ¬at' a) : value m' s n = value m s n :=
  value_congr fun i hi => h (s + i) (hout (s + i) (by omega) (by omega))

end Changes

theorem value_update (m : Memory b) (s n : Nat) (d : Fin b) :
    value (Function.update m (s + n) d) s (n + 1) = value m s n + b ^ n * d := by
  have hl : value (Function.update m (s + n) d) s n = value m s n := by
    refine value_congr fun i hi => ?_
    exact Function.update_of_ne (by omega) _ _
  rw [value_succ, Function.update_self, hl]

/-! ### Sweeps -/

section
variable {κ : Type} (z : Nat) (digit : Memory b → Nat → κ → Fin b × κ)

/-- Rounds `lo`, `lo + 1`, … of a loop, `count` of them: round `i` writes the digit at `z + i`. -/
def sweep (lo : Nat) : (count : Nat) → Memory b × κ → Memory b × κ
  | 0, state => state
  | count + 1, state =>
    let (m, c) := sweep lo count state
    let (d, c') := digit m (lo + count) c
    (Function.update m (z + (lo + count)) d, c')

/-- The same, up to the first round for which a condition on the carry fails. -/
def sweepWhile (go : κ → Bool) (lo : Nat) : (count : Nat) → Memory b × κ → Memory b × κ
  | 0, state => state
  | count + 1, (m, c) =>
    if go c then
      let (d, c') := digit m lo c
      sweepWhile go (lo + 1) count (Function.update m (z + lo) d, c')
    else (m, c)

end

section
variable {κ : Type} {z : Nat} {digit : Memory b → Nat → κ → Fin b × κ}

theorem sweep_changes (lo count : Nat) (state : Memory b × κ) :
    Changes (Within (z + lo) count) state.1 (sweep z digit lo count state).1 := by
  induction count with
  | zero => exact .refl _ _
  | succ count ih =>
    exact (ih.mono fun a ha => ⟨ha.1, by have := ha.2; omega⟩).trans (.update ⟨by omega, by omega⟩ _ _)

/-- What holds after the rounds below `i` of loops that write at `z`: the memory is the first one but for
what was written, and that is, with the carry, the total so far. -/
def Swept (z : Nat) (m₀ : Memory b) (P : κ → Prop) (w : κ → ℤ) (total : Nat → ℤ) (i : Nat) (s : Memory b × κ) : Prop :=
  Changes (Within z i) m₀ s.1 ∧ P s.2 ∧ (value s.1 z i : ℤ) + b ^ i * w s.2 = total i

namespace Swept
variable {m₀ : Memory b} {P : κ → Prop} {w : κ → ℤ} {total : Nat → ℤ} {lo count i : Nat} {s : Memory b × κ}

theorem start {c : κ} (hc : P c) (hto : total 0 = w c) : Swept z m₀ P w total 0 (m₀, c) :=
  ⟨.refl _ _, hc, by simp [hto]⟩

/-- One round. -/
theorem write (h : Swept z m₀ P w total i s) {d : Fin b} {c : κ} (hc : P c) (term : ℤ)
    (hdi : (d : ℤ) + b * w c = term + w s.2) (hto : total (i + 1) = total i + b ^ i * term) :
    Swept z m₀ P w total (i + 1) (Function.update s.1 (z + i) d, c) := by
  obtain ⟨hch, -, hva⟩ := h
  refine ⟨?_, hc, ?_⟩
  · exact (hch.mono fun a ha => ⟨ha.1, by have := ha.2; omega⟩).trans (.update ⟨by omega, by omega⟩ _ _)
  · dsimp only
    rw [value_update, hto]
    push_cast
    rw [pow_succ]
    linear_combination hva + (b : ℤ) ^ i * hdi

/-- If each round writes and carries on what it finds and was carried, so does the loop. -/
theorem sweep (h : Swept z m₀ P w total lo s) (digit : Memory b → Nat → κ → Fin b × κ) (count : Nat) (term : Nat → ℤ)
    (hround : ∀ i m c, lo ≤ i → i < lo + count → Changes (Within z i) m₀ m → P c →
      P (digit m i c).2 ∧ ((digit m i c).1 : ℤ) + b * w (digit m i c).2 = term i + w c ∧
        total (i + 1) = total i + b ^ i * term i) :
    Swept z m₀ P w total (lo + count) (sweep z digit lo count s) := by
  induction count with
  | zero => exact h
  | succ count ih =>
    have hsw := ih fun i m c hlo hlt => hround i m c hlo (by omega)
    obtain ⟨hc, hdi, hto⟩ := hround (lo + count) _ _ (by omega) (by omega) hsw.1 hsw.2.1
    exact hsw.write hc _ hdi hto

end Swept

theorem sweep_succ_front (lo count : Nat) (m : Memory b) (c : κ) : sweep z digit lo (count + 1) (m, c) =
      sweep z digit (lo + 1) count (Function.update m (z + lo) (digit m lo c).1, (digit m lo c).2) := by
  induction count with
  | zero => rfl
  | succ count ih =>
    rw [sweep, ih, sweep, show lo + (count + 1) = lo + 1 + count by omega]

/-- Stopping early is the same as going on, where the rounds left out change nothing. -/
theorem sweepWhile_eq {go : κ → Bool} (hst : ∀ m i c, go c = false → digit m i c = (m (z + i), c)) (lo count : Nat)
    (m : Memory b) (c : κ) : sweepWhile z digit go lo count (m, c) = sweep z digit lo count (m, c) := by
  induction count generalizing lo m c with
  | zero => rfl
  | succ count ih =>
    rw [sweepWhile, sweep_succ_front]
    split
    · exact ih (lo + 1) _ _
    · next hgo =>
      rw [Bool.not_eq_true] at hgo
      have hidl : ∀ n, sweep z digit (lo + 1) n (m, c) = (m, c) := by
        intro n
        induction n with
        | zero => rfl
        | succ n ihn =>
          rw [sweep, ihn]
          dsimp only
          rw [hst _ _ _ hgo, Function.update_eq_self]
      rw [hst _ _ _ hgo, Function.update_eq_self, hidl]

end

end V8Multithread.Base.Limbs
