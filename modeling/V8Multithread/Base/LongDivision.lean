import Mathlib

/-! The digits of a quotient.

A digit of the quotient is estimated from the top digits of dividend and divisor. The estimate comes from
a division of two digits by one, and that from a multiplication with a reciprocal of the divisor. -/
namespace V8Multithread.Base.LongDivision

/-! ### Two digits by one, with a reciprocal -/

section
variable {b d k v u₁ u₀ q₁ q₀ r : ℤ}

/-- The rest that the quotient `q₁ + 1` leaves, where `b + v` is the reciprocal of the divisor `d`. -/
theorem rest_eq (hv : (b + v) * d = b * b - k) (hq : q₁ * b + q₀ = (b + v) * u₁ + u₀)
    (hr : r = u₁ * b + u₀ - (q₁ + 1) * d) : b * r = d * q₀ + k * u₁ + u₀ * (b - d) - b * d := by
  linear_combination b * hr - d * hq - u₁ * hv

variable (hrest : b * r = d * q₀ + k * u₁ + u₀ * (b - d) - b * d) (hd : 0 < d) (hdb : d < b) (hu₁ : 0 ≤ u₁)
include hrest hd hdb hu₁

/-- It is not further below zero than one divisor. -/
theorem neg_le_rest (hk : 0 ≤ k) (hu₀ : 0 ≤ u₀) (hq₀ : 0 ≤ q₀) : -d ≤ r := by
  have hku : 0 ≤ k * u₁ := mul_nonneg hk hu₁
  have hud : 0 ≤ u₀ * (b - d) := mul_nonneg hu₀ (by omega)
  have hdq : 0 ≤ d * q₀ := mul_nonneg hd.le hq₀
  refine le_of_mul_le_mul_left ?_ (hd.trans hdb)
  linarith

theorem lt_rest (hk : 0 ≤ k) (hu₀ : 0 ≤ u₀) (hq₀b : q₀ < b) : q₀ - b < r := by
  have hku : 0 ≤ k * u₁ := mul_nonneg hk hu₁
  have hud : 0 ≤ u₀ * (b - d) := mul_nonneg hu₀ (by omega)
  have hgap : 0 < (b - d) * (b - q₀) := mul_pos (by omega) (by omega)
  refine lt_of_mul_lt_mul_left ?_ (hd.trans hdb).le
  linarith

theorem rest_lt (hkd : k ≤ d) (hu₁d : u₁ < d) (hu₀b : u₀ < b) : r < max (b - d) q₀ := by
  have hku : k * u₁ ≤ d * (d - 1) := mul_le_mul hkd (by omega) hu₁ hd.le
  have hud : u₀ * (b - d) ≤ (b - 1) * (b - d) := mul_le_mul_of_nonneg_right (by omega) (by omega)
  have hl : (b - d) * (b - d) ≤ (b - d) * max (b - d) q₀ := mul_le_mul_of_nonneg_left (le_max_left _ _) (by omega)
  have hri : d * q₀ ≤ d * max (b - d) q₀ := mul_le_mul_of_nonneg_left (le_max_right _ _) hd.le
  refine lt_of_mul_lt_mul_left ?_ (hd.trans hdb).le
  linarith

end

/-! ### The estimate -/

section
variable {b p v₁ v₂ T u₂ V W q r : Nat}

/-- The quotient of the top digits is not less than that of the numbers. -/
theorem quotient_le_of_top (hv : 0 < v₁) (hV : v₁ * p ≤ V) (hW : W < (T + 1) * p) : W / V ≤ T / v₁ := by
  rw [Nat.le_div_iff_mul_le hv]
  have hlt : W / V * v₁ * p < (T + 1) * p :=
    calc W / V * v₁ * p = W / V * (v₁ * p) := mul_assoc _ _ _
      _ ≤ W / V * V := Nat.mul_le_mul_left _ hV
      _ ≤ W := Nat.div_mul_le_self W V
      _ < (T + 1) * p := hW
  exact Nat.lt_succ_iff.mp (Nat.lt_of_mul_lt_mul_right hlt)

/-- An estimate that the next digits show to be too large. -/
theorem quotient_lt_of_greater (hV : (v₁ * b + v₂) * p ≤ V) (hW : W < (T * b + u₂ + 1) * p) (hT : q * v₁ + r = T)
    (hg : r * b + u₂ < q * v₂) : W / V < q := by
  refine Nat.div_lt_of_lt_mul ?_
  calc W < (T * b + u₂ + 1) * p := hW
    _ ≤ (q * (v₁ * b + v₂)) * p := by
      refine Nat.mul_le_mul_right p ?_
      rw [← hT]
      linarith
    _ = q * ((v₁ * b + v₂) * p) := mul_assoc _ _ _
    _ ≤ q * V := Nat.mul_le_mul_left q hV
    _ = V * q := mul_comm q V

/-- An estimate that they do not is at most one too large. -/
theorem le_quotient_succ (hV : V < (v₁ * b + v₂ + 1) * p) (hpos : 0 < V) (hW : (T * b + u₂) * p ≤ W)
    (hT : q * v₁ + r = T) (hle : q * v₂ ≤ r * b + u₂) (hq : q ≤ b) (hv : 0 < v₁) : q ≤ W / V + 1 := by
  have hca : (q - 1) * V ≤ W := by
    cases q with
    | zero => simp
    | succ q =>
      calc q * V ≤ q * ((v₁ * b + v₂ + 1) * p) := Nat.mul_le_mul_left _ hV.le
        _ = q * (v₁ * b + v₂ + 1) * p := (mul_assoc _ _ _).symm
        _ ≤ (T * b + u₂) * p := by
          refine Nat.mul_le_mul_right p ?_
          rw [← hT]
          nlinarith
        _ ≤ W := hW
  have := (Nat.le_div_iff_mul_le hpos).mpr hca
  omega

/-- Where the top digits are the same, the largest digit is at most one too large. -/
theorem largest_le_quotient_succ (hV : V < (v₁ + 1) * p) (hpos : 0 < V) (hW : v₁ * b * p ≤ W) (hv : b ≤ 2 * v₁) :
    b - 1 ≤ W / V + 1 := by
  have hca : (b - 2) * V ≤ W :=
    calc (b - 2) * V ≤ (b - 2) * ((v₁ + 1) * p) := Nat.mul_le_mul_left _ hV.le
      _ = (b - 2) * (v₁ + 1) * p := (Nat.mul_assoc _ _ _).symm
      _ ≤ v₁ * b * p := by
        refine Nat.mul_le_mul_right p ?_
        rcases Nat.lt_or_ge b 2 with hlt | hge
        · rw [show b - 2 = 0 by omega, Nat.zero_mul]
          exact Nat.zero_le _
        · obtain ⟨c, rfl⟩ := Nat.exists_eq_add_of_le hge
          rw [Nat.add_sub_cancel_left]
          nlinarith
      _ ≤ W := hW
  have := (Nat.le_div_iff_mul_le hpos).mpr hca
  omega

end

end V8Multithread.Base.LongDivision
