import V8Multithread.Bigint.VectorArithmetic

/-! Copies and shifts of vectors of digits. -/
namespace V8Multithread.Bigint
open Nat Base.Limbs Digits

variable {t : Target}

def countLeadingZeros (d : Digit t) : Nat := t.kDigitBits - Nat.size d

def copy (Z X : Digits) (m : Memory t) : Memory t :=
  if Z = X then m
  else Z.clearFrom X.len (sweep Z.start (fun m i c => (X.get m i, c)) 0 X.len (m, ())).1

def leftShift (Z X : Digits) (shift : Nat) (m : Memory t) : Option (Memory t) := do
  dcheck (shift < t.kDigitBits)
  dcheck (X.len ≤ Z.len)
  if shift = 0 then return copy Z X m
  let s := sweep Z.start (fun m i (carry : Digit t) =>
    let d : Nat := X.get m i
    (toDigit t (d <<< shift ||| carry), toDigit t (d >>> (t.kDigitBits - shift)))) 0 X.len (m, 0)
  if X.len < Z.len then return Z.clearFrom (X.len + 1) (Z.set s.1 X.len s.2)
  dcheck (s.2 = 0)
  return s.1

/-- The loop of `RightShift` over a vector that is not empty. -/
def rightShiftLoop (Z X : Digits) (shift : Nat) (m : Memory t) : Memory t × Digit t :=
  sweep Z.start (fun m i (carry : Digit t) =>
    let d : Nat := X.get m (i + 1)
    (toDigit t (d <<< (t.kDigitBits - shift) ||| carry), toDigit t (d >>> shift))) 0 (X.len - 1)
    (m, toDigit t ((X.get m 0 : Nat) >>> shift))

def rightShift (Z X : Digits) (shift : Nat) (m : Memory t) : Option (Memory t) := do
  dcheck (shift < t.kDigitBits)
  let X := X.normalize m
  dcheck (X.len ≤ Z.len)
  if shift = 0 then return copy Z X m
  if 0 < X.len then
    let s := rightShiftLoop Z X shift m
    return Z.clearFrom (X.len - 1 + 1) (Z.set s.1 (X.len - 1) s.2)
  return Z.clearFrom 0 m

section
variable {X Z : Digits} {m : Memory t} {shift : Nat}

theorem copyLoop_spec (hX : X.Ahead Z) (hlen : X.len ≤ Z.len) :
    Changes Z.Has m (Z.clearFrom X.len (sweep Z.start (fun m i c => (X.get m i, c)) 0 X.len (m, ())).1) ∧
      Z.value (Z.clearFrom X.len (sweep Z.start (fun m i c => (X.get m i, c)) 0 X.len (m, ())).1) = X.value m := by
  have hst : Swept Z.start m (fun _ : Unit => True) (fun _ => 0) (fun i => X.low m i) 0 (m, ()) :=
    .start trivial (by simp)
  have hsw := hst.sweep (fun m i c => (X.get m i, c)) X.len (fun i => (X.get m i : Nat))
    fun i m' c _ hi hch _ => by
      rw [hX.get hch (by omega), X.low_succ m (by omega)]
      refine ⟨trivial, by simp, ?_⟩
      push_cast
      ring
  rw [zero_add] at hsw
  obtain ⟨hch, hva⟩ := clearFrom_after hsw.1 hlen
  refine ⟨hch, ?_⟩
  have hwr := hsw.2.2
  beta_reduce at hwr
  rw [X.low_of_ge m le_rfl, mul_zero, add_zero] at hwr
  rw [hva]
  exact_mod_cast hwr

theorem copy_spec (hX : X.Ahead Z) (hlen : X.len ≤ Z.len) :
    Changes Z.Has m (copy Z X m) ∧ Z.value (copy Z X m) = X.value m := by
  rw [copy]
  split
  · next heq =>
    rw [heq]
    exact ⟨.refl _ _, rfl⟩
  · exact copyLoop_spec hX hlen

/-- Shifting a digit splits it in two: what stays in it and what goes to the next one. -/
theorem shifted (d : Digit t) {c : Nat} (hshift : shift < t.kDigitBits) (hc : c < 2 ^ shift) :
    (toDigit t ((d : Nat) <<< shift ||| c) : Nat) + t.base * (toDigit t ((d : Nat) >>> (t.kDigitBits - shift)) : Nat) =
        d * 2 ^ shift + c ∧
      (toDigit t ((d : Nat) >>> (t.kDigitBits - shift)) : Nat) < 2 ^ shift := by
  have hba : t.base = 2 ^ shift * 2 ^ (t.kDigitBits - shift) := by
    rw [← pow_add, Nat.add_sub_cancel' hshift.le]
    rfl
  have hor : (d : Nat) <<< shift ||| c = d * 2 ^ shift + c := by
    rw [← shiftLeft_add_eq_or_of_lt hc, shiftLeft_eq]
  have hca : ∀ x : Nat, x >>> (t.kDigitBits - shift) = (x * 2 ^ shift + c) / t.base := by
    intro x
    rw [shiftRight_eq_div_pow, hba, ← Nat.div_div_eq_div_mul, add_comm _ c,
      add_mul_div_right _ _ (Nat.two_pow_pos _), div_eq_of_lt hc, zero_add]
  have hlt : (d : Nat) >>> (t.kDigitBits - shift) < 2 ^ shift := by
    rw [shiftRight_eq_div_pow]
    refine Nat.div_lt_of_lt_mul ?_
    rw [mul_comm, ← hba]
    exact d.isLt
  have hle : 2 ^ shift ≤ t.base := Nat.pow_le_pow_right (by decide) hshift.le
  rw [toDigit_of_lt (hlt.trans_le hle), toDigit_val, hor]
  refine ⟨?_, hlt⟩
  rw [hca]
  exact mod_add_div _ _

theorem leftShiftLoop_swept (hX : X.Ahead Z) (hshift : shift < t.kDigitBits) :
    Swept Z.start m (fun c : Digit t => (c : Nat) < 2 ^ shift) (fun c => (c : Nat)) (fun i => X.low m i * 2 ^ shift) X.len
      (sweep Z.start (fun m i (carry : Digit t) =>
        let d : Nat := X.get m i
        (toDigit t (d <<< shift ||| carry), toDigit t (d >>> (t.kDigitBits - shift)))) 0 X.len (m, 0)) := by
  have hst : Swept Z.start m (fun c : Digit t => (c : Nat) < 2 ^ shift) (fun c => (c : Nat))
      (fun i => X.low m i * 2 ^ shift) 0 (m, 0) := .start (by simp) (by simp)
  have hsw := hst.sweep (fun m i (carry : Digit t) =>
    let d : Nat := X.get m i
    (toDigit t (d <<< shift ||| carry), toDigit t (d >>> (t.kDigitBits - shift)))) X.len
    (fun i => (X.get m i : Nat) * 2 ^ shift) fun i m' c _ hi hch hc => by
      rw [hX.get hch (by omega), X.low_succ m (by omega)]
      obtain ⟨hsp, hlt⟩ := shifted (X.get m i) hshift hc
      refine ⟨hlt, ?_, ?_⟩
      · zify at hsp
        exact hsp
      · push_cast
        ring
  rwa [zero_add] at hsw

theorem leftShift_spec (hshift : shift < t.kDigitBits) (hX : X.Ahead Z) (hlen : X.len ≤ Z.len)
    (hfit : X.value m * 2 ^ shift < t.base ^ Z.len) :
    ∃ m', leftShift Z X shift m = some m' ∧ Changes Z.Has m m' ∧ Z.value m' = X.value m * 2 ^ shift := by
  rw [leftShift, dcheck_pos hshift, dcheck_pos hlen]
  by_cases hzero : shift = 0
  · rw [if_pos hzero]
    obtain ⟨hch, hva⟩ := copy_spec (m := m) hX hlen
    exact ⟨_, rfl, hch, by rw [hva, hzero, pow_zero, mul_one]⟩
  rw [if_neg hzero]
  have hsw := leftShiftLoop_swept (m := m) hX hshift
  generalize sweep Z.start (fun m i (carry : Digit t) =>
    let d : Nat := X.get m i
    (toDigit t (d <<< shift ||| carry), toDigit t (d >>> (t.kDigitBits - shift)))) 0 X.len (m, 0) = s at *
  obtain ⟨m', carry⟩ := s
  obtain ⟨hch, -, hva⟩ := hsw
  beta_reduce at hva
  rw [X.low_of_ge m le_rfl] at hva
  dsimp only at hva ⊢
  by_cases hlt : X.len < Z.len
  · obtain ⟨hset, hre⟩ := set_clearFrom hch hlt carry
    refine ⟨_, if_pos hlt, hset, ?_⟩
    rw [hre]
    exact_mod_cast hva
  · have hsa : X.len = Z.len := by omega
    have hca : (carry : Nat) = 0 := by
      by_contra hne
      have hle := Nat.mul_le_mul_left (t.base ^ X.len) (one_le_iff_ne_zero.mpr hne)
      rw [← hsa] at hfit
      have := Int.natCast_nonneg (value m' Z.start X.len)
      linarith
    refine ⟨m', ?_, ?_, ?_⟩
    · rw [if_neg hlt, dcheck_pos (Fin.ext hca : carry = 0)]
      rfl
    · rwa [hsa] at hch
    · rw [hca, hsa] at hva
      rw [Digits.value]
      push_cast at hva
      zify
      linarith

theorem rightShiftLoop_swept (hX : X.Ahead Z) (hshift : shift < t.kDigitBits) (hne : shift ≠ 0) :
    Swept Z.start m (fun c : Digit t => (c : Nat) < 2 ^ (t.kDigitBits - shift)) (fun c => (c : Nat))
      (fun i => ((X.get m 0 : Nat) / 2 ^ shift : Nat) + 2 ^ (t.kDigitBits - shift) * value m (X.start + 1) i) (X.len - 1)
      (rightShiftLoop Z X shift m) := by
  have hsub : t.kDigitBits - (t.kDigitBits - shift) = shift := by omega
  have hba : t.base = 2 ^ shift * 2 ^ (t.kDigitBits - shift) := by
    rw [← pow_add, Nat.add_sub_cancel' hshift.le]
    rfl
  have hfi : (X.get m 0 : Nat) / 2 ^ shift < 2 ^ (t.kDigitBits - shift) := by
    refine Nat.div_lt_of_lt_mul ?_
    rw [← hba]
    exact (X.get m 0).isLt
  have hfit : (toDigit t ((X.get m 0 : Nat) >>> shift) : Nat) = (X.get m 0 : Nat) / 2 ^ shift := by
    rw [shiftRight_eq_div_pow]
    exact toDigit_of_lt ((Nat.div_le_self _ _).trans_lt (X.get m 0).isLt)
  have hst : Swept Z.start m (fun c : Digit t => (c : Nat) < 2 ^ (t.kDigitBits - shift)) (fun c => (c : Nat))
      (fun i => ((X.get m 0 : Nat) / 2 ^ shift : Nat) + 2 ^ (t.kDigitBits - shift) * value m (X.start + 1) i) 0
      (m, toDigit t ((X.get m 0 : Nat) >>> shift)) := .start (by rw [hfit]; exact hfi) (by rw [hfit]; simp)
  have hsw := hst.sweep (fun m i (carry : Digit t) =>
    let d : Nat := X.get m (i + 1)
    (toDigit t (d <<< (t.kDigitBits - shift) ||| carry), toDigit t (d >>> shift))) (X.len - 1)
    (fun i => (X.get m (i + 1) : Nat) * 2 ^ (t.kDigitBits - shift)) fun i m' c _ hi hch hc => by
      have hre : X.get m' (i + 1) = X.get m (i + 1) :=
        hX.get (hch.mono fun a ha => ⟨ha.1, by have := ha.2; omega⟩) (by omega)
      rw [hre]
      obtain ⟨hsp, hlt⟩ := shifted (X.get m (i + 1)) (show t.kDigitBits - shift < t.kDigitBits by omega) hc
      rw [hsub] at hsp hlt
      refine ⟨hlt, ?_, ?_⟩
      · zify at hsp
        exact hsp
      · have had : m (X.start + 1 + i) = X.get m (i + 1) := by
          rw [Digits.get, add_assoc, add_comm 1]
        rw [value_succ, had]
        push_cast
        ring
  rwa [zero_add] at hsw

/-- The loop and the last digit. -/
theorem rightShiftLoop_spec (hX : X.Ahead Z) (hshift : shift < t.kDigitBits) (hne : shift ≠ 0) (hpos : 0 < X.len)
    (hlen : X.len ≤ Z.len) :
    Changes Z.Has m (Z.clearFrom (X.len - 1 + 1)
      (Z.set (rightShiftLoop Z X shift m).1 (X.len - 1) (rightShiftLoop Z X shift m).2)) ∧
    Z.value (Z.clearFrom (X.len - 1 + 1)
      (Z.set (rightShiftLoop Z X shift m).1 (X.len - 1) (rightShiftLoop Z X shift m).2)) = X.value m / 2 ^ shift := by
  obtain ⟨hch, -, hva⟩ := rightShiftLoop_swept (m := m) hX hshift hne
  obtain ⟨hset, hre⟩ := set_clearFrom hch (show X.len - 1 < Z.len by omega) (rightShiftLoop Z X shift m).2
  refine ⟨hset, ?_⟩
  have hsp : X.value m = (X.get m 0 : Nat) + t.base * value m (X.start + 1) (X.len - 1) := by
    rw [Digits.value, show X.len = X.len - 1 + 1 by omega, value_succ']
    rfl
  have hba : ∀ v : Nat, t.base * v = 2 ^ shift * (2 ^ (t.kDigitBits - shift) * v) := by
    intro v
    rw [← mul_assoc, ← pow_add, Nat.add_sub_cancel' hshift.le]
    rfl
  rw [hre, hsp, hba, add_mul_div_left _ _ (Nat.two_pow_pos _)]
  beta_reduce at hva
  exact_mod_cast hva

theorem rightShift_spec (hshift : shift < t.kDigitBits) (hX : X.Ahead Z) (hfit : X.value m < t.base ^ Z.len) :
    ∃ m', rightShift Z X shift m = some m' ∧ Changes Z.Has m m' ∧ Z.value m' = X.value m / 2 ^ shift := by
  have hlen := normalize_len_le_of_lt hfit
  have hah := hX.normalize (m := m)
  rw [← X.normalize_value m, rightShift, dcheck_pos hshift]
  generalize X.normalize m = X at *
  simp only [dcheck_pos hlen]
  by_cases hzero : shift = 0
  · obtain ⟨hch, hva⟩ := copy_spec (m := m) hah hlen
    refine ⟨_, if_pos hzero, hch, by rw [hva, hzero, pow_zero, Nat.div_one]⟩
  by_cases hpos : 0 < X.len
  · obtain ⟨hch, hva⟩ := rightShiftLoop_spec (m := m) hah hshift hzero hpos hlen
    exact ⟨_, by rw [if_neg hzero, if_pos hpos]; rfl, hch, hva⟩
  · obtain ⟨hch, hva⟩ := @clearFrom_after t Z m 0 m (.refl _ _) (zero_le _)
    refine ⟨_, by rw [if_neg hzero, if_neg hpos]; rfl, hch, ?_⟩
    rw [hva, Digits.value.eq_def X, show X.len = 0 by omega, value_zero, value_zero, Nat.zero_div]

end

end V8Multithread.Bigint
