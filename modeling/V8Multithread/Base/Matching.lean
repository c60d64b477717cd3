import Mathlib

/-! Occurrences of a pattern in a text, and how far the pattern may be moved without missing one.

Pattern and text are functions of the position; `m` is the length of the pattern. A mismatch allows
a shift by what is known of the character that was met (`Clear.of_char`) and by how the matched
end of the pattern overlaps the pattern itself (`Clear.of_overlap`). The overlaps are found through
the borders of the suffixes of the pattern. -/
namespace V8Multithread.Base.Matching

/-- The result of looking for the first position of `[low, high)` with a property. -/
def FirstIn (P : Nat → Prop) (low high : Nat) : (result : Option Nat) → Prop
  | none => ∀ i, low ≤ i → i < high → ¬P i
  | some i => low ≤ i ∧ i < high ∧ P i ∧ ∀ k, low ≤ k → k < i → ¬P k

/-- What lies before the place where the search goes on has been ruled out. -/
theorem FirstIn.advance {P : Nat → Prop} {low low' high : Nat} {result : Option Nat} (hle : low ≤ low')
    (hcl : ∀ i, low ≤ i → i < low' → ¬P i) (h : FirstIn P low' high result) : FirstIn P low high result := by
  have hbo : ∀ i, low ≤ i → (low' ≤ i → ¬P i) → ¬P i := by
    intro i hi h
    by_cases hlt : i < low'
    · exact hcl i hi hlt
    · exact h (by omega)
  cases result with
  | none => exact fun i hi hh => hbo i hi fun hi => h i hi hh
  | some i => exact ⟨hle.trans h.1, h.2.1, h.2.2.1, fun k hk hlt => hbo k hk fun hk => h.2.2.2 k hk hlt⟩

theorem FirstIn.of_le {P : Nat → Prop} {low high : Nat} (h : high ≤ low) : FirstIn P low high none :=
  fun _ hlow hh => by omega

variable {α : Type*} {p s : Nat → α} {m i j : Nat}

def Occurs (p : Nat → α) (m : Nat) (s : Nat → α) (i : Nat) : Prop := ∀ k < m, p k = s (i + k)

/-- No occurrence begins in `[a, b)`. -/
def Clear (p : Nat → α) (m : Nat) (s : Nat → α) (a b : Nat) : Prop := ∀ i, a ≤ i → i < b → ¬Occurs p m s i

namespace Clear

theorem of_le {a b : Nat} (h : b ≤ a) : Clear p m s a b := fun _ ha hb => absurd (ha.trans_lt hb) (by omega)

theorem trans {a b c : Nat} (hab : Clear p m s a b) (hbc : Clear p m s b c) : Clear p m s a c := by
  intro i ha hc
  by_cases hb : i < b
  · exact hab i ha hb
  · exact hbc i (by omega) hc

theorem of_ne (hj : j < m) (h : p j ≠ s (i + j)) : Clear p m s i (i + 1) := by
  intro k ha hb ho
  obtain rfl : k = i := by omega
  exact h (ho j hj)

/-- The character of the text at `i + j` is not in the pattern between `occurrence` and `j`. -/
theorem of_char {occurrence : Int} (hj : j < m) (hoc : -1 ≤ occurrence)
    (h : ∀ k < j, occurrence < k → p k ≠ s (i + j)) : Clear p m s (i + 1) (i + (j - occurrence)).toNat := by
  intro x ha hb ho
  have heq : x + (j - (x - i)) = i + j := by omega
  refine h (j - (x - i)) (by omega) (by omega) ?_
  rw [← heq]
  exact ho _ (by omega)

end Clear

/-! ### Overlaps -/

/-- Moved by `t`, the part of the pattern from `start` fits the matched part from `i`, and does not
bring back the character that did not match. -/
structure Overlaps (p : Nat → α) (start m i t : Nat) : Prop where
  suffix : ∀ k, start ≤ k → i ≤ k + t → k + t < m → p k = p (k + t)
  mismatch : start + t < i → p (i - 1 - t) ≠ p (i - 1)

/-- The pattern matches from `j + 1` on, and not at `j`. -/
theorem Clear.of_overlap {start shift : Nat} (hj : j < m) (hma : ∀ k, j < k → k < m → p k = s (i + k))
    (hne : p j ≠ s (i + j)) (h : ∀ t, 0 < t → Overlaps p start m (j + 1) t → shift ≤ t) :
    Clear p m s (i + 1) (i + shift) := by
  intro x ha hb ho
  obtain ⟨t, rfl⟩ : ∃ t, x = i + t := ⟨x - i, by omega⟩
  have hle := h t (by omega) ⟨fun k _ hi hm => ?_, fun hlt => ?_⟩
  · omega
  · rw [ho k (by omega), hma (k + t) hi hm, add_right_comm, add_assoc]
  · have heq : i + t + (j + 1 - 1 - t) = i + j := by omega
    rw [ho (j + 1 - 1 - t) (by omega), heq]
    exact hne.symm

/-! ### Borders -/

/-- The suffix of the pattern from `u` begins the suffix from `i`. The empty suffix is at `m`, and
`m + 1` is taken to be there too, for what comes after the empty one. -/
structure Border (p : Nat → α) (m i u : Nat) : Prop where
  lt : i < u
  le : u ≤ m + 1
  eq : ∀ k, u + k < m → p (i + k) = p (u + k)

namespace Border

variable {u v : Nat}

theorem trans (hiu : Border p m i u) (huv : Border p m u v) : Border p m i v where
  lt := hiu.lt.trans huv.lt
  le := huv.le
  eq k hk := by
    have := huv.lt
    rw [hiu.eq k (by omega), huv.eq k hk]

theorem of_lt (hiu : Border p m i u) (hiv : Border p m i v) (h : u < v) : Border p m u v where
  lt := h
  le := hiv.le
  eq k hk := by rw [← hiu.eq k (by omega), hiv.eq k hk]

theorem empty (h : i < m) : Border p m i m := ⟨h, by omega, fun _ hk => by omega⟩

theorem beyond (h : i ≤ m) : Border p m i (m + 1) := ⟨by omega, le_rfl, fun _ hk => by omega⟩

/-- A border one position to the left extends a border by a character, or is empty. -/
theorem pred_iff (hu : u ≤ m) (hi : i < u) : Border p m i u ↔ u = m ∨ p i = p u ∧ Border p m (i + 1) (u + 1) := by
  constructor
  · intro h
    by_cases heq : u = m
    · exact .inl heq
    · refine .inr ⟨h.eq 0 (by omega), by omega, by omega, fun k hk => ?_⟩
      have := h.eq (k + 1) (by omega)
      rwa [← add_assoc, ← add_assoc, add_right_comm i, add_right_comm u] at this
  · rintro (rfl | ⟨heq, h⟩)
    · exact .empty hi
    · refine ⟨hi, by omega, fun k hk => ?_⟩
      cases k with
      | zero => exact heq
      | succ k =>
        have := h.eq k (by omega)
        rwa [← add_assoc, ← add_assoc, add_right_comm i, add_right_comm u]

end Border

/-- The first position of a border: the failure function. -/
abbrev Fails (p : Nat → α) (m i u : Nat) : Prop := IsLeast {u | Border p m i u} u

theorem fails_end : Fails p m m (m + 1) := ⟨.beyond le_rfl, fun _ h => h.lt⟩

/-- Going through the borders of `i + 1` up to one whose character before is `p i` gives the first
border of `i`. -/
theorem Fails.pred {u : Nat} (hbo : Border p m (i + 1) u) (hfi : ∀ v < u, Border p m (i + 1) v → p i ≠ p (v - 1))
    (hu : u = m + 1 ∨ p i = p (u - 1)) : Fails p m i (u - 1) := by
  have hlt := hbo.lt
  have hle := hbo.le
  obtain ⟨u, rfl⟩ : ∃ u', u = u' + 1 := ⟨u - 1, by omega⟩
  constructor
  · refine (Border.pred_iff (by omega) (by omega)).mpr ?_
    rcases hu with hu | hu
    · exact .inl (by omega)
    · exact .inr ⟨hu, hbo⟩
  · intro v hv
    by_contra hlt
    rcases (Border.pred_iff (by omega) hv.lt).mp hv with rfl | ⟨heq, h⟩
    · omega
    · exact hfi (v + 1) (by omega) h heq

/-- An overlap that keeps to the pattern from `start`. -/
theorem Overlaps.border {start t : Nat} (h : Overlaps p start m (i + 1) t) (hi : i < m) (ht : 0 < t) (hlt : start + t < i + 1) :
    Border p m (i + 1 - t) (i + 1) ∧ p (i - t) ≠ p i := by
  refine ⟨⟨by omega, by omega, fun k hk => ?_⟩, ?_⟩
  · have heq : i + 1 - t + k + t = i + 1 + k := by omega
    rw [h.suffix (i + 1 - t + k) (by omega) (by omega) (by omega), heq]
  · exact h.mismatch hlt

/-- An overlap that goes beyond `start`. -/
theorem Overlaps.border_start {start t : Nat} (h : Overlaps p start m i t) (ht : 0 < t) (hle : i ≤ start + t)
    (hm : start + t ≤ m) : Border p m start (start + t) := by
  refine ⟨by omega, by omega, fun k hk => ?_⟩
  have heq : start + k + t = start + t + k := by omega
  rw [h.suffix (start + k) (by omega) (by omega) (by omega), heq]

end V8Multithread.Base.Matching
