import Mathlib

/-! Rings: arrays of a power-of-two size in which an unbounded index wraps around.

An index picks its cell by its low bits. As long as the indices in use lie within one
capacity of each other no two share a cell, and the ring is as good as an infinite
array there. `window t b` is what it holds from `t` up to `b`. -/
namespace V8Multithread
open List

/-- A cell that was never written holds nothing. -/
structure Ring (T : Type) where
  capacity : Nat
  pow : ∃ k, capacity = 2 ^ k
  cells : Nat → Option T

namespace Ring
variable {T : Type}

def slot (capacity : Nat) (index : Int) : Nat := index.toNat &&& (capacity - 1)

def get (r : Ring T) (index : Int) : Option T := r.cells (slot r.capacity index)

def set (r : Ring T) (index : Int) (value : Option T) : Ring T :=
  {r with cells := fun n => if n = slot r.capacity index then value else r.cells n}

def empty (capacity : Nat) (pow : ∃ k, capacity = 2 ^ k) : Ring T := ⟨capacity, pow, fun _ => none⟩

def window (r : Ring T) (t b : Int) : List (Option T) :=
  (range (b - t).toNat).map fun k : Nat => r.get (t + k)

section
variable (r : Ring T)

theorem capacity_pos : 0 < r.capacity := by
  obtain ⟨k, hk⟩ := r.pow
  rw [hk]
  exact Nat.two_pow_pos k

/-! ### Cells -/

/-- The low bits are the remainder. -/
theorem slot_eq_mod (index : Int) : slot r.capacity index = index.toNat % r.capacity := by
  obtain ⟨k, hk⟩ := r.pow
  rw [slot, hk, Nat.and_two_pow_sub_one_eq_mod]

/-- Indices less than a capacity apart have cells of their own. -/
theorem slot_ne {i j : Int} (hi : 0 ≤ i) (hij : i < j) (hlt : j - i < r.capacity) :
    slot r.capacity i ≠ slot r.capacity j := by
  rw [slot_eq_mod, slot_eq_mod]
  intro heq
  have hdvd : r.capacity ∣ j.toNat - i.toNat :=
    Nat.dvd_of_mod_eq_zero (Nat.sub_mod_eq_zero_of_mod_eq heq.symm)
  have hle := Nat.le_of_dvd (by omega) hdvd
  omega

@[simp] theorem get_set_self (i : Int) (v : Option T) : (r.set i v).get i = v :=
  if_pos rfl

/-- Writing at `j` leaves the indices below it alone that are within a capacity. -/
theorem get_set_of_lt {i j : Int} (v : Option T) (hi : 0 ≤ i) (hij : i < j)
    (hlt : j - i < r.capacity) : (r.set j v).get i = r.get i :=
  if_neg (r.slot_ne hi hij hlt)

/-! ### Windows -/

theorem window_eq_nil {t b : Int} (h : b ≤ t) : r.window t b = [] := by
  rw [window, Int.toNat_of_nonpos (by omega)]
  rfl

/-- The window grows at its end. -/
theorem window_succ {t b : Int} (h : t ≤ b) : r.window t (b + 1) = r.window t b ++ [r.get b] := by
  have hlen : (b + 1 - t).toNat = (b - t).toNat + 1 := by omega
  have hl : t + ((b - t).toNat : Int) = b := by omega
  rw [window, hlen, range_succ, map_append, map_singleton, hl]
  rfl

/-- The window shrinks at its beginning. -/
theorem window_eq_cons {t b : Int} (h : t < b) : r.window t b = r.get t :: r.window (t + 1) b := by
  have hlen : (b - t).toNat = (b - (t + 1)).toNat + 1 := by omega
  rw [window, hlen, range_succ_eq_map, map_cons, map_map]
  congr 1
  · simp
  · apply map_congr_left
    intro k _
    show r.get (t + ((k + 1 : Nat) : Int)) = r.get (t + 1 + k)
    congr 1
    omega

end

/-- Rings that agree between `t` and `b` have one window there. -/
theorem window_congr {r r' : Ring T} {t b : Int} (h : ∀ i, t ≤ i → i < b → r'.get i = r.get i) :
    r'.window t b = r.window t b := by
  apply map_congr_left
  intro k hk
  have := mem_range.mp hk
  exact h _ (by omega) (by omega)

end Ring
end V8Multithread
