import Mathlib

/-! Sums over a list of parties.

A system of several parties keeps counters that are to agree with what the parties
do: so many wait, so many hold a task. `tally f l` adds up what each party
contributes. A step changes one party, adds parties at the end, or changes each
without changing what it contributes, and the lemmas say what that does to the sum. -/
namespace V8Multithread
open List
variable {α β : Type}

/-- Who is at a position after one party has changed. -/
theorem getElem?_set_cases {l : List α} {i j : Nat} {x y : α} (h : (l.set i y)[j]? = some x) :
    (j = i ∧ x = y) ∨ (j ≠ i ∧ l[j]? = some x) := by
  rw [List.getElem?_set] at h
  split at h
  · next heq =>
    split at h
    · exact .inl ⟨heq.symm, (Option.some.inj h).symm⟩
    · cases h
  · next hne => exact .inr ⟨Ne.symm hne, h⟩

/-- What the parties in `l` contribute together. -/
def tally (f : α → Int) (l : List α) : Int := (l.map f).sum

namespace tally

@[simp] theorem nil (f : α → Int) : tally f [] = 0 := rfl

@[simp] theorem cons (f : α → Int) (x : α) (l : List α) : tally f (x :: l) = f x + tally f l :=
  sum_cons

@[simp] theorem append (f : α → Int) (l k : List α) : tally f (l ++ k) = tally f l + tally f k := by
  rw [tally, map_append, sum_append]
  rfl

variable {l : List α} {x : α} {f : α → Int}

/-- One party changes. -/
theorem set (f : α → Int) {i : Nat} (h : l[i]? = some x) (y : α) : tally f (l.set i y) = tally f l - f x + f y := by
  obtain ⟨hi, hx⟩ := List.getElem?_eq_some_iff.mp h
  rw [tally, map_set, sum_set', dif_pos (by simpa using hi), getElem_map, hx]
  simp only [tally]
  omega

theorem modify (f : α → Int) {i : Nat} (h : l[i]? = some x) (g : α → α) :
    tally f (l.modify i g) = tally f l - f x + f (g x) := by
  rw [List.modify_eq_set_getElem?, h]
  exact set f h (g x)

/-- One party leaves. -/
theorem eraseIdx (f : α → Int) {i : Nat} (h : l[i]? = some x) : tally f (l.eraseIdx i) = tally f l - f x := by
  induction l generalizing i with
  | nil => cases h
  | cons y l ih =>
    cases i with
    | zero =>
      cases h
      rw [eraseIdx_cons_zero, cons]
      omega
    | succ i =>
      rw [eraseIdx_cons_succ, cons, cons, ih h]
      omega

/-- Every party changes, and none contributes more or less. -/
theorem map (f : β → Int) (g : α → β) (l : List α) : tally f (l.map g) = tally (f ∘ g) l := by
  rw [tally, List.map_map]
  rfl

theorem congr {g : α → Int} (h : ∀ x ∈ l, f x = g x) : tally f l = tally g l := by
  rw [tally, map_congr_left h]
  rfl

/-- What is contributed of several things, one thing after the other. -/
theorem sum_range (f : Nat → α → Int) (n : Nat) (l : List α) :
    tally (fun x => ∑ i ∈ Finset.range n, f i x) l = ∑ i ∈ Finset.range n, tally (f i) l := by
  induction l with
  | nil => simp
  | cons x l ih =>
    simp only [cons, ih, Finset.sum_add_distrib]

theorem sub (f g : α → Int) (l : List α) : tally (fun x => f x - g x) l = tally f l - tally g l := by
  induction l with
  | nil => rfl
  | cons x l ih =>
    simp only [cons, ih]
    omega

theorem eq_zero (h : ∀ x ∈ l, f x = 0) : tally f l = 0 := by
  rw [congr h]
  simp [tally]

theorem nonneg (h : ∀ x ∈ l, 0 ≤ f x) : 0 ≤ tally f l := by
  apply sum_nonneg
  intro y hy
  obtain ⟨x, hx, rfl⟩ := List.mem_map.mp hy
  exact h x hx

/-- A party contributes no more than all together. -/
theorem le_of_mem (h : ∀ x ∈ l, 0 ≤ f x) (hx : x ∈ l) : f x ≤ tally f l := by
  induction l with
  | nil => cases hx
  | cons y l ih =>
    have hy := h y mem_cons_self
    have hl := nonneg fun x hx => h x (mem_cons_of_mem y hx)
    rw [cons]
    rcases mem_cons.mp hx with rfl | hx
    · omega
    · have := ih (fun x hx => h x (mem_cons_of_mem y hx)) hx
      omega

/-- Where all together contribute something, one does. -/
theorem exists_pos (h : 0 < tally f l) : ∃ x ∈ l, 0 < f x := by
  induction l with
  | nil => cases h
  | cons y l ih =>
    rw [cons] at h
    by_cases hy : 0 < f y
    · exact ⟨y, mem_cons_self, hy⟩
    · obtain ⟨x, hx, hpos⟩ := ih (by omega)
      exact ⟨x, mem_cons_of_mem y hx, hpos⟩

/-- Counting one value. -/
theorem count [DecidableEq α] (a : α) (l : List α) : tally (fun x => if x = a then 1 else 0) l = l.count a := by
  induction l with
  | nil => rfl
  | cons x l ih =>
    rw [cons, ih, count_cons]
    by_cases hx : x = a
    · simp [hx, add_comm]
    · simp [hx]

end tally
end V8Multithread
