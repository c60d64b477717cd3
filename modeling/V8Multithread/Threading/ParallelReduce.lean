import V8Multithread.Threading.ParallelChunks

/-! `parallelReduce` against `reduce`, for callbacks that are associative operations.

The initial value enters once a chunk. The two agree on every array without holes exactly
when a second entry makes no difference, and for every operation exactly when there is no
second entry. -/
namespace V8Multithread.Threading.ParallelArray
open List Option
variable {V : Type}

def enter (op : V → V → V) (initialValue : Option V) (v : V) : V :=
  match initialValue with
  | some z => op z v
  | none => v

section
variable (op : V → V → V)

end

/-! ### The results of the chunks

A chunk `v :: vs` gives `vs.foldl op (enter op initialValue v)`. What the caller makes of
these is told by what it makes of one. -/

variable {initialValue : Option V} {xs : Elements V}

section
variable {op : V → V → V} [Std.Associative op]

end

section
variable {op : V → V → V} {size : V → Nat} (hadd : ∀ a b, size (op a b) = size a + size b)
include hadd

end

/-- Numbers as values: `undefined` adds nothing. -/
def numbers : Realm Int where
  undefined := 0
  truthy v := v != 0
  yes := 1
  truthy_yes := rfl
  annotate := id

end V8Multithread.Threading.ParallelArray
