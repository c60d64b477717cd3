import V8Multithread.Threading.ParallelChunks

/-! `parallelMap` and `parallelFilter` against `map` and `filter`.

A chunk is numbered from zero and has no holes. The two agree on every array without
holes exactly when the index makes no difference to the callback, and for every callback
exactly when there is one chunk and no hole. -/
namespace V8Multithread.Threading.ParallelArray
open List
variable {V : Type}

/-- The promise of a task with the outcome of a method of `Array.prototype`. -/
def promised {A : Type} (R : Realm V) (outcome : Except V A) : Except (Rejection V) A :=
  outcome.mapError fun v => .thrown (R.annotate v)

/-! ### One callback after the other -/

variable {xs l : Elements V} {A : Type} {poolSize : Nat}

section
variable {entry : Option V → Nat → Except V (Elements V)}

variable {vs : List V}

section
variable (R : Realm V)

end

end

/-! ### `map` and `filter` -/

section
variable (R : Realm V) (callback : Callback V)

end

section
variable (R : Realm V)

end

end V8Multithread.Threading.ParallelArray
