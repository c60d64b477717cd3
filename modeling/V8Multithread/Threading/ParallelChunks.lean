import V8Multithread.Threading.ParallelArray

/-! The chunks are the array.

Each chunk is a slice, the slices meet, and none is empty: put together they are the
array with its holes filled in. -/
namespace V8Multithread.Threading.ParallelArray
open List
variable {V : Type}

def filled (R : Realm V) (xs : Elements V) : List V := xs.map (·.getD R.undefined)

/-- Where chunk `i` begins; the one past the last begins at the end. -/
def boundary (length n i : Nat) : Nat := if i < n then i * (length / n) else length

def slice (R : Realm V) (xs : Elements V) (n i : Nat) : List V :=
  ((filled R xs).drop (boundary xs.length n i)).take (boundary xs.length n (i + 1) - boundary xs.length n i)

variable {length n i : Nat}

end V8Multithread.Threading.ParallelArray
