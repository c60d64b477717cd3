import V8Multithread.Threading.Task

/-! `parallelMap`, `parallelFilter` and `parallelReduce`.

The array is cut into chunks, at most one for each worker. A chunk goes to the pool as a
task of its own, in which the array method of the same name runs on the chunk; the caller
puts the results together. What crosses between isolates is cloned: values here are those
that survive a structured clone, and a value and its clone are the same. Each task runs
on its own, so the order in which the workers take them is not in the model: the results
are read in the order of the chunks. -/
namespace V8Multithread.Threading.ParallelArray

/-- What is needed of the values of the language. `annotate` is what the pool does to an
exception on its way out of a task: it extends the stack of an error. -/
structure Realm (V : Type) where
  undefined : V
  truthy : V → Bool
  yes : V
  truthy_yes : truthy yes = true
  annotate : V → V

inductive Rejection (V : Type) where
  | thrown (value : V)
  | raised (e : Exception)
  deriving DecidableEq, Repr

/-- An array. A hole is `none`. -/
abbrev Elements (V : Type) := List (Option V)

abbrev Callback (V : Type) := V → Nat → Except V V

section
variable {V : Type}

/-! ### The methods of `Array.prototype` -/

/-- `map` keeps a hole. -/
def mapEntry (callback : Callback V) : Option V → Nat → Except V (Elements V)
  | none, _ => .ok [none]
  | some v, i => (callback v i).map fun w => [some w]

/-- The last chunk takes what the division leaves over. -/
def chunkStart (length n i : Nat) : Nat := i * (length / n)

def chunkEnd (length n i : Nat) : Nat := if i = n - 1 then length else (i + 1) * (length / n)

/-- `receiver_arr->Get`: a hole reads as undefined. -/
def read (R : Realm V) (xs : Elements V) (i : Nat) : V := (xs[i]?.join).getD R.undefined

def chunk (R : Realm V) (xs : Elements V) (n i : Nat) : Elements V :=
  (List.range (chunkEnd xs.length n i - chunkStart xs.length n i)).map fun j =>
    some (read R xs (chunkStart xs.length n i + j))

def Rejection.annotate (R : Realm V) : Rejection V → Rejection V
  | .thrown v => .thrown (R.annotate v)
  | .raised e => .raised e

/-- A call of one of the methods: its receiver, if that is an array, its callback, if that
is a function, and the rest. -/
def arrayParallelCommon {F A : Type} (receiver : Option (Elements V)) (callback : Option F)
    (method : F → Elements V → Except (Rejection V) A) :
    Except Exception (Except (Rejection V) A) :=
  match receiver, callback with
  | none, _ => .error (.typeError "Parallel array method called on non-array")
  | some _, none => .error (.typeError "Callback must be a function")
  | some xs, some f => .ok (method f xs)

end
end V8Multithread.Threading.ParallelArray
