import Mathlib

/-! What the threading API shares: isolates, promise resolvers, exceptions, and how
a promise that belongs to another isolate is settled.

A promise can be settled only by its own isolate. Code that runs elsewhere packs a
task that carries the resolver and sends it home: to the private queue of the
worker that made the resolver, or to the foreground task runner of the resolver's
isolate when no worker made it. An isolate may have no such runner; the task is
then deleted. -/
namespace V8Multithread.Threading

/-- An isolate, by its address. -/
abbrev Isolate := Nat

/-- A persistent handle on a promise resolver, by its address. -/
abbrev Resolver := Nat

inductive Exception where
  | typeError (message : String)
  | error (message : String)
  deriving DecidableEq, Repr

/-- What a promise is settled with. `iterResult` is the object `{value, done}` of
the async iteration protocol; its value is absent for `undefined`. A promise is
rejected with an error of the API's own or with what a callback threw. -/
inductive Settlement (V : Type) where
  | undefined
  | value (v : V)
  | iterResult (value : Option V) (done : Bool)
  | rejected (e : Exception)
  | thrown (exception : V)
  deriving DecidableEq, Repr

/-- The `this` of a method call: the number of its internal fields, and whether the
first holds a live state. -/
structure Holder where
  internalFieldCount : Nat
  wrapped : Bool
  deriving DecidableEq, Repr

inductive Destination where
  | worker (index : Nat)
  | foreground (isolate : Isolate)
  | deleted
  deriving DecidableEq, Repr

/-- The choice every sender of such a task makes. A worker index of -1 is a thread
outside the pool. -/
def destination (hasRunner : Isolate → Bool) (isolate : Isolate) (workerIndex : Int) : Destination :=
  if workerIndex ≠ -1 then .worker workerIndex.toNat
  else if hasRunner isolate then .foreground isolate
  else .deleted

end V8Multithread.Threading
