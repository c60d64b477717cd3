import V8Multithread.Threading.Task

/-! Automatic parallelism.

`TryInterceptAutoParallelMicrotask` takes a promise reaction off the microtask queue when
the context chain of its handler shows no closure, and sends the source text of the
handler with a serialized argument to the pool. `AutoParallelThreadTask` makes a new
context, evaluates the text there and calls what it gets; the result goes back serialized
and settles the promise.

The language itself is a parameter: what a function does when it is called depends on its
arguments and on the script-level and global bindings of the realm. -/
namespace V8Multithread.Execution.AutoParallel
open Option Threading

/-- How a call ends. A promise that is returned is followed until it is settled, if it ever
is. -/
inductive Completion (V : Type) where
  | returned (v : V)
  | threw (exception : V)
  | promised (settlement : Option (Except V V))
  deriving DecidableEq, Repr

inductive Outcome (V : Type) where
  | fulfilled (v : V)
  | rejected (reason : V)
  | pending
  deriving DecidableEq, Repr

/-- What is needed of the engine. `Env` is the script-level and global bindings, and
`newContext` those of a context that was just made. `compile` evaluates a text in such a
context, if it is one and its value is a function. -/
structure Engine (V F Env : Type) where
  undefined : V
  error : String → V
  /-- The exception of a serializer that cannot write `v`. -/
  dataCloneError : V → V
  newContext : Env
  toSource : F → Option String
  compile : String → Option F
  call : F → Env → List V → Completion V
  serialize : V → Option (List UInt8)
  deserialize : List UInt8 → Option V
  /-- The arguments go as an array. -/
  serializeArguments : List V → Option (List UInt8)
  deserializeArguments : List UInt8 → Option (List V)
  serialize_ne_nil : ∀ {v bytes}, serialize v = some bytes → bytes ≠ []

inductive Target where
  | promise | capability | other
  deriving DecidableEq, Repr

/-- `AutoParallelThreadTask`, and the `TaskResult` it posts. -/
structure ThreadTask where
  functionSource : String
  serializedArguments : List UInt8
  deriving DecidableEq, Repr

structure TaskResult where
  success : Bool
  data : List UInt8
  deriving DecidableEq, Repr

section
variable {V F Env : Type} (E : Engine V F Env)

/-! ### On the queue -/

/-- `SerializeAndPostException`. -/
def postException (exception : V) : TaskResult :=
  match E.serialize exception with
  | some data => ⟨false, data⟩
  | none => ⟨false, (E.serialize (E.error "Failed to serialize task exception")).getD []⟩

def postValue (v : V) : TaskResult :=
  match E.serialize v with
  | some data => ⟨true, data⟩
  | none => postException E (E.dataCloneError v)

def postCompletion : Completion V → Option TaskResult
  | .returned v => some (postValue E v)
  | .threw exception => some (postException E exception)
  | .promised none => none
  | .promised (some (.ok v)) => some (postValue E v)
  | .promised (some (.error reason)) => some ⟨false, (E.serialize reason).getD []⟩

def readArguments (bytes : List UInt8) : Option (List V) :=
  if bytes.isEmpty then some [] else E.deserializeArguments bytes

/-- `AutoParallelThreadTask::RunInternal`. -/
def runInternal (task : ThreadTask) : Option TaskResult :=
  match readArguments E task.serializedArguments with
  | none => some ⟨false, []⟩
  | some args =>
    match E.compile ("(" ++ task.functionSource ++ ")") with
    | none => some ⟨false, []⟩
    | some fn => postCompletion E (E.call fn E.newContext args)

def Completion.outcome : Completion V → Outcome V
  | .returned v | .promised (some (.ok v)) => .fulfilled v
  | .threw e | .promised (some (.error e)) => .rejected e
  | .promised none => .pending

def clone (v : V) : Option V := (E.serialize v).bind E.deserialize

/-- Two outcomes that a clone does not tell apart. -/
def Same : Outcome V → Outcome V → Prop
  | .fulfilled v, .fulfilled w => ∃ c, clone E v = some c ∧ clone E w = some c
  | .rejected _, .rejected _ => True
  | .pending, .pending => True
  | _, _ => False

/-- A result that cannot be cloned counts as a rejection. -/
def Outcome.sent : Outcome V → Outcome V
  | .fulfilled v => if (clone E v).isSome then .fulfilled v else .rejected (E.dataCloneError v)
  | o => o

variable {E}

theorem Same.symm {a b : Outcome V} (h : Same E a b) : Same E b a := by
  cases a with
  | fulfilled v =>
    cases b with
    | fulfilled w =>
      obtain ⟨c, hv, hw⟩ := h
      exact ⟨c, hw, hv⟩
    | rejected _ | pending => exact h
  | rejected _ | pending => cases b <;> exact h

theorem Same.trans {a b c : Outcome V} (hab : Same E a b) (hbc : Same E b c) : Same E a c := by
  cases a with
  | fulfilled u =>
    cases b with
    | fulfilled v =>
      cases c with
      | fulfilled w =>
        obtain ⟨x, hu, hv⟩ := hab
        obtain ⟨y, hv', hw⟩ := hbc
        exact ⟨x, hu, by rw [hw, ← hv', hv]⟩
      | rejected _ | pending => exact hbc
    | rejected _ | pending => exact hab.elim
  | rejected _ | pending => cases b <;> first | exact hab.elim | (cases c <;> exact hbc)

/-! ### The way back -/

end

/-! ### A script with one binding -/

end V8Multithread.Execution.AutoParallel
