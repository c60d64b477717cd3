import V8Multithread.Base.Machine
import V8Multithread.Threading.Task

/-! The mutex.

`lock(callback)` runs the callback on the current value and stores what it returns,
one callback at a time. A call that finds the mutex free runs its callback there and
then; a call that finds it locked is parked, and the holder, when it is done, hands
the lock to the longest parked call as a task for that call's own isolate. The flag
`locked` stays set across the hand-over.

The inner mutex is taken several times on the way, so a call is a sequence of steps,
and steps of other calls may come between any two of them:

- `lock`: the checks and the critical section that takes the flag or parks the call;
- `finish`: the callback has run, and its result, if there is one, is written back;
- `release`: `ReleaseLock`'s critical section;
- `dispatch`: `ReleaseLock` sends the task of the call it picked;
- `start`: the task's `RunInternal` reads the value.

A callback runs between its call's read and its `finish`. What it does meanwhile,
calls of `lock` on the same mutex included, are steps like any others. -/
namespace V8Multithread.Threading.Mutex
open Option

/-- A callback: from the current value to the new one, or to what it throws. -/
abbrev Callback (V : Type) := V → Except V V

/-- The serializer. It may fail both ways. -/
structure Codec (V : Type) where
  undefined : V
  deserialize : List UInt8 → Option V
  serialize : V → Option (List UInt8)

structure PendingLock (V : Type) where
  isolate : Isolate
  workerIndex : Int
  callback : Callback V
  resolver : Resolver

structure MutexState (V : Type) where
  serializedValue : List UInt8
  locked : Bool
  pendingLocks : List (PendingLock V)

section Body
variable {V : Type} (codec : Codec V)

/-- What `Thread.mutex(initialValue)` makes: no value, or one that cannot be written,
leaves it empty. -/
def threadMutex (initialValue : Option V) : MutexState V :=
  ⟨(initialValue.bind codec.serialize).getD [], false, []⟩

/-- The value a callback is given. Nothing stored reads as `undefined`. -/
def currentValue (serializedVal : List UInt8) : Option V :=
  if serializedVal.isEmpty then some codec.undefined else codec.deserialize serializedVal

/-- From the value read to the bytes to write back, if any, and the promise's
settlement. `Lock` and `ResolveMutexTask::RunInternal` each have a copy of this. -/
def lockBody (callback : Callback V) (serializedVal : List UInt8) : Option (List UInt8) × Settlement V :=
  match currentValue codec serializedVal with
  | none => (none, .rejected (.error "Failed to deserialize mutex value"))
  | some current =>
    match callback current with
    | .error exception => (none, .thrown exception)
    | .ok new =>
      match codec.serialize new with
      | some bytes => (some bytes, .value new)
      | none => (none, .rejected (.error "Failed to serialize updated mutex value"))

/-- What a callback does to the stored value: nothing, if it fails. -/
def apply (callback : Callback V) (serializedVal : List UInt8) : List UInt8 :=
  (lockBody codec callback serializedVal).1.getD serializedVal

variable {callback : Callback V} {v : List UInt8} {current : V}

section
variable (hv : currentValue codec v = some current)
include hv

theorem apply_of_throw {exception : V} (hc : callback current = .error exception) : apply codec callback v = v := by
  simp only [apply, lockBody, hv, hc, getD_none]

theorem apply_of_unserializable {new : V} (hc : callback current = .ok new) (hs : codec.serialize new = none) :
    apply codec callback v = v := by
  simp only [apply, lockBody, hv, hc, hs, getD_none]

theorem apply_of_ok {bytes : List UInt8} {new : V} (hc : callback current = .ok new)
    (hs : codec.serialize new = some bytes) : apply codec callback v = bytes := by
  simp only [apply, lockBody, hv, hc, hs, getD_some]

end

end Body

/-! ### The machine -/

structure LockArgs (V : Type) where
  isolate : Isolate
  workerIndex : Int
  length : Nat
  callback : Option (Callback V)
  holder : Holder
  resolverMade : Bool

/-- What `Lock` throws, if anything, and else the callback. -/
def lockChecks {V : Type} (args : LockArgs V) : Except Exception (Callback V) :=
  if args.length < 1 then .error (.typeError "Callback function required")
  else match args.callback with
    | none => .error (.typeError "Callback function required")
    | some callback =>
      if args.holder.internalFieldCount < 1 then .error (.typeError "Invalid mutex object")
      else if args.holder.wrapped then .ok callback
      else .error (.typeError "Mutex is destroyed")

inductive Phase where
  | parked
  /-- Picked by `ReleaseLock`, its task not yet sent. -/
  | chosen
  /-- Its task was sent and has not started. -/
  | sent (d : Destination)
  /-- Its task was deleted. -/
  | dropped
  /-- It has read the value; the callback runs. -/
  | holding (serializedVal : List UInt8)
  /-- The callback is over, `ReleaseLock` not yet in its critical section. -/
  | releasing
  /-- `ReleaseLock` has picked the call `next`. -/
  | passing (next : Nat)
  | done
  deriving DecidableEq, Repr

def Phase.handed : Destination → Phase
  | .deleted => .dropped
  | d => .sent d

/-- The mutex, the calls in the order in which they entered their critical section,
where each stands, and the history: whose callbacks have started and finished. -/
structure State (V : Type) where
  mutex : MutexState V
  calls : List (PendingLock V)
  phases : List Phase
  settled : List (Resolver × Settlement V)
  thrown : List Exception
  started : List Nat
  completed : List Nat

inductive Action (V : Type) where
  | lock (args : LockArgs V)
  | finish (i : Nat)
  | release (i : Nat)
  | dispatch (i : Nat)
  | start (i : Nat)

namespace State
variable {V : Type} (codec : Codec V) (hasRunner : Isolate → Bool)

def initial (mutex : MutexState V) : State V := ⟨mutex, [], [], [], [], [], []⟩

/-- `Lock`'s critical section. -/
def enter (s : State V) (args : LockArgs V) (callback : Callback V) : State V :=
  let i := s.calls.length
  let call : PendingLock V := ⟨args.isolate, args.workerIndex, callback, i⟩
  if s.mutex.locked then
    {s with
      mutex := {s.mutex with pendingLocks := s.mutex.pendingLocks ++ [call]}
      calls := s.calls ++ [call]
      phases := s.phases ++ [.parked] }
  else
    {s with
      mutex := {s.mutex with locked := true}
      calls := s.calls ++ [call]
      phases := s.phases ++ [.holding s.mutex.serializedValue]
      started := s.started ++ [i] }

/-- The callback of call `i` has run on the value it read. -/
def writeBack (s : State V) (i : Nat) (call : PendingLock V) (serializedVal : List UInt8) :
    State V :=
  let (bytes, settlement) := lockBody codec call.callback serializedVal
  {s with
    mutex := {s.mutex with serializedValue := bytes.getD s.mutex.serializedValue}
    phases := s.phases.set i .releasing
    settled := s.settled ++ [(call.resolver, settlement)]
    completed := s.completed ++ [i] }

/-- `ReleaseLock`'s critical section. -/
def releaseLock (s : State V) (i : Nat) : State V :=
  match s.mutex.pendingLocks with
  | pending :: rest =>
    {s with
      mutex := {s.mutex with pendingLocks := rest}
      phases := (s.phases.set i (.passing pending.resolver)).set pending.resolver .chosen }
  | [] =>
    {s with
      mutex := {s.mutex with locked := false}
      phases := s.phases.set i .done }

/-- `ReleaseLock` sends the task of the call it picked, or deletes it. -/
def sendTask (s : State V) (i next : Nat) (call : PendingLock V) : State V :=
  let d := destination hasRunner call.isolate call.workerIndex
  {s with phases := (s.phases.set i .done).set next (.handed d)}

/-- The task of call `i` starts: `RunInternal` reads the value. -/
def startTask (s : State V) (i : Nat) : State V :=
  {s with
    phases := s.phases.set i (.holding s.mutex.serializedValue)
    started := s.started ++ [i] }

def step (s : State V) : Action V → Option (State V)
  | .lock args =>
    match lockChecks args with
    | .error e => some {s with thrown := s.thrown ++ [e]}
    | .ok callback => if args.resolverMade then some (s.enter args callback) else some s
  | .finish i =>
    match s.phases[i]?, s.calls[i]? with
    | some (.holding serializedVal), some call => some (s.writeBack codec i call serializedVal)
    | _, _ => none
  | .release i =>
    match s.phases[i]? with
    | some .releasing => some (s.releaseLock i)
    | _ => none
  | .dispatch i =>
    match s.phases[i]? with
    | some (.passing next) =>
      match s.calls[next]? with
      | some call => some (s.sendTask hasRunner i next call)
      | none => none
    | _ => none
  | .start i =>
    match s.phases[i]? with
    | some (.sent _) => some (s.startTask i)
    | _ => none

end State

def machine {V : Type} (codec : Codec V) (hasRunner : Isolate → Bool) : Machine (State V) (Action V) :=
  ⟨State.step codec hasRunner⟩

end V8Multithread.Threading.Mutex
