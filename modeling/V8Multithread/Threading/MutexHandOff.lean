import V8Multithread.Threading.Mutex
import V8Multithread.Threading.Pool

/-! A mutex in a pool.

`ReleaseLock` hands the lock to the longest parked call by sending it a
`ResolveMutexTask`: through `SubmitToWorker` if a worker made the call, else through
the foreground task runner of the caller's isolate. Between the two the lock belongs to
nobody but that task. This module puts the machines of the mutex and of the pool side
by side, with the tasks that link them. -/
namespace V8Multithread.Threading.HandOff
open Mutex (Codec LockArgs)

/-- The mutex and the pool. For each call of `lock`, `callers` has the worker that made
it, if one did; `tasks` has the task number of each call whose `ResolveMutexTask` went to
a worker, and `foreground` the calls whose task waits in a foreground runner. -/
structure System (V : Type) where
  mutex : Mutex.State V
  pool : Pool.State
  callers : List (Option Pool.Home)
  tasks : List (Nat × Nat)
  foreground : List Nat

inductive Action (V : Type) where
  | lock (caller : Option Pool.Home) (args : LockArgs V)
  | finish (i : Nat)
  | release (i : Nat)
  /-- `ReleaseLock` sends the task of the call it picked. -/
  | dispatch (i : Nat)
  /-- `RunInternal` starts in a worker, or in the foreground. -/
  | startInWorker (i thread : Nat)
  | startInForeground (i : Nat)
  /-- A step of the pool that is none of the mutex's. -/
  | pool (a : Pool.Action)

namespace System
variable {V : Type} (codec : Codec V) (hasRunner : Isolate → Bool)

def initial (mutex : Mutex.MutexState V) (poolSize : Nat) : System V :=
  ⟨.initial mutex, .initial poolSize, [], [], []⟩

/-- The arguments are those of a call made there: `g_worker_index` and the current
isolate of the thread. -/
def calledFrom (s : System V) (caller : Option Pool.Home) (args : LockArgs V) : Bool :=
  match caller with
  | none => args.workerIndex = -1
  | some home =>
    match s.pool.threads[home.thread]? with
    | some thread => thread.isolate = some home.isolate ∧ args.isolate = home.isolate ∧ args.workerIndex = thread.index
    | none => false

def innermost (s : System V) (j : Nat) : Option Nat :=
  match s.pool.threads[j]? with
  | some ⟨_, _, .running frame _⟩ => some frame.task.id
  | _ => none

/-- `RunInternal` of the innermost task has returned, if it is one of the mutex's. -/
def returned (s : System V) (j : Nat) : Bool :=
  match s.innermost j with
  | some id => s.tasks.all fun p => p.2 ≠ id ∨ s.mutex.phases[p.1]? = some .done
  | none => true

def send (s : System V) (i next : Nat) (call : Mutex.PendingLock V) : Option (System V) :=
  let mutex := s.mutex.sendTask hasRunner i next call
  match destination hasRunner call.isolate call.workerIndex, s.callers[next]? with
  | .worker _, some (some home) =>
    (s.pool.step (.submitToWorker home)).map fun pool =>
      {s with mutex, pool, tasks := s.tasks ++ [(next, s.pool.nextTask)] }
  | .worker _, _ => none
  | .foreground _, _ => some {s with mutex, foreground := s.foreground ++ [next] }
  | .deleted, _ => some {s with mutex}

def step (s : System V) : Action V → Option (System V)
  | .lock caller args =>
    if s.calledFrom caller args then
      (s.mutex.step codec hasRunner (.lock args)).map fun mutex =>
        {s with
          mutex
          callers := if mutex.calls.length = s.mutex.calls.length then s.callers
            else s.callers ++ [caller] }
    else none
  | .finish i => (s.mutex.step codec hasRunner (.finish i)).map fun mutex => {s with mutex}
  | .release i => (s.mutex.step codec hasRunner (.release i)).map fun mutex => {s with mutex}
  | .dispatch i =>
    match s.mutex.phases[i]? with
    | some (.passing next) =>
      match s.mutex.calls[next]? with
      | some call => s.send hasRunner i next call
      | none => none
    | _ => none
  | .startInWorker i j =>
    match s.mutex.phases[i]?, s.innermost j with
    | some (.sent (.worker _)), some id =>
      if (i, id) ∈ s.tasks then some {s with mutex := s.mutex.startTask i} else none
    | _, _ => none
  | .startInForeground i =>
    match s.mutex.phases[i]? with
    | some (.sent (.foreground _)) =>
      if i ∈ s.foreground then
        some {s with mutex := s.mutex.startTask i, foreground := s.foreground.erase i}
      else none
    | _ => none
  | .pool (.finish j) =>
    if s.returned j then (s.pool.step (.finish j)).map fun pool => {s with pool} else none
  | .pool a => (s.pool.step a).map fun pool => {s with pool}

end System

def machine {V : Type} (codec : Codec V) (hasRunner : Isolate → Bool) : Machine (System V) (Action V) :=
  ⟨System.step codec hasRunner⟩

end V8Multithread.Threading.HandOff
