import V8Multithread.Base.Machine
import V8Multithread.Threading.Task

/-! Spawning and joining.

`Thread.spawn` puts a function into the global queue of the pool and returns a handle.
`Thread.join` takes the future out of the handle and returns a promise; behind the
promise a `JoinWaiterTask` goes into the same global queue, and the worker that runs it
blocks in `future::get` until the joined function has its result. It then sends a
`ResolveJoinTask` to the worker on which `join` was called. A function that awaits a
pending promise keeps its worker: `ExecuteTask` runs the tasks of that worker's private
queue, and nothing else, until the promise is settled.

An action is one operation of a function, one access to a queue, or one return from
`get`. Between its two probes of `GetTask` a worker can be overtaken, so a worker without
a task may turn to either queue. How workers sleep and wake, and the deques, which
neither `spawn` nor `join` uses, are left to the module on the pool. The pool keeps its
size. -/
namespace V8Multithread.Threading.Join

/-- What a function does with threads, up to its return (`finish true`) or an exception
(`finish false`). Handles and promises are numbered in the order in which the function
got them. -/
inductive Body where
  | finish (success : Bool)
  | spawn (child rest : Body)
  | join (handle : Nat) (rest : Body)
  | await (promise : Nat) (rest : Body)
  deriving DecidableEq, Repr

def Body.ended : Body → Bool
  | .finish _ => true
  | _ => false

/-- A function that has been called. A handle is empty once it has been joined. -/
structure Frame where
  body : Body
  handles : List (Option Nat)
  promises : List Resolver
  deriving DecidableEq, Repr

/-- A task of the global queue. The caller of `join` is a worker, by its index, or a
thread outside the pool. -/
inductive ThreadTask where
  | function (id : Nat) (body : Body)
  | joinWaiter (id : Nat) (caller : Option Nat) (resolver : Resolver)
  deriving DecidableEq, Repr

structure ResolveJoinTask where
  resolver : Resolver
  success : Bool
  deriving DecidableEq, Repr

inductive Phase where
  | getTask
  | executing (id : Nat) (frame : Frame)
  /-- In `future_ptr_->get()`. -/
  | joining (id : Nat) (caller : Option Nat) (resolver : Resolver)
  deriving DecidableEq, Repr

def Phase.setFrame (f : Frame) : Phase → Phase
  | .executing id _ => .executing id f
  | phase => phase

/-- The pool, the function that the main thread runs, the futures of the functions that
were spawned, and the promises that `join` returned. -/
structure State where
  workers : List Phase
  privateQueues : List (List ResolveJoinTask)
  globalQueue : List ThreadTask
  main : Frame
  foreground : List ResolveJoinTask
  /-- The main isolate has a foreground task runner. -/
  hasRunner : Bool
  futures : List (Option Bool)
  promises : List (Option Bool)
  deriving DecidableEq, Repr

inductive Action where
  /-- The next operation of the function on a worker, or of the main thread's. -/
  | operate (caller : Option Nat)
  /-- A worker gets the front of the global queue. -/
  | take (worker : Nat)
  /-- A worker without a task, or with a waiting one, looks into its private queue. -/
  | poll (worker : Nat)
  /-- The foreground task runner of the main thread. -/
  | pump
  /-- A function has ended, and its future gets the result. -/
  | setResult (worker : Nat)
  /-- `get` returns. -/
  | getReturns (worker : Nat)
  deriving DecidableEq, Repr

namespace State

def initial (poolSize : Nat) (main : Body) (hasRunner : Bool) : State where
  workers := List.replicate poolSize .getTask
  privateQueues := List.replicate poolSize []
  globalQueue := []
  main := ⟨main, [], []⟩
  foreground := []
  hasRunner
  futures := []
  promises := []

/-! ### Functions -/

/-- The function that a worker runs, or the main thread. -/
def frame (s : State) : Option Nat → Option Frame
  | none => some s.main
  | some w =>
    match s.workers[w]? with
    | some (.executing _ f) => some f
    | _ => none

def setFrame (s : State) (caller : Option Nat) (f : Frame) : State :=
  match caller with
  | none => {s with main := f}
  | some w => {s with workers := s.workers.modify w (Phase.setFrame f)}

/-- `ThreadSpawn`: the future is new, and the handle has it. -/
def threadSpawn (s : State) (caller : Option Nat) (f : Frame) (child rest : Body) : State :=
  let id := s.futures.length
  {s.setFrame caller {f with body := rest, handles := f.handles ++ [some id]} with
    globalQueue := s.globalQueue ++ [.function id child]
    futures := s.futures ++ [none] }

/-- The function throws, and nothing in it catches. -/
def throw (s : State) (caller : Option Nat) (f : Frame) : State :=
  s.setFrame caller {f with body := .finish false}

/-- `ThreadJoin`. A handle that is empty, or that the function does not have, makes it
throw a TypeError. -/
def threadJoin (s : State) (caller : Option Nat) (f : Frame) (handle : Nat) (rest : Body) : State :=
  match f.handles[handle]? with
  | some (some id) =>
    let resolver := s.promises.length
    {s.setFrame caller {f with
        body := rest
        handles := f.handles.set handle none
        promises := f.promises ++ [resolver]} with
      globalQueue := s.globalQueue ++ [.joinWaiter id caller resolver]
      promises := s.promises ++ [none] }
  | _ => s.throw caller f

/-- The function awaits a promise that is not settled. -/
def pending (s : State) (f : Frame) : Bool :=
  match f.body with
  | .await promise _ =>
    match f.promises[promise]? with
    | some resolver => s.promises[resolver]? = some none
    | none => false
  | _ => false

/-- `await`: a rejected promise throws, and what is no promise is passed over. -/
def await (s : State) (caller : Option Nat) (f : Frame) (promise : Nat) (rest : Body) : State :=
  match f.promises[promise]? with
  | some resolver =>
    if s.promises[resolver]? = some (some false) then s.throw caller f
    else s.setFrame caller {f with body := rest}
  | none => s.setFrame caller {f with body := rest}

def operate (s : State) (caller : Option Nat) (f : Frame) : Option State :=
  match f.body with
  | .finish _ => none
  | .spawn child rest => some (s.threadSpawn caller f child rest)
  | .join handle rest => some (s.threadJoin caller f handle rest)
  | .await promise rest => if s.pending f then none else some (s.await caller f promise rest)

/-! ### Workers -/

/-- A worker in this phase looks into its private queue. -/
def polls (s : State) : Phase → Bool
  | .getTask => true
  | .executing _ f => s.pending f
  | .joining .. => false

/-- `RunInternal` of a `ResolveJoinTask`. -/
def resolve (s : State) (task : ResolveJoinTask) : State :=
  {s with promises := s.promises.set task.resolver (some task.success)}

/-- What `JoinWaiterTask` does with the result. -/
def deliver (s : State) (caller : Option Nat) (task : ResolveJoinTask) : State :=
  match caller with
  | some w => {s with privateQueues := s.privateQueues.modify w (· ++ [task])}
  | none => if s.hasRunner then {s with foreground := s.foreground ++ [task]} else s

def setPhase (s : State) (w : Nat) (phase : Phase) : State :=
  {s with workers := s.workers.set w phase}

/-- What a worker does with a task it has got. -/
def begin : ThreadTask → Phase
  | .function id body => .executing id ⟨body, [], []⟩
  | .joinWaiter id caller resolver => .joining id caller resolver

def step (s : State) : Action → Option State
  | .operate caller => (s.frame caller).bind (s.operate caller)
  | .take w =>
    match s.workers[w]?, s.globalQueue with
    | some .getTask, task :: rest => some {s.setPhase w (begin task) with globalQueue := rest}
    | _, _ => none
  | .poll w =>
    match s.workers[w]?, s.privateQueues[w]? with
    | some phase, some queue =>
      if s.polls phase then
        match queue with
        | task :: rest => some ({s with privateQueues := s.privateQueues.set w rest}.resolve task)
        | [] => some s
      else none
    | _, _ => none
  | .pump =>
    match s.foreground with
    | task :: rest =>
      -- the runner has the thread while the main function waits or has ended
      if s.pending s.main ∨ s.main.body.ended then
        some ({s with foreground := rest}.resolve task)
      else none
    | [] => none
  | .setResult w =>
    match s.workers[w]? with
    | some (.executing id ⟨.finish success, _, _⟩) =>
      some {s.setPhase w .getTask with futures := s.futures.set id (some success)}
    | _ => none
  | .getReturns w =>
    match s.workers[w]? with
    | some (.joining id caller resolver) =>
      match s.futures[id]? with
      | some (some success) => some ((s.setPhase w .getTask).deliver caller ⟨resolver, success⟩)
      | _ => none
    | _ => none

/-! ### Deadlock -/

/-- The worker is blocked in `get` of a function without a result, or spins on a pending
promise with an empty private queue. -/
def stuck (s : State) (w : Nat) : Phase → Bool
  | .getTask => false
  | .executing _ f => s.pending f ∧ s.privateQueues[w]? = some []
  | .joining id _ _ => s.futures[id]? = some none

/-- A function has no result, and every worker is stuck. -/
def Deadlock (s : State) : Prop :=
  none ∈ s.futures ∧ ∀ w phase, s.workers[w]? = some phase → s.stuck w phase

end State

def machine : Machine State Action := ⟨State.step⟩

end V8Multithread.Threading.Join
