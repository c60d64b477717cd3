import V8Multithread.Base.Machine

/-! `CancelableTaskManager` and the tasks that register with it.

The status of a task is one atomic word. The manager cancels a task, the platform runs it and the
destructor claims it, each with one compare-exchange that expects `kWaiting`, so at most one of the
three succeeds. The manager's own data is behind its mutex.

An action is one critical section, one compare-exchange outside the mutex, or the end of a body. The
loops of `CancelAndWait` and `TryAbortAll` cancel one task after the other with the mutex held, while
other threads may change the status of the tasks that are still to come; so they are one action for
each task, and `holder` is the loop that has the mutex. The order is that of a hash map, which is any. -/
namespace V8Multithread.Tasks

/-! ### Tasks -/

inductive Status where
  | kWaiting
  | kCanceled
  | kRunning
  deriving DecidableEq, Repr

def kInvalidTaskId : Nat := 0

inductive Phase where
  | idle
  /-- In `RunInternal`. -/
  | running
  /-- In the destructor, before `RemoveFinishedTask`. -/
  | destroying
  | destroyed
  deriving DecidableEq, Repr

structure Cancelable where
  id : Nat
  status : Status
  phase : Phase
  runs : Nat
  deriving DecidableEq, Repr

namespace Cancelable

/-- The new task, the outcome, and the status before. -/
def compareExchangeStatus (t : Cancelable) (expected desired : Status) : Cancelable × Bool × Status :=
  if t.status = expected then ({t with status := desired}, true, t.status) else (t, false, t.status)

def tryRun (t : Cancelable) : Cancelable × Bool × Status := t.compareExchangeStatus .kWaiting .kRunning

def cancel (t : Cancelable) : Cancelable × Bool :=
  let (t, success, _) := t.compareExchangeStatus .kWaiting .kCanceled
  (t, success)

/-- `Run`, up to where the body starts. -/
def run (t : Cancelable) : Cancelable :=
  match t.tryRun with
  | (t, true, _) => {t with phase := .running, runs := t.runs + 1}
  | (t, false, _) => t

/-- The destructor, up to `RemoveFinishedTask` if it is called. -/
def destroy (t : Cancelable) : Cancelable :=
  match t.tryRun with
  | (t, success, previous) => {t with phase := if success ∨ previous = .kRunning then .destroying else .destroyed}

end Cancelable

/-! ### The manager -/

inductive TryAbortResult where
  | kTaskRemoved
  | kTaskRunning
  | kTaskAborted
  deriving DecidableEq, Repr

/-- A call of `CancelAndWait`. -/
inductive Caller where
  | canceling
  | waiting
  | returned
  deriving DecidableEq, Repr

/-- A loop over the tasks that has the mutex: the ids that are still to come, and the call of
`CancelAndWait` that it belongs to, or `none` for `TryAbortAll`. -/
structure Pass where
  ids : List Nat
  caller : Option Nat
  deriving DecidableEq, Repr

structure Manager where
  tasks : List Cancelable
  taskIdCounter : Nat
  cancelableTasks : List (Nat × Nat)
  canceled : Bool
  holder : Option Pass
  callers : List Caller
  deriving DecidableEq, Repr

inductive Action where
  | register
  | run (k : Nat)
  | bodyEnds (k : Nat)
  | destroy (k : Nat)
  | removeFinishedTask (k : Nat)
  | tryAbort (id : Nat)
  | tryAbortAll
  | cancelAndWait
  | wakes (c : Nat)
  /-- The loop that has the mutex comes to a task. -/
  | next (id : Nat)
  | passEnds
  deriving DecidableEq, Repr

namespace Manager

def initial : Manager where
  tasks := []
  taskIdCounter := kInvalidTaskId
  cancelableTasks := []
  canceled := false
  holder := none
  callers := []

def setTask (m : Manager) (k : Nat) (t : Cancelable) : Manager := {m with tasks := m.tasks.set k t}

def setCaller (m : Manager) (c : Nat) (caller : Caller) : Manager := {m with callers := m.callers.set c caller}

def erase (m : Manager) (id : Nat) : Manager :=
  {m with cancelableTasks := m.cancelableTasks.filter fun entry => entry.1 ≠ id}

def register (m : Manager) : Manager :=
  let task : Cancelable := ⟨kInvalidTaskId, .kWaiting, .idle, 0⟩
  if m.canceled then {m with tasks := m.tasks ++ [task.cancel.1]}
  else
    let id := m.taskIdCounter + 1
    {m with
      tasks := m.tasks ++ [{task with id := id}]
      taskIdCounter := id
      cancelableTasks := m.cancelableTasks ++ [(id, m.tasks.length)]}

/-- The platform may call `Run` more than once, also while the body runs. -/
def run (m : Manager) (k : Nat) : Option Manager :=
  match m.tasks[k]? with
  | some t => if t.phase = .idle ∨ t.phase = .running then some (m.setTask k t.run) else none
  | none => none

def bodyEnds (m : Manager) (k : Nat) : Option Manager :=
  match m.tasks[k]? with
  | some t => if t.phase = .running then some (m.setTask k {t with phase := .idle}) else none
  | none => none

def destroy (m : Manager) (k : Nat) : Option Manager :=
  match m.tasks[k]? with
  | some t => if t.phase = .idle then some (m.setTask k t.destroy) else none
  | none => none

def removeFinishedTask (m : Manager) (k : Nat) : Option Manager :=
  match m.tasks[k]? with
  | some t => if t.phase = .destroying then some ((m.erase t.id).setTask k {t with phase := .destroyed}) else none
  | none => none

/-- Cancels the task of an entry and drops the entry, or leaves both as they are. -/
def cancelTask (m : Manager) (id k : Nat) : Manager × Bool :=
  match m.tasks[k]? with
  | some t =>
    match t.cancel with
    | (t, true) => ((m.erase id).setTask k t, true)
    | (_, false) => (m, false)
  | none => (m, false)

def tryAbort (m : Manager) (id : Nat) : Manager × TryAbortResult :=
  match m.cancelableTasks.lookup id with
  | some k =>
    match m.cancelTask id k with
    | (m, true) => (m, .kTaskAborted)
    | (m, false) => (m, .kTaskRunning)
  | none => (m, .kTaskRemoved)

def ids (m : Manager) : List Nat := m.cancelableTasks.map Prod.fst

/-- Returns `kTaskRemoved` at once without tasks. -/
def tryAbortAll (m : Manager) : Manager :=
  if m.cancelableTasks.isEmpty then m else {m with holder := some ⟨m.ids, none⟩}

/-- The head of the loop of `CancelAndWait`. -/
def cancelLoop (m : Manager) (c : Nat) : Manager :=
  if m.cancelableTasks.isEmpty then m.setCaller c .returned
  else {m.setCaller c .canceling with holder := some ⟨m.ids, some c⟩}

def cancelAndWait (m : Manager) : Manager :=
  {m with canceled := true, callers := m.callers ++ [Caller.waiting]}.cancelLoop m.callers.length

def wakes (m : Manager) (c : Nat) : Option Manager :=
  match m.callers[c]? with
  | some .waiting => some (m.cancelLoop c)
  | _ => none

def next (m : Manager) (id : Nat) : Option Manager :=
  match m.holder with
  | some pass =>
    if id ∈ pass.ids then
      let m := {m with holder := some {pass with ids := pass.ids.erase id}}
      match m.cancelableTasks.lookup id with
      | some k => some (m.cancelTask id k).1
      | none => some m
    else none
  | none => none

/-- `TryAbortAll` returns, or `CancelAndWait` returns or waits. -/
def passEnds (m : Manager) : Option Manager :=
  match m.holder with
  | some ⟨[], none⟩ => some {m with holder := none}
  | some ⟨[], some c⟩ =>
    some ({m with holder := none}.setCaller c (if m.cancelableTasks.isEmpty then .returned else .waiting))
  | _ => none

def locked (m : Manager) (next : Option Manager) : Option Manager := if m.holder = none then next else none

def step (m : Manager) : Action → Option Manager
  | .register => m.locked (some m.register)
  | .run k => m.run k
  | .bodyEnds k => m.bodyEnds k
  | .destroy k => m.destroy k
  | .removeFinishedTask k => m.locked (m.removeFinishedTask k)
  | .tryAbort id => m.locked (if id = kInvalidTaskId then none else some (m.tryAbort id).1)
  | .tryAbortAll => m.locked (some m.tryAbortAll)
  | .cancelAndWait => m.locked (some m.cancelAndWait)
  | .wakes c => m.locked (m.wakes c)
  | .next id => m.next id
  | .passEnds => m.passEnds

end Manager

def machine : Machine Manager Action := ⟨Manager.step⟩

end V8Multithread.Tasks
