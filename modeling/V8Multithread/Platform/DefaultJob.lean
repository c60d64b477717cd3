import V8Multithread.Base.Machine
import V8Multithread.Base.Tally

/-! `DefaultJobState`: a job that several worker threads and the thread that joins it run together.

An action is one critical section under the mutex of the job, one access to an atomic, one task
handed to the platform, or a return from `JobTask::Run`. `GetMaxConcurrency` may answer anything at
any time, so its answer is part of the action that asks. A wait on the condition variable may end at
any time, and the condition is looked at again.

The handle is given up by `Join`, by `Cancel` or by `CancelAndDetach`, and after that nobody has it. -/
namespace V8Multithread.Platform.DefaultJob

def kMaxWorkersPerJob : Nat := 32

/-! ### Task ids -/

/-- The number of zero bits below the lowest one bit, and 32 for zero. -/
def countTrailingZeros32 (value : BitVec 32) : Nat := ((List.range 32).find? fun i => value.getLsbD i).getD 32

/-- `uint32_t(1) << task_id`. A count of 32 is undefined in C++; the processors take it modulo 32. -/
def taskBit (taskId : Nat) : BitVec 32 := 1#32 <<< (taskId % 32)

/-- A delegate; `kInvalidTaskId` is `none`. -/
structure JobDelegate where
  taskId : Option Nat := none
  /-- In `AcquireTaskId`: the ids as it last saw them. -/
  acquiring : Option (BitVec 32) := none
  deriving DecidableEq, Repr

/-! ### Threads -/

inductive Worker where
  | posted
  /-- In `JobTask::Run`. -/
  | running (delegate : JobDelegate)
  /-- `Run` has returned, and the delegate goes out of scope. -/
  | leaving (delegate : JobDelegate)
  /-- Before `DidRunTask`. -/
  | ran
  /-- `DidRunTask` has released the mutex, with so many tasks to post. -/
  | posting (numTasksToPost : Nat)
  | ended
  deriving DecidableEq, Repr

/-- The thread in `Join`. -/
inductive Joiner where
  /-- In `WaitForParticipationOpportunity`. The first time there is no delegate. -/
  | waiting (delegate : Option JobDelegate)
  | posting (numTasksToPost : Nat)
  | running (delegate : JobDelegate)
  | ran (delegate : JobDelegate)
  /-- The job is done, and the delegate goes out of scope. -/
  | leaving (delegate : JobDelegate)
  | returned
  deriving DecidableEq, Repr

inductive Owner where
  | handle
  | join (joiner : Joiner)
  | cancel (returned : Bool)
  | detached
  deriving DecidableEq, Repr

/-- A thread in `NotifyConcurrencyIncrease`. -/
inductive Notifier where
  /-- It saw that the job is not canceled. -/
  | called
  | posting (numTasksToPost : Nat)
  deriving DecidableEq, Repr

inductive Thread where
  | worker (w : Nat)
  | joiner
  deriving DecidableEq, Repr

structure State where
  activeWorkers : Nat
  pendingTasks : Nat
  isCanceled : Bool
  numWorkerThreads : Nat
  assignedTaskIds : BitVec 32
  workers : List Worker
  notifiers : List Notifier
  owner : Owner
  deriving DecidableEq, Repr

inductive Action where
  | notify
  | notifyLocked (n getMaxConcurrency : Nat)
  | notifierPosts (n : Nat)
  | threadPosts (thread : Thread)
  /-- All tasks are posted, and the thread calls `Run`. -/
  | run (thread : Thread)
  | canRunFirstTask (w getMaxConcurrency : Nat)
  /-- `GetTaskId` loads the ids. -/
  | loadTaskIds (thread : Thread)
  /-- `compare_exchange_weak`, which may fail without reason. -/
  | exchangeTaskIds (thread : Thread) (spurious : Bool)
  | runReturns (thread : Thread)
  | releaseTaskId (thread : Thread)
  | didRunTask (w getMaxConcurrency : Nat)
  | join (getMaxConcurrency : Nat)
  /-- The joining thread has the mutex, woken or after `Run`. -/
  | joinLocked (getMaxConcurrency : Nat)
  | cancelAndWait
  | cancelWakes
  | cancelAndDetach
  deriving DecidableEq, Repr

namespace State

def initial (numWorkerThreads : Nat) : State where
  activeWorkers := 0
  pendingTasks := 0
  isCanceled := false
  numWorkerThreads := min numWorkerThreads kMaxWorkersPerJob
  assignedTaskIds := 0
  workers := []
  notifiers := []
  owner := .handle

def cappedMaxConcurrency (s : State) (getMaxConcurrency : Nat) : Nat := min getMaxConcurrency s.numWorkerThreads

/-- How many tasks are missing, and the count with them. -/
def numTasksToPost (s : State) (maxConcurrency : Nat) : Nat :=
  if maxConcurrency > s.activeWorkers + s.pendingTasks then maxConcurrency - s.activeWorkers - s.pendingTasks else 0

def account (s : State) (maxConcurrency : Nat) : State :=
  {s with pendingTasks := s.pendingTasks + s.numTasksToPost maxConcurrency}

def setWorker (s : State) (w : Nat) (worker : Worker) : State := {s with workers := s.workers.set w worker}

def setJoiner (s : State) (joiner : Joiner) : State := {s with owner := .join joiner}

def setNotifier (s : State) (n : Nat) (notifier : Notifier) : State := {s with notifiers := s.notifiers.set n notifier}

def post (s : State) : State := {s with workers := s.workers ++ [.posted]}

/-! ### Notifying -/

def notify (s : State) : State := if s.isCanceled then s else {s with notifiers := s.notifiers ++ [.called]}

def notifyLocked (s : State) (n getMaxConcurrency : Nat) : Option State :=
  match s.notifiers[n]? with
  | some .called =>
    let maxConcurrency := s.cappedMaxConcurrency getMaxConcurrency
    some ((s.account maxConcurrency).setNotifier n (.posting (s.numTasksToPost maxConcurrency)))
  | _ => none

def notifierPosts (s : State) (n : Nat) : Option State :=
  match s.notifiers[n]? with
  | some (.posting (left + 1)) => some (s.setNotifier n (.posting left)).post
  | _ => none

def threadPosts (s : State) : Thread → Option State
  | .worker w =>
    match s.workers[w]? with
    | some (.posting (left + 1)) => some (s.setWorker w (.posting left)).post
    | _ => none
  | .joiner =>
    match s.owner with
    | .join (.posting (left + 1)) => some (s.setJoiner (.posting left)).post
    | _ => none

/-! ### Workers -/

def run (s : State) : Thread → Option State
  | .worker w =>
    match s.workers[w]? with
    | some (.posting 0) => some (s.setWorker w (.running {}))
    | _ => none
  | .joiner =>
    match s.owner with
    | .join (.posting 0) => some (s.setJoiner (.running {}))
    | _ => none

def canRunFirstTask (s : State) (w getMaxConcurrency : Nat) : Option State :=
  match s.workers[w]? with
  | some .posted =>
    let s := {s with pendingTasks := s.pendingTasks - 1}
    if s.isCanceled then some (s.setWorker w .ended)
    else if s.activeWorkers ≥ s.cappedMaxConcurrency getMaxConcurrency then some (s.setWorker w .ended)
    else some ({s with activeWorkers := s.activeWorkers + 1}.setWorker w (.running {}))
  | _ => none

def didRunTask (s : State) (w getMaxConcurrency : Nat) : Option State :=
  match s.workers[w]? with
  | some .ran =>
    let maxConcurrency := s.cappedMaxConcurrency getMaxConcurrency
    if s.isCanceled || s.activeWorkers > maxConcurrency then
      some ({s with activeWorkers := s.activeWorkers - 1}.setWorker w .ended)
    else some ((s.account maxConcurrency).setWorker w (.posting (s.numTasksToPost maxConcurrency)))
  | _ => none

/-! ### Delegates -/

/-- The delegate of a thread in `Run`. -/
def delegate (s : State) : Thread → Option JobDelegate
  | .worker w =>
    match s.workers[w]? with
    | some (.running d) => some d
    | _ => none
  | .joiner =>
    match s.owner with
    | .join (.running d) => some d
    | _ => none

def setDelegate (s : State) (thread : Thread) (d : JobDelegate) : State :=
  match thread with
  | .worker w => s.setWorker w (.running d)
  | .joiner => s.setJoiner (.running d)

def loadTaskIds (s : State) (thread : Thread) : Option State :=
  match s.delegate thread with
  | some ⟨none, none⟩ => some (s.setDelegate thread ⟨none, some s.assignedTaskIds⟩)
  | _ => none

def exchangeTaskIds (s : State) (thread : Thread) (spurious : Bool) : Option State :=
  match s.delegate thread with
  | some ⟨none, some assigned⟩ =>
    let taskId := countTrailingZeros32 (~~~assigned)
    if s.assignedTaskIds = assigned ∧ spurious = false then
      some ({s with assignedTaskIds := assigned ||| taskBit taskId}.setDelegate thread ⟨some taskId, none⟩)
    else some (s.setDelegate thread ⟨none, some s.assignedTaskIds⟩)
  | _ => none

/-- Not in the middle of `GetTaskId`. -/
def runReturns (s : State) (thread : Thread) : Option State :=
  match s.delegate thread with
  | some ⟨taskId, none⟩ =>
    match thread with
    | .worker w => some (s.setWorker w (.leaving ⟨taskId, none⟩))
    | .joiner => some (s.setJoiner (.ran ⟨taskId, none⟩))
  | _ => none

/-- The destructor of a delegate. -/
def release (s : State) (d : JobDelegate) : State :=
  match d.taskId with
  | some taskId => {s with assignedTaskIds := s.assignedTaskIds &&& ~~~taskBit taskId}
  | none => s

def releaseTaskId (s : State) : Thread → Option State
  | .worker w =>
    match s.workers[w]? with
    | some (.leaving d) => some ((s.release d).setWorker w .ran)
    | _ => none
  | .joiner =>
    match s.owner with
    | .join (.leaving d) => some ((s.release d).setJoiner .returned)
    | _ => none

/-! ### Joining and canceling -/

/-- The state and the maximum concurrency, or `none` to wait on. -/
def waitForParticipationOpportunity (s : State) (getMaxConcurrency : Nat) : Option (State × Nat) :=
  let maxConcurrency := s.cappedMaxConcurrency getMaxConcurrency
  if s.activeWorkers > maxConcurrency ∧ s.activeWorkers > 1 then none
  else if maxConcurrency ≠ 0 then some (s, maxConcurrency)
  else some ({s with activeWorkers := 0, isCanceled := true}, 0)

/-- `Join` up to the first tasks, when it has the mutex. -/
def joinFirst (s : State) (getMaxConcurrency : Nat) : State :=
  match s.waitForParticipationOpportunity getMaxConcurrency with
  | none => s.setJoiner (.waiting none)
  | some (s, 0) => s.setJoiner .returned
  | some (s, maxConcurrency + 1) =>
    (s.account (maxConcurrency + 1)).setJoiner (.posting (s.numTasksToPost (maxConcurrency + 1)))

def joinAgain (s : State) (d : JobDelegate) (getMaxConcurrency : Nat) : State :=
  match s.waitForParticipationOpportunity getMaxConcurrency with
  | none => s.setJoiner (.waiting (some d))
  | some (s, 0) => s.setJoiner (.leaving d)
  | some (s, _ + 1) => s.setJoiner (.running d)

def join (s : State) (getMaxConcurrency : Nat) : Option State :=
  match s.owner with
  | .handle =>
    some ({s with
      numWorkerThreads := s.numWorkerThreads + 1
      activeWorkers := s.activeWorkers + 1}.joinFirst getMaxConcurrency)
  | _ => none

def joinLocked (s : State) (getMaxConcurrency : Nat) : Option State :=
  match s.owner with
  | .join (.waiting none) => some (s.joinFirst getMaxConcurrency)
  | .join (.waiting (some d)) => some (s.joinAgain d getMaxConcurrency)
  | .join (.ran d) => some (s.joinAgain d getMaxConcurrency)
  | _ => none

def cancelAndWait (s : State) : Option State :=
  match s.owner with
  | .handle => some {s with isCanceled := true, owner := .cancel (s.activeWorkers = 0)}
  | _ => none

def cancelWakes (s : State) : Option State :=
  match s.owner with
  | .cancel false => some {s with owner := .cancel (s.activeWorkers = 0)}
  | _ => none

def cancelAndDetach (s : State) : Option State :=
  match s.owner with
  | .handle => some {s with isCanceled := true, owner := .detached}
  | _ => none

def step (s : State) : Action → Option State
  | .notify => some s.notify
  | .notifyLocked n getMaxConcurrency => s.notifyLocked n getMaxConcurrency
  | .notifierPosts n => s.notifierPosts n
  | .threadPosts thread => s.threadPosts thread
  | .run thread => s.run thread
  | .canRunFirstTask w getMaxConcurrency => s.canRunFirstTask w getMaxConcurrency
  | .loadTaskIds thread => s.loadTaskIds thread
  | .exchangeTaskIds thread spurious => s.exchangeTaskIds thread spurious
  | .runReturns thread => s.runReturns thread
  | .releaseTaskId thread => s.releaseTaskId thread
  | .didRunTask w getMaxConcurrency => s.didRunTask w getMaxConcurrency
  | .join getMaxConcurrency => s.join getMaxConcurrency
  | .joinLocked getMaxConcurrency => s.joinLocked getMaxConcurrency
  | .cancelAndWait => s.cancelAndWait
  | .cancelWakes => s.cancelWakes
  | .cancelAndDetach => s.cancelAndDetach

end State

def machine : Machine State Action := ⟨State.step⟩

end V8Multithread.Platform.DefaultJob
