import V8Multithread.Base.Machine
import V8Multithread.Base.Tally
import V8Multithread.Threading.Task

/-! The thread pool.

Tasks come in through `Submit` (any worker may run them), `SubmitToWorker` (only one
worker may) and `SubmitFromWorker` (a worker keeps them in its own deque, from which
others may steal). A worker thread fetches a task with `GetTask`, runs it, and fetches
the next; without work it sleeps on a condition variable. A spawned function may
return a pending promise; its worker then runs the tasks of its private queue inside
the waiting one until the promise is settled. A task of the automatic parallelism
does the same in a loop of its own.

Every action below is one atomic access or one critical section of the source, except
that `pool_mutex_`, held over several accesses, is a part of the state. A submission
goes on by itself once it has begun: the thread that makes it may take other steps in
between, which allows more orders than the source has. The pool is not torn down, so
`terminated_` stays false and its tests are left out. -/
namespace V8Multithread.Threading.Pool
open List

inductive Kind where
  /-- A function given to `Thread.spawn`: it may wait for its promise. -/
  | spawned
  /-- A microtask moved to the pool: it may wait for its promise too. -/
  | autoParallel
  /-- `IsInternal()`, and no loop of its own. -/
  | internal
  deriving DecidableEq, Repr

/-- Where the promise resolver of a task was made. -/
structure Home where
  thread : Nat
  isolate : Isolate
  deriving DecidableEq, Repr

/-- Tasks are numbered in the order in which they are submitted. -/
structure ThreadTask where
  id : Nat
  kind : Kind
  home : Option Home
  deriving DecidableEq, Repr

inductive Queue where
  | globalQueue
  | privateQueue (index : Nat)
  | deque (index : Nat)
  deriving DecidableEq, Repr

inductive Loop where
  /-- `WorkerThread::Run`. -/
  | run
  /-- The wait for a promise in `WorkerThread::ExecuteTask`. -/
  | executeTask
  /-- The wait in `AutoParallelThreadTask::RunInternal`. -/
  | autoParallel
  deriving DecidableEq, Repr

def Kind.loop : Kind → Option Loop
  | .spawned => some .executeTask
  | .autoParallel => some .autoParallel
  | .internal => none

structure Frame where
  task : ThreadTask
  loop : Loop
  deriving DecidableEq, Repr

/-- Where a worker thread is. From `testSize` to `wait`, and in `woken` and `unlock`,
it holds `pool_mutex_`. -/
inductive Pc where
  /-- The probes of `GetTask`, in their order. -/
  | probePrivate
  | probeDeque
  | probeGlobal
  | steal (i : Nat)
  | lockPool
  | testSize
  /-- The probes of `HasWork`. -/
  | hasPrivate
  | hasGlobal
  | hasDeques (i : Nat)
  /-- Before `sleeping_workers_` goes up. -/
  | announce
  | wait
  /-- Blocked in `work_cv_.Wait` with no notification. -/
  | waiting
  | notified
  /-- Before `sleeping_workers_` goes down. -/
  | woken
  /-- The end of the block, back to the head of the loop. -/
  | unlock
  /-- Running a task, inside those that wait for it. -/
  | running (frame : Frame) (outer : List Frame)
  | exited
  deriving DecidableEq, Repr

/-- A worker thread. Its isolate is made when it has its first task. -/
structure WorkerThread where
  index : Nat
  isolate : Option Isolate
  pc : Pc
  deriving DecidableEq, Repr

def WorkerThread.notify (thread : WorkerThread) : WorkerThread :=
  if thread.pc = .waiting then {thread with pc := .notified} else thread

/-- The queues of one index. They are made together and never removed. -/
structure Slot where
  deque : List ThreadTask
  privateQueue : List ThreadTask
  deriving DecidableEq, Repr

inductive SubmitPhase where
  /-- `active_tasks_` has gone up. -/
  | incremented
  | pushed
  /-- It read a positive `sleeping_workers_`. -/
  | notifying
  | done
  deriving DecidableEq, Repr

structure Submission where
  task : ThreadTask
  queue : Queue
  phase : SubmitPhase
  deriving DecidableEq, Repr

/-- The pool. `threads` has every thread ever started, and `completed` the tasks that
have been run and deleted, with the loops that took them. -/
structure State where
  poolSize : Nat
  threads : List WorkerThread
  slots : List Slot
  globalQueue : List ThreadTask
  /-- The thread that holds `pool_mutex_`. -/
  poolMutex : Option Nat
  sleepingWorkers : Int
  activeTasks : Int
  submissions : List Submission
  nextTask : Nat
  nextIsolate : Isolate
  completed : List Frame
  deriving DecidableEq, Repr

inductive Action where
  | submit (kind : Kind)
  | submitToWorker (home : Home)
  | submitFromWorker (thread : Nat) (kind : Kind)
  /-- The steps of the submission at a position. `NotifyOne` wakes `thread`. -/
  | push (submission : Nat)
  | load (submission : Nat)
  | notify (submission : Nat) (thread : Nat)
  /-- The next step of a thread in `GetTask`. -/
  | getTask (thread : Nat)
  /-- A waiting task looks into the private queue. -/
  | poll (thread : Nat)
  | finish (thread : Nat)
  | wakeUp (thread : Nat)
  | resize (newPoolSize : Nat)
  deriving DecidableEq, Repr

/-- What a step of `GetTask` does beyond moving on. -/
inductive Outcome where
  | goto (pc : Pc)
  | acquire (pc : Pc)
  | release (pc : Pc)
  | sleeping (change : Int) (pc : Pc)
  /-- A task is taken; `rest` is what it leaves in its queue. -/
  | take (queue : Queue) (task : ThreadTask) (rest : List ThreadTask)
  deriving DecidableEq

namespace State

def initial (poolSize : Nat) : State where
  poolSize := poolSize
  threads := (range poolSize).map fun i => ⟨i, none, .probePrivate⟩
  slots := replicate poolSize ⟨[], []⟩
  globalQueue := []
  poolMutex := none
  sleepingWorkers := 0
  activeTasks := 0
  submissions := []
  nextTask := 0
  nextIsolate := 0
  completed := []

def queue (s : State) : Queue → List ThreadTask
  | .globalQueue => s.globalQueue
  | .privateQueue index => (s.slots[index]?.map (·.privateQueue)).getD []
  | .deque index => (s.slots[index]?.map (·.deque)).getD []

def setQueue (s : State) (q : Queue) (tasks : List ThreadTask) : State :=
  match q with
  | .globalQueue => {s with globalQueue := tasks}
  | .privateQueue index =>
    {s with slots := s.slots.modify index fun slot => {slot with privateQueue := tasks}}
  | .deque index => {s with slots := s.slots.modify index fun slot => {slot with deque := tasks}}

def setThread (s : State) (j : Nat) (thread : WorkerThread) : State :=
  {s with threads := s.threads.set j thread}

/-! ### GetTask -/

/-- Take the front of a queue, or go on. -/
def front (s : State) (q : Queue) (next : Pc) : Outcome :=
  match s.queue q with
  | task :: rest => .take q task rest
  | [] => .goto next

/-- Take the bottom of a deque, or go on. -/
def pop (s : State) (index : Nat) (next : Pc) : Outcome :=
  match (s.queue (.deque index)).reverse with
  | task :: rest => .take (.deque index) task rest.reverse
  | [] => .goto next

/-- Leave the block if a queue has work, or go on. -/
def probe (s : State) (q : Queue) (next : Pc) : Outcome :=
  if s.queue q = [] then .goto next else .goto .unlock

/-- The next step of `GetTask(index)` from `pc`, if it is not blocked. -/
def getTask (s : State) (index : Nat) : Pc → Option Outcome
  | .probePrivate => some (s.front (.privateQueue index) .probeDeque)
  | .probeDeque => some (s.pop index .probeGlobal)
  | .probeGlobal => some (s.front .globalQueue (.steal 0))
  | .steal i =>
    if i < s.poolSize then
      let target := (index + 1 + i) % s.poolSize
      if target = index then some (.goto (.steal (i + 1)))
      else some (s.front (.deque target) (.steal (i + 1)))
    else some (.goto .lockPool)
  | .lockPool => if s.poolMutex = none then some (.acquire .testSize) else none
  | .testSize => if s.poolSize ≤ index then some (.release .exited) else some (.goto .hasPrivate)
  | .hasPrivate => some (s.probe (.privateQueue index) .hasGlobal)
  | .hasGlobal => some (s.probe .globalQueue (.hasDeques 0))
  | .hasDeques i =>
    if i < s.poolSize then some (s.probe (.deque i) (.hasDeques (i + 1)))
    else some (.goto .announce)
  | .announce => some (.sleeping 1 .wait)
  | .wait => some (.release .waiting)
  | .waiting => none
  | .notified => if s.poolMutex = none then some (.acquire .woken) else none
  | .woken => some (.sleeping (-1) .unlock)
  | .unlock => some (.release .probePrivate)
  | .running _ _ => none
  | .exited => none

/-- The thread's isolate, made now if it has none. -/
def isolateOf (s : State) (thread : WorkerThread) : Isolate := thread.isolate.getD s.nextIsolate

def outcome (s : State) (j : Nat) (thread : WorkerThread) : Outcome → State
  | .goto pc => s.setThread j {thread with pc}
  | .acquire pc => {s.setThread j {thread with pc} with poolMutex := some j}
  | .release pc => {s.setThread j {thread with pc} with poolMutex := none}
  | .sleeping change pc =>
    {s.setThread j {thread with pc} with sleepingWorkers := s.sleepingWorkers + change}
  | .take q task rest =>
    {(s.setQueue q rest).setThread j ⟨thread.index, some (s.isolateOf thread), .running ⟨task, .run⟩ []⟩ with
      nextIsolate := if thread.isolate = none then s.nextIsolate + 1 else s.nextIsolate}

/-! ### Running a task -/

/-- The task that waited for the one that ended goes on, or `Run` does. -/
def resume : List Frame → Pc
  | [] => .probePrivate
  | frame :: outer => .running frame outer

/-- A task that waits for its promise takes a task of the private queue and runs it
inside; without one it sleeps for a while. -/
def poll (s : State) (j : Nat) (thread : WorkerThread) : Option State :=
  match thread.pc with
  | .running frame outer =>
    match frame.task.kind.loop with
    | some loop =>
      match s.queue (.privateQueue thread.index) with
      | task :: rest =>
        some ((s.setQueue (.privateQueue thread.index) rest).setThread j
          {thread with pc := .running ⟨task, loop⟩ (frame :: outer)})
      | [] => some s
    | none => none
  | _ => none

/-- The task returns, is deleted, and is counted off, unless the loop that took it is
the one of the automatic parallelism, which does not count it off. -/
def finish (s : State) (j : Nat) (thread : WorkerThread) : Option State :=
  match thread.pc with
  | .running frame outer =>
    some {s.setThread j {thread with pc := resume outer} with
      activeTasks := if frame.loop = .autoParallel then s.activeTasks else s.activeTasks - 1
      completed := s.completed ++ [frame] }
  | _ => none

/-! ### Submitting -/

/-- `IncrementActiveTasks`, with which every submission starts. -/
def begin (s : State) (kind : Kind) (home : Option Home) (queue : Queue) : State :=
  {s with
    activeTasks := s.activeTasks + 1
    submissions := s.submissions ++ [⟨⟨s.nextTask, kind, home⟩, queue, .incremented⟩]
    nextTask := s.nextTask + 1 }

def setSubmission (s : State) (k : Nat) (submission : Submission) : State :=
  {s with submissions := s.submissions.set k submission}

def notifyAll (s : State) : State := {s with threads := s.threads.map WorkerThread.notify}

/-- One of the waiting threads is woken, if there is one. -/
def notifyOne (s : State) (j : Nat) : Option State :=
  match s.threads.find? fun thread => thread.pc = .waiting with
  | none => some s
  | some _ =>
    match s.threads[j]? with
    | some thread => if thread.pc = .waiting then some (s.setThread j thread.notify) else none
    | none => none

/-- `Submit` and `SubmitToWorker` notify all, `SubmitFromWorker` one. -/
def notify (s : State) (q : Queue) (j : Nat) : Option State :=
  match q with
  | .deque _ => s.notifyOne j
  | _ => some s.notifyAll

/-! ### Resizing -/

def grow (s : State) (newPoolSize : Nat) : State :=
  {s with
    threads := s.threads ++ (List.range' s.poolSize (newPoolSize - s.poolSize)).map fun i => ⟨i, none, .probePrivate⟩
    slots := s.slots ++ replicate (newPoolSize - s.slots.length) ⟨[], []⟩
    poolSize := newPoolSize }

def shrink (s : State) (newPoolSize : Nat) : State := {s.notifyAll with poolSize := newPoolSize}

/-- `Resize` under `pool_mutex_`. The threads of the indices that go are left to end
by themselves, and are then joined. -/
def resize (s : State) (newPoolSize : Nat) : State :=
  if newPoolSize = s.poolSize then s
  else if s.poolSize < newPoolSize then s.grow newPoolSize
  else s.shrink newPoolSize

def step (s : State) : Action → Option State
  | .submit kind => some (s.begin kind none .globalQueue)
  | .submitToWorker home =>
    match s.threads[home.thread]? with
    | some thread =>
      -- the resolver was made by code that ran there
      if thread.isolate = some home.isolate then
        some (s.begin .internal (some home) (.privateQueue thread.index))
      else none
    | none => none
  | .submitFromWorker j kind =>
    match s.threads[j]? with
    | some ⟨index, _, .running _ _⟩ => some (s.begin kind none (.deque index))
    | _ => none
  | .push k =>
    match s.submissions[k]? with
    | some ⟨task, q, .incremented⟩ =>
      some ((s.setQueue q (s.queue q ++ [task])).setSubmission k ⟨task, q, .pushed⟩)
    | _ => none
  | .load k =>
    match s.submissions[k]? with
    | some ⟨task, q, .pushed⟩ =>
      let phase := if 0 < s.sleepingWorkers then .notifying else .done
      some (s.setSubmission k ⟨task, q, phase⟩)
    | _ => none
  | .notify k j =>
    match s.submissions[k]? with
    | some ⟨task, q, .notifying⟩ =>
      if s.poolMutex = none then (s.setSubmission k ⟨task, q, .done⟩).notify q j else none
    | _ => none
  | .getTask j =>
    match s.threads[j]? with
    | some thread => (s.getTask thread.index thread.pc).map (s.outcome j thread)
    | none => none
  | .poll j => s.threads[j]?.bind (s.poll j)
  | .finish j => s.threads[j]?.bind (s.finish j)
  | .wakeUp j =>
    match s.threads[j]? with
    | some thread => if thread.pc = .waiting then some (s.setThread j thread.notify) else none
    | none => none
  | .resize newPoolSize =>
    -- `Thread.setPoolSize` takes no size below one
    if s.poolMutex = none ∧ 1 ≤ newPoolSize then some (s.resize newPoolSize) else none

end State

/-- `HasActiveTasks`. -/
def State.hasActiveTasks (s : State) : Bool := 0 < s.activeTasks

def machine : Machine State Action := ⟨State.step⟩

end V8Multithread.Threading.Pool
