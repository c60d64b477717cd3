import V8Multithread.Threading.Pool

/-! What a step of the pool can do, and where its tasks are.

`Effect` inverts `State.step` once and for all; what the pool keeps is shown by cases
on it. `outstanding f` adds up `f` over the tasks that were submitted and have not
completed: those whose submission has not reached the queue, those queued, and those
some thread runs. No step loses or copies one (`Ledger`). -/
namespace V8Multithread.Threading.Pool
open List Option

def Pc.frames : Pc → List Frame
  | .running frame outer => frame :: outer
  | _ => []

def Outcome.next : Outcome → Pc
  | .goto pc | .acquire pc | .release pc | .sleeping _ pc => pc
  | .take _ task _ => .running ⟨task, .run⟩ []

namespace State

inductive Target (s : State) : Option Home → Queue → Prop
  | global : Target s none .globalQueue
  | worker {home : Home} {thread : WorkerThread} (hj : s.threads[home.thread]? = some thread)
      (hi : thread.isolate = some home.isolate) :
      Target s (some home) (.privateQueue thread.index)
  | own {j : Nat} {thread : WorkerThread} (hj : s.threads[j]? = some thread) : Target s none (.deque thread.index)

/-- What a step of `GetTask(index)` does from a place, and what it finds there. -/
inductive Moves (s : State) (index : Nat) : Pc → Outcome → Prop
  | privateTask {task rest} (hq : s.queue (.privateQueue index) = task :: rest) :
      Moves s index .probePrivate (.take (.privateQueue index) task rest)
  | noPrivate (hq : s.queue (.privateQueue index) = []) : Moves s index .probePrivate (.goto .probeDeque)
  | dequeTask {task rest} (hq : s.queue (.deque index) = rest ++ [task]) :
      Moves s index .probeDeque (.take (.deque index) task rest)
  | noDeque : Moves s index .probeDeque (.goto .probeGlobal)
  | globalTask {task rest} (hq : s.queue .globalQueue = task :: rest) :
      Moves s index .probeGlobal (.take .globalQueue task rest)
  | noGlobal (hq : s.queue .globalQueue = []) : Moves s index .probeGlobal (.goto (.steal 0))
  | stolen {i target task rest} (hq : s.queue (.deque target) = task :: rest) :
      Moves s index (.steal i) (.take (.deque target) task rest)
  | noSteal {i} : Moves s index (.steal i) (.goto (.steal (i + 1)))
  | gaveUp {i} : Moves s index (.steal i) (.goto .lockPool)
  | lock (hfree : s.poolMutex = none) : Moves s index .lockPool (.acquire .testSize)
  | leave (hsize : s.poolSize ≤ index) : Moves s index .testSize (.release .exited)
  | stay : Moves s index .testSize (.goto .hasPrivate)
  | seePrivate : Moves s index .hasPrivate (.goto .unlock)
  | passPrivate (hq : s.queue (.privateQueue index) = []) : Moves s index .hasPrivate (.goto .hasGlobal)
  | seeGlobal : Moves s index .hasGlobal (.goto .unlock)
  | passGlobal (hq : s.queue .globalQueue = []) : Moves s index .hasGlobal (.goto (.hasDeques 0))
  | seeDeque {i} : Moves s index (.hasDeques i) (.goto .unlock)
  | passDeque {i} : Moves s index (.hasDeques i) (.goto (.hasDeques (i + 1)))
  | passDeques {i} : Moves s index (.hasDeques i) (.goto .announce)
  | announce : Moves s index .announce (.sleeping 1 .wait)
  | wait : Moves s index .wait (.release .waiting)
  | wake (hfree : s.poolMutex = none) : Moves s index .notified (.acquire .woken)
  | count : Moves s index .woken (.sleeping (-1) .unlock)
  | unlock : Moves s index .unlock (.release .probePrivate)

/-- What a step does, and what it finds when it does it. -/
inductive Effect (s : State) : Action → State → Prop
  | begin {a kind home q} (h : s.Target home q) : Effect s a (s.begin kind home q)
  | push {k task q} (hk : s.submissions[k]? = some ⟨task, q, .incremented⟩) : Effect s (.push k)
        ((s.setQueue q (s.queue q ++ [task])).setSubmission k ⟨task, q, .pushed⟩)
  | loadPositive {k task q} (hk : s.submissions[k]? = some ⟨task, q, .pushed⟩) (hpos : 0 < s.sleepingWorkers) :
      Effect s (.load k) (s.setSubmission k ⟨task, q, .notifying⟩)
  | loadZero {k task q} (hk : s.submissions[k]? = some ⟨task, q, .pushed⟩)
      (hzero : s.sleepingWorkers ≤ 0) : Effect s (.load k) (s.setSubmission k ⟨task, q, .done⟩)
  | notifyAll {k j task q} (hk : s.submissions[k]? = some ⟨task, q, .notifying⟩) (hfree : s.poolMutex = none) :
      Effect s (.notify k j) (s.setSubmission k ⟨task, q, .done⟩).notifyAll
  | notifyNone {k j task index} (hk : s.submissions[k]? = some ⟨task, .deque index, .notifying⟩) :
      Effect s (.notify k j) (s.setSubmission k ⟨task, .deque index, .done⟩)
  | notifyOne {k j task index thread} (hk : s.submissions[k]? = some ⟨task, .deque index, .notifying⟩)
      (hj : s.threads[j]? = some thread) :
      Effect s (.notify k j) ((s.setSubmission k ⟨task, .deque index, .done⟩).setThread j thread.notify)
  | move {j thread o} (hj : s.threads[j]? = some thread) (hm : s.Moves thread.index thread.pc o)
      (hnext : o.next.frames = []) : Effect s (.getTask j) (s.outcome j thread o)
  | take {j thread q task rest} (hj : s.threads[j]? = some thread)
      (hm : s.Moves thread.index thread.pc (.take q task rest)) :
      Effect s (.getTask j) (s.outcome j thread (.take q task rest))
  | poll {j thread frame outer loop task rest} (hj : s.threads[j]? = some thread)
      (hpc : thread.pc = .running frame outer) (hloop : frame.task.kind.loop = some loop)
      (hq : s.queue (.privateQueue thread.index) = task :: rest) :
      Effect s (.poll j) ((s.setQueue (.privateQueue thread.index) rest).setThread j
        {thread with pc := .running ⟨task, loop⟩ (frame :: outer)})
  | sleep {j} : Effect s (.poll j) s
  | finish {j thread frame outer} (hj : s.threads[j]? = some thread) (hpc : thread.pc = .running frame outer) :
      Effect s (.finish j) {s.setThread j {thread with pc := resume outer} with
        activeTasks := if frame.loop = .autoParallel then s.activeTasks else s.activeTasks - 1
        completed := s.completed ++ [frame] }
  | wakeUp {j thread} (hj : s.threads[j]? = some thread) : Effect s (.wakeUp j) (s.setThread j thread.notify)
  | same {n} : Effect s (.resize n) s
  | grow {n} (hfree : s.poolMutex = none) (hn : s.poolSize < n) : Effect s (.resize n) (s.grow n)
  | shrink {n} (hfree : s.poolMutex = none) (hpos : 1 ≤ n) (hn : n < s.poolSize) : Effect s (.resize n) (s.shrink n)

variable {s s' : State} {q q' : Queue} {j : Nat} {thread : WorkerThread} {tasks : List ThreadTask}

/-! ### The queues -/

def InRange (s : State) : Queue → Prop
  | .globalQueue => True
  | .privateQueue index | .deque index => index < s.slots.length

theorem inRange_of_queue (h : s.queue q ≠ []) : s.InRange q := by
  cases q with
  | globalQueue => trivial
  | privateQueue index | deque index =>
    by_contra hlt
    exact h (by simp [queue, List.getElem?_eq_none (Nat.le_of_not_lt hlt)])

@[simp] theorem setQueue_threads : (s.setQueue q tasks).threads = s.threads := by
  cases q <;> rfl

@[simp] theorem setQueue_submissions : (s.setQueue q tasks).submissions = s.submissions := by
  cases q <;> rfl

@[simp] theorem setQueue_completed : (s.setQueue q tasks).completed = s.completed := by
  cases q <;> rfl

@[simp] theorem setQueue_activeTasks : (s.setQueue q tasks).activeTasks = s.activeTasks := by
  cases q <;> rfl

@[simp] theorem setQueue_sleepingWorkers : (s.setQueue q tasks).sleepingWorkers = s.sleepingWorkers := by
  cases q <;> rfl

@[simp] theorem setQueue_poolMutex : (s.setQueue q tasks).poolMutex = s.poolMutex := by
  cases q <;> rfl

@[simp] theorem setQueue_poolSize : (s.setQueue q tasks).poolSize = s.poolSize := by
  cases q <;> rfl

@[simp] theorem setQueue_nextTask : (s.setQueue q tasks).nextTask = s.nextTask := by
  cases q <;> rfl

@[simp] theorem setQueue_slots_length : (s.setQueue q tasks).slots.length = s.slots.length := by
  cases q <;> simp [setQueue]

theorem queue_setQueue_self (hq : s.InRange q) : (s.setQueue q tasks).queue q = tasks := by
  cases q with
  | globalQueue => rfl
  | privateQueue index | deque index =>
    simp [setQueue, queue, List.getElem?_eq_getElem hq]

theorem queue_setQueue_of_ne (h : q' ≠ q) : (s.setQueue q tasks).queue q' = s.queue q' := by
  cases q with
  | globalQueue => cases q' with
    | globalQueue => exact absurd rfl h
    | _ => rfl
  | privateQueue index | deque index => cases q' with
    | globalQueue => rfl
    | privateQueue index' | deque index' =>
      by_cases hi : index = index'
      · simp_all [setQueue, queue]
        try cases s.slots[index']? <;> rfl
      · simp [setQueue, queue, hi]

/-- A queue depends on nothing but the slots and the global queue. -/
theorem queue_congr (hsl : s'.slots = s.slots) (hg : s'.globalQueue = s.globalQueue) : s'.queue q = s.queue q := by
  cases q with
  | globalQueue => exact hg
  | privateQueue index | deque index => simp only [queue, hsl]

variable {task : ThreadTask} {o : Outcome} {index i : Nat} {a : Action}

/-- What is left of a queue was there before. -/
theorem mem_queue_of_taken {q' : Queue} {rest : List ThreadTask}
    (hq : s.queue q' = task :: rest ∨ s.queue q' = rest ++ [task]) {x : ThreadTask}
    (hx : x ∈ (s.setQueue q' rest).queue q) : x ∈ s.queue q := by
  by_cases hqq : q = q'
  · subst hqq
    rw [queue_setQueue_self (inRange_of_queue (by rcases hq with hq | hq <;> simp [hq]))] at hx
    rcases hq with hq | hq <;> simp [hq, hx]
  · rw [queue_setQueue_of_ne hqq] at hx
    exact hx

theorem queue_ne_of_taken {q' : Queue} {rest : List ThreadTask}
    (hq : s.queue q' = task :: rest ∨ s.queue q' = rest ++ [task]) (h : (s.setQueue q' rest).queue q ≠ []) :
    s.queue q ≠ [] := by
  obtain ⟨x, hx⟩ := exists_mem_of_ne_nil _ h
  exact ne_nil_of_mem (mem_queue_of_taken hq hx)

theorem queue_grow (n : Nat) : (s.grow n).queue q = s.queue q := by
  have hsl : ∀ index : Nat, (s.grow n).slots[index]? = s.slots[index]? ∨
      (s.slots[index]? = none ∧ (s.grow n).slots[index]? = some ⟨[], []⟩) := by
    intro index
    simp only [State.grow, List.getElem?_append, List.getElem?_replicate]
    split
    · exact .inl rfl
    · rename_i hlt
      rw [List.getElem?_eq_none (Nat.le_of_not_lt hlt)]
      split
      · exact .inr ⟨rfl, rfl⟩
      · exact .inl rfl
  cases q with
  | globalQueue => rfl
  | privateQueue index | deque index =>
    rcases hsl index with h | ⟨hno, hso⟩
    · simp only [queue, h]
    · simp only [queue, hno, hso]
      rfl

/-! ### Inversion -/

theorem front_cases {next : Pc} (h : s.front q next = o) : (∃ task rest, o = .take q task rest ∧ s.queue q = task :: rest) ∨
      (o = .goto next ∧ s.queue q = []) := by
  subst h
  unfold front
  cases s.queue q with
  | nil => exact .inr ⟨rfl, rfl⟩
  | cons task rest => exact .inl ⟨task, rest, rfl, rfl⟩

theorem pop_cases {next : Pc} (h : s.pop index next = o) :
    (∃ task rest, o = .take (.deque index) task rest ∧ s.queue (.deque index) = rest ++ [task]) ∨ o = .goto next := by
  subst h
  unfold pop
  cases hq : (s.queue (.deque index)).reverse with
  | nil => exact .inr rfl
  | cons task rest =>
    refine .inl ⟨task, rest.reverse, rfl, ?_⟩
    rw [← reverse_reverse (s.queue _), hq, reverse_cons]

theorem probe_cases {next : Pc} (h : s.probe q next = o) :
    (o = .goto .unlock ∧ s.queue q ≠ []) ∨ (o = .goto next ∧ s.queue q = []) := by
  subst h
  by_cases hq : s.queue q = []
  · exact .inr ⟨if_pos hq, hq⟩
  · exact .inl ⟨if_neg hq, hq⟩

theorem getTask_moves {pc : Pc} (h : s.getTask index pc = some o) : s.Moves index pc o := by
  cases pc with
  | probePrivate =>
    rcases front_cases (Option.some.inj h) with ⟨task, rest, rfl, hq⟩ | ⟨rfl, hq⟩
    · exact .privateTask hq
    · exact .noPrivate hq
  | probeDeque =>
    rcases pop_cases (Option.some.inj h) with ⟨task, rest, rfl, hq⟩ | rfl
    · exact .dequeTask hq
    · exact .noDeque
  | probeGlobal =>
    rcases front_cases (Option.some.inj h) with ⟨task, rest, rfl, hq⟩ | ⟨rfl, hq⟩
    · exact .globalTask hq
    · exact .noGlobal hq
  | steal i =>
    simp only [getTask] at h
    split at h
    · split at h
      · obtain rfl := Option.some.inj h
        exact .noSteal
      · rcases front_cases (Option.some.inj h) with ⟨task, rest, rfl, hq⟩ | ⟨rfl, -⟩
        · exact .stolen hq
        · exact .noSteal
    · obtain rfl := Option.some.inj h
      exact .gaveUp
  | lockPool =>
    simp only [getTask] at h
    split at h <;> cases h
    exact .lock (by assumption)
  | testSize =>
    simp only [getTask] at h
    split at h <;> cases h
    · exact .leave (by assumption)
    · exact .stay
  | hasPrivate =>
    rcases probe_cases (Option.some.inj h) with ⟨rfl, -⟩ | ⟨rfl, hq⟩
    · exact .seePrivate
    · exact .passPrivate hq
  | hasGlobal =>
    rcases probe_cases (Option.some.inj h) with ⟨rfl, -⟩ | ⟨rfl, hq⟩
    · exact .seeGlobal
    · exact .passGlobal hq
  | hasDeques i =>
    simp only [getTask] at h
    split at h
    · rcases probe_cases (Option.some.inj h) with ⟨rfl, -⟩ | ⟨rfl, -⟩
      · exact .seeDeque
      · exact .passDeque
    · obtain rfl := Option.some.inj h
      exact .passDeques
  | announce =>
    obtain rfl := Option.some.inj h
    exact .announce
  | wait =>
    obtain rfl := Option.some.inj h
    exact .wait
  | notified =>
    simp only [getTask] at h
    split at h <;> cases h
    exact .wake (by assumption)
  | woken =>
    obtain rfl := Option.some.inj h
    exact .count
  | unlock =>
    obtain rfl := Option.some.inj h
    exact .unlock
  | waiting | running _ _ | exited => cases h

namespace Moves
variable {index : Nat} {pc : Pc} {o : Outcome} {task : ThreadTask} {rest : List ThreadTask}

/-- `GetTask` runs no task. -/
theorem frames_eq (h : s.Moves index pc o) : pc.frames = [] := by
  cases h <;> rfl

theorem live (h : s.Moves index pc o) : pc ≠ .exited := by
  cases h <;> nofun

/-- Either it takes a task or it stays between places where none is run. -/
theorem next_or_take (h : s.Moves index pc o) : o.next.frames = [] ∨ ∃ q task rest, o = .take q task rest := by
  cases h <;> first | exact .inl rfl | exact .inr ⟨_, _, _, rfl⟩

theorem taken (h : s.Moves index pc (.take q task rest)) : s.queue q = task :: rest ∨ s.queue q = rest ++ [task] := by
  cases h with
  | privateTask hq | globalTask hq | stolen hq => exact .inl hq
  | dequeTask hq => exact .inr hq

/-- A task of a private queue is taken only by a thread of its index. -/
theorem own (h : s.Moves index pc (.take (.privateQueue i) task rest)) : i = index := by
  cases h
  rfl

/-- A thread leaves for good only when its index is no longer in the pool. -/
theorem exit (h : s.Moves index pc o) (hex : o.next = .exited) : pc = .testSize ∧ s.poolSize ≤ index := by
  cases h with
  | leave hsize => exact ⟨rfl, hsize⟩
  | _ => cases hex

end Moves

theorem notifyOne_effect {k : Nat} (hk : s.submissions[k]? = some ⟨task, .deque index, .notifying⟩)
    (h : (s.setSubmission k ⟨task, .deque index, .done⟩).notifyOne j = some s') :
    Effect s (.notify k j) s' := by
  unfold notifyOne at h
  split at h
  · obtain rfl := Option.some.inj h
    exact .notifyNone hk
  · split at h
    · rename_i thread hj
      split at h
      · obtain rfl := Option.some.inj h
        exact .notifyOne hk hj
      · cases h
    · cases h

theorem step_effect (h : s.step a = some s') : Effect s a s' := by
  cases a with
  | submit kind =>
    obtain rfl := Option.some.inj h
    exact .begin .global
  | submitToWorker home =>
    simp only [step] at h
    split at h
    · rename_i thread hj
      split at h
      · rename_i hi
        obtain rfl := Option.some.inj h
        exact .begin (.worker hj hi)
      · cases h
    · cases h
  | submitFromWorker j kind =>
    simp only [step] at h
    split at h
    · rename_i index isolate frame outer hj
      obtain rfl := Option.some.inj h
      exact .begin (.own hj)
    · cases h
  | push k =>
    simp only [step] at h
    split at h
    · rename_i hk
      obtain rfl := Option.some.inj h
      exact .push hk
    · cases h
  | load k =>
    simp only [step] at h
    split at h
    · rename_i hk
      by_cases hpos : 0 < s.sleepingWorkers
      · rw [if_pos hpos] at h
        obtain rfl := Option.some.inj h
        exact .loadPositive hk hpos
      · rw [if_neg hpos] at h
        obtain rfl := Option.some.inj h
        exact .loadZero hk (by omega)
    · cases h
  | notify k j =>
    simp only [step] at h
    split at h
    · rename_i task q hk
      split at h
      · rename_i hfree
        cases q with
        | globalQueue | privateQueue index =>
          obtain rfl := Option.some.inj h
          exact .notifyAll hk hfree
        | deque index => exact notifyOne_effect hk h
      · cases h
    · cases h
  | getTask j =>
    simp only [step] at h
    split at h
    · rename_i thread hj
      obtain ⟨o, ho, rfl⟩ := map_eq_some_iff.mp h
      have hm := getTask_moves ho
      rcases hm.next_or_take with hnext | ⟨q, task, rest, rfl⟩
      · exact .move hj hm hnext
      · exact .take hj hm
    · cases h
  | poll j =>
    obtain ⟨thread, hj, hp⟩ := bind_eq_some_iff.mp h
    unfold poll at hp
    split at hp
    · rename_i frame outer hpc
      split at hp
      · rename_i loop hloop
        split at hp
        · rename_i task rest hq
          obtain rfl := Option.some.inj hp
          exact .poll hj hpc hloop hq
        · obtain rfl := Option.some.inj hp
          exact .sleep
      · cases hp
    · cases hp
  | finish j =>
    obtain ⟨thread, hj, hp⟩ := bind_eq_some_iff.mp h
    unfold finish at hp
    split at hp
    · rename_i frame outer hpc
      obtain rfl := Option.some.inj hp
      exact .finish hj hpc
    · cases hp
  | wakeUp j =>
    simp only [step] at h
    split at h
    · rename_i thread hj
      split at h
      · obtain rfl := Option.some.inj h
        exact .wakeUp hj
      · cases h
    · cases h
  | resize n =>
    simp only [step] at h
    split at h
    · rename_i hn
      obtain rfl := Option.some.inj h
      unfold resize
      split
      · exact .same
      · split
        · rename_i hlt
          exact .grow hn.1 hlt
        · exact .shrink hn.1 hn.2 (by omega)
    · cases h

/-! ### The submissions -/

/-- What the submissions keep: their tasks and where these go. -/
def tickets (s : State) : List (ThreadTask × Queue) := s.submissions.map fun x => (x.task, x.queue)

theorem tickets_setSubmission {k : Nat} {phase phase' : SubmitPhase} (hk : s.submissions[k]? = some ⟨task, q, phase⟩) :
    (s.setSubmission k ⟨task, q, phase'⟩).tickets = s.tickets := by
  obtain ⟨hlt, hx⟩ := List.getElem?_eq_some_iff.mp hk
  have hti : (task, q) = s.tickets.get ⟨k, by simpa [tickets] using hlt⟩ := by
    simp [tickets, hx]
  simp only [tickets, setSubmission, map_set]
  rw [hti]
  exact set_getElem_self _

/-- A step begins a submission or leaves the tickets as they are. -/
theorem effect_tickets (he : Effect s a s') : (s'.tickets = s.tickets ∧ s'.nextTask = s.nextTask) ∨
      ∃ kind home q, s.Target home q ∧ s' = s.begin kind home q := by
  cases he with
  | begin h => exact .inr ⟨_, _, _, h, rfl⟩
  | push hk =>
    refine .inl ⟨?_, setQueue_nextTask⟩
    rw [tickets_setSubmission (by simpa using hk)]
    simp only [tickets, setQueue_submissions]
  | loadPositive hk | loadZero hk | notifyAll hk | notifyNone hk | notifyOne hk =>
    exact .inl ⟨tickets_setSubmission hk, rfl⟩
  | @move _ _ o _ _ hnext => cases o with
    | take => cases hnext
    | _ => exact .inl ⟨rfl, rfl⟩
  | take | poll => exact .inl ⟨congrArg (List.map _) setQueue_submissions, setQueue_nextTask⟩
  | _ => exact .inl ⟨rfl, rfl⟩

/-! ### The threads -/

/-- The step in which `GetTask` returns no task. -/
def Exits (s : State) (a : Action) (i : Nat) (thread : WorkerThread) : Prop :=
  a = .getTask i ∧ thread.pc = .testSize ∧ s.poolSize ≤ thread.index

structure Keeps (s : State) (a : Action) (i : Nat) (thread thread' : WorkerThread) : Prop where
  index : thread'.index = thread.index
  isolate : ∀ isolate, thread.isolate = some isolate → thread'.isolate = some isolate
  exited : thread.pc = .exited → thread'.pc = .exited
  exits : thread'.pc = .exited → thread.pc = .exited ∨ s.Exits a i thread

/-- A thread that runs a task keeps on living. -/
theorem keeps_of_live {pc : Pc} {isolate : Option Isolate} (hold : thread.pc ≠ .exited) (hnew : pc ≠ .exited)
    (hke : ∀ i, thread.isolate = some i → isolate = some i) :
    s.Keeps a i thread ⟨thread.index, isolate, pc⟩ :=
  ⟨rfl, hke, fun h => absurd h hold, fun h => absurd h hnew⟩

/-- Every thread of `s'` goes on from the one of `s` at its position, or a resize has
just started it. -/
structure Follows (s : State) (a : Action) (s' : State) : Prop where
  length : s.threads.length ≤ s'.threads.length
  thread : ∀ (i : Nat) (thread' : WorkerThread), s'.threads[i]? = some thread' →
    (∃ thread, s.threads[i]? = some thread ∧ s.Keeps a i thread thread') ∨
    (s.threads.length ≤ i ∧ thread'.index = s.poolSize + (i - s.threads.length) ∧
      ∃ n, a = .resize n ∧ thread'.index < n ∧ n ≤ s'.slots.length ∧ thread'.pc = .probePrivate)

/-- The thread at `i` takes the task of `frame` from a queue it may take it from. -/
def Taken (s : State) (a : Action) (i : Nat) (frame : Frame) : Prop :=
  ∃ thread q, s.threads[i]? = some thread ∧ thread.pc ≠ .exited ∧ frame.task ∈ s.queue q ∧
    (∀ k, q = .privateQueue k → k = thread.index) ∧
    ((a = .getTask i ∧ frame.loop = .run) ∨ (a = .poll i ∧ ∃ waiting outer, thread.pc = .running waiting outer ∧
        waiting.task.kind.loop = some frame.loop ∧ q = .privateQueue thread.index))

/-- Each task that runs after the step ran before it or is taken in it. -/
def Runs (s : State) (a : Action) (s' : State) : Prop :=
  ∀ (i : Nat) (thread' : WorkerThread) (frame : Frame), s'.threads[i]? = some thread' → frame ∈ thread'.pc.frames →
    (∃ thread, s.threads[i]? = some thread ∧ frame ∈ thread.pc.frames) ∨ s.Taken a i frame

structure Acts (s : State) (a : Action) (i : Nat) (thread thread' : WorkerThread) : Prop
    extends Keeps s a i thread thread' where
  frames : ∀ frame ∈ thread'.pc.frames, frame ∈ thread.pc.frames ∨ s.Taken a i frame

theorem Acts.refl (s : State) (a : Action) (i : Nat) (thread : WorkerThread) : s.Acts a i thread thread :=
  ⟨⟨rfl, fun _ h => h, fun h => h, .inl⟩, fun _ => .inl⟩

theorem acts_notify (s : State) (a : Action) (i : Nat) (thread : WorkerThread) : s.Acts a i thread thread.notify := by
  unfold WorkerThread.notify
  split
  · rename_i hpc
    refine ⟨⟨rfl, fun _ h => h, fun h => ?_, nofun⟩, nofun⟩
    rw [hpc] at h
    cases h
  · exact .refl s a i thread

/-- `Follows` and `Runs` in one. -/
structure Evolves (s : State) (a : Action) (s' : State) : Prop where
  length : s.threads.length ≤ s'.threads.length
  thread : ∀ (i : Nat) (thread' : WorkerThread), s'.threads[i]? = some thread' →
    (∃ thread, s.threads[i]? = some thread ∧ s.Acts a i thread thread') ∨
    (s.threads.length ≤ i ∧ thread'.index = s.poolSize + (i - s.threads.length) ∧
      ∃ n, a = .resize n ∧ thread'.index < n ∧ n ≤ s'.slots.length ∧ thread'.pc = .probePrivate)

theorem evolves_of_threads_eq (h : s'.threads = s.threads) : s.Evolves a s' :=
  ⟨by rw [h], fun i thread' hi => .inl ⟨thread', h ▸ hi, .refl ..⟩⟩

theorem evolves_of_set {thread' : WorkerThread} (hj : s.threads[j]? = some thread)
    (h : s'.threads = s.threads.set j thread') (hac : s.Acts a j thread thread') : s.Evolves a s' := by
  refine ⟨by rw [h, length_set], fun i other hi => .inl ?_⟩
  rw [h] at hi
  rcases getElem?_set_cases hi with ⟨rfl, rfl⟩ | ⟨-, hi⟩
  · exact ⟨thread, hj, hac⟩
  · exact ⟨other, hi, .refl ..⟩

theorem evolves_of_notifyAll (h : s'.threads = s.threads.map WorkerThread.notify) : s.Evolves a s' := by
  refine ⟨by rw [h, length_map], fun i thread' hi => .inl ?_⟩
  rw [h, List.getElem?_map] at hi
  obtain ⟨thread, hth, rfl⟩ := map_eq_some_iff.mp hi
  exact ⟨thread, hth, acts_notify ..⟩

theorem evolves_grow (n : Nat) : s.Evolves (.resize n) (s.grow n) := by
  refine ⟨by simp [grow], fun i thread' hi => ?_⟩
  simp only [grow, List.getElem?_append] at hi
  split at hi
  · exact .inl ⟨thread', hi, .refl ..⟩
  · rename_i hlt
    rw [List.getElem?_map, map_eq_some_iff] at hi
    obtain ⟨k, hk, rfl⟩ := hi
    obtain ⟨hlen, hget⟩ := List.getElem?_eq_some_iff.mp hk
    rw [length_range'] at hlen
    rw [getElem_range', Nat.one_mul] at hget
    refine .inr ⟨Nat.le_of_not_lt hlt, hget.symm, n, rfl, ?_, ?_, rfl⟩
    · dsimp only
      omega
    · simp only [grow, length_append, length_replicate]
      omega

theorem outcome_threads (o : Outcome) : ∃ isolate, (s.outcome j thread o).threads =
      s.threads.set j ⟨thread.index, isolate, o.next⟩ ∧
    (∀ i, thread.isolate = some i → isolate = some i) := by
  cases o with
  | take q task rest =>
    refine ⟨some (s.isolateOf thread), ?_, ?_⟩
    · simp [outcome, setThread, Outcome.next]
    · intro i hi
      simp [isolateOf, hi]
  | goto | acquire | release | sleeping => exact ⟨thread.isolate, rfl, fun _ h => h⟩

theorem effect_evolves (he : Effect s a s') : s.Evolves a s' := by
  cases he with
  | push => exact evolves_of_threads_eq (setQueue_threads ..)
  | begin | loadPositive | loadZero | notifyNone | sleep | same => exact evolves_of_threads_eq rfl
  | notifyAll | shrink => exact evolves_of_notifyAll rfl
  | notifyOne _ hj | wakeUp hj => exact evolves_of_set hj rfl (acts_notify ..)
  | move hj hm hnext =>
    obtain ⟨isolate, hth, hke⟩ := outcome_threads _
    refine evolves_of_set hj hth ⟨⟨rfl, hke, fun h => absurd h hm.live, fun h => ?_⟩, fun frame hframe => ?_⟩
    · exact .inr ⟨rfl, hm.exit h⟩
    · dsimp only at hframe
      rw [hnext] at hframe
      cases hframe
  | @take _ thread q _ _ hj hm =>
    obtain ⟨isolate, hth, hke⟩ := outcome_threads _
    refine evolves_of_set hj hth ⟨keeps_of_live hm.live nofun hke, fun frame hframe => .inr ?_⟩
    obtain rfl := mem_singleton.mp hframe
    refine ⟨thread, q, hj, hm.live, ?_, ?_, .inl ⟨rfl, rfl⟩⟩
    · rcases hm.taken with hq | hq <;> rw [hq] <;> simp
    · rintro k rfl
      exact hm.own
  | @poll _ thread _ _ _ _ _ hj hpc hloop hq =>
    have hlive : thread.pc ≠ .exited := by rw [hpc]; nofun
    refine evolves_of_set hj (congrArg (List.set · _ _) setQueue_threads)
      ⟨keeps_of_live hlive nofun fun _ h => h, fun frame hframe => ?_⟩
    rcases mem_cons.mp hframe with rfl | hframe
    · refine .inr ⟨_, _, hj, hlive, ?_, ?_, .inr ⟨rfl, _, _, hpc, hloop, rfl⟩⟩
      · rw [hq]
        exact mem_cons_self
      · intro k hk
        exact (Queue.privateQueue.inj hk).symm
    · rw [hpc]
      exact .inl hframe
  | @finish _ _ _ outer hj hpc =>
    refine evolves_of_set hj rfl ⟨keeps_of_live (by rw [hpc]; nofun) ?_ fun _ h => h, fun frame hframe => .inl ?_⟩
    · cases outer <;> nofun
    · rw [hpc]
      cases outer with
      | nil => cases hframe
      | cons => exact mem_cons_of_mem _ hframe
  | grow => exact evolves_grow _

theorem effect_follows (he : Effect s a s') : s.Follows a s' :=
  have h := effect_evolves he
  ⟨h.length, fun i thread' hi => (h.thread i thread' hi).imp_left fun ⟨thread, hth, hac⟩ =>
    ⟨thread, hth, hac.toKeeps⟩⟩

theorem effect_runs (he : Effect s a s') : s.Runs a s' := by
  intro i thread' frame hi hframe
  rcases (effect_evolves he).thread i thread' hi with ⟨thread, hth, hac⟩ | ⟨-, -, -, -, -, -, hpc⟩
  · exact (hac.frames frame hframe).imp_left fun hold => ⟨thread, hth, hold⟩
  · rw [hpc] at hframe
    cases hframe

/-- Forwards: a thread is still there after the step. -/
theorem Follows.next (h : s.Follows a s') (hi : s.threads[i]? = some thread) :
    ∃ thread', s'.threads[i]? = some thread' ∧ s.Keeps a i thread thread' := by
  obtain ⟨hlt, -⟩ := List.getElem?_eq_some_iff.mp hi
  have hi' := List.getElem?_eq_getElem (lt_of_lt_of_le hlt h.length)
  rcases h.thread i _ hi' with ⟨old, hold, hke⟩ | ⟨hle, -⟩
  · rw [hi] at hold
    obtain rfl := Option.some.inj hold
    exact ⟨_, hi', hke⟩
  · omega

/-- A task completes only when the thread that runs it ends it. -/
theorem effect_completed (he : Effect s a s') : s'.completed = s.completed ∨
    ∃ j thread frame outer, a = .finish j ∧ s.threads[j]? = some thread ∧
      thread.pc = .running frame outer ∧ s'.completed = s.completed ++ [frame] := by
  cases he with
  | finish hj hpc => exact .inr ⟨_, _, _, _, rfl, hj, hpc, rfl⟩
  | @move _ _ o _ _ hnext => cases o with
    | take => cases hnext
    | _ => exact .inl rfl
  | push | take | poll => exact .inl setQueue_completed
  | _ => exact .inl rfl

/-! ### Every index of the pool has a thread -/

structure Staffed (s : State) : Prop where
  pos : 1 ≤ s.poolSize
  thread : ∀ i < s.poolSize, ∃ thread ∈ s.threads, thread.index = i ∧ thread.pc ≠ .exited

theorem initial_staffed {n : Nat} (hn : 1 ≤ n) : (initial n).Staffed where
  pos := hn
  thread := by
    intro i hi
    refine ⟨⟨i, none, .probePrivate⟩, ?_, rfl, nofun⟩
    exact List.mem_map_of_mem (mem_range.mpr hi)

/-- A thread of an index that stays in the pool goes on. -/
theorem Follows.staff (h : s.Follows a s') (hi : i < s.poolSize)
    (hst : ∃ thread ∈ s.threads, thread.index = i ∧ thread.pc ≠ .exited) :
    ∃ thread ∈ s'.threads, thread.index = i ∧ thread.pc ≠ .exited := by
  obtain ⟨thread, hth, rfl, hlive⟩ := hst
  obtain ⟨k, hk⟩ := List.getElem?_of_mem hth
  obtain ⟨thread', ht', hke⟩ := h.next hk
  refine ⟨thread', List.mem_of_getElem? ht', hke.index, fun hex => ?_⟩
  rcases hke.exits hex with hold | ⟨-, -, hsize⟩
  · exact hlive hold
  · omega

theorem Staffed.effect (h : s.Staffed) (he : Effect s a s') : s'.Staffed := by
  have hfo := effect_follows he
  have hke : s'.poolSize = s.poolSize → s'.Staffed := by
    intro hsize
    refine ⟨by rw [hsize]; exact h.pos, fun i hi => ?_⟩
    rw [hsize] at hi
    exact hfo.staff hi (h.thread i hi)
  cases he with
  | push | take | poll => exact hke setQueue_poolSize
  | @move _ _ o _ _ hnext => cases o with
    | take => cases hnext
    | _ => exact hke rfl
  | @grow n hfree hn =>
    refine ⟨le_trans h.pos (le_of_lt hn), fun i hi => ?_⟩
    by_cases hold : i < s.poolSize
    · exact hfo.staff hold (h.thread i hold)
    · refine ⟨⟨i, none, .probePrivate⟩, mem_append_right _ ?_, rfl, nofun⟩
      apply List.mem_map_of_mem
      rw [mem_range'_1]
      simp only [State.grow] at hi
      omega
  | @shrink n hfree hpos hn =>
    refine ⟨hpos, fun i hi => ?_⟩
    have hlt : i < s.poolSize := lt_trans hi hn
    exact hfo.staff hlt (h.thread i hlt)
  | _ => exact hke rfl

theorem run_staffed {n : Nat} (hn : 1 ≤ n) {as : List Action} (hrun : machine.run (initial n) as = some s) : s.Staffed :=
  Machine.invariant (I := Staffed) (fun _ _ _ h hs => h.effect (step_effect hs)) (initial_staffed hn) hrun

end State
end V8Multithread.Threading.Pool
