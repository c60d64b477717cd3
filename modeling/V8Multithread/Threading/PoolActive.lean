import V8Multithread.Threading.PoolLedger

/-! The count of active tasks.

`active_tasks_` goes up with every submission and down when the loop that took a task
has run it. Of the three loops that take tasks, the one in
`AutoParallelThreadTask::RunInternal` does not count down. What `active_tasks_` is too
high by is the number of tasks which that loop has run; it is exact for as long as the
loop finds its private queue empty. -/
namespace V8Multithread.Threading.Pool.State
open List
variable {s s' : State}

def activeCount (s : State) : Int := outstanding (fun _ => 1) s

/-- The number of tasks run by the loop that does not count down. -/
def leaked (s : State) : Int :=
  tally (fun frame => if frame.loop = .autoParallel then 1 else 0) s.completed

theorem active_effect {a : Action} (he : Effect s a s') :
    s'.activeTasks - s'.leaked - tally (fun _ => 1) s'.submissions +
        tally (fun _ => 1) s'.completed =
      s.activeTasks - s.leaked - tally (fun _ => 1) s.submissions +
        tally (fun _ => 1) s.completed := by
  cases he with
  | begin =>
    simp only [State.begin, leaked, tally.append, tally.cons, tally.nil]
    omega
  | push hk =>
    simp only [setSubmission, leaked, setQueue_activeTasks, setQueue_completed,
      setQueue_submissions, tally.set _ hk]
    omega
  | loadPositive hk | loadZero hk | notifyAll hk | notifyNone hk | notifyOne hk =>
    simp only [setSubmission, setThread, State.notifyAll, leaked, tally.set _ hk]
    omega
  | @move _ _ o _ _ hnext => cases o with
    | take => cases hnext
    | _ => rfl
  | take | poll =>
    simp only [outcome, setThread, leaked, setQueue_activeTasks, setQueue_completed,
      setQueue_submissions]
  | @finish _ _ frame =>
    simp only [leaked, tally.append, tally.cons, tally.nil, setThread]
    split <;> omega
  | sleep | wakeUp | same | grow | shrink => rfl

/-- In every run, `active_tasks_` is the number of active tasks and what has leaked. -/
theorem run_active {n : Nat} {as : List Action} (hrun : machine.run (initial n) as = some s) :
    s.activeTasks = s.activeCount + s.leaked := by
  have hl := (run_sound hrun).ledger fun _ => 1
  have hactive : s.activeTasks - s.leaked - tally (fun _ => 1) s.submissions +
      tally (fun _ => 1) s.completed = 0 :=
    Machine.invariant (I := fun s => s.activeTasks - s.leaked - tally (fun _ => 1) s.submissions +
      tally (fun _ => 1) s.completed = 0)
      (fun _ _ _ h hs => (active_effect (step_effect hs)).trans h) rfl hrun
  simp only [balance] at hl
  simp only [activeCount]
  omega

/-! ### Runs in which nothing leaks -/

/-- A task of the automatic parallelism that waits finds its private queue empty. -/
def NothingToDrain (s : State) : Action → Prop
  | .poll j => ∀ thread frame outer, s.threads[j]? = some thread →
      thread.pc = .running frame outer → frame.task.kind = .autoParallel →
      s.queue (.privateQueue thread.index) = []
  | _ => True

/-- No task was taken by the loop that does not count down. -/
structure Paired (s : State) : Prop where
  running : ∀ thread ∈ s.threads, ∀ frame ∈ thread.pc.frames, frame.loop ≠ .autoParallel
  completed : ∀ frame ∈ s.completed, frame.loop ≠ .autoParallel

theorem Paired.leaked_eq (h : s.Paired) : s.leaked = 0 := by
  apply tally.eq_zero
  intro frame hframe
  exact if_neg (h.completed frame hframe)

theorem Taken.counted {a : Action} {i : Nat} {frame : Frame} (h : s.Taken a i frame)
    (hok : s.NothingToDrain a) : frame.loop ≠ .autoParallel := by
  obtain ⟨thread, q, hi, -, hq, -, ⟨rfl, hloop⟩ | ⟨rfl, waiting, outer, hpc, hloop, rfl⟩⟩ := h
  · rw [hloop]
    nofun
  · -- the loop of the automatic parallelism would have found its queue empty
    intro hau
    have hki : waiting.task.kind = .autoParallel := by
      rw [hau] at hloop
      cases hk : waiting.task.kind <;> rw [hk] at hloop <;> first | rfl | cases hloop
    rw [hok thread waiting outer hi hpc hki] at hq
    cases hq

theorem Paired.effect {a : Action} (h : s.Paired) (hok : s.NothingToDrain a)
    (he : Effect s a s') : s'.Paired where
  running := by
    intro thread' ht' frame hframe
    obtain ⟨i, hi⟩ := getElem?_of_mem ht'
    rcases effect_runs he i thread' frame hi hframe with ⟨thread, hth, hframe⟩ | hta
    · exact h.running thread (mem_of_getElem? hth) frame hframe
    · exact hta.counted hok
  completed := by
    intro frame hframe
    rcases effect_completed he with hsa | ⟨j, thread, last, outer, -, hj, hpc, hmo⟩
    · rw [hsa] at hframe
      exact h.completed frame hframe
    · rw [hmo] at hframe
      rcases mem_append.mp hframe with hframe | hframe
      · exact h.completed frame hframe
      · obtain rfl := mem_singleton.mp hframe
        refine h.running thread (mem_of_getElem? hj) frame ?_
        rw [hpc]
        exact mem_cons_self

theorem initial_paired (n : Nat) : (initial n).Paired where
  running := by
    intro thread hth frame hframe
    obtain ⟨i, -, rfl⟩ := mem_map.mp hth
    cases hframe
  completed := nofun

/-- **Exact accounting**, in every run in which no task of the automatic parallelism
finds something in its private queue while it waits: `active_tasks_` is the number of
tasks submitted and not completed, and `HasActiveTasks` tells whether there are any. -/
theorem active_exact (n : Nat) (as : List Action) (s : State)
    (hrun : machine.run (initial n) as = some s)
    (hmeets : machine.Meets NothingToDrain (initial n) as) :
    s.activeTasks = s.activeCount ∧
      (s.completed.length = s.submissions.length → s.hasActiveTasks = false) := by
  have hpaired : s.Paired :=
    Machine.invariant_of_meets (I := Paired)
      (fun _ _ _ h hok hs => h.effect hok (step_effect hs)) (initial_paired n) hrun hmeets
  have hactive : s.activeTasks = s.activeCount := by
    rw [run_active hrun, hpaired.leaked_eq, add_zero]
  refine ⟨hactive, fun hall => ?_⟩
  have hledger := (run_sound hrun).ledger fun _ => 1
  simp only [balance, tally, map_const', sum_replicate, hall] at hledger
  have hcount : s.activeCount = 0 := by
    simp only [activeCount]
    omega
  simp [hasActiveTasks, hactive, hcount]

/-- One worker takes a task of this kind; while it waits, a task for that worker comes
in and is run inside; then both end. -/
def drainRun (kind : Kind) : List Action :=
  [.submit kind, .push 0, .load 0, .getTask 0, .getTask 0, .getTask 0, .submitToWorker ⟨0, 0⟩,
    .push 1, .load 1, .poll 0, .finish 0, .finish 0]

theorem active_exact_spawned :
    ∃ s, machine.run (initial 1) (drainRun .spawned) = some s ∧ s.submissions.length = 2 ∧
      s.hasActiveTasks = false := by
  refine ⟨_, rfl, rfl, (active_exact 1 (drainRun .spawned) _ rfl ?_).2 rfl⟩
  refine ⟨trivial, trivial, trivial, trivial, trivial, trivial, trivial, trivial, trivial, ?_,
    trivial, trivial, trivial⟩
  intro thread frame outer hthread hpc hkind
  obtain rfl := Option.some.inj hthread
  cases hpc
  cases hkind

theorem drained_task_stays_active :
    ∃ s, machine.run (initial 1) (drainRun .autoParallel) = some s ∧
      s.completed.length = s.submissions.length ∧ s.activeCount = 0 ∧ s.activeTasks = 1 ∧
      s.hasActiveTasks = true :=
  ⟨_, rfl, rfl, rfl, rfl, rfl⟩

end V8Multithread.Threading.Pool.State
