import V8Multithread.Platform.JobSteps

/-! The two counters of a job agree with what its threads do, and a job that is over stays over.

`active_workers_` counts the threads that were let in and have not been released, and
`pending_tasks_` the worker tasks that were accounted for and have not asked to be let in. Every
critical section changes a counter together with the thread that it is about, so both equations hold
between any two of them. -/
namespace V8Multithread.Platform.DefaultJob
open List

/-! ### What a thread contributes -/

/-- Let in by `CanRunFirstTask` and not yet released by `DidRunTask`. -/
def Worker.active : Worker → Int
  | .posted => 0
  | .running _ => 1
  | .leaving _ => 1
  | .ran => 1
  | .posting _ => 1
  | .ended => 0

/-- The tasks that wait to ask, because this is one or because they are still to be posted here. -/
def Worker.pending : Worker → Int
  | .posted => 1
  | .posting numTasksToPost => numTasksToPost
  | _ => 0

def Notifier.pending : Notifier → Int
  | .called => 0
  | .posting numTasksToPost => numTasksToPost

/-- `Join` has reserved a worker, and has not seen the job done. -/
def Joiner.active : Joiner → Int
  | .waiting _ => 1
  | .posting _ => 1
  | .running _ => 1
  | .ran _ => 1
  | .leaving _ => 0
  | .returned => 0

def Owner.active : Owner → Int
  | .join joiner => joiner.active
  | _ => 0

def Owner.pending : Owner → Int
  | .join (.posting numTasksToPost) => numTasksToPost
  | _ => 0

/-- `Join` or `Cancel` has returned. -/
def Owner.Returned : Owner → Prop
  | .join .returned => True
  | .cancel true => True
  | _ => False

variable {s : State} {worker : Worker} {thread : Thread} {d : JobDelegate} {pending : Nat} {owner : Owner}
  {as : List Action}

namespace State

def threadsActive (s : State) : Int := tally Worker.active s.workers + s.owner.active

def tasksPending (s : State) : Int :=
  tally Worker.pending s.workers + tally Notifier.pending s.notifiers + s.owner.pending

theorem threadsActive_setWorker {w : Nat} (hw : s.workers[w]? = some worker) (next : Worker) :
    (s.setWorker w next).threadsActive = s.threadsActive - worker.active + next.active := by
  simp only [threadsActive, setWorker, tally.set _ hw]
  omega

theorem tasksPending_setWorker {w : Nat} (hw : s.workers[w]? = some worker) (next : Worker) :
    (s.setWorker w next).tasksPending = s.tasksPending - worker.pending + next.pending := by
  simp only [tasksPending, setWorker, tally.set _ hw]
  omega

theorem threadsActive_setJoiner (s : State) (joiner : Joiner) :
    (s.setJoiner joiner).threadsActive = s.threadsActive - s.owner.active + joiner.active := by
  simp only [threadsActive, setJoiner, Owner.active]
  omega

theorem tasksPending_setJoiner (s : State) (joiner : Joiner) :
    (s.setJoiner joiner).tasksPending = s.tasksPending - s.owner.pending + (Owner.join joiner).pending := by
  simp only [tasksPending, setJoiner]
  omega

theorem threadsActive_post (s : State) : s.post.threadsActive = s.threadsActive := by
  simp [threadsActive, post, Worker.active]

theorem tasksPending_post (s : State) : s.post.tasksPending = s.tasksPending + 1 := by
  simp only [tasksPending, post, tally.append, tally.cons, tally.nil, Worker.pending]
  omega

theorem release_eq (s : State) (d : JobDelegate) : ∃ assigned, s.release d = {s with assignedTaskIds := assigned} := by
  rw [release]
  split
  · exact ⟨_, rfl⟩
  · exact ⟨s.assignedTaskIds, rfl⟩

def IsActive (s : State) (w : Nat) : Prop := ∃ worker, s.workers[w]? = some worker ∧ worker.active = 1

end State

structure Counted (s : State) : Prop where
  active : (s.activeWorkers : Int) = s.threadsActive
  pending : (s.pendingTasks : Int) = s.tasksPending

attribute [local simp] Worker.active Worker.pending Notifier.pending Joiner.active Owner.active Owner.pending
  State.threadsActive State.tasksPending

theorem Worker.active_nonneg (worker : Worker) : 0 ≤ worker.active := by
  cases worker <;> simp

theorem Worker.pending_nonneg (worker : Worker) : 0 ≤ worker.pending := by
  cases worker <;> simp

theorem Notifier.pending_nonneg (notifier : Notifier) : 0 ≤ notifier.pending := by
  cases notifier <;> simp

theorem Owner.active_nonneg (owner : Owner) : 0 ≤ owner.active := by
  cases owner with
  | join joiner => cases joiner <;> simp
  | _ => exact le_refl 0

theorem Owner.pending_nonneg (owner : Owner) : 0 ≤ owner.pending := by
  cases owner with
  | join joiner => cases joiner <;> simp
  | _ => exact le_refl 0

namespace Counted
variable {s : State} {w n : Nat}

/-- A worker that was let in is among those counted. -/
theorem active_pos (h : Counted s) (hw : s.workers[w]? = some worker) (hactive : worker.active = 1) :
    0 < s.activeWorkers := by
  have hle := tally.le_of_mem (fun x _ => Worker.active_nonneg x) (mem_of_getElem? hw)
  have howner := s.owner.active_nonneg
  have hco := h.active
  simp only [State.threadsActive] at hco
  omega

theorem pending_pos (h : Counted s) (hw : s.workers[w]? = some .posted) : 0 < s.pendingTasks := by
  have hle := tally.le_of_mem (fun x _ => Worker.pending_nonneg x) (mem_of_getElem? hw)
  have hno := tally.nonneg fun x (_ : x ∈ s.notifiers) => Notifier.pending_nonneg x
  have howner := s.owner.pending_nonneg
  have hco := h.pending
  simp only [State.tasksPending] at hco
  simp only [Worker.pending] at hle
  omega

/-- The joining thread is the only one left. -/
theorem active_eq_one (h : Counted s) (howner : s.owner.active = 1) (hle : s.activeWorkers ≤ 1) : s.activeWorkers = 1 := by
  have hworkers := tally.nonneg fun x (_ : x ∈ s.workers) => Worker.active_nonneg x
  have hco := h.active
  simp only [State.threadsActive] at hco
  omega

/-! ### Each step

The changed counter and the changed thread are set against each other by the equations above. -/

theorem initial (numWorkerThreads : Nat) : Counted (State.initial numWorkerThreads) := by
  constructor <;> rfl

/-- A worker changes, and the counters with it. -/
theorem setWorker (h : Counted s) {next : Worker} (hw : s.workers[w]? = some worker) {active : Nat}
    (hactive : (active : Int) = s.activeWorkers - worker.active + next.active)
    (hp : (pending : Int) = s.pendingTasks - worker.pending + next.pending) :
    Counted ({s with activeWorkers := active, pendingTasks := pending}.setWorker w next) := by
  constructor
  · rw [h.active, ← State.threadsActive_setWorker hw] at hactive
    exact hactive
  · rw [h.pending, ← State.tasksPending_setWorker hw] at hp
    exact hp

/-- The handle changes, or the thread that joins, and the counters with it. -/
theorem setOwner (h : Counted s) {active threads : Nat} {canceled : Bool}
    (hactive : (active : Int) = s.activeWorkers - s.owner.active + owner.active)
    (hpe : (pending : Int) = s.pendingTasks - s.owner.pending + owner.pending) :
    Counted {s with
      activeWorkers := active
      pendingTasks := pending
      isCanceled := canceled
      numWorkerThreads := threads
      owner := owner} := by
  obtain ⟨ha, hp⟩ := h
  constructor
  · simp only [State.threadsActive] at ha ⊢
    omega
  · simp only [State.tasksPending] at hp ⊢
    omega

/-- A notifier changes, and the tasks with it. -/
theorem setNotifier (h : Counted s) {notifier next : Notifier} (hn : s.notifiers[n]? = some notifier)
    (hpe : (pending : Int) = s.pendingTasks - notifier.pending + next.pending) :
    Counted ({s with pendingTasks := pending}.setNotifier n next) := by
  obtain ⟨ha, hp⟩ := h
  constructor
  · exact ha
  · simp only [State.tasksPending, State.setNotifier, tally.set _ hn] at hp ⊢
    omega

/-- A task that was accounted for is posted. -/
theorem post {s₀ : State} (h : Counted s₀) (hactive : s.activeWorkers = s₀.activeWorkers)
    (hp : s.pendingTasks = s₀.pendingTasks) (hth : s.threadsActive = s₀.threadsActive)
    (htasks : s.tasksPending + 1 = s₀.tasksPending) : Counted s.post := by
  constructor
  · rw [State.threadsActive_post, hth, ← h.active, ← hactive]
    rfl
  · rw [State.tasksPending_post, htasks, ← h.pending, ← hp]
    rfl

theorem setDelegate (h : Counted s) (hd : s.delegate thread = some d) (next : JobDelegate) :
    Counted (s.setDelegate thread next) := by
  cases thread with
  | worker w => exact h.setWorker (State.delegate_worker hd) (by simp) (by simp)
  | joiner =>
    have howner := State.delegate_joiner hd
    exact h.setOwner (by simp [howner]) (by simp [howner])

/-- The ids are not counted. -/
theorem setTaskIds (h : Counted s) (assigned : BitVec 32) : Counted {s with assignedTaskIds := assigned} :=
  ⟨h.active, h.pending⟩

/-- A joining thread that looks for an opportunity has its worker reserved, and no tasks to post. -/
theorem participant {delegate : Option JobDelegate} (howner : s.owner.participant = some delegate) :
    s.owner.active = 1 ∧ s.owner.pending = 0 := by
  rw [Owner.participant.eq_def] at howner
  split at howner
  · next heq =>
    rw [heq]
    exact ⟨rfl, rfl⟩
  · next heq =>
    rw [heq]
    exact ⟨rfl, rfl⟩
  · cases howner

theorem effect (h : Counted s) {s' : State} {a : Action} (hef : Effect s a s') : Counted s' := by
  cases hef with
  | notifyIgnored | cancelWaitsOn => exact h
  | notified =>
    obtain ⟨ha, hp⟩ := h
    exact ⟨ha, by simpa using hp⟩
  | accounted _ _ hn => exact h.setNotifier hn (by simp)
  | notifierPosted n left hn =>
    apply post h (by rfl) (by rfl) (by rfl)
    simp only [State.tasksPending, State.setNotifier, tally.set _ hn, Notifier.pending]
    omega
  | workerPosted w left hw =>
    apply post h (by rfl) (by rfl)
    · rw [State.threadsActive_setWorker hw]
      simp
    · rw [State.tasksPending_setWorker hw]
      simp only [Worker.pending]
      omega
  | joinerPosted left howner =>
    apply post h (by rfl) (by rfl)
    · rw [State.threadsActive_setJoiner, howner]
      simp
    · rw [State.tasksPending_setJoiner, howner]
      simp only [Owner.pending]
      omega
  | workerRuns _ hw | workerReturned _ _ hw | kept _ _ hw => exact h.setWorker hw (by simp) (by simp)
  | joinerRuns howner | joinerReturned _ howner | joinWaits _ howner | joinPosts _ howner | cancelWaits howner
  | cancelAtOnce howner | cancelReturns howner | detached howner =>
    exact h.setOwner (by simp [howner]) (by simp [howner])
  | refused _ _ hw | admitted _ _ hw =>
    have hpos := h.pending_pos hw
    apply h.setWorker hw
    · simp
    · simp only [Worker.pending]
      omega
  | loaded _ hd | reloaded _ _ _ hd => exact h.setDelegate hd _
  | exchanged thread spurious hd =>
    apply (h.setTaskIds _).setDelegate (d := ⟨none, some s.assignedTaskIds⟩)
    cases thread <;> exact hd
  | workerReleased w d hw =>
    obtain ⟨assigned, hre⟩ := s.release_eq d
    rw [hre]
    exact (h.setTaskIds assigned).setWorker hw (by simp) (by simp)
  | joinerReleased d howner =>
    obtain ⟨assigned, hre⟩ := s.release_eq d
    rw [hre]
    exact (h.setTaskIds assigned).setOwner (by simp [howner]) (by simp [howner])
  | letOut _ _ hw =>
    have hpos := h.active_pos hw rfl
    apply h.setWorker hw
    · simp only [Worker.active]
      omega
    · simp
  | joinDone _ howner hactive => exact h.setOwner (by simp [howner, hactive]) (by simp [howner])
  | waitsOn _ _ howner | firstPosts _ howner | againRuns _ _ howner =>
    obtain ⟨hactive, hpe⟩ := participant howner
    exact h.setOwner (by rw [hactive]; simp) (by rw [hpe]; simp)
  | firstDone _ howner hle | againDone _ _ howner hle =>
    obtain ⟨hactive, hpe⟩ := participant howner
    have hone := h.active_eq_one hactive hle
    exact h.setOwner (by rw [hactive, hone]; simp) (by rw [hpe]; simp)

/-- The counters are right at every moment of every job. -/
theorem of_run {numWorkerThreads : Nat} (hrun : machine.run (State.initial numWorkerThreads) as = some s) : Counted s :=
  Machine.invariant (fun _ _ _ h hst => h.effect (.of_step hst)) (initial numWorkerThreads) hrun

end Counted

/-! ### The job without its threads -/

inductive Stage where
  | held
  | joining
  | canceling
  /-- `Join` saw the job done, or `Cancel` saw nobody in it. -/
  | over
  | detached
  deriving DecidableEq, Repr

def Owner.stage : Owner → Stage
  | .handle => .held
  | .join (.leaving _) => .over
  | .join .returned => .over
  | .join _ => .joining
  | .cancel false => .canceling
  | .cancel true => .over
  | .detached => .detached

theorem Owner.stage_participant {delegate : Option JobDelegate} (h : owner.participant = some delegate) :
    owner.stage = .joining := by
  rw [participant.eq_def] at h
  split at h
  · rfl
  · rfl
  · cases h

structure Control where
  active : Nat
  canceled : Bool
  threads : Nat
  stage : Stage

def State.control (s : State) : Control := ⟨s.activeWorkers, s.isCanceled, s.numWorkerThreads, s.owner.stage⟩

inductive Shift : Control → Control → Prop where
  | stay (c : Control) : Shift c c
  | letIn (c : Control) (hcanceled : c.canceled = false) (hroom : c.active < c.threads) :
    Shift c {c with active := c.active + 1}
  | letOut (c : Control) : Shift c {c with active := c.active - 1}
  | join (c : Control) (hstage : c.stage = .held) :
    Shift c {c with active := c.active + 1, threads := c.threads + 1, stage := .joining}
  | joinAtOnce (c : Control) (hstage : c.stage = .held) :
    Shift c {active := 0, canceled := true, threads := c.threads + 1, stage := .over}
  | done (c : Control) (hstage : c.stage = .joining) : Shift c {c with active := 0, canceled := true, stage := .over}
  | cancel (c : Control) (hstage : c.stage = .held) : Shift c {c with canceled := true, stage := .canceling}
  | cancelAtOnce (c : Control) (hstage : c.stage = .held) (hactive : c.active = 0) :
    Shift c {c with canceled := true, stage := .over}
  | canceled (c : Control) (hstage : c.stage = .canceling) (hactive : c.active = 0) : Shift c {c with stage := .over}
  | detach (c : Control) (hstage : c.stage = .held) : Shift c {c with canceled := true, stage := .detached}

namespace Shift
variable {s s' : State}

/-- The handle changes, and the joining thread goes on in the same stage. -/
theorem setOwner (hstage : owner.stage = s.owner.stage) {workers : List Worker} {assigned : BitVec 32} :
    Shift s.control (State.control {s with
      owner := owner, workers := workers, assignedTaskIds := assigned, pendingTasks := pending}) := by
  simp only [State.control, hstage]
  exact .stay s.control

theorem setDelegate (hd : s.delegate thread = some d) (next : JobDelegate) (assigned : BitVec 32) :
    Shift s.control (State.setDelegate {s with assignedTaskIds := assigned} thread next).control := by
  cases thread with
  | worker w => exact .stay s.control
  | joiner =>
    have howner := State.delegate_joiner hd
    exact setOwner (by rw [howner]; rfl)

theorem effect {a : Action} (hef : Effect s a s') : Shift s.control s'.control := by
  cases hef with
  | notifyIgnored | notified | accounted | notifierPosted | workerPosted | workerRuns | refused | workerReturned | kept
  | cancelWaitsOn => exact .stay s.control
  | joinerPosted _ howner | joinerRuns howner | joinerReturned _ howner => exact setOwner (by rw [howner]; rfl)
  | admitted w getMaxConcurrency hw hcanceled hroom =>
    have hth : s.activeWorkers < s.numWorkerThreads := by
      simp only [State.cappedMaxConcurrency] at hroom
      omega
    exact .letIn s.control hcanceled hth
  | loaded _ hd | exchanged _ _ hd | reloaded _ _ _ hd => exact setDelegate hd _ _
  | workerReleased w d hw =>
    obtain ⟨assigned, hre⟩ := s.release_eq d
    rw [hre]
    exact .stay s.control
  | joinerReleased d howner =>
    obtain ⟨assigned, hre⟩ := s.release_eq d
    rw [hre]
    exact setOwner (by rw [howner]; rfl)
  | letOut => exact .letOut s.control
  | joinWaits _ howner | joinPosts _ howner => exact .join s.control (by simp [State.control, howner, Owner.stage])
  | joinDone _ howner => exact .joinAtOnce s.control (by simp [State.control, howner, Owner.stage])
  | waitsOn _ _ howner | firstPosts _ howner | againRuns _ _ howner =>
    exact setOwner (by rw [Owner.stage_participant howner]; rfl)
  | firstDone _ howner | againDone _ _ howner => exact .done s.control (Owner.stage_participant howner)
  | cancelWaits howner => exact .cancel s.control (by simp [State.control, howner, Owner.stage])
  | cancelAtOnce howner hactive =>
    exact .cancelAtOnce s.control (by simp [State.control, howner, Owner.stage]) hactive
  | cancelReturns howner hactive =>
    exact .canceled s.control (by simp [State.control, howner, Owner.stage]) hactive
  | detached howner => exact .detach s.control (by simp [State.control, howner, Owner.stage])

end Shift

/-! ### Once over, always over -/

/-- `Cancel` was called before it waits, and a job that is over is canceled and empty. -/
structure Settled (c : Control) : Prop where
  canceling : c.stage = .canceling → c.canceled = true
  canceled : c.stage = .over → c.canceled = true
  empty : c.stage = .over → c.active = 0

theorem Settled.initial (numWorkerThreads : Nat) : Settled (State.initial numWorkerThreads).control := by
  constructor <;> exact nofun

theorem Settled.shift {c c' : Control} (h : Settled c) (hshift : Shift c c') : Settled c' := by
  cases hshift with
  | stay => exact h
  | letIn hcanceled hroom =>
    constructor
    · exact h.canceling
    · exact h.canceled
    · intro ho
      exact absurd (h.canceled ho) (by simp [hcanceled])
  | letOut =>
    constructor
    · exact h.canceling
    · exact h.canceled
    · intro ho
      simp [h.empty ho]
  | join | detach => constructor <;> exact nofun
  | joinAtOnce | done | cancel => constructor <;> simp
  | cancelAtOnce hstage hactive => constructor <;> simp [hactive]
  | canceled hstage hactive => constructor <;> simp [hactive, h.canceling hstage]

theorem Settled.of_run {numWorkerThreads : Nat} (hrun : machine.run (State.initial numWorkerThreads) as = some s) :
    Settled s.control :=
  Machine.invariant (I := fun s => Settled s.control) (fun _ _ _ h hst => h.shift (.effect (.of_step hst)))
    (initial numWorkerThreads) hrun

theorem Shift.over {c c' : Control} (h : Shift c c') (ho : c.stage = .over) : c'.stage = .over := by
  cases h with
  | stay | letIn | letOut => exact ho
  | join hstage | cancel hstage | detach hstage => simp [ho] at hstage
  | joinAtOnce | done | cancelAtOnce | canceled => rfl

theorem over_of_run {t : State} (hrun : machine.run s as = some t) (ho : s.control.stage = .over) :
    t.control.stage = .over :=
  Machine.invariant (I := fun s => s.control.stage = .over)
    (fun _ _ _ h hst => (Shift.effect (.of_step hst)).over h) ho hrun

theorem Owner.Returned.over (h : owner.Returned) : owner.stage = .over := by
  cases owner with
  | handle | detached => cases h
  | join joiner =>
    cases joiner with
    | returned => rfl
    | _ => cases h
  | cancel returned =>
    cases returned with
    | false => cases h
    | true => rfl

/-- Nobody is in `Run` of a job that is over. -/
theorem Counted.delegate_of_over (h : Counted s) (hse : Settled s.control) (ho : s.control.stage = .over)
    (thread : Thread) : s.delegate thread = none := by
  have hzero : s.activeWorkers = 0 := hse.empty ho
  rw [Option.eq_none_iff_forall_ne_some]
  intro d hd
  cases thread with
  | worker w => exact absurd (h.active_pos (State.delegate_worker hd) rfl) (by omega)
  | joiner =>
    simp only [State.control, State.delegate_joiner hd] at ho
    cases ho

/-! ### Who is let in -/

namespace State
variable {s s' : State} {v w : Nat}

/-- A worker that goes on as it is, or is released, lets nobody in. -/
theorem IsActive.of_setWorker {next : Worker} (hw : s.workers[w]? = some worker)
    (hle : next.active = 1 → worker.active = 1) (h : (s.setWorker w next).IsActive v) : s.IsActive v := by
  obtain ⟨x, hx, hactive⟩ := h
  rcases getElem?_set_cases hx with ⟨rfl, rfl⟩ | ⟨-, hx⟩
  · exact ⟨worker, hw, hle hactive⟩
  · exact ⟨x, hx, hactive⟩

theorem IsActive.of_post (h : s.post.IsActive v) : s.IsActive v := by
  obtain ⟨x, hx, hactive⟩ := h
  rw [post, getElem?_append] at hx
  split at hx
  · exact ⟨x, hx, hactive⟩
  · obtain rfl : x = .posted := by simpa using mem_of_getElem? hx
    cases hactive

theorem IsActive.of_setDelegate {next : JobDelegate} (hd : s.delegate thread = some d) {assigned : BitVec 32}
    (h : (State.setDelegate {s with assignedTaskIds := assigned} thread next).IsActive v) :
    s.IsActive v := by
  cases thread with
  | worker w => exact IsActive.of_setWorker (s := s) (delegate_worker hd) (fun _ => rfl) h
  | joiner => exact h

end State

/-- A worker is let in by `CanRunFirstTask` alone, and where there was room. -/
theorem Effect.let_in {s' : State} {a : Action} (h : Effect s a s') {v : Nat} (hafter : s'.IsActive v) :
    s.IsActive v ∨ ∃ getMaxConcurrency, a = .canRunFirstTask v getMaxConcurrency ∧
      s.activeWorkers < s.cappedMaxConcurrency getMaxConcurrency := by
  cases h with
  | admitted w getMaxConcurrency hw hcanceled hroom =>
    by_cases hv : v = w
    · rw [hv]
      exact .inr ⟨getMaxConcurrency, rfl, hroom⟩
    · obtain ⟨x, hx, hactive⟩ := hafter
      rw [State.setWorker, getElem?_set_ne (Ne.symm hv)] at hx
      exact .inl ⟨x, hx, hactive⟩
  | notifierPosted | joinerPosted => exact .inl hafter.of_post
  | workerPosted _ _ hw => exact .inl (hafter.of_post.of_setWorker hw fun _ => rfl)
  | refused _ _ hw => exact .inl (hafter.of_setWorker hw fun hen => absurd hen (by decide))
  | workerRuns _ hw | workerReturned _ _ hw | letOut _ _ hw | kept _ _ hw =>
    exact .inl (hafter.of_setWorker hw fun _ => rfl)
  | loaded _ hd | exchanged _ _ hd | reloaded _ _ _ hd => exact .inl (State.IsActive.of_setDelegate hd hafter)
  | workerReleased w d hw =>
    obtain ⟨assigned, hre⟩ := s.release_eq d
    rw [hre] at hafter
    exact .inl (hafter.of_setWorker hw fun _ => rfl)
  | joinerReleased d howner =>
    obtain ⟨assigned, hre⟩ := s.release_eq d
    rw [hre] at hafter
    exact .inl hafter
  | _ => exact .inl hafter

/-- **A job respects its concurrency and stops for good.** At every moment of every job both counters
are right; a worker is let in only where fewer are active than the maximum it reads; and once `Join`
or `Cancel` has returned nobody is in `Run`, then or later. -/
theorem job_counted (numWorkerThreads : Nat) (as : List Action) (s : State)
    (hrun : machine.run (State.initial numWorkerThreads) as = some s) :
    (s.activeWorkers : Int) = s.threadsActive ∧ (s.pendingTasks : Int) = s.tasksPending ∧
      (∀ a s' w, s.step a = some s' → ¬s.IsActive w → s'.IsActive w →
        ∃ getMaxConcurrency, a = .canRunFirstTask w getMaxConcurrency ∧
          s.activeWorkers < s.cappedMaxConcurrency getMaxConcurrency) ∧
      (s.owner.Returned → ∀ bs t, machine.run s bs = some t → ∀ thread, t.delegate thread = none) := by
  have hcounted := Counted.of_run hrun
  refine ⟨hcounted.active, hcounted.pending, ?_, ?_⟩
  · intro a s' w hstep hbefore hafter
    exact ((Effect.of_step hstep).let_in hafter).resolve_left hbefore
  · intro hreturned bs t hlater thread
    have hall := Machine.run_trans hrun hlater
    exact (Counted.of_run hall).delegate_of_over (Settled.of_run hall) (over_of_run hlater hreturned.over) thread

/-- A worker is in the job when it is joined, and `Join` returns after the worker is gone. -/
theorem job_counted_joined :
    machine.run (State.initial 2) [.notify, .notifyLocked 0 1, .notifierPosts 0, .canRunFirstTask 0 1, .join 0,
      .runReturns (.worker 0), .releaseTaskId (.worker 0), .didRunTask 0 0, .joinLocked 0] =
        some ⟨0, 0, true, 3, 0, [.ended], [.posting 0], .join .returned⟩ ∧
      ∀ bs t, machine.run ⟨0, 0, true, 3, 0, [.ended], [.posting 0], .join .returned⟩ bs = some t →
        ∀ thread, t.delegate thread = none := by
  have hrun : machine.run (State.initial 2) [.notify, .notifyLocked 0 1, .notifierPosts 0, .canRunFirstTask 0 1,
      .join 0, .runReturns (.worker 0), .releaseTaskId (.worker 0), .didRunTask 0 0, .joinLocked 0] =
        some ⟨0, 0, true, 3, 0, [.ended], [.posting 0], .join .returned⟩ := rfl
  exact ⟨hrun, (job_counted 2 _ _ hrun).2.2.2 trivial⟩

end V8Multithread.Platform.DefaultJob
