import V8Multithread.Threading.PoolSteps

/-! Wakeups.

A worker that found no work looks once more, under `pool_mutex_`, before it announces
in `sleeping_workers_` that it sleeps. A submitter looks at `sleeping_workers_` without
that mutex after it has pushed. If it looks after the worker's last probe of the queue
and before the announcement, it sees nobody and goes away, and the worker sleeps on a
queue that is not empty.

That is the only way to lose a wakeup. As long as it does not happen, whenever a
worker goes to sleep, or sleeps, past its probe of a queue that has since been filled,
a submitter of that queue is still on its way (`Watched`). -/
namespace V8Multithread.Threading.Pool
open List

/-- The worker holds `pool_mutex_`. -/
def Pc.holds : Pc → Bool
  | .testSize | .hasPrivate | .hasGlobal | .hasDeques _ | .announce | .wait | .woken | .unlock => true
  | _ => false

/-- What the worker contributes to `sleeping_workers_`. -/
def Pc.announced : Pc → Int
  | .wait | .waiting | .notified | .woken => 1
  | _ => 0

/-- The worker found the queue empty in `HasWork` and has not been woken since. A task
in a deque does not wake every worker, so deques are left out. -/
def Pc.passed : Pc → Queue → Bool
  | .hasDeques _, .globalQueue | .announce, .globalQueue | .wait, .globalQueue
  | .waiting, .globalQueue => true
  | .hasGlobal, .privateQueue _ | .hasDeques _, .privateQueue _ | .announce, .privateQueue _
  | .wait, .privateQueue _ | .waiting, .privateQueue _ => true
  | _, _ => false

/-- The queues whose tasks are for this worker to take, besides the deques. -/
def WorkerThread.Polls (thread : WorkerThread) : Queue → Prop
  | .globalQueue => True
  | .privateQueue index => thread.index = index
  | .deque _ => False

/-- Between its push and the end of its notify step. -/
def SubmitPhase.inFlight : SubmitPhase → Bool
  | .pushed | .notifying => true
  | _ => false

namespace State
variable {s s' : State} {q : Queue} {j : Nat} {thread : WorkerThread}

/-- A submitter of this queue is on its way. -/
def InFlight (s : State) (q : Queue) : Prop :=
  ∃ x ∈ s.submissions, x.queue = q ∧ x.phase.inFlight = true

/-- No submitter reads that nobody sleeps while a worker that takes tasks of its queue
has found the queue empty and not yet announced itself. -/
def SeenInTime (s : State) : Action → Prop
  | .load k => ∀ task q, s.submissions[k]? = some ⟨task, q, .pushed⟩ → s.sleepingWorkers ≤ 0 →
      ∀ thread ∈ s.threads, thread.Polls q → thread.pc.passed q = true → thread.pc.announced = 1
  | _ => True

structure Watched (s : State) : Prop where
  mutex : ∀ (i : Nat) (thread : WorkerThread), s.threads[i]? = some thread →
    thread.pc.holds = true → s.poolMutex = some i
  sleeping : s.sleepingWorkers = tally (fun thread => thread.pc.announced) s.threads
  watched : ∀ thread ∈ s.threads, ∀ q, thread.Polls q → thread.pc.passed q = true →
    s.queue q ≠ [] → s.InFlight q

/-! ### Places -/

theorem announced_nonneg (pc : Pc) : 0 ≤ pc.announced := by
  cases pc <;> simp [Pc.announced]

/-- Past a probe a worker holds the mutex or is blocked. -/
theorem holds_of_passed {pc : Pc} (h : pc.passed q) : pc.holds ∨ pc = .waiting := by
  cases pc <;> cases q <;> simp_all [Pc.passed, Pc.holds]

theorem passed_notify (h : thread.notify.pc.passed q) : thread.pc.passed q := by
  unfold WorkerThread.notify at h
  split at h
  · cases q <;> cases h
  · exact h

theorem holds_notify : thread.notify.pc.holds = thread.pc.holds := by
  unfold WorkerThread.notify
  split
  · rename_i hpc
    rw [hpc]
    rfl
  · rfl

theorem announced_notify : thread.notify.pc.announced = thread.pc.announced := by
  unfold WorkerThread.notify
  split
  · rename_i hpc
    rw [hpc]
    rfl
  · rfl

namespace Moves
variable {index : Nat} {pc : Pc} {o : Outcome}

/-- A worker gets past its probe of a queue by finding it empty. -/
theorem passed_next (h : s.Moves index pc o) (hpo : WorkerThread.Polls ⟨index, none, pc⟩ q)
    (hp : o.next.passed q) : pc.passed q ∨ s.queue q = [] := by
  cases h <;> cases q <;> simp_all [Outcome.next, Pc.passed, WorkerThread.Polls]

/-- What a step does to `pool_mutex_`. -/
theorem lock_cases (h : s.Moves index pc o) :
    (∃ next, o = .acquire next ∧ s.poolMutex = none) ∨
    (∃ next, o = .release next ∧ pc.holds ∧ next.holds = false) ∨
    (o.next.holds = pc.holds ∧ ∀ j thread, (s.outcome j thread o).poolMutex = s.poolMutex) := by
  cases h with
  | lock hfree | wake hfree => exact .inl ⟨_, rfl, hfree⟩
  | leave | wait | unlock => exact .inr (.inl ⟨_, rfl, rfl, rfl⟩)
  | privateTask | dequeTask | globalTask | stolen =>
    exact .inr (.inr ⟨rfl, fun _ _ => setQueue_poolMutex⟩)
  | _ => exact .inr (.inr ⟨rfl, fun _ _ => rfl⟩)

/-- A step changes `sleeping_workers_` as it changes the worker's share in it. -/
theorem sleeping_eq (h : s.Moves index pc o) (j : Nat) (thread : WorkerThread) :
    (s.outcome j thread o).sleepingWorkers =
      s.sleepingWorkers - pc.announced + o.next.announced := by
  cases h with
  | privateTask | dequeTask | globalTask | stolen =>
    simp [outcome, setThread, Pc.announced, Outcome.next]
  | count =>
    show s.sleepingWorkers + -1 = s.sleepingWorkers - 1 + 0
    omega
  | _ => simp [outcome, setThread, Pc.announced, Outcome.next]

theorem announced_eq_zero {task : ThreadTask} {rest : List ThreadTask}
    (h : s.Moves index pc (.take q task rest)) : pc.announced = 0 := by
  cases h <;> rfl

end Moves

/-! ### The invariant -/

theorem initial_watched (n : Nat) : (initial n).Watched where
  mutex := by
    intro i thread hi hh
    obtain ⟨k, -, rfl⟩ := List.mem_map.mp (List.mem_of_getElem? hi)
    cases hh
  sleeping := by
    symm
    apply tally.eq_zero
    intro thread hth
    obtain ⟨k, -, rfl⟩ := List.mem_map.mp hth
    rfl
  watched := by
    intro thread hth q hpo hp
    obtain ⟨k, -, rfl⟩ := List.mem_map.mp hth
    cases q <;> cases hp

/-- The mutex is free: nobody is past a probe except in `Wait`. -/
theorem Watched.waiting_of_free (h : s.Watched) (hfree : s.poolMutex = none)
    (hth : thread ∈ s.threads) (hp : thread.pc.passed q) :
    thread.pc = .waiting := by
  rcases holds_of_passed hp with hh | hwa
  · obtain ⟨i, hi⟩ := List.getElem?_of_mem hth
    rw [h.mutex i thread hi hh] at hfree
    cases hfree
  · exact hwa

/-- Nobody sleeps by the counter: nobody has announced itself. -/
theorem Watched.announced_eq_zero (h : s.Watched) (hzero : s.sleepingWorkers ≤ 0)
    (hth : thread ∈ s.threads) : thread.pc.announced = 0 := by
  have hle : thread.pc.announced ≤ tally (fun thread => thread.pc.announced) s.threads :=
    tally.le_of_mem (fun thread _ => announced_nonneg thread.pc) hth
  have hsl := h.sleeping
  have hpos := announced_nonneg thread.pc
  omega

/-- One thread changes, in a way that leaves the rest of the invariant to it. -/
theorem Watched.set_thread {thread' : WorkerThread} (h : s.Watched)
    (hj : s.threads[j]? = some thread) (hth : s'.threads = s.threads.set j thread')
    (hmu : ∀ i, s.poolMutex = some i → i ≠ j → s'.poolMutex = some i)
    (hh : thread'.pc.holds → s'.poolMutex = some j)
    (hsl : s'.sleepingWorkers =
      s.sleepingWorkers - thread.pc.announced + thread'.pc.announced)
    (hqueue : ∀ q, s'.queue q ≠ [] → s.queue q ≠ [])
    (hfl : ∀ q, (∀ i, q ≠ .deque i) → s.InFlight q → s'.InFlight q)
    (hpa : ∀ q, thread'.Polls q → thread'.pc.passed q →
      (thread.Polls q ∧ thread.pc.passed q) ∨ s.queue q = []) : s'.Watched where
  mutex := by
    intro i other hi ho
    rw [hth] at hi
    rcases getElem?_set_cases hi with ⟨rfl, rfl⟩ | ⟨hij, hi⟩
    · exact hh ho
    · exact hmu i (h.mutex i other hi ho) hij
  sleeping := by
    rw [hsl, hth, tally.set _ hj, h.sleeping]
  watched := by
    intro other ho q hp hq hne
    have hde : ∀ i, q ≠ .deque i := by
      rintro i rfl
      exact hp
    refine hfl q hde ?_
    rw [hth] at ho
    rcases mem_or_eq_of_mem_set ho with ho | rfl
    · exact h.watched other ho q hp hq (hqueue q hne)
    · rcases hpa q hp hq with ⟨hp', hq'⟩ | hem
      · exact h.watched thread (List.mem_of_getElem? hj) q hp' hq' (hqueue q hne)
      · exact absurd hem (hqueue q hne)

/-- No thread changes. -/
theorem Watched.keep_threads (h : s.Watched) (hth : s'.threads = s.threads)
    (hmu : s'.poolMutex = s.poolMutex) (hsl : s'.sleepingWorkers = s.sleepingWorkers)
    (hwa : ∀ thread ∈ s.threads, ∀ q, thread.Polls q → thread.pc.passed q →
      s'.queue q ≠ [] → s'.InFlight q) : s'.Watched where
  mutex := by
    rw [hth, hmu]
    exact h.mutex
  sleeping := by
    rw [hth, hsl]
    exact h.sleeping
  watched := by
    rw [hth]
    exact hwa

/-- All sleepers are notified while the mutex is free: nobody is left past a probe. -/
theorem Watched.notify_all (h : s.Watched) (hfree : s.poolMutex = none)
    (hth : s'.threads = s.threads.map WorkerThread.notify)
    (hmu : s'.poolMutex = s.poolMutex) (hsl : s'.sleepingWorkers = s.sleepingWorkers) :
    s'.Watched where
  mutex := by
    intro i thread' hi hh
    rw [hth, List.getElem?_map] at hi
    obtain ⟨thread, hthr, rfl⟩ := Option.map_eq_some_iff.mp hi
    rw [holds_notify] at hh
    rw [hmu]
    exact h.mutex i thread hthr hh
  sleeping := by
    rw [hth, hsl, h.sleeping, tally.map]
    exact tally.congr fun thread _ => announced_notify.symm
  watched := by
    intro thread' ht' q hpo hp
    rw [hth] at ht'
    obtain ⟨thread, hthr, rfl⟩ := List.mem_map.mp ht'
    have hwa := h.waiting_of_free hfree hthr (passed_notify hp)
    simp only [WorkerThread.notify, if_pos hwa] at hp
    cases q <;> cases hp

theorem InFlight.set {k : Nat} {task : ThreadTask} {q' : Queue} {phase phase' : SubmitPhase}
    (h : s.InFlight q) (hk : s.submissions[k]? = some ⟨task, q', phase⟩)
    (hphase : q = q' → phase.inFlight → phase'.inFlight) :
    (s.setSubmission k ⟨task, q', phase'⟩).InFlight q := by
  obtain ⟨x, hx, hq, hfl⟩ := h
  obtain ⟨i, hi⟩ := List.getElem?_of_mem hx
  have hlt := (List.getElem?_eq_some_iff.mp hk).1
  by_cases hik : k = i
  · subst hik
    rw [hk] at hi
    obtain rfl := Option.some.inj hi
    refine ⟨⟨task, q', phase'⟩, ?_, hq, hphase hq.symm hfl⟩
    exact mem_set hlt _
  · refine ⟨x, List.mem_of_getElem? (i := i) ?_, hq, hfl⟩
    show (s.submissions.set k _)[i]? = some x
    rw [List.getElem?_set_ne hik]
    exact hi

/-- A thread is notified, or wakes up by itself. -/
theorem Watched.notify_one (h : s.Watched) (hj : s.threads[j]? = some thread)
    (hth : s'.threads = s.threads.set j thread.notify)
    (hmu : s'.poolMutex = s.poolMutex) (hsl : s'.sleepingWorkers = s.sleepingWorkers)
    (hqueue : ∀ q, s'.queue q = s.queue q)
    (hfl : ∀ q, (∀ i, q ≠ .deque i) → s.InFlight q → s'.InFlight q) : s'.Watched := by
  refine h.set_thread hj hth ?_ ?_ ?_ ?_ hfl ?_
  · intro i hi _
    rw [hmu]
    exact hi
  · intro hh
    rw [holds_notify] at hh
    rw [hmu]
    exact h.mutex j thread hj hh
  · rw [hsl, announced_notify]
    omega
  · intro q hne
    rw [← hqueue q]
    exact hne
  · intro q hp hpa
    refine .inl ⟨?_, passed_notify hpa⟩
    have hin := (acts_notify s (.wakeUp j) j thread).index
    cases q with
    | globalQueue => trivial
    | privateQueue index => exact hin.symm.trans hp
    | deque => exact hp

/-- A thread steps that neither sleeps nor holds the mutex, before or after. -/
theorem Watched.set_running {thread' : WorkerThread} (h : s.Watched)
    (hj : s.threads[j]? = some thread) (hth : s'.threads = s.threads.set j thread')
    (hmu : s'.poolMutex = s.poolMutex) (hsl : s'.sleepingWorkers = s.sleepingWorkers)
    (hold : thread.pc.announced = 0) (hnew : thread'.pc.announced = 0)
    (hh : thread'.pc.holds = false) (hp : ∀ q, thread'.pc.passed q = false)
    (hqueue : ∀ q, s'.queue q ≠ [] → s.queue q ≠ []) (hsub : s'.submissions = s.submissions) :
    s'.Watched := by
  refine h.set_thread hj hth ?_ ?_ ?_ hqueue ?_ ?_
  · intro i hi _
    rw [hmu]
    exact hi
  · rw [hh]
    nofun
  · omega
  · intro q _ hfl
    simpa only [InFlight, hsub] using hfl
  · intro q _ hq
    rw [hp q] at hq
    cases hq

theorem Watched.move {o : Outcome} (h : s.Watched) (hj : s.threads[j]? = some thread)
    (hm : s.Moves thread.index thread.pc o) (hnext : o.next.frames = []) :
    (s.outcome j thread o).Watched := by
  obtain ⟨isolate, hth⟩ : ∃ isolate, (s.outcome j thread o).threads =
      s.threads.set j ⟨thread.index, isolate, o.next⟩ := by
    obtain ⟨isolate, hth, -⟩ := outcome_threads o
    exact ⟨isolate, hth⟩
  have hframe : (∀ q, (s.outcome j thread o).queue q = s.queue q) ∧
      (s.outcome j thread o).submissions = s.submissions := by
    cases o with
    | take => cases hnext
    | _ => exact ⟨fun _ => queue_congr rfl rfl, rfl⟩
  refine h.set_thread hj hth ?_ ?_ ?_ ?_ ?_ ?_
  · intro i hi hij
    rcases hm.lock_cases with ⟨next, rfl, hfree⟩ | ⟨next, rfl, hh, -⟩ | ⟨-, hmu⟩
    · rw [hfree] at hi
      cases hi
    · rw [h.mutex j thread hj hh] at hi
      exact absurd (Option.some.inj hi).symm hij
    · rw [hmu]
      exact hi
  · intro hh
    rcases hm.lock_cases with ⟨next, rfl, -⟩ | ⟨next, rfl, -, hno⟩ | ⟨hsa, hmu⟩
    · rfl
    · exact absurd (hno.symm.trans hh) nofun
    · rw [hmu]
      exact h.mutex j thread hj (hsa ▸ hh)
  · exact hm.sleeping_eq j thread
  · intro q hne
    rw [← hframe.1 q]
    exact hne
  · intro q _ hfl
    simpa only [InFlight, hframe.2] using hfl
  · intro q hp hpa
    rcases hm.passed_next hp hpa with hq | hem
    · exact .inl ⟨hp, hq⟩
    · exact .inr hem

theorem Watched.grow (h : s.Watched) (n : Nat) : (s.grow n).Watched where
  mutex := by
    intro i thread hi hh
    simp only [State.grow, List.getElem?_append] at hi
    split at hi
    · exact h.mutex i thread hi hh
    · obtain ⟨k, -, rfl⟩ := List.mem_map.mp (List.mem_of_getElem? hi)
      cases hh
  sleeping := by
    simp only [State.grow, tally.append, h.sleeping]
    rw [tally.eq_zero (l := List.map _ _), Int.add_zero]
    intro thread hth
    obtain ⟨k, -, rfl⟩ := List.mem_map.mp hth
    rfl
  watched := by
    intro thread hth q hpo hp hne
    rw [queue_grow] at hne
    rcases mem_append.mp hth with hth | hth
    · exact h.watched thread hth q hpo hp hne
    · obtain ⟨k, -, rfl⟩ := List.mem_map.mp hth
      cases q <;> cases hp

theorem Watched.effect {a : Action} (h : s.Watched) (hok : s.SeenInTime a) (he : Effect s a s') :
    s'.Watched := by
  cases he with
  | begin =>
    refine h.keep_threads rfl rfl rfl fun thread hth q hpo hp hne => ?_
    obtain ⟨x, hx, hfl⟩ := h.watched thread hth q hpo hp hne
    exact ⟨x, mem_append_left _ hx, hfl⟩
  | @push k task q' hk =>
    refine h.keep_threads setQueue_threads setQueue_poolMutex setQueue_sleepingWorkers ?_
    intro thread hth q hpo hp hne
    have hk' : (s.setQueue q' (s.queue q' ++ [task])).submissions[k]? =
        some ⟨task, q', .incremented⟩ := by
      rw [setQueue_submissions]
      exact hk
    by_cases hq : q = q'
    · -- the submitter of this very task is on its way
      subst hq
      have hlt := (List.getElem?_eq_some_iff.mp hk').1
      exact ⟨⟨task, q, .pushed⟩, mem_set hlt _, rfl, rfl⟩
    · have hqueue : s.queue q ≠ [] := by
        rw [← queue_setQueue_of_ne hq]
        exact hne
      have hfl := h.watched thread hth q hpo hp hqueue
      refine InFlight.set ?_ hk' nofun
      simpa only [InFlight, setQueue_submissions] using hfl
  | loadPositive hk =>
    refine h.keep_threads rfl rfl rfl fun thread hth q hpo hp hne => ?_
    exact (h.watched thread hth q hpo hp hne).set hk fun _ _ => rfl
  | @loadZero k task q' hk hzero =>
    refine h.keep_threads rfl rfl rfl fun thread hth q hpo hp hne => ?_
    refine (h.watched thread hth q hpo hp hne).set hk fun hq _ => ?_
    -- nobody was past the probe of the submitter's queue
    subst hq
    have han := hok task q hk hzero thread hth hpo hp
    rw [h.announced_eq_zero hzero hth] at han
    cases han
  | notifyAll _ hfree | shrink hfree => exact h.notify_all hfree rfl rfl rfl
  | notifyNone hk =>
    refine h.keep_threads rfl rfl rfl fun thread hth q hpo hp hne => ?_
    refine (h.watched thread hth q hpo hp hne).set hk fun hq _ => ?_
    subst hq
    exact hpo.elim
  | notifyOne hk hj =>
    refine h.notify_one hj rfl rfl rfl (fun _ => queue_congr rfl rfl) fun q hde hfl => ?_
    exact hfl.set hk fun hq _ => absurd hq (hde _)
  | move hj hm hnext => exact h.move hj hm hnext
  | take hj hm =>
    obtain ⟨isolate, hthr, -⟩ := outcome_threads _
    refine h.set_running hj hthr setQueue_poolMutex setQueue_sleepingWorkers ?_ rfl rfl ?_ ?_
      setQueue_submissions
    · exact hm.announced_eq_zero
    · intro q
      cases q <;> rfl
    · intro q hne
      exact queue_ne_of_taken hm.taken hne
  | poll hj hpc hloop hq =>
    refine h.set_running hj (congrArg (List.set · _ _) setQueue_threads) setQueue_poolMutex
      setQueue_sleepingWorkers (by rw [hpc]; rfl) rfl rfl ?_ ?_ setQueue_submissions
    · intro q
      cases q <;> rfl
    · intro q hne
      exact queue_ne_of_taken (.inl hq) hne
  | sleep | same => exact h
  | @finish _ _ _ outer hj hpc =>
    refine h.set_running hj rfl rfl rfl (by rw [hpc]; rfl) ?_ ?_ ?_ ?_ rfl
    · cases outer <;> rfl
    · cases outer <;> rfl
    · intro q
      cases outer <;> cases q <;> rfl
    · exact fun q hne => hne
  | wakeUp hj =>
    exact h.notify_one hj rfl rfl rfl (fun _ => queue_congr rfl rfl) fun _ _ hfl => hfl
  | grow => exact h.grow _

theorem run_watched {n : Nat} {as : List Action} (hrun : machine.run (initial n) as = some s)
    (hme : machine.Meets SeenInTime (initial n) as) : s.Watched :=
  Machine.invariant_of_meets (I := Watched)
    (fun _ _ _ h hok hs => h.effect hok (step_effect hs)) (initial_watched n) hrun hme

/-- No submitter is between its push and the end of its notify step. -/
def NobodySubmits (s : State) : Prop := ∀ x ∈ s.submissions, x.phase.inFlight = false

theorem NobodySubmits.not_inFlight (h : s.NobodySubmits) : ¬ s.InFlight q := by
  rintro ⟨x, hx, -, hfl⟩
  rw [h x hx] at hfl
  cases hfl

/-- **No lost wakeup**, in every run in which no submitter reads that nobody sleeps
between a worker's last probe of its queue and the worker's announcement: it does not
happen that a task is in the global queue, nobody is submitting, and every worker is
blocked without a notification; nor that a task is in the private queue of a worker,
nobody is submitting, and that worker is. -/
theorem no_lost_wakeup (n : Nat) (hn : 1 ≤ n) (as : List Action) (s : State)
    (hrun : machine.run (initial n) as = some s)
    (hmeets : machine.Meets SeenInTime (initial n) as) :
    ¬ (s.globalQueue ≠ [] ∧ s.NobodySubmits ∧
      ∀ thread ∈ s.threads, thread.pc ≠ .exited → thread.pc = .waiting) ∧
    ∀ thread ∈ s.threads,
      ¬ (s.queue (.privateQueue thread.index) ≠ [] ∧ s.NobodySubmits ∧ thread.pc = .waiting) := by
  have h := run_watched hrun hmeets
  constructor
  · rintro ⟨hne, hnobody, hall⟩
    have hstaffed := run_staffed hn hrun
    obtain ⟨thread, hthread, -, hlive⟩ := hstaffed.thread 0 hstaffed.pos
    have hpassed : thread.pc.passed .globalQueue = true := by
      rw [hall thread hthread hlive]
      rfl
    exact hnobody.not_inFlight (h.watched thread hthread .globalQueue trivial hpassed hne)
  · rintro thread hthread ⟨hne, hnobody, hwaiting⟩
    have hpassed : thread.pc.passed (.privateQueue thread.index) = true := by
      rw [hwaiting]
      rfl
    have hpolls : thread.Polls (.privateQueue thread.index) := rfl
    exact hnobody.not_inFlight (h.watched thread hthread _ hpolls hpassed hne)

/-- The only worker falls asleep; then a task is submitted, up to the notification. -/
def sleepThenSubmit : List Action :=
  replicate 13 (.getTask 0) ++ [.submit .spawned, .push 0, .load 0, .notify 0 0]

theorem no_lost_wakeup_sleepThenSubmit :
    ∃ s, machine.run (initial 1) sleepThenSubmit = some s ∧ s.globalQueue ≠ [] ∧
      ¬ ∀ thread ∈ s.threads, thread.pc ≠ .exited → thread.pc = .waiting := by
  refine ⟨_, rfl, by decide, fun hall => ?_⟩
  refine (no_lost_wakeup 1 (by decide) sleepThenSubmit _ rfl ?_).1 ⟨by decide, ?_, hall⟩
  · refine ⟨trivial, trivial, trivial, trivial, trivial, trivial, trivial, trivial, trivial, trivial,
      trivial, trivial, trivial, trivial, trivial, ?_, trivial, trivial⟩
    intro task q _ hzero
    exact absurd hzero (by decide)
  · unfold NobodySubmits
    decide

/-- The worker has looked for work for the last time; now the task is pushed and the
submitter looks for sleepers; then the worker announces itself and sleeps. -/
def submitUnseen : List Action :=
  replicate 11 (.getTask 0) ++
    [.submit .spawned, .push 0, .load 0, .getTask 0, .getTask 0]

theorem wakeup_lost :
    ∃ s, machine.run (initial 1) submitUnseen = some s ∧ s.globalQueue ≠ [] ∧ s.NobodySubmits ∧
      ∀ thread ∈ s.threads, thread.pc = .waiting := by
  unfold NobodySubmits
  decide

end State
end V8Multithread.Threading.Pool
