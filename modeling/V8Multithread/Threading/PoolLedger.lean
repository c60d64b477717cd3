import V8Multithread.Threading.PoolSteps

/-! No step of the pool loses or copies a task.

`outstanding f` adds up `f` over the tasks that were submitted and have not
completed. Together with the completed ones they are the submitted ones, whatever
`f` is: with `f` one everywhere this counts tasks, with `f` one at a single task it
says where that task is. -/
namespace V8Multithread.Threading.Pool
open List
variable (f : ThreadTask → Int)

def Slot.sum (slot : Slot) : Int := tally f slot.deque + tally f slot.privateQueue

def Submission.sum (submission : Submission) : Int :=
  if submission.phase = .incremented then f submission.task else 0

def WorkerThread.sum (thread : WorkerThread) : Int := tally (fun frame => f frame.task) thread.pc.frames

theorem WorkerThread.sum_idle {thread : WorkerThread} (h : thread.pc.frames = []) : thread.sum f = 0 := by
  rw [sum, h]
  rfl

theorem WorkerThread.sum_notify (thread : WorkerThread) : thread.notify.sum f = thread.sum f := by
  unfold notify
  split
  · rename_i hpc
    have hno : ({thread with pc := .notified} : WorkerThread).sum f = 0 := sum_idle f rfl
    rw [hno, sum_idle f (by rw [hpc]; rfl)]
  · rfl

namespace State
variable {f} {s s' : State} {q : Queue} {j : Nat} {thread : WorkerThread} {tasks : List ThreadTask}

def queued (f : ThreadTask → Int) (s : State) : Int :=
  tally f s.globalQueue + tally (Slot.sum f) s.slots

def executing (f : ThreadTask → Int) (s : State) : Int := tally (WorkerThread.sum f) s.threads

/-- Over the tasks whose submission has not reached the queue. -/
def submitting (f : ThreadTask → Int) (s : State) : Int := tally (Submission.sum f) s.submissions

def outstanding (f : ThreadTask → Int) (s : State) : Int :=
  submitting f s + queued f s + executing f s

theorem parts_nonneg (hf : ∀ task, 0 ≤ f task) (s : State) : 0 ≤ submitting f s ∧ 0 ≤ queued f s ∧ 0 ≤ executing f s := by
  refine ⟨?_, ?_, ?_⟩
  · apply tally.nonneg
    intro x _
    unfold Submission.sum
    split
    · exact hf x.task
    · exact le_refl 0
  · apply Int.add_nonneg (tally.nonneg fun task _ => hf task)
    apply tally.nonneg
    intro slot _
    exact Int.add_nonneg (tally.nonneg fun task _ => hf task) (tally.nonneg fun task _ => hf task)
  · apply tally.nonneg
    intro thread _
    exact tally.nonneg fun frame _ => hf frame.task

def balance (f : ThreadTask → Int) (s : State) : Int :=
  outstanding f s + tally (fun frame => f frame.task) s.completed - tally (fun x => f x.task) s.submissions

/-! ### How it changes with the parts of the state -/

theorem balance_setQueue (hq : s.InRange q) :
    balance f (s.setQueue q tasks) = balance f s - tally f (s.queue q) + tally f tasks := by
  have hqu : queued f (s.setQueue q tasks) = queued f s - tally f (s.queue q) + tally f tasks := by
    cases q with
    | globalQueue =>
      simp only [queued, setQueue, queue]
      omega
    | privateQueue index | deque index =>
      have hsl := getElem?_eq_getElem hq
      simp only [queued, setQueue, queue, hsl, Option.map_some, Option.getD_some, tally.modify _ hsl, Slot.sum]
      omega
  simp only [balance, outstanding, hqu, submitting, executing, setQueue_submissions,
    setQueue_threads, setQueue_completed]
  omega

theorem balance_setThread (hj : s.threads[j]? = some thread) (thread' : WorkerThread) :
    balance f (s.setThread j thread') = balance f s - thread.sum f + thread'.sum f := by
  have hex : executing f (s.setThread j thread') =
      executing f s - thread.sum f + thread'.sum f := tally.set _ hj thread'
  simp only [balance, outstanding, hex]
  simp only [submitting, queued, setThread]
  omega

theorem balance_notifyAll : balance f s.notifyAll = balance f s := by
  have hex : executing f s.notifyAll = executing f s := by
    rw [executing, notifyAll, tally.map]
    exact tally.congr fun thread _ => thread.sum_notify f
  simp only [balance, outstanding, hex]
  rfl

theorem balance_notify (hj : s.threads[j]? = some thread) : balance f (s.setThread j thread.notify) = balance f s := by
  rw [balance_setThread hj, thread.sum_notify]
  omega

variable {k : Nat} {task : ThreadTask} {phase : SubmitPhase} {a : Action}

theorem balance_setSubmission (hk : s.submissions[k]? = some ⟨task, q, phase⟩) (phase' : SubmitPhase) :
    balance f (s.setSubmission k ⟨task, q, phase'⟩) = balance f s -
      Submission.sum f ⟨task, q, phase⟩ + Submission.sum f ⟨task, q, phase'⟩ := by
  have hsu : submitting f (s.setSubmission k ⟨task, q, phase'⟩) = submitting f s -
      Submission.sum f ⟨task, q, phase⟩ + Submission.sum f ⟨task, q, phase'⟩ := tally.set _ hk _
  have htasks : tally (fun x => f x.task) (s.submissions.set k ⟨task, q, phase'⟩) =
      tally (fun x => f x.task) s.submissions := by
    rw [tally.set _ hk]
    dsimp only
    omega
  simp only [balance, outstanding, hsu]
  simp only [setSubmission, htasks, queued, executing]
  omega

/-- Past the push, a submission holds no task. -/
theorem balance_advance {phase' : SubmitPhase} (hk : s.submissions[k]? = some ⟨task, q, phase⟩) (h : phase ≠ .incremented)
    (h' : phase' ≠ .incremented) :
    balance f (s.setSubmission k ⟨task, q, phase'⟩) = balance f s := by
  rw [balance_setSubmission hk]
  simp only [Submission.sum, if_neg h, if_neg h']
  omega

/-- A task moves from a queue to a thread. -/
theorem balance_taken {rest : List ThreadTask} {thread' : WorkerThread} (hj : s.threads[j]? = some thread)
    (hq : s.queue q = task :: rest ∨ s.queue q = rest ++ [task])
    (hsum : thread'.sum f = f task + thread.sum f) :
    balance f ((s.setQueue q rest).setThread j thread') = balance f s := by
  have hne : s.queue q ≠ [] := by
    rcases hq with hq | hq <;> simp [hq]
  have hqueue : tally f (s.queue q) = f task + tally f rest := by
    rcases hq with hq | hq <;> rw [hq]
    · exact tally.cons ..
    · rw [tally.append, tally.cons, tally.nil]
      omega
  rw [balance_setThread (by simpa using hj), balance_setQueue (inRange_of_queue hne), hqueue, hsum]
  omega

theorem balance_move {o : Outcome} (hj : s.threads[j]? = some thread)
    (hidl : thread.pc.frames = []) (hnext : o.next.frames = []) :
    balance f (s.outcome j thread o) = balance f s := by
  have hmo : ({thread with pc := o.next} : WorkerThread).sum f = 0 :=
    WorkerThread.sum_idle f hnext
  have hset : balance f (s.setThread j {thread with pc := o.next}) = balance f s := by
    rw [balance_setThread hj, WorkerThread.sum_idle f hidl, hmo]
    omega
  cases o with
  | take queue task rest => cases hnext
  | goto | acquire | release | sleeping => exact hset

theorem balance_grow (n : Nat) : balance f (s.grow n) = balance f s := by
  have hth : executing f (s.grow n) = executing f s := by
    simp only [executing, grow, tally.append]
    rw [tally.eq_zero (l := List.map _ _)]
    · omega
    · intro thread hthr
      obtain ⟨i, -, rfl⟩ := mem_map.mp hthr
      rfl
  have hsl : queued f (s.grow n) = queued f s := by
    simp only [queued, grow, tally.append]
    rw [tally.eq_zero (l := replicate _ _)]
    · omega
    · intro slot hslo
      obtain rfl := eq_of_mem_replicate hslo
      rfl
  simp only [balance, outstanding, hth, hsl]
  rfl

theorem balance_effect (hra : ∀ x ∈ s.submissions, s.InRange x.queue)
    (he : Effect s a s') : balance f s' = balance f s := by
  cases he with
  | begin h =>
    simp only [balance, outstanding, begin, submitting, queued, executing, tally.append, tally.cons,
      tally.nil, Submission.sum, if_true]
    omega
  | push hk =>
    have hq := hra _ (mem_of_getElem? hk)
    rw [balance_setSubmission (by simpa using hk), balance_setQueue hq, tally.append, tally.cons, tally.nil]
    simp only [Submission.sum, if_true, reduceCtorEq, if_false]
    omega
  | loadPositive hk | loadZero hk | notifyNone hk => exact balance_advance hk nofun nofun
  | notifyAll hk hfree =>
    rw [balance_notifyAll]
    exact balance_advance hk nofun nofun
  | notifyOne hk hj =>
    refine Eq.trans (balance_notify (by exact hj)) ?_
    exact balance_advance hk nofun nofun
  | move hj hm hnext => exact balance_move hj hm.frames_eq hnext
  | take hj hm =>
    refine balance_taken hj hm.taken ?_
    rw [WorkerThread.sum_idle f hm.frames_eq]
    exact tally.cons ..
  | poll hj hpc hloop hq =>
    refine balance_taken hj (.inl hq) ?_
    simp only [WorkerThread.sum, hpc, Pc.frames, tally.cons]
  | sleep | same => rfl
  | @finish j thread frame outer hj hpc =>
    have hset := balance_setThread (f := f) hj {thread with pc := resume outer}
    have hsum : thread.sum f = f frame.task + WorkerThread.sum f {thread with pc := resume outer} := by
      cases outer <;> simp [WorkerThread.sum, hpc, Pc.frames, resume]
    simp only [balance, tally.append, tally.cons, tally.nil] at hset ⊢
    simp only [outstanding, submitting, queued, executing, setThread] at hset ⊢
    omega
  | wakeUp hj => exact balance_notify hj
  | grow hfree hn => exact balance_grow _
  | shrink hfree hpos hn =>
    show balance f s.notifyAll = balance f s
    exact balance_notifyAll

/-! ### The ledger -/

/-- Indices are in range, tasks are numbered as they come, and none is lost or copied. -/
structure Sound (s : State) : Prop where
  threads : ∀ thread ∈ s.threads, thread.index < s.slots.length
  tickets : ∀ x ∈ s.tickets, s.InRange x.2
  numbered : s.tickets.map (·.1.id) = range s.nextTask
  ledger : ∀ f, balance f s = 0

theorem initial_sound (n : Nat) : Sound (initial n) where
  threads := by
    intro thread hth
    obtain ⟨i, hi, rfl⟩ := mem_map.mp hth
    simpa [initial] using hi
  tickets := nofun
  numbered := rfl
  ledger := by
    intro f
    have hsl : tally (Slot.sum f) (initial n).slots = 0 := by
      apply tally.eq_zero
      intro slot hslo
      obtain rfl := eq_of_mem_replicate hslo
      rfl
    have hthr : tally (WorkerThread.sum f) (initial n).threads = 0 := by
      apply tally.eq_zero
      intro thread hth
      obtain ⟨i, -, rfl⟩ := mem_map.mp hth
      rfl
    simp only [balance, outstanding, submitting, queued, executing, hsl, hthr]
    rfl

theorem slots_effect (he : Effect s a s') : s.slots.length ≤ s'.slots.length := by
  cases he with
  | @move _ _ o _ _ hnext => cases o with
    | take => cases hnext
    | _ => exact le_refl _
  | push | take | poll => exact le_of_eq setQueue_slots_length.symm
  | grow => simp [State.grow]
  | _ => exact le_refl _

theorem InRange.mono (h : s.InRange q) (hle : s.slots.length ≤ s'.slots.length) : s'.InRange q := by
  cases q with
  | globalQueue => trivial
  | privateQueue index | deque index => exact lt_of_lt_of_le h hle

theorem Target.inRange {home : Option Home} (h : s.Target home q)
    (hth : ∀ thread ∈ s.threads, thread.index < s.slots.length) : s.InRange q := by
  cases h with
  | global => trivial
  | worker hj | own hj => exact hth _ (mem_of_getElem? hj)

theorem Sound.effect (h : s.Sound) (he : Effect s a s') : s'.Sound where
  threads := by
    intro thread' ht'
    obtain ⟨i, hi⟩ := getElem?_of_mem ht'
    rcases (effect_follows he).thread i thread' hi with
      ⟨thread, hth, hke⟩ | ⟨-, -, n, -, hn, hsl, -⟩
    · rw [hke.index]
      exact lt_of_lt_of_le (h.threads thread (mem_of_getElem? hth)) (slots_effect he)
    · exact lt_of_lt_of_le hn hsl
  tickets := by
    intro x hx
    rcases effect_tickets he with ⟨hti, -⟩ | ⟨kind, home, q, hta, rfl⟩
    · rw [hti] at hx
      exact (h.tickets x hx).mono (slots_effect he)
    · simp only [State.tickets, begin, map_append, map_cons, map_nil, mem_append, mem_singleton] at hx
      rcases hx with hx | rfl
      · exact (h.tickets x hx).mono (slots_effect he)
      · exact (hta.inRange h.threads).mono (slots_effect he)
  numbered := by
    rcases effect_tickets he with ⟨hti, hnext⟩ | ⟨kind, home, q, hta, rfl⟩
    · rw [hti, hnext]
      exact h.numbered
    · simp only [State.tickets, begin, map_append, range_succ]
      exact congrArg (· ++ [s.nextTask]) h.numbered
  ledger := by
    intro f
    rw [balance_effect (fun x hx => h.tickets _ (mem_map_of_mem hx)) he]
    exact h.ledger f

theorem run_sound {n : Nat} {as : List Action} (hrun : machine.run (initial n) as = some s) : s.Sound :=
  Machine.invariant (I := Sound) (fun _ _ _ h hs => h.effect (step_effect hs)) (initial_sound n) hrun

end State
end V8Multithread.Threading.Pool
