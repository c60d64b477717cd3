import V8Multithread.Threading.PoolLedger

/-! Resizing.

A thread whose index has left the pool ends when it next finds no work, and its
private queue stays behind. A task that is pushed there later waits for a pool that
has grown again, and is then run by a new thread with another isolate; so is one that
comes in between the thread's last look at the queue and its end. A pool that grows
before the old thread has ended gives one queue two threads.

Without these three nothing goes wrong (`Manned`): every queue that holds a task has a
living thread that looks into it, and a task for one worker is run by the thread that
made its resolver. -/
namespace V8Multithread.Threading.Pool
open List

def WorkerThread.Live (thread : WorkerThread) : Prop := thread.pc ≠ .exited

namespace State
variable {s s' : State} {q : Queue} {j : Nat} {thread : WorkerThread}

/-- The thread that made the task's resolver. -/
def IsHome (s : State) (home : Home) (thread : WorkerThread) : Prop :=
  s.threads[home.thread]? = some thread ∧ thread.isolate = some home.isolate

/-- A task for one worker goes to the queue of its home's index, and no other task has
a home. -/
def Homed (s : State) (task : ThreadTask) : Queue → Prop
  | .privateQueue index =>
    ∃ home thread, task.home = some home ∧ s.IsHome home thread ∧ thread.index = index
  | _ => task.home = none

/-- A task is pushed only while its home lives, or into the deque of a living thread;
a thread ends only with its queues empty; and an index is given out only when no
living thread has it. -/
def Orderly (s : State) : Action → Prop
  | .push k => ∀ task q, s.submissions[k]? = some ⟨task, q, .incremented⟩ →
      (∀ home thread, task.home = some home → s.IsHome home thread → thread.Live) ∧
      ∀ index, q = .deque index → ∃ thread ∈ s.threads, thread.index = index ∧ thread.Live
  | .getTask j => ∀ thread, s.threads[j]? = some thread → s.Exits (.getTask j) j thread →
      s.queue (.privateQueue thread.index) = [] ∧ s.queue (.deque thread.index) = []
  | .resize n => ∀ thread ∈ s.threads, thread.Live → ¬ (s.poolSize ≤ thread.index ∧ thread.index < n)
  | _ => True

structure Manned (s : State) : Prop where
  placed : ∀ q, ∀ task ∈ s.queue q, (task, q) ∈ s.tickets
  homed : ∀ x ∈ s.tickets, s.Homed x.1 x.2
  unique : ∀ (i j : Nat) (thread other : WorkerThread), s.threads[i]? = some thread →
    s.threads[j]? = some other → thread.Live → other.Live → thread.index = other.index → i = j
  awaited : ∀ index, ∀ task ∈ s.queue (.privateQueue index), ∀ home thread,
    task.home = some home → s.IsHome home thread → thread.Live
  kept : ∀ index, s.queue (.deque index) ≠ [] → ∃ thread ∈ s.threads, thread.index = index ∧ thread.Live
  running : ∀ (i : Nat) (thread : WorkerThread) (frame : Frame), s.threads[i]? = some thread →
    frame ∈ thread.pc.frames → ∀ home, frame.task.home = some home →
    home.thread = i ∧ thread.isolate = some home.isolate

/-! ### What a step puts into a queue -/

variable {a : Action} {task : ThreadTask} {home : Home} {x : ThreadTask × Queue}

/-- A task in a queue after the step was there before it, or is pushed in it. -/
theorem effect_queue (he : Effect s a s') (hmem : task ∈ s'.queue q) :
    task ∈ s.queue q ∨ ∃ k, a = .push k ∧ s.submissions[k]? = some ⟨task, q, .incremented⟩ := by
  cases he with
  | @push k x q' hk =>
    have hmem' : task ∈ (s.setQueue q' (s.queue q' ++ [x])).queue q := by
      exact hmem
    by_cases hq : q = q'
    · subst hq
      have hra : s.InRange q :=
        (inRange_of_queue (ne_nil_of_mem hmem')).mono (le_of_eq setQueue_slots_length)
      rw [queue_setQueue_self hra] at hmem'
      rcases mem_append.mp hmem' with hold | hnew
      · exact .inl hold
      · obtain rfl := mem_singleton.mp hnew
        exact .inr ⟨k, rfl, hk⟩
    · rw [queue_setQueue_of_ne hq] at hmem'
      exact .inl hmem'
  | @move _ _ o _ _ hnext => cases o with
    | take => cases hnext
    | _ => exact .inl (by rwa [queue_congr rfl rfl] at hmem)
  | take hj hm =>
    refine .inl (mem_queue_of_taken hm.taken ?_)
    rwa [queue_congr rfl rfl] at hmem
  | poll hj hpc hloop hq =>
    refine .inl (mem_queue_of_taken (.inl hq) ?_)
    rwa [queue_congr rfl rfl] at hmem
  | grow =>
    rw [queue_grow] at hmem
    exact .inl hmem
  | _ => exact .inl (by rwa [queue_congr rfl rfl] at hmem)

/-! ### The invariant -/

theorem initial_manned (n : Nat) : (initial n).Manned := by
  have hqueue : ∀ q, (initial n).queue q = [] := by
    intro q
    cases q with
    | globalQueue => rfl
    | privateQueue index | deque index =>
      simp only [queue, initial, getElem?_replicate]
      split <;> rfl
  have hth : ∀ (i : Nat) (thread : WorkerThread), (initial n).threads[i]? = some thread →
      thread = ⟨i, none, .probePrivate⟩ := by
    intro i thread hi
    simp only [initial, getElem?_map, Option.map_eq_some_iff] at hi
    obtain ⟨k, hk, rfl⟩ := hi
    rw [getElem?_eq_some_iff] at hk
    obtain ⟨_, rfl⟩ := hk
    simp
  refine ⟨?_, ?_, ?_, ?_, ?_, ?_⟩
  · intro q task hmem
    rw [hqueue] at hmem
    cases hmem
  · intro submission hmem
    cases hmem
  · intro i j thread other hi hj _ _ hin
    rw [hth i thread hi, hth j other hj] at hin
    exact hin
  · intro index task hmem
    rw [hqueue] at hmem
    cases hmem
  · intro index hne
    exact absurd (hqueue _) hne
  · intro i thread frame hi hframe
    rw [hth i thread hi] at hframe
    cases hframe

/-- A home stays a home. -/
theorem Follows.isHome (h : s.Follows a s') (hh : s.IsHome home thread) :
    ∃ thread', s'.IsHome home thread' ∧ s.Keeps a home.thread thread thread' := by
  obtain ⟨thread', ht', hke⟩ := h.next hh.1
  exact ⟨thread', ⟨ht', hke.isolate _ hh.2⟩, hke⟩

theorem Homed.effect (h : s.Homed task q) (he : Effect s a s') : s'.Homed task q := by
  cases q with
  | globalQueue | deque => exact h
  | privateQueue index =>
    obtain ⟨home, thread, hta, hh, hin⟩ := h
    obtain ⟨thread', hh', hke⟩ := (effect_follows he).isHome hh
    exact ⟨home, thread', hta, hh', hke.index.trans hin⟩

theorem Target.homed {home : Option Home} (h : s.Target home q) (id : Nat) (kind : Kind) : s.Homed ⟨id, kind, home⟩ q := by
  cases h with
  | global | own => rfl
  | worker hj hi => exact ⟨_, _, rfl, ⟨hj, hi⟩, rfl⟩

theorem mem_tickets_effect (he : Effect s a s') (hx : x ∈ s.tickets) : x ∈ s'.tickets := by
  rcases effect_tickets he with ⟨hti, -⟩ | ⟨kind, home, q, -, rfl⟩
  · rw [hti]
    exact hx
  · simp only [tickets, begin, map_append]
    exact mem_append_left _ hx

variable {i index id : Nat} {frame : Frame}

theorem Keeps.live {thread' : WorkerThread} (h : s.Keeps a i thread thread') (hlive : thread'.Live) : thread.Live :=
  fun hex => hlive (h.exited hex)

/-- The home of a queued task, found from its queue. -/
theorem Manned.home_of_mem (h : s.Manned) (hmem : task ∈ s.queue q) (hho : task.home = some home) :
    ∃ thread, s.IsHome home thread ∧ q = .privateQueue thread.index := by
  have hh := h.homed _ (h.placed q task hmem)
  cases q with
  | globalQueue | deque =>
    rw [hh] at hho
    cases hho
  | privateQueue index =>
    obtain ⟨home', thread, hta, hth, hin⟩ := hh
    rw [hho] at hta
    obtain rfl := Option.some.inj hta
    exact ⟨thread, hth, by rw [hin]⟩

theorem Manned.unique_effect (h : s.Manned) (hok : s.Orderly a) (he : Effect s a s') {j : Nat}
    {thread other : WorkerThread} (hi : s'.threads[i]? = some thread) (hj : s'.threads[j]? = some other)
    (hth : thread.Live) (ho : other.Live) (hin : thread.index = other.index) : i = j := by
  have hf := effect_follows he
  -- a new thread has an index that no living thread had
  have hfresh : ∀ (k : Nat) (old new : WorkerThread) (n : Nat), a = .resize n → old.Live →
      s.threads[k]? = some old → s.poolSize ≤ new.index → new.index < n →
      old.index = new.index → False := by
    rintro k old new n rfl hlive hk hle hlt heq
    exact hok old (mem_of_getElem? hk) hlive (by omega)
  rcases hf.thread i thread hi with ⟨old, hold, hke⟩ | ⟨hle, hpos, n, ha, hn, -⟩ <;>
    rcases hf.thread j other hj with ⟨old', hold', hk'⟩ | ⟨hle', hpos', n', ha', hn', -⟩
  · refine h.unique i j old old' hold hold' (hke.live hth) (hk'.live ho) ?_
    rw [← hke.index, ← hk'.index]
    exact hin
  · refine (hfresh i old other n' ha' (hke.live hth) hold (by omega) hn' ?_).elim
    rw [← hke.index]
    exact hin
  · refine (hfresh j old' thread n ha (hk'.live ho) hold' (by omega) hn ?_).elim
    rw [← hk'.index]
    exact hin.symm
  · omega

theorem Manned.awaited_effect (h : s.Manned) (hok : s.Orderly a) (he : Effect s a s')
    (hmem : task ∈ s'.queue (.privateQueue index)) (hta : task.home = some home) (hh : s'.IsHome home thread) :
    thread.Live := by
  intro hexi
  have hf := effect_follows he
  rcases effect_queue he hmem with hmem | ⟨k, rfl, hk⟩
  · obtain ⟨old, hold, hqueue⟩ := h.home_of_mem hmem hta
    obtain ⟨new, hnew, hke⟩ := hf.isHome hold
    obtain rfl := Option.some.inj (hnew.1.symm.trans hh.1)
    rcases hke.exits hexi with hg | hex
    · exact h.awaited index task hmem home old hta hold hg
    · -- the home of a queued task does not end now
      obtain rfl := hex.1
      have hem := (hok old hold.1 hex).1
      rw [← hqueue] at hem
      rw [hem] at hmem
      cases hmem
  · have hti : (task, Queue.privateQueue index) ∈ s.tickets :=
      mem_map_of_mem (f := fun x => (x.task, x.queue)) (mem_of_getElem? hk)
    obtain ⟨home', old, ht', hold, -⟩ := h.homed _ hti
    rw [hta] at ht'
    obtain rfl := Option.some.inj ht'
    obtain ⟨new, hnew, hke⟩ := hf.isHome hold
    obtain rfl := Option.some.inj (hnew.1.symm.trans hh.1)
    rcases hke.exits hexi with hg | ⟨ha, -⟩
    · exact (hok task _ hk).1 home old hta hold hg
    · cases ha

theorem Manned.kept_effect (h : s.Manned) (hok : s.Orderly a) (he : Effect s a s') (hne : s'.queue (.deque index) ≠ []) :
    ∃ thread ∈ s'.threads, thread.index = index ∧ thread.Live := by
  obtain ⟨task, hmem⟩ := exists_mem_of_ne_nil _ hne
  have hold : ∃ thread ∈ s.threads, thread.index = index ∧ thread.Live := by
    rcases effect_queue he hmem with hmem | ⟨k, rfl, hk⟩
    · exact h.kept index (ne_nil_of_mem hmem)
    · exact (hok task _ hk).2 index rfl
  obtain ⟨thread, hth, rfl, hlive⟩ := hold
  obtain ⟨i, hi⟩ := getElem?_of_mem hth
  obtain ⟨thread', hi', hke⟩ := (effect_follows he).next hi
  refine ⟨thread', mem_of_getElem? hi', hke.index, fun hexi => ?_⟩
  rcases hke.exits hexi with hg | hex
  · exact hlive hg
  · obtain rfl := hex.1
    have hem := (hok thread hi hex).2
    rcases effect_queue he hmem with hmem | ⟨k, ha, -⟩
    · rw [hem] at hmem
      cases hmem
    · cases ha

theorem Manned.running_effect (h : s.Manned) (he : Effect s a s')
    (hi : s'.threads[i]? = some thread) (hframe : frame ∈ thread.pc.frames) (hta : frame.task.home = some home) :
    home.thread = i ∧ thread.isolate = some home.isolate := by
  -- the thread at `i` is the one that ran or took the task
  have hke : ∀ old, s.threads[i]? = some old → ∀ isolate, old.isolate = some isolate →
      thread.isolate = some isolate := by
    intro old hold
    obtain ⟨new, hnew, hke⟩ := (effect_follows he).next hold
    obtain rfl := Option.some.inj (hnew.symm.trans hi)
    exact hke.isolate
  rcases effect_runs he i thread frame hi hframe with
    ⟨old, hold, hframe⟩ | ⟨old, q, hold, hlive, hmem, hown, -⟩
  · obtain ⟨rfl, his⟩ := h.running i old frame hold hframe home hta
    exact ⟨rfl, hke old hold _ his⟩
  · obtain ⟨mate, hma, rfl⟩ := h.home_of_mem hmem hta
    have hl' := h.awaited _ _ hmem home mate hta hma
    obtain rfl := h.unique _ _ mate old hma.1 hold hl' hlive (hown _ rfl)
    obtain rfl := Option.some.inj (hma.1.symm.trans hold)
    exact ⟨rfl, hke mate hold _ hma.2⟩

theorem Manned.effect (h : s.Manned) (hok : s.Orderly a) (he : Effect s a s') : s'.Manned where
  placed := by
    intro q task hmem
    rcases effect_queue he hmem with hmem | ⟨k, rfl, hk⟩
    · exact mem_tickets_effect he (h.placed q task hmem)
    · exact mem_tickets_effect he (mem_map_of_mem (f := fun x => (x.task, x.queue)) (mem_of_getElem? hk))
  homed := by
    intro x hx
    rcases effect_tickets he with ⟨hti, -⟩ | ⟨kind, home, q, hta, rfl⟩
    · rw [hti] at hx
      exact (h.homed x hx).effect he
    · simp only [tickets, begin, map_append, map_cons, map_nil, mem_append, mem_singleton] at hx
      rcases hx with hx | rfl
      · exact (h.homed x hx).effect he
      · exact (hta.homed s.nextTask kind).effect he
  unique := fun _ _ _ _ hi hj hth ho hin =>
    h.unique_effect hok he hi hj hth ho hin
  awaited := fun _ _ hmem _ _ htas hh => h.awaited_effect hok he hmem htas hh
  kept := fun _ hne => h.kept_effect hok he hne
  running := fun _ _ _ hi hframe _ htas => h.running_effect he hi hframe htas

theorem run_manned {n : Nat} {as : List Action} (hrun : machine.run (initial n) as = some s)
    (hme : machine.Meets Orderly (initial n) as) : s.Manned :=
  Machine.invariant_of_meets (I := Manned)
    (fun _ _ _ h hok hs => h.effect hok (step_effect hs)) (initial_manned n) hrun hme

/-! ### Where a task is -/

def isTask (id : Nat) (task : ThreadTask) : Int := if task.id = id then 1 else 0

theorem isTask_nonneg (id : Nat) (task : ThreadTask) : 0 ≤ isTask id task := by
  unfold isTask
  split <;> decide

theorem isTask_pos (h : 0 < isTask id task) : task.id = id := by
  unfold isTask at h
  split at h
  · assumption
  · cases h

/-- The ledger of one task: what was submitted under its number. -/
theorem Sound.ledger_isTask (h : s.Sound) (id : Nat) :
    submitting (isTask id) s + queued (isTask id) s + executing (isTask id) s +
      tally (fun frame => isTask id frame.task) s.completed =
    (range s.nextTask).count id := by
  have hl := h.ledger (isTask id)
  have hids : tally (fun x => isTask id x.task) s.submissions =
      tally (fun k => if k = id then 1 else 0) (s.tickets.map (·.1.id)) := by
    simp only [State.tickets, tally.map]
    rfl
  rw [h.numbered, tally.count] at hids
  simp only [balance, outstanding] at hl
  omega

/-- A task that was submitted is in one place: with its submitter, in a queue, with a
thread, or among the completed. -/
theorem Sound.one_place (h : s.Sound) (hid : id < s.nextTask) :
    submitting (isTask id) s + queued (isTask id) s + executing (isTask id) s +
      tally (fun frame => isTask id frame.task) s.completed = 1 := by
  rw [h.ledger_isTask, count_eq_one_of_mem nodup_range (mem_range.mpr hid)]
  rfl

/-- A task that is queued is in some queue. -/
theorem exists_of_queued (h : 0 < queued (isTask id) s) : ∃ q, ∃ task ∈ s.queue q, task.id = id := by
  unfold queued at h
  by_cases hg : 0 < tally (isTask id) s.globalQueue
  · obtain ⟨task, hmem, hpos⟩ := tally.exists_pos hg
    exact ⟨.globalQueue, task, hmem, isTask_pos hpos⟩
  · obtain ⟨slot, hsl, hpos⟩ := tally.exists_pos (f := Slot.sum (isTask id)) (l := s.slots) (by omega)
    obtain ⟨k, hk⟩ := getElem?_of_mem hsl
    unfold Slot.sum at hpos
    by_cases hde : 0 < tally (isTask id) slot.deque
    · obtain ⟨task, hmem, hpos⟩ := tally.exists_pos hde
      exact ⟨.deque k, task, by simpa [queue, hk] using hmem, isTask_pos hpos⟩
    · obtain ⟨task, hmem, hpos⟩ := tally.exists_pos (f := isTask id) (l := slot.privateQueue) (by omega)
      exact ⟨.privateQueue k, task, by simpa [queue, hk] using hmem, isTask_pos hpos⟩

/-- Tickets with one number are one ticket. -/
theorem Sound.ticket_unique (h : s.Sound) {y : ThreadTask × Queue} (hx : x ∈ s.tickets) (hy : y ∈ s.tickets)
    (heq : x.1.id = y.1.id) : x = y := by
  have hno : (s.tickets.map (·.1.id)).Nodup := by
    rw [h.numbered]
    exact nodup_range
  exact inj_on_of_nodup_map hno hx hy heq

theorem Sound.ticket_lt (h : s.Sound) (hx : x ∈ s.tickets) : x.1.id < s.nextTask := by
  have hmem : x.1.id ∈ s.tickets.map (·.1.id) := mem_map_of_mem hx
  rw [h.numbered] at hmem
  exact mem_range.mp hmem

/-- A task that has completed was submitted. -/
theorem Sound.completed_lt (h : s.Sound) (hframe : frame ∈ s.completed) : frame.task.id < s.nextTask := by
  by_contra hlt
  have hl := h.ledger_isTask frame.task.id
  rw [count_eq_zero.mpr (by simpa using hlt)] at hl
  have hp := parts_nonneg (isTask_nonneg frame.task.id) s
  have hse : isTask frame.task.id frame.task = 1 := if_pos rfl
  have hle : isTask frame.task.id frame.task ≤ tally (fun x : Frame => isTask frame.task.id x.task) s.completed :=
    tally.le_of_mem (fun x _ => isTask_nonneg _ x.task) hframe
  omega

/-- The queues into which `GetTask` of this thread looks, whatever the others do. -/
def LooksInto (thread : WorkerThread) : Queue → Prop
  | .globalQueue => True
  | .privateQueue index | .deque index => thread.index = index

theorem Manned.polled (h : s.Manned) (hst : s.Staffed) (hne : s.queue q ≠ []) :
    ∃ thread ∈ s.threads, thread.Live ∧ LooksInto thread q := by
  cases q with
  | globalQueue =>
    obtain ⟨thread, hth, -, hlive⟩ := hst.thread 0 hst.pos
    exact ⟨thread, hth, hlive, trivial⟩
  | deque index =>
    obtain ⟨thread, hth, hin, hlive⟩ := h.kept index hne
    exact ⟨thread, hth, hlive, hin⟩
  | privateQueue index =>
    obtain ⟨task, hmem⟩ := exists_mem_of_ne_nil _ hne
    obtain ⟨home, thread, hta, hh, hin⟩ := h.homed _ (h.placed _ task hmem)
    exact ⟨thread, mem_of_getElem? hh.1, h.awaited index task hmem home thread hta hh, hin⟩

/-- **Resizing loses no task and keeps it at home**, in every run that is `Orderly`:
each submitted task is in exactly one place, each queue that holds one has a living
thread that looks into it, and a task for one worker is run only by the thread, with
the isolate, that made its resolver. -/
theorem resize_safe (n : Nat) (hn : 1 ≤ n) (as : List Action) (s : State) (hrun : machine.run (initial n) as = some s)
    (hmeets : machine.Meets Orderly (initial n) as) :
    (∀ id < s.nextTask, submitting (isTask id) s + queued (isTask id) s +
      executing (isTask id) s + tally (fun frame => isTask id frame.task) s.completed = 1) ∧
    (∀ q, s.queue q ≠ [] → ∃ thread ∈ s.threads, thread.Live ∧ LooksInto thread q) ∧
    ∀ (i : Nat) (thread : WorkerThread) (frame : Frame), s.threads[i]? = some thread →
      frame ∈ thread.pc.frames → ∀ home, frame.task.home = some home →
      home.thread = i ∧ thread.isolate = some home.isolate := by
  have hmanned := run_manned hrun hmeets
  refine ⟨fun id hid => (run_sound hrun).one_place hid, ?_, hmanned.running⟩
  intro q hne
  exact hmanned.polled (run_staffed hn hrun) hne

/-- Worker 1 runs a task and makes a resolver; the task that settles it comes in; the
pool shrinks, and worker 1 runs the task all the same. -/
def shrinkRun : List Action :=
  [.submit .spawned, .push 0, .load 0, .getTask 1, .getTask 1, .getTask 1,
    .submitToWorker ⟨1, 0⟩, .push 1, .resize 1, .poll 1]

theorem resize_safe_shrinkRun : ∃ s frame thread, machine.run (initial 2) shrinkRun = some s ∧
      s.threads[1]? = some thread ∧ frame ∈ thread.pc.frames ∧ frame.task.home = some ⟨1, 0⟩ ∧
      thread.isolate = some 0 := by
  refine ⟨_, ⟨⟨1, .internal, some ⟨1, 0⟩⟩, .executeTask⟩, _, rfl, rfl, by decide, rfl, ?_⟩
  refine ((resize_safe 2 (by decide) shrinkRun _ rfl ?_).2.2 1 _
    ⟨⟨1, .internal, some ⟨1, 0⟩⟩, .executeTask⟩ rfl (by decide) ⟨1, 0⟩ rfl).2
  refine ⟨trivial, ?_, trivial, ?_, ?_, ?_, trivial, ?_, ?_, trivial, trivial⟩
  · intro task q hk
    cases hk
    exact ⟨nofun, nofun⟩
  · rintro thread hthread ⟨-, hpc, -⟩
    cases hthread
    cases hpc
  · rintro thread hthread ⟨-, hpc, -⟩
    cases hthread
    cases hpc
  · rintro thread hthread ⟨-, hpc, -⟩
    cases hthread
    cases hpc
  · intro task q hk
    cases hk
    refine ⟨?_, nofun⟩
    intro home thread hhome hthread
    cases hhome
    cases hthread.1
    nofun
  · rintro thread - - ⟨hle, hlt⟩
    have hsize : 2 ≤ thread.index := hle
    omega

/-- Worker 1 runs a task and makes a resolver, and finds no more work. The task that
settles the resolver comes in after its last look; the pool shrinks, and worker 1 ends. -/
def strandingRun : List Action :=
  ([.submit .spawned, .push 0, .load 0, .getTask 1, .getTask 1, .getTask 1, .finish 1] : List Action) ++
    (replicate 6 (.getTask 1) : List Action) ++
    ([.submitToWorker ⟨1, 0⟩, .push 1, .load 1, .resize 1, .getTask 1, .getTask 1] : List Action)

/-- No living thread looks into the queue of the task; when the pool grows again, a
thread with another isolate runs it. -/
theorem task_stranded : ∃ s t thread, machine.run (initial 2) strandingRun = some s ∧
      s.queue (.privateQueue 1) = [⟨1, .internal, some ⟨1, 0⟩⟩] ∧
      (∀ thread ∈ s.threads, thread.index = 1 → ¬ thread.Live) ∧
      machine.run s [.resize 2, .getTask 2] = some t ∧ t.threads[2]? = some thread ∧
      ⟨⟨1, .internal, some ⟨1, 0⟩⟩, .run⟩ ∈ thread.pc.frames ∧ thread.isolate = some 1 := by
  refine ⟨_, _, _, rfl, rfl, ?_, rfl, rfl, by decide, rfl⟩
  simp only [WorkerThread.Live]
  decide

end State
end V8Multithread.Threading.Pool
