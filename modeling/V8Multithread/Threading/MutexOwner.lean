import V8Multithread.Threading.MutexExclusion
import V8Multithread.Threading.MutexHandOff
import V8Multithread.Threading.PoolResize

/-! A locked mutex has an owner.

The owner is the call that runs its callback or is handing the lock on, or else the one
task that will start the next call. The second kind is lost when the task is: when it
is deleted because the caller's isolate has no foreground runner, or when the pool
loses it in a resize. In runs where neither happens the owner is there in every state.

The proof joins three invariants: the line of calls of the mutex, the ledger and the
homes of the pool, and between them `Linked`, which says that the call that was sent a
task has one that is not completed. -/
namespace V8Multithread.Threading.HandOff.System
open List Option
open Mutex (Codec LockArgs PendingLock Phase)
open Pool (ThreadTask Home WorkerThread Frame SubmitPhase)

variable {V : Type}

/-! ### Owners -/

/-- The call is between its read of the value and the end of `ReleaseLock`. -/
def Executing (s : System V) (i : Nat) : Prop :=
  ∃ x, s.mutex.phases[i]? = some x ∧ ((∃ v, x = .holding v) ∨ x = .releasing ∨ ∃ j, x = .passing j)

/-- The task is being pushed, or is in the private queue of a living thread, or a thread
has taken it. -/
def WillRun (s : System V) (index id : Nat) : Prop :=
  (∃ x ∈ s.pool.submissions, x.task.id = id ∧ x.phase = .incremented) ∨
  (∃ task ∈ s.pool.queue (.privateQueue index), task.id = id ∧
    ∃ thread ∈ s.pool.threads, thread.Live ∧ thread.index = index) ∨
  ∃ thread ∈ s.pool.threads, ∃ frame ∈ thread.pc.frames, frame.task.id = id

/-- The call was sent one task, which will be run. -/
def Awaited (hasRunner : Isolate → Bool) (s : System V) (i : Nat) : Prop :=
  (∃ index id, s.mutex.phases[i]? = some (.sent (.worker index)) ∧ (i, id) ∈ s.tasks ∧
    (∀ id', (i, id') ∈ s.tasks → id' = id) ∧ s.WillRun index id) ∨
  ∃ isolate, s.mutex.phases[i]? = some (.sent (.foreground isolate)) ∧ i ∈ s.foreground ∧ hasRunner isolate = true

/-- No task is deleted for want of a runner, and the pool is orderly. -/
def Kept (hasRunner : Isolate → Bool) (s : System V) : Action V → Prop
  | .dispatch i => ∀ next call, s.mutex.phases[i]? = some (.passing next) →
      s.mutex.calls[next]? = some call → call.workerIndex ≠ -1 ∨ hasRunner call.isolate = true
  | .pool a => s.pool.Orderly a
  | _ => True

/-! ### The link between the mutex and the pool -/

/-- What a call in this phase has outside the mutex. -/
def PhaseOk (hasRunner : Isolate → Bool) (s : System V) (i : Nat) : Phase → Prop
  | .parked | .chosen => ∀ id, (i, id) ∉ s.tasks
  | .sent (.worker index) => ∃ task : ThreadTask, (i, task.id) ∈ s.tasks ∧ (task, .privateQueue index) ∈ s.pool.tickets ∧
      ∀ frame ∈ s.pool.completed, frame.task.id ≠ task.id
  | .sent (.foreground isolate) => hasRunner isolate = true ∧ i ∈ s.foreground
  | .sent .deleted | .dropped => False
  | .holding _ | .releasing | .passing _ | .done => True

def CalledBy (pool : Pool.State) (call : PendingLock V) : Option Home → Prop
  | none => call.workerIndex = -1
  | some home => ∃ thread, pool.IsHome home thread ∧ call.workerIndex = thread.index

structure Linked (hasRunner : Isolate → Bool) (s : System V) : Prop where
  phases : ∀ (i : Nat) (x : Phase), s.mutex.phases[i]? = some x → s.PhaseOk hasRunner i x
  bound : ∀ p ∈ s.tasks, p.1 < s.mutex.phases.length
  keys : ∀ i id id', (i, id) ∈ s.tasks → (i, id') ∈ s.tasks → id = id'
  length : s.callers.length = s.mutex.calls.length
  callers : ∀ (i : Nat) (call : PendingLock V) (caller : Option Home),
    s.mutex.calls[i]? = some call → s.callers[i]? = some caller → CalledBy s.pool call caller

variable {codec : Codec V} {hasRunner : Isolate → Bool} {s s' : System V}

variable {i next : Nat} {args : LockArgs V} {caller : Option Home} {a : Pool.Action} {call : PendingLock V}

/-- A step that takes nothing from the call keeps what it has. -/
theorem PhaseOk.keep {x : Phase} (h : s.PhaseOk hasRunner i x) (htasks : ∀ id, (i, id) ∈ s'.tasks ↔ (i, id) ∈ s.tasks)
    (hti : s.pool.tickets ⊆ s'.pool.tickets) (hco : ∀ index, x = .sent (.worker index) → ∀ frame ∈
    s'.pool.completed, (i, frame.task.id) ∈ s.tasks → frame ∈ s.pool.completed)
    (hfo : i ∈ s.foreground → i ∈ s'.foreground) : s'.PhaseOk hasRunner i x := by
  match x, h with
  | .sent (.worker index), ⟨task, hta, htic, hfresh⟩ =>
    refine ⟨task, (htasks _).mpr hta, hti htic, fun frame hframe heq => ?_⟩
    exact hfresh frame (hco index rfl frame hframe (heq ▸ hta)) heq
  | .sent (.foreground _), ⟨hru, hmem⟩ => exact ⟨hru, hfo hmem⟩
  | .parked, h | .chosen, h => exact fun id hid => h id ((htasks id).mp hid)
  | .holding _, _ | .releasing, _ | .passing _, _ | .done, _ => trivial

/-- One call changes its phase, and may get its first task; others stay in the foreground queue. -/
theorem Linked.set_phase (h : s.Linked hasRunner) {mutex : Mutex.State V} {foreground : List Nat}
    {tasks : List (Nat × Nat)} {k : Nat} {y : Phase} (hph : mutex.phases = s.mutex.phases.set k y)
    (hca : mutex.calls = s.mutex.calls) (hy : ({s with mutex, foreground, tasks} : System V).PhaseOk hasRunner k y)
    (hfg : ∀ j, j ≠ k → j ∈ s.foreground → j ∈ foreground)
    (htasks : tasks = s.tasks ∨ ∃ id, tasks = s.tasks ++ [(k, id)] ∧ k < s.mutex.phases.length ∧ ∀ id, (k, id) ∉ s.tasks) :
    ({s with mutex, foreground, tasks} : System V).Linked hasRunner := by
  refine ⟨fun i x hi => ?_, fun p hp => ?_, fun i id id' hid hid' => ?_, hca ▸ h.length, hca ▸ h.callers⟩
  · simp only [hph] at hi
    rcases getElem?_set_cases hi with ⟨rfl, rfl⟩ | ⟨hne, hi⟩
    · exact hy
    · refine (h.phases i x hi).keep (fun id => ?_) (List.Subset.refl _) (fun _ _ _ hframe _ => hframe) (hfg i hne)
      rcases htasks with rfl | ⟨id', rfl, -⟩
      · rfl
      · simp [hne]
  · simp only [hph, length_set]
    rcases htasks with rfl | ⟨id, rfl, hlt, -⟩
    · exact h.bound p hp
    · rcases mem_append.mp hp with hp | hp
      · exact h.bound p hp
      · obtain rfl := mem_singleton.mp hp
        exact hlt
  · rcases htasks with rfl | ⟨new, rfl, -, hno⟩
    · exact h.keys i id id' hid hid'
    · simp only [mem_append, mem_singleton, Prod.mk.injEq] at hid hid'
      rcases hid with hid | ⟨rfl, rfl⟩ <;> rcases hid' with hid' | ⟨hk, rfl⟩
      · exact h.keys i id id' hid hid'
      · exact absurd (hk ▸ hid) (hno _)
      · exact absurd hid' (hno _)
      · rfl

theorem lock_cases {m m' : Mutex.State V} (h : m.step codec hasRunner (.lock args) = some m') :
    (m'.phases = m.phases ∧ m'.calls = m.calls) ∨
    ∃ x callback, (x = .parked ∨ ∃ v, x = .holding v) ∧ m'.phases = m.phases ++ [x] ∧
      m'.calls = m.calls ++ [⟨args.isolate, args.workerIndex, callback, m.calls.length⟩] := by
  simp only [Mutex.State.step] at h
  split at h
  · obtain rfl := Option.some.inj h
    exact .inl ⟨rfl, rfl⟩
  · rename_i callback _
    split at h
    · obtain rfl := Option.some.inj h
      refine .inr ?_
      unfold Mutex.State.enter
      split
      · exact ⟨.parked, callback, .inl rfl, rfl, rfl⟩
      · exact ⟨.holding _, callback, .inr ⟨_, rfl⟩, rfl, rfl⟩
    · obtain rfl := Option.some.inj h
      exact .inl ⟨rfl, rfl⟩

theorem calledBy_of_calledFrom (h : s.calledFrom caller args) (callback : Mutex.Callback V) (r : Resolver) :
    CalledBy s.pool ⟨args.isolate, args.workerIndex, callback, r⟩ caller := by
  unfold calledFrom at h
  cases caller with
  | none => simpa [CalledBy] using h
  | some home =>
    dsimp only at h
    split at h
    · rename_i thread hth
      obtain ⟨his, -, hin⟩ := of_decide_eq_true h
      exact ⟨thread, ⟨hth, his⟩, hin⟩
    · cases h

theorem Linked.lock (h : s.Linked hasRunner) (hfr : s.calledFrom caller args) {mutex : Mutex.State V}
    (hs : s.mutex.step codec hasRunner (.lock args) = some mutex) :
    ({s with
      mutex
      callers := if mutex.calls.length = s.mutex.calls.length then s.callers
        else s.callers ++ [caller] } : System V).Linked hasRunner := by
  rcases lock_cases hs with ⟨hph, hca⟩ | ⟨x, callback, hx, hph, hca⟩
  · rw [if_pos (by rw [hca])]
    exact ⟨hph ▸ h.phases, hph ▸ h.bound, h.keys, hca ▸ h.length, hca ▸ h.callers⟩
  · rw [if_neg (by rw [hca]; simp)]
    refine ⟨?_, ?_, h.keys, ?_, ?_⟩
    · intro i y hi
      simp only [hph, List.getElem?_append] at hi
      split at hi
      · exact h.phases i y hi
      · rename_i hlt
        obtain rfl := mem_singleton.mp (List.mem_of_getElem? hi)
        rcases hx with rfl | ⟨v, rfl⟩
        · intro id hid
          exact hlt (h.bound _ hid)
        · trivial
    · intro p hp
      simp only [hph, length_append]
      exact Nat.lt_add_right _ (h.bound p hp)
    · simp only [hca, length_append, length_singleton, h.length]
    · intro i call who hi hwho
      simp only [hca, List.getElem?_append] at hi
      simp only [List.getElem?_append, h.length] at hwho
      split at hi
      · rename_i hlt
        rw [if_pos hlt] at hwho
        exact h.callers i call who hi hwho
      · rename_i hlt
        rw [if_neg hlt] at hwho
        obtain rfl := mem_singleton.mp (List.mem_of_getElem? hi)
        obtain rfl := mem_singleton.mp (List.mem_of_getElem? hwho)
        exact calledBy_of_calledFrom hfr callback _

theorem CalledBy.effect {pool pool' : Pool.State} (h : CalledBy pool call caller)
    (he : Pool.State.Effect pool a pool') : CalledBy pool' call caller := by
  cases caller with
  | none => exact h
  | some home =>
    obtain ⟨thread, hth, hin⟩ := h
    obtain ⟨thread', ht', hke⟩ := (Pool.State.effect_follows he).isHome hth
    exact ⟨thread', ht', by rw [hin, hke.index]⟩

/-- A step of the pool that ends no task of a call still on its way. -/
theorem Linked.pool (h : s.Linked hasRunner) {pool : Pool.State} (he : Pool.State.Effect s.pool a pool) (hco :
    ∀ frame ∈ pool.completed, frame ∈ s.pool.completed ∨ ∀ i, (i, frame.task.id) ∈ s.tasks → s.mutex.phases[i]? = some
    .done) :
    ({s with pool} : System V).Linked hasRunner where
  phases := by
    intro i x hi
    refine (h.phases i x hi).keep (fun _ => .rfl) (fun _ hti => Pool.State.mem_tickets_effect he hti) ?_ id
    rintro index rfl frame hframe hta
    rcases hco frame hframe with hold | hdo
    · exact hold
    · have hphase : s.mutex.phases[i]? = some (.sent (.worker index)) := hi
      rw [hdo i hta] at hphase
      cases hphase
  bound := h.bound
  keys := h.keys
  length := h.length
  callers := fun i call caller hi hca => (h.callers i call caller hi hca).effect he

/-- The old holder is done. -/
theorem Linked.done (h : s.Linked hasRunner) (i : Nat) :
    ({s with mutex := {s.mutex with phases := s.mutex.phases.set i .done}} : System V).Linked hasRunner :=
  h.set_phase rfl rfl trivial (fun _ _ hmem => hmem) (.inl rfl)

theorem submitToWorker_eq {pool pool' : Pool.State} {home : Home} (h : pool.step (.submitToWorker home) = some pool') :
    ∃ thread, pool.IsHome home thread ∧ pool' = pool.begin .internal (some home) (.privateQueue thread.index) := by
  simp only [Pool.State.step] at h
  split at h
  · rename_i thread hth
    split at h
    · rename_i his
      exact ⟨thread, ⟨hth, his⟩, (Option.some.inj h).symm⟩
    · cases h
  · cases h

/-- The chosen call gets a new task for its worker. -/
theorem Linked.to_worker (h : s.Linked hasRunner) (hso : s.pool.Sound) {index : Nat} {home : Home}
    {thread : WorkerThread} (hch : s.mutex.phases[next]? = some .chosen)
    (hd : destination hasRunner call.isolate call.workerIndex = .worker index) (hh : s.pool.IsHome home thread)
    (hin : thread.index = index) :
    ({s with
      mutex := s.mutex.sendTask hasRunner i next call
      pool := s.pool.begin .internal (some home) (.privateQueue thread.index)
      tasks := s.tasks ++ [(next, s.pool.nextTask)] } : System V).Linked hasRunner := by
  have hno : ∀ id, (next, id) ∉ s.tasks := h.phases next .chosen hch
  have he : Pool.State.Effect s.pool (.submitToWorker home)
      (s.pool.begin .internal (some home) (.privateQueue thread.index)) :=
    .begin (.worker hh.1 hh.2)
  refine ((h.done i).pool he fun frame hframe => .inl hframe).set_phase rfl rfl ?_ (fun _ _ hmem => hmem)
    (.inr ⟨_, rfl, ?_, hno⟩)
  · rw [hd]
    refine ⟨⟨s.pool.nextTask, .internal, some home⟩, mem_append_right _ (by simp), ?_, ?_⟩
    · simp [Pool.State.tickets, Pool.State.begin, hin]
    · intro frame hframe heq
      exact absurd (hso.completed_lt hframe) (by rw [heq]; exact lt_irrefl _)
  · rw [length_set]
    exact (List.getElem?_eq_some_iff.mp hch).1

/-- The chosen call's task goes to the foreground runner of its isolate. -/
theorem Linked.to_foreground (h : s.Linked hasRunner) {isolate : Isolate}
    (hd : destination hasRunner call.isolate call.workerIndex = .foreground isolate)
    (hru : hasRunner isolate) :
    ({s with
      mutex := s.mutex.sendTask hasRunner i next call
      foreground := s.foreground ++ [next] } : System V).Linked hasRunner := by
  refine (h.done i).set_phase rfl rfl ?_ (fun _ _ => mem_append_left _) (.inl rfl)
  rw [hd]
  exact ⟨hru, mem_append_right _ (by simp)⟩

/-! ### The invariant -/

structure Owned (codec : Codec V) (hasRunner : Isolate → Bool) (value : List UInt8)
    (s : System V) : Prop where
  line : ∃ n m t, s.mutex.Line codec value n m t
  sound : s.pool.Sound
  manned : s.pool.Manned
  linked : s.Linked hasRunner

variable {value : List UInt8}

/-- A task of the mutex ends only when its call is done. -/
theorem Owned.pool (h : s.Owned codec hasRunner value) (hok : s.pool.Orderly a)
    (hs : s.step codec hasRunner (.pool a) = some s') : s'.Owned codec hasRunner value := by
  obtain ⟨pool, hp, rfl, hreturned⟩ : ∃ pool, s.pool.step a = some pool ∧ s' = {s with pool} ∧
      ∀ j, a = .finish j → s.returned j = true := by
    cases a with
    | finish j =>
      simp only [step] at hs
      split at hs
      · rename_i hret
        obtain ⟨pool, hp, rfl⟩ := map_eq_some_iff.mp hs
        exact ⟨pool, hp, rfl, fun k hk => Pool.Action.finish.inj hk ▸ hret⟩
      · cases hs
    | _ =>
      simp only [step] at hs
      obtain ⟨pool, hp, rfl⟩ := map_eq_some_iff.mp hs
      exact ⟨pool, hp, rfl, nofun⟩
  have he := Pool.State.step_effect hp
  refine ⟨h.line, h.sound.effect he, h.manned.effect hok he, h.linked.pool he fun frame hframe => ?_⟩
  rcases Pool.State.effect_completed he with hsa | ⟨j, thread, last, outer, hfi, hj, hpc, hmo⟩
  · exact .inl (hsa ▸ hframe)
  · rw [hmo] at hframe
    rcases mem_append.mp hframe with hframe | hframe
    · exact .inl hframe
    · obtain rfl := mem_singleton.mp hframe
      refine .inr fun i hi => ?_
      have hret := hreturned j hfi
      have hin : s.innermost j = some frame.task.id := by
        obtain ⟨index, isolate, pc⟩ := thread
        cases hpc
        simp only [innermost, hj]
      simp only [returned, hin, List.all_eq_true, decide_eq_true_eq] at hret
      exact (hret _ hi).resolve_left fun hne => hne rfl

theorem Owned.send (h : s.Owned codec hasRunner value) (hp : s.mutex.phases[i]? = some (.passing next))
    (hcal : s.mutex.calls[next]? = some call) (hke : call.workerIndex ≠ -1 ∨ hasRunner call.isolate)
    (hs : s.send hasRunner i next call = some s') : s'.Owned codec hasRunner value := by
  obtain ⟨n, m, t, hl⟩ := h.line
  obtain ⟨rfl, rfl, rfl⟩ := hl.passing_at hp
  have hch : s.mutex.phases[i + 1]? = some .chosen := by
    rw [hl.phases]
    simp [Mutex.State.Token.phases]
  have hse : ∃ n m t, (s.mutex.sendTask hasRunner i (i + 1) call).Line codec value n m t := by
    obtain ⟨t', hl'⟩ := hl.sendTask call
    exact ⟨_, _, t', hl'⟩
  unfold System.send at hs
  dsimp only at hs
  split at hs
  · rename_i index home hd hca
    obtain ⟨pool, hpo, rfl⟩ := map_eq_some_iff.mp hs
    have he := Pool.State.step_effect hpo
    obtain ⟨thread, hh, rfl⟩ := submitToWorker_eq hpo
    have hin : thread.index = index := by
      obtain ⟨thread', hh', hw⟩ := h.linked.callers _ call (some home) hcal hca
      obtain rfl := Option.some.inj (hh.1.symm.trans hh'.1)
      unfold destination at hd
      rw [if_pos (by rw [hw]; omega), hw] at hd
      exact Destination.worker.inj hd
    have hok : s.pool.Orderly (.submitToWorker home) := trivial
    exact ⟨hse, h.sound.effect he, h.manned.effect hok he, h.linked.to_worker h.sound hch hd hh hin⟩
  · cases hs
  · rename_i isolate hd
    obtain rfl := Option.some.inj hs
    refine ⟨hse, h.sound, h.manned, h.linked.to_foreground hd ?_⟩
    unfold destination at hd
    split at hd
    · cases hd
    · split at hd
      · rename_i hru
        obtain rfl := Destination.foreground.inj hd
        exact hru
      · cases hd
  · rename_i hd
    unfold destination at hd
    split at hd
    · cases hd
    · rename_i hw
      rw [if_pos (hke.resolve_left hw)] at hd
      cases hd

/-- The task starts: it leaves the foreground queue, if it was there. -/
theorem Owned.start (h : s.Owned codec hasRunner value) {d : Destination} {foreground : List Nat}
    (hse : s.mutex.phases[i]? = some (.sent d)) (hfg : ∀ j, j ≠ i → j ∈ s.foreground → j ∈ foreground) :
    ({s with mutex := s.mutex.startTask i, foreground} : System V).Owned codec hasRunner value := by
  obtain ⟨n, m, t, hl⟩ := h.line
  obtain ⟨rfl, rfl⟩ := hl.sent_at hse
  exact ⟨⟨_, _, _, hl.startTask⟩, h.sound, h.manned, h.linked.set_phase rfl rfl trivial hfg (.inl rfl)⟩

theorem Owned.release (h : s.Owned codec hasRunner value) (hre : s.mutex.phases[i]? = some .releasing) :
    ({s with mutex := s.mutex.releaseLock i} : System V).Owned codec hasRunner value := by
  obtain ⟨n, m, t, hl⟩ := h.line
  obtain ⟨rfl, rfl⟩ := hl.releasing_at hre
  refine ⟨hl.releaseLock, h.sound, h.manned, ?_⟩
  unfold Mutex.State.releaseLock
  cases hp : s.mutex.mutex.pendingLocks with
  | nil => exact h.linked.set_phase rfl rfl trivial (fun _ _ hmem => hmem) (.inl rfl)
  | cons pending rest =>
    -- the call that is chosen was parked, so it has no task yet
    obtain ⟨hr, hpar⟩ := hl.next_parked hp
    have hpa : ({s with mutex := {s.mutex with
        phases := s.mutex.phases.set i (.passing pending.resolver)}} : System V).Linked hasRunner :=
      h.linked.set_phase rfl rfl trivial (fun _ _ hmem => hmem) (.inl rfl)
    exact hpa.set_phase rfl rfl (by rw [hr]; exact h.linked.phases _ _ hpar) (fun _ _ hmem => hmem) (.inl rfl)

theorem Owned.step {a : Action V} (h : s.Owned codec hasRunner value) (hok : s.Kept hasRunner a)
    (hs : s.step codec hasRunner a = some s') : s'.Owned codec hasRunner value := by
  cases a with
  | lock caller args =>
    simp only [System.step] at hs
    split at hs
    · rename_i hfr
      obtain ⟨mutex, hm, rfl⟩ := map_eq_some_iff.mp hs
      exact ⟨Mutex.State.step_line h.line hm, h.sound, h.manned, h.linked.lock hfr hm⟩
    · cases hs
  | finish i =>
    obtain ⟨mutex, hm, rfl⟩ := map_eq_some_iff.mp hs
    refine ⟨Mutex.State.step_line h.line hm, h.sound, h.manned, ?_⟩
    simp only [Mutex.State.step] at hm
    split at hm
    · obtain rfl := Option.some.inj hm
      exact h.linked.set_phase rfl rfl trivial (fun _ _ hmem => hmem) (.inl rfl)
    · cases hm
  | release i =>
    obtain ⟨mutex, hm, rfl⟩ := map_eq_some_iff.mp hs
    simp only [Mutex.State.step] at hm
    split at hm
    · rename_i hre
      obtain rfl := Option.some.inj hm
      exact h.release hre
    · cases hm
  | dispatch i =>
    simp only [System.step] at hs
    split at hs
    · rename_i next hp
      split at hs
      · rename_i call hca
        exact h.send hp hca (hok next call hp hca) hs
      · cases hs
    · cases hs
  | startInWorker i j =>
    simp only [System.step] at hs
    split at hs
    · rename_i hse _
      split at hs
      · obtain rfl := Option.some.inj hs
        exact h.start hse fun _ _ hmem => hmem
      · cases hs
    · cases hs
  | startInForeground i =>
    simp only [System.step] at hs
    split at hs
    · rename_i hse
      split at hs
      · obtain rfl := Option.some.inj hs
        exact h.start hse fun j hne hmem => (mem_erase_of_ne hne).mpr hmem
      · cases hs
    · cases hs
  | pool a => exact h.pool hok hs

theorem initial_owned {mutex : Mutex.MutexState V} (hfree : mutex.locked = false)
    (hno : mutex.pendingLocks = []) (n : Nat) :
    (initial mutex n).Owned codec hasRunner mutex.serializedValue where
  line := ⟨0, 0, .free, Mutex.State.initial_line mutex hfree hno⟩
  sound := Pool.State.initial_sound n
  manned := Pool.State.initial_manned n
  linked := by
    refine ⟨?_, nofun, nofun, rfl, ?_⟩
    · intro i x hi
      cases hi
    · intro i call caller hi
      cases hi

theorem run_owned {mutex : Mutex.MutexState V} (hfree : mutex.locked = false)
    (hno : mutex.pendingLocks = []) {n : Nat} {as : List (Action V)}
    (hrun : (machine codec hasRunner).run (initial mutex n) as = some s)
    (hme : (machine codec hasRunner).Meets (Kept hasRunner) (initial mutex n) as) :
    s.Owned codec hasRunner mutex.serializedValue :=
  Machine.invariant_of_meets (I := fun s => s.Owned codec hasRunner mutex.serializedValue)
    (fun _ _ _ h hok hs => h.step hok hs) (initial_owned hfree hno n) hrun hme

/-! ### The owner -/

/-- A task that was submitted and has not completed will be run. -/
theorem Owned.willRun (h : s.Owned codec hasRunner value) {task : ThreadTask} {index : Nat}
    (hti : (task, .privateQueue index) ∈ s.pool.tickets)
    (hfresh : ∀ frame ∈ s.pool.completed, frame.task.id ≠ task.id) : s.WillRun index task.id := by
  have hlt : task.id < s.pool.nextTask := h.sound.ticket_lt hti
  have hp := h.sound.one_place hlt
  have hco : tally (fun frame : Frame => Pool.State.isTask task.id frame.task)
      s.pool.completed = 0 := tally.eq_zero fun frame hframe => if_neg (hfresh frame hframe)
  obtain ⟨hsub, hqu, hex⟩ :=
    Pool.State.parts_nonneg (Pool.State.isTask_nonneg task.id) s.pool
  by_cases hs : 0 < Pool.State.submitting (Pool.State.isTask task.id) s.pool
  · obtain ⟨x, hx, hpos⟩ := tally.exists_pos hs
    unfold Pool.Submission.sum at hpos
    split at hpos
    · rename_i hphase
      exact .inl ⟨x, hx, Pool.State.isTask_pos hpos, hphase⟩
    · cases hpos
  · by_cases hq : 0 < Pool.State.queued (Pool.State.isTask task.id) s.pool
    · -- it can only be in the queue it was submitted to
      obtain ⟨q, other, hmem, hid⟩ := Pool.State.exists_of_queued hq
      obtain ⟨rfl, rfl⟩ := Prod.mk.inj (h.sound.ticket_unique (h.manned.placed q other hmem) hti hid)
      obtain ⟨home, thread, hh, hth, hin⟩ := h.manned.homed _ hti
      exact .inr (.inl ⟨other, hmem, rfl, thread, List.mem_of_getElem? hth.1,
        h.manned.awaited index other hmem home thread hh hth, hin⟩)
    · have hrunning : 0 < Pool.State.executing (Pool.State.isTask task.id) s.pool := by omega
      obtain ⟨thread, hth, hpos⟩ := tally.exists_pos hrunning
      obtain ⟨frame, hframe, hpos⟩ := tally.exists_pos hpos
      exact .inr (.inr ⟨thread, hth, frame, hframe, Pool.State.isTask_pos hpos⟩)

theorem Owned.awaited (h : s.Owned codec hasRunner value) {d : Destination}
    (hse : s.mutex.phases[i]? = some (.sent d)) : s.Awaited hasRunner i := by
  have hok := h.linked.phases i _ hse
  cases d with
  | worker index =>
    obtain ⟨task, hta, hti, hfresh⟩ := hok
    exact .inl ⟨index, task.id, hse, hta, fun id' hid' => h.linked.keys i id' task.id hid' hta,
      h.willRun hti hfresh⟩
  | foreground isolate => exact .inr ⟨isolate, hse, hok.2, hok.1⟩
  | deleted => exact hok.elim

theorem Awaited.sent (h : s.Awaited hasRunner i) : ∃ d, s.mutex.phases[i]? = some (.sent d) := by
  rcases h with ⟨index, id, hse, -⟩ | ⟨isolate, hse, -⟩
  · exact ⟨_, hse⟩
  · exact ⟨_, hse⟩

theorem Executing.not_awaited (h : s.Executing i) : ¬ s.Awaited hasRunner i := by
  intro haw
  obtain ⟨d, hse⟩ := haw.sent
  obtain ⟨x, hx, hca⟩ := h
  obtain rfl := Option.some.inj (hse.symm.trans hx)
  rcases hca with ⟨v, hv⟩ | hv | ⟨j, hv⟩ <;> cases hv

/-- **A locked mutex has one owner**, in every run in which no task is deleted for want
of a runner and the pool is orderly: one call that executes, or one call whose only
task will be run, and not both. -/
theorem locked_has_owner (codec : Codec V) (hasRunner : Isolate → Bool) (initialValue : Option V)
    (n : Nat) (as : List (Action V)) (s : System V)
    (hrun : (machine codec hasRunner).run (initial (Mutex.threadMutex codec initialValue) n) as = some s)
    (hmeets : (machine codec hasRunner).Meets (Kept hasRunner) (initial (Mutex.threadMutex codec initialValue) n) as)
    (hlocked : s.mutex.mutex.locked = true) :
    ∃ i, ((s.Executing i ∧ ¬ s.Awaited hasRunner i) ∨ (s.Awaited hasRunner i ∧ ¬ s.Executing i)) ∧
      ∀ j, s.Executing j ∨ s.Awaited hasRunner j → j = i := by
  have h := run_owned rfl rfl hrun hmeets
  obtain ⟨m, k, t, hline⟩ := h.line
  have hunique : ∀ j, s.Executing j ∨ s.Awaited hasRunner j → j = m := by
    rintro j (⟨x, hx, ⟨v, rfl⟩ | rfl | ⟨next, rfl⟩⟩ | hawaited)
    · exact (hline.holding_at hx).1
    · exact (hline.releasing_at hx).1
    · exact (hline.passing_at hx).1
    · obtain ⟨d, hsent⟩ := hawaited.sent
      exact (hline.sent_at hsent).1
  refine ⟨m, ?_, hunique⟩
  have hphase : ∀ x, (t.phases m)[0]? = some x → s.mutex.phases[m]? = some x := by
    intro x hx
    have hlt := (List.getElem?_eq_some_iff.mp hx).1
    rw [hline.phases, List.getElem?_append_right (by simp), length_replicate, Nat.sub_self, List.getElem?_append_left hlt]
    exact hx
  have hexecuting : s.Executing m → (s.Executing m ∧ ¬ s.Awaited hasRunner m) ∨
      (s.Awaited hasRunner m ∧ ¬ s.Executing m) := fun he => .inl ⟨he, he.not_awaited⟩
  cases t with
  | free => exact absurd rfl (hline.locked.mp hlocked)
  | holding v => exact hexecuting ⟨_, hphase _ rfl, .inl ⟨v, rfl⟩⟩
  | releasing => exact hexecuting ⟨_, hphase _ rfl, .inr (.inl rfl)⟩
  | passing => exact hexecuting ⟨_, hphase _ rfl, .inr (.inr ⟨_, rfl⟩)⟩
  | sent d =>
    have hawaited := h.awaited (hphase _ rfl)
    exact .inr ⟨hawaited, fun he => he.not_awaited hawaited⟩
  | dropped => exact (h.linked.phases m _ (hphase _ rfl)).elim

/-! The main thread holds the lock while it, or a worker, asks for it again. -/

/-- A call of `lock` by the main thread, or by a worker whose index is its position. -/
def lockFrom (caller : Option Home) : Action UInt8 :=
  let workerIndex : Int := caller.elim (-1) fun home => home.thread
  .lock caller ⟨caller.elim 9 (·.isolate), workerIndex, 1, some fun v => .ok (v + 1), ⟨1, true⟩, true⟩

/-- The lock goes from one call of the main thread to the next. -/
def handOffRun : List (Action UInt8) :=
  [lockFrom none, lockFrom none, .finish 0, .release 0, .dispatch 0]

theorem locked_has_owner_handOffRun : ∃ s, (machine Mutex.State.byteCodec fun _ => true).run
        (initial (Mutex.threadMutex Mutex.State.byteCodec none) 1) handOffRun = some s ∧
      ∃ i, s.Executing i ∨ s.Awaited (fun _ => true) i := by
  refine ⟨_, rfl, ?_⟩
  obtain ⟨i, howner, -⟩ := locked_has_owner Mutex.State.byteCodec (fun _ => true) none 1 handOffRun _
    rfl ⟨trivial, trivial, trivial, trivial, fun _ _ _ _ => .inr rfl, trivial⟩ rfl
  exact ⟨i, howner.elim (fun h => .inl h.1) fun h => .inr h.1⟩

/-- Worker 1 runs a task that asks for the lock and does not wait, and then looks for
work in vain; the lock is handed to it; the pool shrinks, and the worker ends. -/
def strandedLockRun : List (Action UInt8) :=
  [.pool (.submit .spawned), .pool (.push 0), .pool (.load 0), .pool (.getTask 1),
    .pool (.getTask 1), .pool (.getTask 1), lockFrom none, lockFrom (some ⟨1, 0⟩),
    .pool (.finish 1)] ++
    replicate 6 (.pool (.getTask 1)) ++
    [.finish 0, .release 0, .dispatch 0, .pool (.push 1), .pool (.load 1), .pool (.resize 1),
      .pool (.getTask 1), .pool (.getTask 1)]

structure Evidence where
  locked : Bool
  phases : List Phase
  submissions : List SubmitPhase
  threads : List WorkerThread
  deriving DecidableEq

def evidence (s : System UInt8) : Evidence :=
  ⟨s.mutex.mutex.locked, s.mutex.phases, s.pool.submissions.map (·.phase), s.pool.threads⟩

theorem locked_without_owner : ∃ s, (machine Mutex.State.byteCodec fun _ => true).run
        (initial (Mutex.threadMutex Mutex.State.byteCodec none) 2) strandedLockRun = some s ∧
      s.mutex.mutex.locked = true ∧
      ∀ i, ¬ s.Executing i ∧ ¬ s.Awaited (fun _ => true) i := by
  have hrun : ((machine Mutex.State.byteCodec fun _ => true).run
      (initial (Mutex.threadMutex Mutex.State.byteCodec none) 2) strandedLockRun).map evidence =
      some ⟨true, [.done, .sent (.worker 1)], [.done, .done],
        [⟨0, none, .probePrivate⟩, ⟨1, some 0, .exited⟩]⟩ := by decide +kernel
  obtain ⟨s, hs, hevidence⟩ := map_eq_some_iff.mp hrun
  obtain ⟨hlocked, hphases, hsubmissions, hthreads⟩ := Evidence.mk.inj hevidence
  have hphase : ∀ (i : Nat) (x : Phase), s.mutex.phases[i]? = some x → x = .done ∨ x = .sent (.worker 1) := by
    intro i x hi
    have hmem := List.mem_of_getElem? hi
    simpa [hphases] using hmem
  refine ⟨s, hs, hlocked, fun i => ⟨?_, ?_⟩⟩
  · rintro ⟨x, hx, hcase⟩
    rcases hphase i x hx with rfl | rfl <;> rcases hcase with ⟨v, hv⟩ | hv | ⟨j, hv⟩ <;> cases hv
  · rintro (⟨index, id, hsent, -, -, hrun⟩ | ⟨isolate, hsent, -⟩)
    · rcases hphase i _ hsent with hx | hx <;> cases hx
      rcases hrun with ⟨x, hx, -, hphase⟩ | ⟨-, -, -, hthread⟩ | ⟨thread, hthread, frame, hframe, -⟩
      · have hmem : SubmitPhase.incremented ∈ s.pool.submissions.map (·.phase) :=
          hphase ▸ List.mem_map_of_mem hx
        rw [hsubmissions] at hmem
        simp at hmem
      · obtain ⟨thread, hthread, hlive, hindex⟩ := hthread
        rw [hthreads] at hthread
        simp only [mem_cons, not_mem_nil, or_false] at hthread
        rcases hthread with rfl | rfl
        · cases hindex
        · exact hlive rfl
      · rw [hthreads] at hthread
        simp only [mem_cons, not_mem_nil, or_false] at hthread
        rcases hthread with rfl | rfl <;> cases hframe
    · rcases hphase i _ hsent with hx | hx <;> cases hx

end V8Multithread.Threading.HandOff.System
