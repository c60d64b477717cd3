import V8Multithread.Base.Tally
import V8Multithread.Threading.Join

/-! What joining keeps in order.

Three counts over the workers and the global queue: who may still join a function, where
a function is before it has its result, and how many functions that await are still to be
run. With them goes the order of the queue. It is first-in first-out and a function enters
it before any task that joins it, so a function somebody waits for in `get` has been
fetched by a worker. -/
namespace V8Multithread.Threading.Join
open Option List Body

/-! ### Counting the functions that await -/

def Body.awaits : Body → Bool
  | .finish _ => false
  | .spawn _ rest | .join _ rest => rest.awaits
  | .await _ _ => true

def Body.own (body : Body) : Nat := if body.awaits then 1 else 0

/-- How many of the functions that are spawned from here on, at any depth, await. -/
def Body.awaiting : Body → Nat
  | .finish _ => 0
  | .spawn child rest => child.own + child.awaiting + rest.awaiting
  | .join _ rest | .await _ rest => rest.awaiting

/-- The function that a task of the queue will run, or will wait for. -/
def ThreadTask.runs : ThreadTask → Option Nat
  | .function id _ => some id
  | .joinWaiter .. => none

def ThreadTask.waits : ThreadTask → Option Nat
  | .function .. => none
  | .joinWaiter id _ _ => some id

def Phase.runs : Phase → Option Nat
  | .executing id _ => some id
  | _ => none

def Phase.waits : Phase → Option Nat
  | .joining id _ _ => some id
  | _ => none

theorem Body.own_le_one (body : Body) : body.own ≤ 1 := by
  unfold own
  split <;> omega

namespace State
variable {s s' : State}

/-! ### What a step can do -/

inductive Effect (s s' : State) : Prop where
  | quiet (hworkers : s'.workers = s.workers) (hqueue : s'.globalQueue = s.globalQueue)
      (hmain : s'.main = s.main) (hfutures : s'.futures = s.futures)
  /-- A function passes an `await`, or throws. -/
  | goOn (caller : Option Nat) (f f' : Frame) (hf : s.frame caller = some f)
      (hhandles : f'.handles = f.handles) (hown : f'.body.own ≤ f.body.own)
      (hawaiting : f'.body.awaiting ≤ f.body.awaiting) (heq : s' = s.setFrame caller f')
  | spawn (caller : Option Nat) (f : Frame) (child rest : Body) (hf : s.frame caller = some f)
      (hbody : f.body = .spawn child rest) (heq : s' = s.threadSpawn caller f child rest)
  | join (caller : Option Nat) (f : Frame) (handle id : Nat) (rest : Body)
      (hf : s.frame caller = some f) (hbody : f.body = .join handle rest)
      (hhandle : f.handles[handle]? = some (some id))
      (heq : s' = s.threadJoin caller f handle rest)
  | take (w : Nat) (task : ThreadTask) (rest : List ThreadTask)
      (hw : s.workers[w]? = some .getTask) (hqueue : s.globalQueue = task :: rest)
      (heq : s' = {s.setPhase w (begin task) with globalQueue := rest})
  | setResult (w id : Nat) (f : Frame) (success : Bool) (hw : s.workers[w]? = some (.executing id f))
      (hworkers : s'.workers = s.workers.set w .getTask)
      (hqueue : s'.globalQueue = s.globalQueue) (hmain : s'.main = s.main)
      (hfutures : s'.futures = s.futures.set id (some success))
  | getReturns (w id : Nat) (caller : Option Nat) (resolver : Resolver)
      (hw : s.workers[w]? = some (.joining id caller resolver))
      (hworkers : s'.workers = s.workers.set w .getTask)
      (hqueue : s'.globalQueue = s.globalQueue) (hmain : s'.main = s.main)
      (hfutures : s'.futures = s.futures)

variable {caller : Option Nat} {f : Frame} {id : Nat}

/-- Throwing drops the rest of the function. -/
theorem throw_effect (hf : s.frame caller = some f) : s.Effect (s.throw caller f) :=
  .goOn caller f {f with body := .finish false} hf rfl (Nat.zero_le _) (Nat.zero_le _) rfl

theorem await_effect {promise : Nat} {rest : Body} (hf : s.frame caller = some f) (hbody : f.body = .await promise rest) :
    s.Effect (s.await caller f promise rest) := by
  have hgo : s.Effect (s.setFrame caller {f with body := rest}) := by
    refine .goOn caller f {f with body := rest} hf rfl ?_ ?_ rfl <;> rw [hbody]
    · exact own_le_one rest
    · exact le_refl _
  unfold State.await
  split
  · split
    · exact throw_effect hf
    · exact hgo
  · exact hgo

theorem operate_effect (hf : s.frame caller = some f) (hst : s.operate caller f = some s') : s.Effect s' := by
  cases hbody : f.body <;> simp only [operate, hbody, reduceCtorEq, Option.some.injEq, ite_none_left_eq_some] at hst
  case spawn child rest =>
    exact .spawn caller f child rest hf hbody hst.symm
  case join handle rest =>
    match hhandle : f.handles[handle]? with
    | some (some id) => exact .join caller f handle id rest hf hbody hhandle hst.symm
    | some none | none =>
      rw [threadJoin, hhandle] at hst
      subst hst
      exact throw_effect hf
  case await promise rest =>
    obtain ⟨-, rfl⟩ := hst
    exact await_effect hf hbody

theorem step_effect {action : Action} (hst : s.step action = some s') : s.Effect s' := by
  cases action with
  | operate caller =>
    obtain ⟨f, hf, hop⟩ := bind_eq_some_iff.mp hst
    exact operate_effect hf hop
  | take w =>
    simp only [step] at hst
    split at hst
    case h_1 task rest hw hqueue =>
      cases hst
      exact .take w task rest hw hqueue rfl
    case h_2 => cases hst
  | poll w =>
    simp only [step] at hst
    split at hst
    case h_1 phase queue hw hqueue =>
      split at hst
      · split at hst <;> cases hst
        · exact .quiet rfl rfl rfl rfl
        · exact .quiet rfl rfl rfl rfl
      · cases hst
    case h_2 => cases hst
  | pump =>
    simp only [step] at hst
    split at hst
    · split at hst
      · cases hst
        exact .quiet rfl rfl rfl rfl
      · cases hst
    · cases hst
  | setResult w =>
    simp only [step] at hst
    split at hst
    case h_1 id success handles promises hw =>
      cases hst
      exact .setResult w id _ success hw rfl rfl rfl rfl
    case h_2 => cases hst
  | getReturns w =>
    simp only [step] at hst
    split at hst
    case h_1 id caller resolver hw =>
      split at hst
      case h_1 success hfu =>
        cases hst
        refine .getReturns w id caller resolver hw ?_ ?_ ?_ ?_ <;>
          cases caller <;> simp only [deliver] <;> (try split) <;> rfl
      case h_2 => cases hst
    case h_2 => cases hst

@[simp] theorem setFrame_futures (caller : Option Nat) (f : Frame) : (s.setFrame caller f).futures = s.futures := by
  cases caller <;> rfl

@[simp] theorem threadSpawn_futures (caller : Option Nat) (f : Frame) (child rest : Body) :
    (s.threadSpawn caller f child rest).futures = s.futures ++ [none] := by
  cases caller <;> rfl

@[simp] theorem threadJoin_futures (caller : Option Nat) (f : Frame) (handle : Nat) (rest : Body) :
    (s.threadJoin caller f handle rest).futures = s.futures := by
  unfold threadJoin
  split
  · exact setFrame_futures ..
  · exact setFrame_futures ..

/-! ### Gauges

Three counts go with the parties: what is in their functions, in the tasks they run and
in the tasks of the queue. How a step changes such a count is worked out once. -/

/-- What each place contributes. The frame of the main thread is not on a worker. -/
structure Gauge where
  onFrame : (onWorker : Bool) → Frame → Int
  onExecuting : (id : Nat) → Int
  onJoining : (id : Nat) → Int
  onFunction : (id : Nat) → Body → Int

namespace Gauge
variable (g : Gauge)

def phase : Phase → Int
  | .getTask => 0
  | .executing id f => g.onExecuting id + g.onFrame true f
  | .joining id _ _ => g.onJoining id

def task : ThreadTask → Int
  | .function id body => g.onFunction id body
  | .joinWaiter id _ _ => g.onJoining id

def total (s : State) : Int :=
  g.onFrame false s.main + tally g.phase s.workers + tally g.task s.globalQueue

structure Nonneg : Prop where
  frame : ∀ onWorker f, 0 ≤ g.onFrame onWorker f
  executing : ∀ id, 0 ≤ g.onExecuting id
  joining : ∀ id, 0 ≤ g.onJoining id
  function : ∀ id body, 0 ≤ g.onFunction id body

variable {g}

theorem Nonneg.phase (h : g.Nonneg) (phase : Phase) : 0 ≤ g.phase phase := by
  cases phase with
  | getTask => exact le_refl 0
  | executing id f => exact Int.add_nonneg (h.executing id) (h.frame true f)
  | joining id => exact h.joining id

theorem Nonneg.task (h : g.Nonneg) (task : ThreadTask) : 0 ≤ g.task task := by
  cases task with
  | function id body => exact h.function id body
  | joinWaiter id => exact h.joining id

/-- No part of the count exceeds the whole. -/
theorem Nonneg.parts (h : g.Nonneg) (s : State) : 0 ≤ g.onFrame false s.main ∧
    0 ≤ tally g.phase s.workers ∧ 0 ≤ tally g.task s.globalQueue :=
  ⟨h.frame false s.main, tally.nonneg fun p _ => h.phase p, tally.nonneg fun t _ => h.task t⟩

theorem Nonneg.total (h : g.Nonneg) (s : State) : 0 ≤ g.total s := by
  obtain ⟨hmain, hworkers, hqueue⟩ := h.parts s
  exact Int.add_nonneg (Int.add_nonneg hmain hworkers) hqueue

variable (g)

theorem total_setFrame (hf : s.frame caller = some f) (f' : Frame) : g.total (s.setFrame caller f') =
      g.total s - g.onFrame caller.isSome f + g.onFrame caller.isSome f' := by
  cases caller with
  | none =>
    cases hf
    simp only [total, setFrame, isSome_none]
    omega
  | some w =>
    simp only [State.frame] at hf
    split at hf
    case h_1 id _ hw =>
      cases hf
      simp only [total, setFrame, isSome_some, tally.modify g.phase hw, phase, Phase.setFrame]
      omega
    case h_2 => cases hf

theorem total_threadSpawn (hf : s.frame caller = some f) (child rest : Body) : g.total (s.threadSpawn caller f child rest) =
      g.total s - g.onFrame caller.isSome f + g.onFrame caller.isSome
        {f with body := rest, handles := f.handles ++ [some s.futures.length]} +
      g.onFunction s.futures.length child := by
  rw [← g.total_setFrame hf]
  cases caller <;> simp only [total, threadSpawn, setFrame, tally.append, tally.cons, tally.nil, task] <;> omega

theorem total_threadJoin (hf : s.frame caller = some f) {handle : Nat} (hhandle : f.handles[handle]? = some (some id))
    (rest : Body) :
    g.total (s.threadJoin caller f handle rest) = g.total s - g.onFrame caller.isSome f + g.onFrame caller.isSome {f with
          body := rest
          handles := f.handles.set handle none
          promises := f.promises ++ [s.promises.length]} +
      g.onJoining id := by
  rw [← g.total_setFrame hf]
  cases caller <;> simp only [total, threadJoin, hhandle, setFrame, tally.append, tally.cons, tally.nil, task] <;> omega

/-- A worker is done with its task. -/
theorem total_done {w : Nat} {phase : Phase} (hw : s.workers[w]? = some phase)
    (hmain : s'.main = s.main) (hworkers : s'.workers = s.workers.set w .getTask)
    (hqueue : s'.globalQueue = s.globalQueue) : g.total s' = g.total s - g.phase phase := by
  simp only [total, hmain, hworkers, hqueue, tally.set g.phase hw, Gauge.phase]
  omega

theorem total_take {w : Nat} {task : ThreadTask} {rest : List ThreadTask}
    (hw : s.workers[w]? = some .getTask) (hqueue : s.globalQueue = task :: rest) :
    g.total {s.setPhase w (begin task) with globalQueue := rest} = g.total s - g.task task + g.phase (begin task) := by
  simp only [total, setPhase, tally.set g.phase hw, hqueue, tally.cons, phase]
  omega

theorem total_congr (hmain : s'.main = s.main) (hworkers : s'.workers = s.workers)
    (hqueue : s'.globalQueue = s.globalQueue) : g.total s' = g.total s := by
  rw [total, hmain, hworkers, hqueue]
  rfl

end Gauge

def same (i j : Nat) : Int := if i = j then 1 else 0

theorem same_nonneg (i j : Nat) : 0 ≤ same i j := by
  unfold same
  split <;> omega

theorem same_self (i : Nat) : same i i = 1 := if_pos rfl

theorem same_of_ne {i j : Nat} (h : i ≠ j) : same i j = 0 := if_neg h

/-- Who can join `id`, or is about to: its handle, and the tasks made from it. -/
def claims (id : Nat) : Gauge where
  onFrame _ f := tally (fun handle => if handle = some id then 1 else 0) f.handles
  onExecuting _ := 0
  onJoining := same id
  onFunction _ _ := 0

def places (id : Nat) : Gauge where
  onFrame _ _ := 0
  onExecuting := same id
  onJoining _ := 0
  onFunction id' _ := same id id'

/-- How many functions that await are on a worker, in the queue, or still to come. -/
def load : Gauge where
  onFrame onWorker f := f.body.awaiting + if onWorker then f.body.own else 0
  onExecuting _ := 0
  onJoining _ := 0
  onFunction _ body := body.own + body.awaiting

theorem claims_nonneg (id : Nat) : (claims id).Nonneg where
  frame _ f := tally.nonneg fun handle _ => by split <;> omega
  executing _ := le_refl 0
  joining := same_nonneg id
  function _ _ := le_refl 0

theorem places_nonneg (id : Nat) : (places id).Nonneg where
  frame _ _ := le_refl 0
  executing := same_nonneg id
  joining _ := le_refl 0
  function id' _ := same_nonneg id id'

theorem load_nonneg : load.Nonneg where
  frame _ _ := Int.natCast_nonneg _
  executing _ := le_refl 0
  joining _ := le_refl 0
  function _ _ := Int.natCast_nonneg _

/-- Nobody comes to hold a second claim: a new function has one, in its handle, and the
claim passes from the handle to the task that joins and on to the worker that runs it. -/
theorem claims_effect (h : s.Effect s') (id : Nat) : (claims id).total s' ≤ (claims id).total s ∨
    (s.futures.length = id ∧ s'.futures.length = id + 1 ∧ (claims id).total s' = (claims id).total s + 1) := by
  cases h with
  | quiet hworkers hqueue hmain =>
    exact .inl (le_of_eq ((claims id).total_congr hmain hworkers hqueue))
  | goOn caller f f' hf hhandles _ _ heq =>
    left
    rw [heq, (claims id).total_setFrame hf]
    simp only [claims, hhandles]
    omega
  | spawn caller f child rest hf hbody heq =>
    have hto := (claims id).total_threadSpawn hf child rest
    simp only [claims, tally.append, tally.cons, tally.nil] at hto
    rw [heq]
    by_cases hid : s.futures.length = id
    · right
      rw [if_pos (by rw [hid])] at hto
      refine ⟨hid, ?_, ?_⟩
      · rw [← hid]
        exact length_append
      · simp only [claims]
        omega
    · left
      rw [if_neg (by simpa using hid)] at hto
      simp only [claims]
      omega
  | join caller f handle id' rest hf hbody hhandle heq =>
    left
    rw [heq, (claims id).total_threadJoin hf hhandle]
    have hset := tally.set (fun handle => if handle = some id then 1 else 0) hhandle none
    simp only [claims, same]
    by_cases hid : id = id'
    · rw [if_pos (by rw [hid]), if_neg (by simp)] at hset
      omega
    · rw [if_neg (by simpa using Ne.symm hid), if_neg (by simp)] at hset
      omega
  | take w task rest hw hqueue heq =>
    left
    rw [heq, (claims id).total_take hw hqueue]
    cases task <;> simp only [Gauge.task, Gauge.phase, begin, claims, tally.nil] <;> omega
  | setResult w id' f success hw hworkers hqueue hmain =>
    left
    rw [(claims id).total_done hw hmain hworkers hqueue]
    have hphase := (claims_nonneg id).phase (.executing id' f)
    omega
  | getReturns w id' caller resolver hw hworkers hqueue hmain =>
    left
    rw [(claims id).total_done hw hmain hworkers hqueue]
    have hphase := (claims_nonneg id).phase (.joining id' caller resolver)
    omega

/-- A function leaves its place for the next one, until it has its result. -/
theorem places_effect (h : s.Effect s') (hp : s.futures[id]? = some none → 1 ≤ (places id).total s)
    (hnon : s'.futures[id]? = some none) : 1 ≤ (places id).total s' := by
  cases h with
  | quiet hworkers hqueue hmain hfutures =>
    rw [(places id).total_congr hmain hworkers hqueue]
    rw [hfutures] at hnon
    exact hp hnon
  | goOn caller f f' hf _ _ _ heq =>
    rw [heq, (places id).total_setFrame hf]
    rw [heq, setFrame_futures] at hnon
    have hsa := hp hnon
    simp only [places] at hsa ⊢
    omega
  | spawn caller f child rest hf hbody heq =>
    rw [heq, (places id).total_threadSpawn hf]
    rw [heq, threadSpawn_futures] at hnon
    have hno := (places_nonneg id).total s
    by_cases hid : id = s.futures.length
    · simp only [places, hid, same_self] at hno ⊢
      omega
    · have hlt : id < s.futures.length := by
        have := (List.getElem?_eq_some_iff.mp hnon).1
        rw [length_append, length_singleton] at this
        omega
      rw [List.getElem?_append_left hlt] at hnon
      have hsa := hp hnon
      have hfun : (0 : Int) ≤ same id s.futures.length := same_nonneg ..
      simp only [places] at hsa ⊢
      omega
  | join caller f handle id' rest hf hbody hhandle heq =>
    rw [heq, (places id).total_threadJoin hf hhandle]
    rw [heq, threadJoin_futures] at hnon
    have hsa := hp hnon
    simp only [places] at hsa ⊢
    omega
  | take w task rest hw hqueue heq =>
    subst heq
    rw [(places id).total_take hw hqueue]
    have hsa := hp hnon
    cases task <;> simp only [Gauge.task, Gauge.phase, begin, places] at hsa ⊢ <;> omega
  | setResult w id' f success hw hworkers hqueue hmain hfutures =>
    rw [(places id).total_done hw hmain hworkers hqueue]
    rw [hfutures] at hnon
    have hne : id ≠ id' := by
      rintro rfl
      rw [List.getElem?_set_self'] at hnon
      cases hfu : s.futures[id]? <;> simp [hfu] at hnon
    rw [List.getElem?_set_ne (Ne.symm hne)] at hnon
    have hsa := hp hnon
    simp only [Gauge.phase, places, same_of_ne hne] at hsa ⊢
    omega
  | getReturns w id' caller resolver hw hworkers hqueue hmain hfutures =>
    rw [(places id).total_done hw hmain hworkers hqueue]
    rw [hfutures] at hnon
    have hsa := hp hnon
    simp only [Gauge.phase, places] at hsa ⊢
    omega

/-- Functions that await are spent, never made. -/
theorem load_effect (h : s.Effect s') : load.total s' ≤ load.total s := by
  cases h with
  | quiet hworkers hqueue hmain => exact le_of_eq (load.total_congr hmain hworkers hqueue)
  | goOn caller f f' hf _ hown hawaiting heq =>
    rw [heq, load.total_setFrame hf]
    have hframe : load.onFrame caller.isSome f' ≤ load.onFrame caller.isSome f := by
      simp only [load]
      split <;> omega
    omega
  | spawn caller f child rest hf hbody heq =>
    rw [heq, load.total_threadSpawn hf]
    simp only [load, hbody, awaiting, own, awaits]
    split <;> omega
  | join caller f handle id rest hf hbody hhandle heq =>
    rw [heq, load.total_threadJoin hf hhandle]
    simp only [load, hbody, awaiting, own, awaits]
    omega
  | take w task rest hw hqueue heq =>
    rw [heq, load.total_take hw hqueue]
    cases task <;> simp only [Gauge.task, Gauge.phase, begin, load, if_true] <;> omega
  | setResult w id f success hw hworkers hqueue hmain =>
    rw [load.total_done hw hmain hworkers hqueue]
    have hphase := load_nonneg.phase (.executing id f)
    omega
  | getReturns w id caller resolver hw hworkers hqueue hmain =>
    rw [load.total_done hw hmain hworkers hqueue]
    have hphase := load_nonneg.phase (.joining id caller resolver)
    omega

/-! ### The order of the queue -/

structure InOrder (queue : List ThreadTask) (workers : List Phase) : Prop where
  /-- No function comes after a task that joins it. -/
  behind : queue.Pairwise fun first later => ∀ id, first.waits = some id → later.runs ≠ some id
  /-- What a worker waits for is not in the queue any more. -/
  fetched : ∀ phase ∈ workers, ∀ id, phase.waits = some id → ∀ task ∈ queue, task.runs ≠ some id

namespace InOrder
variable {queue : List ThreadTask} {workers workers' : List Phase}

/-- A function that nobody waits for, or a task that joins, may be added. -/
theorem append (h : InOrder queue workers) {task : ThreadTask}
    (hta : ∀ id, task.runs = some id → ∀ first ∈ queue, first.waits ≠ some id)
    (hphase : ∀ id, task.runs = some id → ∀ phase ∈ workers, phase.waits ≠ some id) :
    InOrder (queue ++ [task]) workers := by
  constructor
  · rw [pairwise_append]
    refine ⟨h.behind, pairwise_singleton .., ?_⟩
    intro first hfi later hl id hwa hru
    rw [mem_singleton.mp hl] at hru
    exact hta id hru first hfi hwa
  · intro phase hmem id hwa later hl hru
    rcases mem_append.mp hl with hl | hl
    · exact h.fetched phase hmem id hwa later hl hru
    · rw [mem_singleton.mp hl] at hru
      exact hphase id hru phase hmem hwa

/-- No worker waits for more than before. -/
theorem mono (h : InOrder queue workers) (hworkers : ∀ phase ∈ workers', ∀ id, phase.waits = some id →
      ∃ phase' ∈ workers, phase'.waits = some id) : InOrder queue workers' := by
  refine ⟨h.behind, ?_⟩
  intro phase hmem id hwa
  obtain ⟨phase', hmem', hw'⟩ := hworkers phase hmem id hwa
  exact h.fetched phase' hmem' id hw'

theorem free (h : InOrder queue workers) (w : Nat) : InOrder queue (workers.set w .getTask) := by
  refine h.mono fun phase hmem id hwa => ?_
  rcases mem_or_eq_of_mem_set hmem with hmem | rfl
  · exact ⟨phase, hmem, hwa⟩
  · cases hwa

/-- The front of the queue is fetched: if it joins, what it joins came before it. -/
theorem take {task : ThreadTask} (h : InOrder (task :: queue) workers) (w : Nat) :
    InOrder queue (workers.set w (begin task)) := by
  obtain ⟨hfr, hrest⟩ := pairwise_cons.mp h.behind
  refine ⟨hrest, ?_⟩
  intro phase hmem id hwa later hl
  rcases mem_or_eq_of_mem_set hmem with hmem | rfl
  · exact h.fetched phase hmem id hwa later (mem_cons_of_mem task hl)
  · cases task with
    | function => cases hwa
    | joinWaiter => exact hfr later hl id hwa

end InOrder

structure Orderly (s : State) : Prop where
  once : ∀ id, (claims id).total s ≤ 1
  known : ∀ id, s.futures.length ≤ id → (claims id).total s = 0
  placed : ∀ id, s.futures[id]? = some none → 1 ≤ (places id).total s
  inOrder : InOrder s.globalQueue s.workers

theorem initial_orderly (poolSize : Nat) (main : Body) (hasRunner : Bool) : (initial poolSize main hasRunner).Orderly := by
  have hno : ∀ id, (claims id).total (initial poolSize main hasRunner) = 0 := by
    intro id
    simp only [Gauge.total, initial, claims, tally.nil]
    rw [tally.eq_zero]
    · rfl
    · intro phase hphase
      rw [eq_of_mem_replicate hphase]
      rfl
  refine ⟨fun id => ?_, fun id _ => hno id, fun id h => ?_, .nil, ?_⟩
  · rw [hno id]
    decide
  · cases h
  · intro phase _ id _ task hta
    cases hta

/-- Whatever is waited for has been spawned. -/
theorem Orderly.lt_of_phase (h : s.Orderly) {phase : Phase} (hphase : phase ∈ s.workers) (hid : phase.waits = some id) :
    id < s.futures.length := by
  by_contra hle
  have hto := h.known id (Nat.le_of_not_lt hle)
  obtain ⟨hmain, -, hqueue⟩ := (claims_nonneg id).parts s
  have hwo := tally.le_of_mem (fun p _ => (claims_nonneg id).phase p) hphase
  cases phase with
  | joining id' =>
    cases hid
    simp only [Gauge.phase, claims, same_self] at hwo
    simp only [Gauge.total, claims] at hto hmain hqueue
    omega
  | getTask | executing => cases hid

theorem Orderly.lt_of_task (h : s.Orderly) {task : ThreadTask} (hta : task ∈ s.globalQueue)
    (hid : task.waits = some id) : id < s.futures.length := by
  by_contra hle
  have hto := h.known id (Nat.le_of_not_lt hle)
  obtain ⟨hmain, hworkers, -⟩ := (claims_nonneg id).parts s
  have hqueue := tally.le_of_mem (fun t _ => (claims_nonneg id).task t) hta
  cases task with
  | joinWaiter id' =>
    cases hid
    simp only [Gauge.task, claims, same_self] at hqueue
    simp only [Gauge.total, claims] at hto hmain hworkers
    omega
  | function => cases hid

/-- Running a function changes nobody's wait. -/
theorem setFrame_waits {phase : Phase} (hmem : phase ∈ (s.setFrame caller f).workers) (hwa : phase.waits = some id) :
    ∃ phase' ∈ s.workers, phase'.waits = some id := by
  cases caller with
  | none => exact ⟨phase, hmem, hwa⟩
  | some w =>
    obtain ⟨i, hi⟩ := List.mem_iff_getElem?.mp hmem
    simp only [setFrame, List.getElem?_modify] at hi
    obtain ⟨phase', hp', rfl⟩ := map_eq_some_iff.mp hi
    refine ⟨phase', List.mem_of_getElem? hp', ?_⟩
    split at hwa
    · cases phase' <;> exact hwa
    · exact hwa

theorem inOrder_effect (h : s.Orderly) (hef : s.Effect s') : InOrder s'.globalQueue s'.workers := by
  cases hef with
  | quiet hworkers hqueue =>
    rw [hworkers, hqueue]
    exact h.inOrder
  | goOn caller f f' hf _ _ _ heq =>
    have hqueue : s'.globalQueue = s.globalQueue := by rw [heq]; cases caller <;> rfl
    rw [hqueue, heq]
    exact h.inOrder.mono fun phase hmem id hwa => setFrame_waits hmem hwa
  | spawn caller f child rest hf hbody heq =>
    subst heq
    have hqueue : InOrder (s.globalQueue ++ [.function s.futures.length child]) s.workers := by
      refine h.inOrder.append ?_ ?_
      · rintro id hid first hfi hwa
        cases hid
        exact lt_irrefl _ (h.lt_of_task hfi hwa)
      · rintro id hid phase hphase hwa
        cases hid
        exact lt_irrefl _ (h.lt_of_phase hphase hwa)
    exact hqueue.mono fun phase hmem id hwa => setFrame_waits (s := s) hmem hwa
  | join caller f handle id' rest hf hbody hhandle heq =>
    subst heq
    simp only [threadJoin, hhandle]
    have hqueue : InOrder (s.globalQueue ++ [.joinWaiter id' caller s.promises.length]) s.workers := by
      refine h.inOrder.append ?_ ?_
      · intro id hid
        cases hid
      · intro id hid
        cases hid
    exact hqueue.mono fun phase hmem id hwa => setFrame_waits (s := s) hmem hwa
  | take w task rest hw hqueue heq =>
    subst heq
    have hin := h.inOrder
    rw [hqueue] at hin
    exact hin.take w
  | setResult w _ _ _ _ hworkers hqueue | getReturns w _ _ _ _ hworkers hqueue =>
    rw [hworkers, hqueue]
    exact h.inOrder.free w

theorem futures_effect (h : s.Effect s') : s.futures.length ≤ s'.futures.length := by
  cases h with
  | quiet _ _ _ hfutures | getReturns _ _ _ _ _ _ _ _ hfutures => rw [hfutures]
  | goOn _ _ _ _ _ _ _ heq => rw [heq, setFrame_futures]
  | spawn _ _ _ _ _ _ heq =>
    rw [heq, threadSpawn_futures, length_append]
    exact Nat.le_add_right ..
  | join _ _ _ _ _ _ _ _ heq => rw [heq, threadJoin_futures]
  | take _ _ _ _ _ heq =>
    rw [heq]
    exact le_refl _
  | setResult _ _ _ _ _ _ _ _ hfutures => rw [hfutures, length_set]

theorem Orderly.effect (h : s.Orderly) (hef : s.Effect s') : s'.Orderly := by
  refine ⟨fun id => ?_, fun id hid => ?_, fun id => places_effect hef (h.placed id), inOrder_effect h hef⟩
  · have ho := h.once id
    rcases claims_effect hef id with hle | ⟨hnew, -, hone⟩
    · omega
    · have hzero := h.known id (le_of_eq hnew)
      omega
  · have hg := futures_effect hef
    have hzero := h.known id (le_trans hg hid)
    have hno := (claims_nonneg id).total s'
    rcases claims_effect hef id with hle | ⟨-, hlen, -⟩
    · omega
    · omega

theorem workers_effect (h : s.Effect s') : s'.workers.length = s.workers.length := by
  cases h with
  | quiet hworkers => rw [hworkers]
  | goOn caller _ _ _ _ _ _ heq | spawn caller _ _ _ _ _ heq =>
    rw [heq]
    cases caller
    · rfl
    · exact length_modify ..
  | join caller f handle id rest _ _ hhandle heq =>
    rw [heq, threadJoin, hhandle]
    cases caller
    · rfl
    · exact length_modify ..
  | take _ _ _ _ _ heq =>
    rw [heq]
    exact length_set ..
  | setResult _ _ _ _ _ hworkers | getReturns _ _ _ _ _ hworkers => rw [hworkers, length_set]

end State
end V8Multithread.Threading.Join
