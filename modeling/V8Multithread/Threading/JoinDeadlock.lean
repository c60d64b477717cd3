import V8Multithread.Threading.JoinLedger

/-! When joining can use up the pool.

A worker is stuck with a function that awaits, or with a `JoinWaiterTask` for a function
without a result. That function has been fetched, so a worker is at it, and where every
worker is stuck it awaits too. A handle is joined once: for every function that awaits
there are at most two stuck workers, and a pool with more than twice as many workers as
there are such functions is never stuck altogether (`never_deadlocks`). With exactly twice
as many it can be (`chain_deadlocks`), and then it stands still for ever (`deadlock_run`). -/
namespace V8Multithread.Threading.Join
open List Phase

def Body.awaitChild (child : Body) : Body := .spawn child (.join 0 (.await 0 (.finish true)))

def Body.chain : Nat → Body
  | 0 => .finish true
  | k + 1 => .awaitChild (chain k)

theorem Body.chain_awaiting (m : Nat) : (Body.chain (m + 1)).awaiting = m := by
  induction m with
  | zero => rfl
  | succ m ih =>
    show (Body.chain (m + 1)).own + (Body.chain (m + 1)).awaiting + 0 = m + 1
    rw [ih, show (Body.chain (m + 1)).own = 1 from rfl]
    omega

namespace State
variable {s s' : State}

/-! ### Stuck workers -/

variable {l : List Phase} {f : Frame} {phase : Phase} {id i : Nat} {as : List Action} {t : State}

/-- A worker that has a task runs a function or waits for one. -/
theorem length_eq_of_busy (h : Phase.getTask ∉ l) : l.length = (l.filterMap waits).length + (l.filterMap runs).length := by
  induction l with
  | nil => rfl
  | cons phase l ih =>
    have hl := ih fun hmem => h (mem_cons_of_mem phase hmem)
    cases phase with
    | getTask => exact absurd mem_cons_self h
    | executing | joining =>
      simp only [filterMap_cons, waits, runs, length_cons]
      omega

/-- A worker that waits has a claim. -/
theorem count_waits_le (id : Nat) (l : List Phase) : ((l.filterMap waits).count id : Int) ≤ tally (claims id).phase l := by
  induction l with
  | nil => exact le_refl 0
  | cons phase l ih =>
    have hphase := (claims_nonneg id).phase phase
    rw [tally.cons]
    cases phase with
    | getTask | executing =>
      rw [filterMap_cons_none rfl]
      omega
    | joining id' caller resolver =>
      have hjo : (claims id).phase (.joining id' caller resolver) = same id id' := rfl
      simp only [filterMap_cons, waits, count_cons, beq_iff_eq]
      rw [hjo]
      by_cases hid : id = id'
      · rw [hid, same_self, if_pos rfl, ← hid]
        omega
      · rw [same_of_ne hid, if_neg (Ne.symm hid)]
        omega

/-- Workers whose functions await are a part of the load. -/
theorem length_runs_le (h : ∀ id f, Phase.executing id f ∈ l → f.body.awaits) :
    ((l.filterMap runs).length : Int) ≤ tally load.phase l := by
  induction l with
  | nil => exact le_refl 0
  | cons phase l ih =>
    have hl := ih fun id f hmem => h id f (mem_cons_of_mem phase hmem)
    have hphase := load_nonneg.phase phase
    rw [tally.cons]
    cases phase with
    | getTask | joining =>
      rw [filterMap_cons_none rfl]
      omega
    | executing id f =>
      have hown : f.body.own = 1 := if_pos (h id f mem_cons_self)
      have hex : 1 ≤ load.phase (.executing id f) := by
        simp only [Gauge.phase, load, if_true, hown]
        omega
      simp only [filterMap_cons, runs, length_cons]
      omega

theorem awaits_of_pending (h : s.pending f) : f.body.awaits := by
  unfold pending at h
  split at h
  · rename_i hbody
    rw [hbody]
    rfl
  · cases h

/-- What somebody waits for, and has no result, is run by a worker. -/
theorem Orderly.run_by_worker (h : s.Orderly) (hphase : phase ∈ s.workers)
    (hwa : phase.waits = some id) (hno : s.futures[id]? = some none) :
    id ∈ s.workers.filterMap runs := by
  have hp := h.placed id hno
  have hqueue : tally (places id).task s.globalQueue = 0 := by
    refine tally.eq_zero fun task hta => ?_
    have hru := h.inOrder.fetched phase hphase id hwa task hta
    cases task with
    | function id' body => exact same_of_ne fun heq => hru (by rw [heq]; rfl)
    | joinWaiter => rfl
  have hworkers : 0 < tally (places id).phase s.workers := by
    rw [Gauge.total, hqueue] at hp
    simp only [places] at hp ⊢
    omega
  obtain ⟨worker, hwo, hpos⟩ := tally.exists_pos hworkers
  refine mem_filterMap.mpr ⟨worker, hwo, ?_⟩
  cases worker with
  | executing id' f =>
    by_cases hid : id = id'
    · rw [hid]
      rfl
    · simp only [Gauge.phase, places, same_of_ne hid] at hpos
      omega
  | getTask | joining => exact absurd hpos (lt_irrefl 0)

/-- Where every worker is stuck, there are at most two workers for every function that
awaits. -/
theorem Orderly.workers_le (h : s.Orderly) (hst : ∀ w phase, s.workers[w]? = some phase → s.stuck w phase) :
    (s.workers.length : Int) ≤ 2 * load.total s := by
  have hphase : ∀ phase ∈ s.workers, ∃ w, s.stuck w phase = true := by
    intro phase hmem
    obtain ⟨w, hw⟩ := List.mem_iff_getElem?.mp hmem
    exact ⟨w, hst w phase hw⟩
  have hbu : Phase.getTask ∉ s.workers := by
    intro hmem
    obtain ⟨w, hw⟩ := hphase _ hmem
    cases hw
  have haw : ∀ id f, Phase.executing id f ∈ s.workers → f.body.awaits = true := by
    intro id f hmem
    obtain ⟨w, hw⟩ := hphase _ hmem
    simp only [stuck, decide_eq_true_eq] at hw
    exact awaits_of_pending hw.1
  have hno : (s.workers.filterMap waits).Nodup := by
    refine nodup_iff_count_le_one.mpr fun id => ?_
    have hco := count_waits_le id s.workers
    have ho := h.once id
    obtain ⟨hmain, -, hqueue⟩ := (claims_nonneg id).parts s
    rw [Gauge.total] at ho
    omega
  have hsu : s.workers.filterMap waits ⊆ s.workers.filterMap runs := by
    intro id hid
    obtain ⟨phase, hmem, hwa⟩ := mem_filterMap.mp hid
    obtain ⟨w, hw⟩ := hphase phase hmem
    cases phase with
    | joining id' caller resolver =>
      cases hwa
      simp only [stuck, decide_eq_true_eq] at hw
      exact h.run_by_worker hmem rfl hw
    | getTask | executing => cases hwa
  -- the functions waited for are different, and each is run by a worker
  have hle := (hno.subperm hsu).length_le
  have hl := length_eq_of_busy hbu
  have hru := length_runs_le haw
  obtain ⟨hmain, -, hqueue⟩ := load_nonneg.parts s
  rw [Gauge.total]
  omega

/-! ### Whole runs -/

theorem run_orderly {poolSize : Nat} {main : Body} {hasRunner : Bool}
    (hrun : machine.run (initial poolSize main hasRunner) as = some t) :
    t.Orderly ∧ t.workers.length = poolSize ∧ load.total t ≤ main.awaiting := by
  refine Machine.invariant (I := fun s => s.Orderly ∧ s.workers.length = poolSize ∧ load.total s ≤ main.awaiting) ?_ ?_ hrun
  · rintro s action s' ⟨ho, hl, hlo⟩ hst
    have hef := step_effect hst
    have hle := load_effect hef
    exact ⟨ho.effect hef, (workers_effect hef).trans hl, by omega⟩
  · refine ⟨initial_orderly .., length_replicate, ?_⟩
    have hworkers : tally load.phase (replicate poolSize Phase.getTask) = 0 := by
      refine tally.eq_zero fun phase hphase => ?_
      rw [eq_of_mem_replicate hphase]
      rfl
    show load.onFrame false ⟨main, [], []⟩ + tally load.phase (replicate poolSize .getTask) + 0 ≤ _
    rw [hworkers]
    simp only [load, Bool.false_eq_true, if_false]
    omega

/-- A pool with more than twice as many workers as there are functions that await is
never stuck altogether. -/
theorem never_deadlocks {poolSize : Nat} {main : Body} {hasRunner : Bool} {as : List Action}
    {t : State} (hpool : 2 * main.awaiting < poolSize)
    (hrun : machine.run (initial poolSize main hasRunner) as = some t) : ¬ t.Deadlock := by
  rintro ⟨-, hstuck⟩
  obtain ⟨horderly, hlength, hload⟩ := run_orderly hrun
  have hle := horderly.workers_le hstuck
  omega

def joinLeaf : Body := .spawn (.awaitChild (.finish true)) (.finish true)

def joinLeafRun : List Action := [.operate none, .take 0, .operate (some 0), .operate (some 0)]

theorem never_deadlocks_joinLeaf : 2 * joinLeaf.awaiting < 3 ∧ ∃ t : State,
    machine.run (initial 3 joinLeaf true) joinLeafRun = some t ∧ ¬ t.Deadlock := by
  have hpool : 2 * joinLeaf.awaiting < 3 := by decide
  have hrun : (machine.run (initial 3 joinLeaf true) joinLeafRun).isSome := by decide
  obtain ⟨t, ht⟩ := Option.isSome_iff_exists.mp hrun
  exact ⟨hpool, t, ht, never_deadlocks hpool ht⟩

/-- With one worker the function has it to itself, and what it waits for stays in the
queue. -/
theorem join_deadlocks : ∃ t : State, machine.run (initial 1 joinLeaf true) joinLeafRun = some t ∧ t.Deadlock := by
  refine ⟨_, rfl, by decide, ?_⟩
  intro w phase hw
  match w with
  | 0 =>
    cases hw
    rfl
  | w + 1 => cases hw

/-! ### Deadlocks last -/

/-- A function that awaits a pending promise does not go on. -/
theorem operate_of_pending (h : s.pending f) (caller : Option Nat) : s.operate caller f = none := by
  cases hbody : f.body with
  | await promise rest => simp only [operate, hbody, h, if_true]
  | finish | spawn | join => simp [pending, hbody] at h

/-- No worker can move, and neither can a main thread that has nothing to do. -/
theorem deadlock_step (h : s.Deadlock) (hmain : s.operate none s.main = none)
    (hfo : s.foreground = []) {action : Action} (hste : s.step action = some s') :
    s' = s := by
  obtain ⟨-, hst⟩ := h
  cases action with
  | operate caller =>
    obtain ⟨f, hf, hop⟩ := Option.bind_eq_some_iff.mp hste
    cases caller with
    | none =>
      cases hf
      rw [hmain] at hop
      cases hop
    | some w =>
      simp only [State.frame] at hf
      split at hf
      case h_1 id _ hw =>
        cases hf
        have hp := hst w _ hw
        simp only [stuck, decide_eq_true_eq] at hp
        rw [operate_of_pending hp.1 (some w)] at hop
        cases hop
      case h_2 => cases hf
  | take w =>
    simp only [step] at hste
    split at hste
    case h_1 hw _ => cases hst w _ hw
    case h_2 => cases hste
  | poll w =>
    simp only [step] at hste
    split at hste
    case h_1 phase queue hw hqueue =>
      have hphase := hst w phase hw
      cases phase with
      | getTask => cases hphase
      | joining => simp [polls] at hste
      | executing id f =>
        simp only [stuck, decide_eq_true_eq] at hphase
        rw [hphase.2] at hqueue
        cases hqueue
        simpa [polls, hphase.1] using hste.symm
    case h_2 => cases hste
  | pump => simp [step, hfo] at hste
  | setResult w =>
    simp only [step] at hste
    split at hste
    case h_1 hw => cases hst w _ hw
    case h_2 => cases hste
  | getReturns w =>
    simp only [step] at hste
    split at hste
    case h_1 id caller resolver hw =>
      have hno : s.futures[id]? = some none := by simpa [stuck] using hst w _ hw
      simp [hno] at hste
    case h_2 => cases hste

/-- Such a pool stands still for ever. -/
theorem deadlock_run (h : s.Deadlock) (hmain : s.operate none s.main = none) (hfo : s.foreground = [])
    (hrun : machine.run s as = some t) : t = s := by
  refine Machine.invariant (I := fun s' => s' = s) ?_ rfl hrun
  rintro s₁ action s₂ rfl hst
  exact deadlock_step h hmain hfo hst

/-! ### The bound is sharp -/

/-- One worker takes the next function of the chain, up to where it awaits, and another
takes the task that joins it. -/
def linkUp (w : Nat) : List Action := [.take w, .operate (some w), .operate (some w), .take (w + 1)]

def linkedUp (s : State) (before after : List Phase) (id joined : Nat) (caller : Option Nat)
    (resolver : Resolver) (k : Nat) : State :=
  {s with
    workers := before ++ .executing id ⟨.await 0 (.finish true), [none], [s.promises.length]⟩ ::
      .joining joined caller resolver :: after
    globalQueue := [.function s.futures.length (.chain k),
      .joinWaiter s.futures.length (some before.length) s.promises.length]
    futures := s.futures ++ [none]
    promises := s.promises ++ [none]}

theorem linkUp_run {before after : List Phase} {joined k : Nat} {caller : Option Nat}
    {resolver : Resolver} (hworkers : s.workers = before ++ .getTask :: .getTask :: after)
    (hqueue : s.globalQueue = [.function id (.chain (k + 1)), .joinWaiter joined caller resolver]) :
    machine.run s (linkUp before.length) = some (s.linkedUp before after id joined caller resolver k) := by
  have hmo : ∀ (g : Phase → Phase) (phase : Phase) (l : List Phase),
      (before ++ phase :: l).modify before.length g = before ++ g phase :: l := by
    intro g phase l
    simp [List.modify_eq_set_getElem?]
  simp [linkUp, linkedUp, Machine.run, machine, step, hworkers, hqueue, setPhase, begin, State.frame,
    operate, Body.chain, Body.awaitChild, threadSpawn, threadJoin, setFrame, Phase.setFrame, hmo]

/-- A promise that is pending stays so when another one is made. -/
theorem pending_append (h : s.pending f) (hp : s'.promises = s.promises ++ [none]) : s'.pending f := by
  unfold pending at h ⊢
  split at h
  · split at h
    · rw [hp]
      have hno := of_decide_eq_true h
      exact decide_eq_true (List.getElem?_append_left (List.getElem?_eq_some_iff.mp hno).1 ▸ hno)
    · cases h
  · cases h

/-- New functions and promises help nobody. -/
theorem stuck_append {w : Nat} (h : s.stuck w phase)
    (hqu : s'.privateQueues = s.privateQueues) (hp : s'.promises = s.promises ++ [none])
    (hfutures : s'.futures = s.futures ++ [none]) : s'.stuck w phase := by
  cases phase with
  | getTask => cases h
  | executing id f =>
    obtain ⟨hpe, hqueue⟩ := of_decide_eq_true h
    exact decide_eq_true ⟨pending_append hpe hp, by rw [hqu]; exact hqueue⟩
  | joining id caller resolver =>
    have hno : s.futures[id]? = some none := of_decide_eq_true h
    have hlt := (List.getElem?_eq_some_iff.mp hno).1
    refine decide_eq_true ?_
    rw [hfutures, List.getElem?_append_left hlt]
    exact hno

/-- The first `2 * i` workers are stuck in the first `i` functions of a chain, and the
others have nothing to do yet. -/
structure Chained (m i : Nat) (s : State) : Prop where
  workers : ∃ before, s.workers = before ++ replicate (2 * (m - i)) .getTask ∧
    before.length = 2 * i ∧ ∀ w phase, before[w]? = some phase → s.stuck w phase
  queue : ∃ id caller resolver, s.globalQueue =
    [.function id (.chain (m - i)), .joinWaiter id caller resolver] ∧ s.futures[id]? = some none
  queues : s.privateQueues = replicate (2 * m) []
  main : s.pending s.main
  foreground : s.foreground = []

theorem chained_initial (m : Nat) (hasRunner : Bool) : ∃ t,
    machine.run (initial (2 * m) (.chain (m + 1)) hasRunner) [.operate none, .operate none] = some t ∧ t.Chained m 0 := by
  refine ⟨_, rfl, ⟨[], rfl, rfl, fun w phase h => by cases h⟩, ⟨0, none, 0, rfl, rfl⟩, rfl, rfl, rfl⟩

theorem Chained.step {m : Nat} (h : s.Chained m i) (hi : i < m) :
    ∃ t, machine.run s (linkUp (2 * i)) = some t ∧ t.Chained m (i + 1) := by
  obtain ⟨before, hworkers, hl, hst⟩ := h.workers
  obtain ⟨id, caller, resolver, hqueue, hno⟩ := h.queue
  obtain ⟨k, hk⟩ : ∃ k, m - i = k + 1 := ⟨m - i - 1, by omega⟩
  have hrest : m - (i + 1) = k := by omega
  rw [hk] at hworkers hqueue
  have hsp : s.workers = before ++ .getTask :: .getTask :: replicate (2 * k) .getTask :=
    hworkers
  have hrun := linkUp_run hsp hqueue
  rw [hl] at hrun
  refine ⟨_, hrun, ⟨before ++ [.executing id ⟨.await 0 (.finish true), [none], [s.promises.length]⟩,
    .joining id caller resolver], ?_, ?_, ?_⟩, ⟨s.futures.length, some before.length, s.promises.length, ?_, ?_⟩, h.queues,
    pending_append h.main rfl, h.foreground⟩
  · rw [hrest]
    simp [linkedUp]
  · simp [hl]
    omega
  · intro w phase hw
    by_cases hlt : w < before.length
    · rw [List.getElem?_append_left hlt] at hw
      exact stuck_append (hst w phase hw) rfl rfl rfl
    · rw [List.getElem?_append_right (Nat.le_of_not_lt hlt)] at hw
      match ho : w - before.length with
      | 0 =>
        rw [ho] at hw
        cases hw
        refine decide_eq_true ⟨by simp [pending, linkedUp], ?_⟩
        show s.privateQueues[w]? = some []
        rw [h.queues, List.getElem?_replicate, if_pos (by omega)]
      | 1 =>
        rw [ho] at hw
        cases hw
        have hidL := (List.getElem?_eq_some_iff.mp hno).1
        refine decide_eq_true ?_
        show (s.futures ++ [none])[id]? = some none
        rw [List.getElem?_append_left hidL]
        exact hno
      | n + 2 =>
        rw [ho] at hw
        cases hw
  · rw [hrest]
    rfl
  · simp [linkedUp]

theorem run_chained (m : Nat) (hasRunner : Bool) (hi : i ≤ m) : ∃ as t,
    machine.run (initial (2 * m) (.chain (m + 1)) hasRunner) as = some t ∧ t.Chained m i := by
  induction i with
  | zero =>
    obtain ⟨t, hrun, hch⟩ := chained_initial m hasRunner
    exact ⟨_, t, hrun, hch⟩
  | succ i ih =>
    obtain ⟨as, s, hrun, hch⟩ := ih (Nat.le_of_succ_le hi)
    obtain ⟨t, hst, hnext⟩ := hch.step hi
    exact ⟨_, t, Machine.run_trans hrun hst, hnext⟩

/-- Twice as many workers as functions that await are not enough: a chain of functions,
each of which joins the next, takes two workers a function, and then nothing moves any more. -/
theorem chain_deadlocks (m : Nat) (hasRunner : Bool) : 2 * (Body.chain (m + 1)).awaiting = 2 * m ∧
    ∃ as t, machine.run (initial (2 * m) (.chain (m + 1)) hasRunner) as = some t ∧ t.Deadlock ∧
      ∀ bs u, machine.run t bs = some u → u = t := by
  refine ⟨by rw [Body.chain_awaiting], ?_⟩
  obtain ⟨as, t, hrun, hch⟩ := run_chained m hasRunner (Nat.le_refl m)
  obtain ⟨before, hworkers, -, hst⟩ := hch.workers
  obtain ⟨id, -, -, -, hno⟩ := hch.queue
  rw [Nat.sub_self, Nat.mul_zero, replicate_zero, append_nil] at hworkers
  have hdead : t.Deadlock := ⟨List.mem_of_getElem? hno, hworkers ▸ hst⟩
  exact ⟨as, t, hrun, hdead, fun bs u => deadlock_run hdead (operate_of_pending hch.main none) hch.foreground⟩

end State
end V8Multithread.Threading.Join
