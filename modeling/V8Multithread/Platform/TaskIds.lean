import V8Multithread.Platform.JobCounters

/-! The task ids of a job.

The bits of `assigned_task_ids_` say which ids are held, as long as there are no more delegates that
ask for one than bits. There is one delegate for each active worker, and the constructor caps the
workers at the number of bits. But `Join` adds the joining thread to the cap, so a job of 32 workers
can have 33 delegates. The last of them finds no bit and gets the id 32. -/
namespace V8Multithread.Platform.DefaultJob
open Nat List

/-! ### Bits -/

theorem getLsbD_taskBit {taskId : Nat} (h : taskId < 32) (i : Nat) : (taskBit taskId).getLsbD i = decide (taskId = i) := by
  have htw : taskBit taskId = BitVec.twoPow 32 taskId := by
    rw [taskBit, mod_eq_of_lt h]
    rfl
  rw [htw, BitVec.getLsbD_twoPow, decide_eq_true h, Bool.true_and]

/-- The lowest one bit, if there is one. -/
theorem countTrailingZeros32_spec {value : BitVec 32} {i : Nat} (hi : value.getLsbD i) :
    countTrailingZeros32 value < 32 ∧ value.getLsbD (countTrailingZeros32 value) := by
  have hlt : i < 32 := BitVec.lt_of_getLsbD hi
  rw [countTrailingZeros32]
  cases hfi : (range 32).find? fun i => value.getLsbD i with
  | none => exact absurd hi (find?_eq_none.mp hfi i (mem_range.mpr hlt))
  | some found =>
    have hmem := mem_of_find?_eq_some hfi
    have hbit := find?_some hfi
    exact ⟨mem_range.mp hmem, hbit⟩

/-! ### Who holds an id -/

def Worker.taskId : Worker → Option Nat
  | .running d => d.taskId
  | .leaving d => d.taskId
  | _ => none

def Joiner.taskId : Joiner → Option Nat
  | .waiting (some d) => d.taskId
  | .running d => d.taskId
  | .ran d => d.taskId
  | .leaving d => d.taskId
  | _ => none

def Owner.taskId : Owner → Option Nat
  | .join joiner => joiner.taskId
  | _ => none

def State.heldTaskIds (s : State) : List Nat := s.workers.filterMap Worker.taskId ++ s.owner.taskId.toList

def holds (i : Nat) (taskId : Option Nat) : Int := if taskId = some i then 1 else 0

theorem holds_nonneg (i : Nat) (taskId : Option Nat) : 0 ≤ holds i taskId := by
  rw [holds]
  split <;> omega

@[simp] theorem holds_none (i : Nat) : holds i none = 0 := by
  simp [holds]

def State.holders (s : State) (i : Nat) : Int := tally (fun worker => holds i worker.taskId) s.workers + holds i s.owner.taskId

theorem State.count_heldTaskIds (s : State) (i : Nat) : (s.heldTaskIds.count i : Int) = s.holders i := by
  have hworkers (l : List Worker) :
      ((l.filterMap Worker.taskId).count i : Int) = tally (fun worker => holds i worker.taskId) l := by
    induction l with
    | nil => rfl
    | cons worker l ih =>
      rw [tally.cons, ← ih, filterMap_cons, holds]
      cases worker.taskId with
      | none => simp
      | some j =>
        simp only [count_cons, beq_iff_eq, Option.some.injEq, cast_add, cast_ite, cast_one, cast_zero]
        omega
  have howner : (s.owner.taskId.toList.count i : Int) = holds i s.owner.taskId := by
    rw [holds]
    cases s.owner.taskId with
    | none => rfl
    | some j => simp [count_cons]
  rw [heldTaskIds, count_append, cast_add, hworkers, howner]
  rfl

variable {thread : Thread} {d : JobDelegate} {assigned : Option (BitVec 32)} {s : State}

namespace State
variable {s : State} {w : Nat}

theorem holders_setWorker {worker next : Worker} (hw : s.workers[w]? = some worker) (i : Nat) :
    (s.setWorker w next).holders i = s.holders i - holds i worker.taskId + holds i next.taskId := by
  simp only [holders, setWorker, tally.set _ hw]
  omega

theorem holders_setJoiner (s : State) (joiner : Joiner) (i : Nat) :
    (s.setJoiner joiner).holders i = s.holders i - holds i s.owner.taskId + holds i joiner.taskId := by
  simp only [holders, setJoiner, Owner.taskId]
  omega

theorem holders_post (s : State) (i : Nat) : s.post.holders i = s.holders i := by
  simp [holders, post, Worker.taskId]

theorem holders_setDelegate (hd : s.delegate thread = some d) (next : JobDelegate) (i : Nat) :
    (s.setDelegate thread next).holders i = s.holders i - holds i d.taskId + holds i next.taskId := by
  cases thread with
  | worker w => exact holders_setWorker (delegate_worker hd) i
  | joiner =>
    rw [setDelegate, holders_setJoiner, delegate_joiner hd]
    rfl

theorem holders_nonneg (s : State) (i : Nat) : 0 ≤ s.holders i := by
  have hworkers := tally.nonneg fun worker (_ : worker ∈ s.workers) => holds_nonneg i worker.taskId
  have howner := holds_nonneg i s.owner.taskId
  rw [holders]
  omega

theorem holders_releaseWorker (hw : s.workers[w]? = some (.leaving d)) (i : Nat) :
    ((s.release d).setWorker w .ran).holders i = s.holders i - holds i d.taskId := by
  obtain ⟨assigned, hre⟩ := s.release_eq d
  rw [hre]
  have hset : (s.setWorker w .ran).holders i = s.holders i - holds i d.taskId + holds i none := holders_setWorker hw i
  rw [holds_none, add_zero] at hset
  exact hset

theorem holders_releaseJoiner (howner : s.owner = .join (.leaving d)) (i : Nat) :
    ((s.release d).setJoiner .returned).holders i = s.holders i - holds i d.taskId := by
  obtain ⟨assigned, hre⟩ := s.release_eq d
  rw [hre]
  have hset := s.holders_setJoiner .returned i
  rw [howner] at hset
  exact hset.trans (by simp [Joiner.taskId, Owner.taskId])

end State

/-! ### The bits are right while there are enough -/

/-- A bit is set for an id that one delegate holds, and no bit for the others. -/
def Assigned (s : State) : Prop := ∀ i, s.holders i = if s.assignedTaskIds.getLsbD i then 1 else 0

namespace Assigned
variable {s s' : State}

theorem initial (numWorkerThreads : Nat) : Assigned (State.initial numWorkerThreads) := by
  intro i
  simp [State.initial, State.holders, Owner.taskId]

section
variable (h : Assigned s)
include h

/-- Distinct ids, all of them small. -/
theorem unique : s.heldTaskIds.Nodup ∧ ∀ id ∈ s.heldTaskIds, id < kMaxWorkersPerJob := by
  constructor
  · rw [nodup_iff_count_le_one]
    intro i
    have hco := s.count_heldTaskIds i
    rw [h i] at hco
    split at hco <;> omega
  · intro i hi
    by_contra hge
    have hbit : s.assignedTaskIds.getLsbD i = false := BitVec.getLsbD_of_ge _ i (Nat.le_of_not_lt hge)
    have hco := s.count_heldTaskIds i
    rw [h i, hbit] at hco
    have hpos := count_pos_iff.mpr hi
    simp only [Bool.false_eq_true, if_false] at hco
    omega

/-- Nothing changes for the ids. -/
theorem frame (hass : s'.assignedTaskIds = s.assignedTaskIds) (hh : ∀ i, s'.holders i = s.holders i) :
    Assigned s' := by
  intro i
  rw [hh, hass]
  exact h i

theorem setWorker {w : Nat} {worker next : Worker} (hw : s.workers[w]? = some worker)
    (htaskId : next.taskId = worker.taskId) {active pending : Nat} :
    Assigned ({s with activeWorkers := active, pendingTasks := pending}.setWorker w next) := by
  apply h.frame (by rfl)
  intro i
  have hset := (@State.holders_setWorker _ _ _ next) hw i
  rw [htaskId] at hset
  exact hset.trans (by omega)

theorem setJoiner {joiner : Joiner} (htaskId : joiner.taskId = s.owner.taskId) {active pending threads : Nat}
    {canceled : Bool} :
    Assigned ({s with
      activeWorkers := active
      pendingTasks := pending
      isCanceled := canceled
      numWorkerThreads := threads}.setJoiner joiner) := by
  apply h.frame (by rfl)
  intro i
  have hset := s.holders_setJoiner joiner i
  rw [htaskId] at hset
  exact hset.trans (by omega)

theorem setDelegate {next : JobDelegate} (hd : s.delegate thread = some d) (htaskId : next.taskId = d.taskId) :
    Assigned (s.setDelegate thread next) := by
  apply h.frame
  · cases thread <;> rfl
  · intro i
    rw [State.holders_setDelegate hd, htaskId]
    omega

/-- The id that the exchange takes is free. -/
theorem exchanged (hd : s.delegate thread = some ⟨none, assigned⟩) {taskId : Nat} (hlt : taskId < 32)
    (hfree : s.assignedTaskIds.getLsbD taskId = false) :
    Assigned ({s with assignedTaskIds := s.assignedTaskIds ||| taskBit taskId}.setDelegate thread ⟨some taskId, none⟩) := by
  intro i
  have hset : ({s with assignedTaskIds := s.assignedTaskIds ||| taskBit taskId}.setDelegate thread
      ⟨some taskId, none⟩).holders i = s.holders i + holds i (some taskId) := by
    have hs : _ = s.holders i - holds i none + holds i (some taskId) :=
      State.holders_setDelegate hd ⟨some taskId, none⟩ i
    rw [holds_none, sub_zero] at hs
    rw [← hs]
    cases thread <;> rfl
  have hbi : ({s with assignedTaskIds := s.assignedTaskIds ||| taskBit taskId}.setDelegate thread
      ⟨some taskId, none⟩).assignedTaskIds = s.assignedTaskIds ||| taskBit taskId := by
    cases thread <;> rfl
  rw [hset, hbi, h i, holds, BitVec.getLsbD_or, getLsbD_taskBit hlt]
  by_cases hi : taskId = i
  · subst hi
    simp [hfree]
  · simp [hi]

/-- A holder gives its id back. -/
theorem released {next : Nat → Int} (hnext : ∀ i, next i = s.holders i - holds i d.taskId) (hno : ∀ i, 0 ≤ next i)
    (i : Nat) :
    next i = if (s.release d).assignedTaskIds.getLsbD i then 1 else 0 := by
  rw [hnext, h i, State.release]
  cases htaskId : d.taskId with
  | none => simp
  | some taskId =>
    have hset : s.assignedTaskIds.getLsbD taskId = true := by
      have hn := hno taskId
      rw [hnext, h, htaskId, holds, if_pos rfl] at hn
      by_contra hfree
      rw [if_neg hfree] at hn
      omega
    have hlt : taskId < 32 := BitVec.lt_of_getLsbD hset
    simp only [BitVec.getLsbD_and, BitVec.getLsbD_not, getLsbD_taskBit hlt, holds, Option.some.injEq]
    by_cases hi : taskId = i
    · subst hi
      simp [hset, hlt]
    · by_cases hbit : s.assignedTaskIds.getLsbD i = true
      · simp [hi, hbit, BitVec.lt_of_getLsbD hbit]
      · simp [hi, hbit]

end

end Assigned

/-! ### Room for one more

A thread without an id leaves a bit free where there are at most as many active threads as bits. -/

def taken (taskId : Option Nat) : Int := ∑ i ∈ Finset.range 32, holds i taskId

theorem taken_none : taken none = 0 := by
  simp [taken]

theorem taken_le_one (taskId : Option Nat) : taken taskId ≤ 1 := by
  cases taskId with
  | none => simp [taken]
  | some j =>
    simp only [taken, holds, Option.some.injEq, Finset.sum_ite_eq]
    split <;> omega

theorem Worker.taken_le (worker : Worker) : taken worker.taskId ≤ worker.active := by
  cases worker with
  | running d | leaving d => exact taken_le_one d.taskId
  | _ => simp [Worker.taskId, Worker.active, taken_none]

theorem Owner.taken_le {owner : Owner} (h : owner.stage ≠ .over) : taken owner.taskId ≤ owner.active := by
  cases owner with
  | join joiner =>
    cases joiner with
    | leaving | returned => exact absurd rfl h
    | posting numTasksToPost => simp [Owner.taskId, Joiner.taskId, Owner.active, Joiner.active, taken_none]
    | _ => exact taken_le_one _
  | _ => simp [Owner.taskId, Owner.active, taken_none]

theorem State.sum_holders (s : State) :
    ∑ i ∈ Finset.range 32, s.holders i = tally (fun worker => taken worker.taskId) s.workers + taken s.owner.taskId := by
  simp only [holders, Finset.sum_add_distrib, ← tally.sum_range]
  rfl

/-- The bits that are set are fewer than the active threads, one of which has no id. -/
theorem State.sum_holders_lt (hd : s.delegate thread = some ⟨none, assigned⟩) (hstage : s.owner.stage ≠ .over) :
    ∑ i ∈ Finset.range 32, s.holders i < s.threadsActive := by
  have hworkers := tally.sub Worker.active (fun worker => taken worker.taskId) s.workers
  have hsp : ∀ worker ∈ s.workers, 0 ≤ worker.active - taken worker.taskId := by
    intro worker _
    have := worker.taken_le
    omega
  have howner := Owner.taken_le hstage
  rw [sum_holders, threadsActive]
  cases thread with
  | worker w =>
    have hone : 1 - taken none ≤ tally (fun worker => worker.active - taken worker.taskId) s.workers :=
      tally.le_of_mem hsp (mem_of_getElem? (delegate_worker hd))
    rw [taken_none] at hone
    omega
  | joiner =>
    have hrest := tally.nonneg hsp
    rw [delegate_joiner hd]
    simp only [Owner.active, Joiner.active, Owner.taskId, Joiner.taskId, taken_none]
    omega

theorem Assigned.exists_free (h : Assigned s) (hco : Counted s) (hse : Settled s.control)
    (hroom : s.activeWorkers ≤ 32) (hd : s.delegate thread = some ⟨none, assigned⟩) :
    ∃ i < 32, s.assignedTaskIds.getLsbD i = false := by
  by_contra hfu
  push Not at hfu
  have hstage : s.owner.stage ≠ .over := by
    intro ho
    have hno := hco.delegate_of_over hse ho thread
    rw [hd] at hno
    cases hno
  have hsum : ∑ i ∈ Finset.range 32, s.holders i = 32 := by
    rw [Finset.sum_congr rfl (g := fun _ => 1)]
    · simp
    · intro i hi
      rw [h i, if_pos (by simpa using hfu i (Finset.mem_range.mp hi))]
  have hlt := State.sum_holders_lt hd hstage
  have hcou := hco.active
  omega

/-- No more threads than the cap, and one more once the job is joined. -/
structure Within (cap : Nat) (c : Control) : Prop where
  active : c.active ≤ c.threads
  threads : c.threads ≤ cap + 1
  held : c.stage = .held → c.threads ≤ cap

theorem Within.shift {cap : Nat} {c c' : Control} (h : Within cap c) (hshift : Shift c c') : Within cap c' := by
  obtain ⟨hactive, hth, hh⟩ := h
  cases hshift with
  | stay => exact ⟨hactive, hth, hh⟩
  | letIn hcanceled hroom => exact ⟨hroom, hth, hh⟩
  | letOut => exact ⟨(sub_le _ 1).trans hactive, hth, hh⟩
  | join hstage => exact ⟨succ_le_succ hactive, succ_le_succ (hh hstage), nofun⟩
  | joinAtOnce hstage => exact ⟨zero_le _, succ_le_succ (hh hstage), nofun⟩
  | done hstage => exact ⟨zero_le _, hth, nofun⟩
  | cancel | cancelAtOnce | canceled | detach => exact ⟨hactive, hth, nofun⟩

/-! ### Every step of a job of at most 31 workers -/

theorem Owner.taskId_participant {owner : Owner} {delegate : Option JobDelegate}
    (h : owner.participant = some delegate) : owner.taskId = delegate.bind (·.taskId) := by
  rw [participant.eq_def] at h
  split at h
  · cases h
    cases delegate <;> rfl
  · cases h
    rfl
  · cases h

theorem Assigned.effect {s' : State} {a : Action} (h : Assigned s) (hco : Counted s)
    (hse : Settled s.control) (hroom : s.activeWorkers ≤ 32) (hef : Effect s a s') : Assigned s' := by
  cases hef with
  | notifyIgnored | notified | accounted | cancelWaitsOn => exact h
  | notifierPosted n left hn => exact h.frame rfl (State.holders_post _)
  | workerPosted w left hw => exact Assigned.frame (s := s.setWorker w (.posting left)) (h.setWorker hw (by rfl)) rfl (State.holders_post _)
  | joinerPosted left howner => exact Assigned.frame (s := s.setJoiner (.posting left)) (h.setJoiner (by rw [howner]; rfl)) rfl (State.holders_post _)
  | workerRuns _ hw | refused _ _ hw | admitted _ _ hw | workerReturned _ _ hw | letOut _ _ hw | kept _ _ hw =>
    exact h.setWorker hw (by rfl)
  | joinerRuns howner | joinerReturned _ howner | joinWaits _ howner | joinDone _ howner | joinPosts _ howner =>
    exact h.setJoiner (by rw [howner]; rfl)
  | loaded _ hd | reloaded _ _ _ hd => exact h.setDelegate hd rfl
  | exchanged thread spurious hd taskId htaskId =>
    obtain ⟨i, hi, hfree⟩ := h.exists_free hco hse hroom hd
    have hbit : (~~~s.assignedTaskIds).getLsbD i = true := by
      rw [BitVec.getLsbD_not, hfree, decide_eq_true hi]
      rfl
    obtain ⟨hlt, hfound⟩ := countTrailingZeros32_spec hbit
    rw [← htaskId] at hlt hfound
    apply h.exchanged hd hlt
    rw [BitVec.getLsbD_not, decide_eq_true hlt, Bool.true_and] at hfound
    exact Bool.not_eq_true' _ ▸ hfound
  | workerReleased w d hw =>
    intro i
    exact h.released (State.holders_releaseWorker hw) (State.holders_nonneg _) i
  | joinerReleased d howner =>
    intro i
    exact h.released (State.holders_releaseJoiner howner) (State.holders_nonneg _) i
  | waitsOn getMaxConcurrency delegate howner =>
    apply h.setJoiner
    rw [Owner.taskId_participant howner]
    cases delegate <;> rfl
  | firstDone _ howner | firstPosts _ howner | againDone _ _ howner | againRuns _ _ howner =>
    exact h.setJoiner (by rw [Owner.taskId_participant howner]; rfl)
  | cancelWaits howner | cancelAtOnce howner | cancelReturns howner | detached howner =>
    exact h.frame rfl fun i => by simp [State.holders, howner, Owner.taskId]

structure Orderly (s : State) : Prop where
  counted : Counted s
  settled : Settled s.control
  within : Within 31 s.control
  assigned : Assigned s

theorem Orderly.of_run {numWorkerThreads : Nat} (hn : numWorkerThreads < kMaxWorkersPerJob) {as : List Action}
    (hrun : machine.run (State.initial numWorkerThreads) as = some s) : Orderly s := by
  refine Machine.invariant (I := Orderly) ?_ ?_ hrun
  · intro s a s' h hst
    have hef := Effect.of_step hst
    have hroom : s.activeWorkers ≤ 32 := h.within.active.trans h.within.threads
    exact ⟨h.counted.effect hef, h.settled.shift (.effect hef), h.within.shift (.effect hef),
      h.assigned.effect h.counted h.settled hroom hef⟩
  · have hcap : min numWorkerThreads kMaxWorkersPerJob ≤ 31 := by
      simp only [kMaxWorkersPerJob] at hn ⊢
      omega
    exact ⟨.initial _, .initial _, ⟨zero_le _, hcap.trans (by omega), fun _ => hcap⟩, .initial _⟩

/-! ### A job of 32 workers -/

/-- All 32 workers and the joining thread are in `Run`, and each asks for an id. -/
def crowd : List Action :=
  [.notify, .notifyLocked 0 32] ++ replicate 32 (.notifierPosts 0) ++
    (range 32).map (fun w => .canRunFirstTask w 32) ++ [.join 33, .run .joiner] ++
    ((range 32).map Thread.worker ++ [Thread.joiner]).flatMap fun thread =>
      [.loadTaskIds thread, .exchangeTaskIds thread false]

theorem heldTaskIds_crowd : (machine.run (State.initial 32) crowd).map State.heldTaskIds = some (range 33) := by
  decide +kernel

/-- The joining thread gets an id that is not below the number of bits. -/
theorem thirty_third_task_id :
    ∃ s, machine.run (State.initial 32) crowd = some s ∧ ∃ id ∈ s.heldTaskIds, ¬id < kMaxWorkersPerJob := by
  decide

/-- **The task ids of a job are distinct and small exactly when it has fewer workers than bits.** -/
theorem task_ids_unique_iff (numWorkerThreads : Nat) : (∀ as s, machine.run (State.initial numWorkerThreads) as = some s →
      s.heldTaskIds.Nodup ∧ ∀ id ∈ s.heldTaskIds, id < kMaxWorkersPerJob) ↔ numWorkerThreads < kMaxWorkersPerJob := by
  constructor
  · intro h
    by_contra hge
    have hinitial : State.initial numWorkerThreads = State.initial 32 := by
      simp only [State.initial, kMaxWorkersPerJob] at hge ⊢
      rw [min_eq_right (by omega), min_self]
    obtain ⟨s, hrun, hheld⟩ := Option.map_eq_some_iff.mp heldTaskIds_crowd
    rw [← hinitial] at hrun
    have hsmall := (h crowd s hrun).2 32
    rw [hheld] at hsmall
    exact absurd (hsmall (by decide)) (by decide)
  · intro hn as s hrun
    exact (Orderly.of_run hn hrun).assigned.unique

end V8Multithread.Platform.DefaultJob
