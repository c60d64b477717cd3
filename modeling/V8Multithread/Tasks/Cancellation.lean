import V8Multithread.Base.Tally
import V8Multithread.Tasks.CancelableTask

/-! Cancelled tasks never run.

A task leaves `kWaiting` once: it is run, claimed by its destructor, or cancelled. What the manager
lists are the tasks that are neither cancelled nor destroyed, because each step that ends that state
of a task drops its entry. When `CancelAndWait` finds nothing listed, every task has therefore been
cancelled or destroyed, and a task that registers later is cancelled at once. -/
namespace V8Multithread.Tasks
open List Manager

namespace Cancelable

def Live (t : Cancelable) : Prop := t.status ≠ .kCanceled ∧ t.phase ≠ .destroyed

structure Sound (t : Cancelable) : Prop where
  waiting : t.status = .kWaiting → t.runs = 0 ∧ t.phase = .idle
  canceled : t.status = .kCanceled → t.runs = 0 ∧ (t.phase = .idle ∨ t.phase = .destroyed)
  once : t.runs ≤ 1
  invalid : t.id = kInvalidTaskId → t.status = .kCanceled

inductive Moves : Cancelable → Cancelable → Prop where
  | stay (t : Cancelable) : Moves t t
  | runs (t : Cancelable) (hstatus : t.status = .kWaiting) :
    Moves t {t with status := .kRunning, phase := .running, runs := t.runs + 1}
  | bodyEnds (t : Cancelable) (hphase : t.phase = .running) : Moves t {t with phase := .idle}
  | claimed (t : Cancelable) (hstatus : t.status ≠ .kCanceled) (hphase : t.phase = .idle) :
    Moves t {t with status := .kRunning, phase := .destroying}
  | freed (t : Cancelable) (hstatus : t.status = .kCanceled) : Moves t {t with phase := .destroyed}

inductive Drops : Cancelable → Cancelable → Prop where
  | canceled (t : Cancelable) (hstatus : t.status = .kWaiting) : Drops t {t with status := .kCanceled}
  | removed (t : Cancelable) (hphase : t.phase = .destroying) : Drops t {t with phase := .destroyed}

variable {t t' : Cancelable}

theorem Moves.sound (h : Moves t t') (hso : t.Sound) : t'.Sound := by
  obtain ⟨hwa, hcanceled, ho, hin⟩ := hso
  cases h with
  | stay => exact ⟨hwa, hcanceled, ho, hin⟩
  | runs hstatus =>
    have hru := (hwa hstatus).1
    refine ⟨nofun, nofun, by simp [hru], ?_⟩
    intro hid
    rw [hin hid] at hstatus
    cases hstatus
  | bodyEnds =>
    refine ⟨fun hstatus => ⟨(hwa hstatus).1, rfl⟩, fun hstatus => ⟨(hcanceled hstatus).1, .inl rfl⟩, ho, hin⟩
  | claimed hstatus => exact ⟨nofun, nofun, ho, fun hid => absurd (hin hid) hstatus⟩
  | freed hstatus =>
    refine ⟨?_, fun _ => ⟨(hcanceled hstatus).1, .inr rfl⟩, ho, hin⟩
    intro hwai
    exact absurd (hstatus.symm.trans hwai) (by decide)

theorem Drops.sound (h : Drops t t') (hso : t.Sound) : t'.Sound := by
  obtain ⟨hwa, hcanceled, ho, hin⟩ := hso
  cases h with
  | canceled hstatus =>
    obtain ⟨hru, hphase⟩ := hwa hstatus
    exact ⟨nofun, fun _ => ⟨hru, .inl hphase⟩, ho, fun _ => rfl⟩
  | removed hphase =>
    refine ⟨?_, fun hstatus => ⟨(hcanceled hstatus).1, .inr rfl⟩, ho, hin⟩
    intro hstatus
    have hidl := (hwa hstatus).2
    rw [hphase] at hidl
    cases hidl

theorem Moves.live_iff (h : Moves t t') (hso : t.Sound) : t'.Live ↔ t.Live := by
  cases h with
  | stay => exact Iff.rfl
  | runs hstatus =>
    have hphase := (hso.waiting hstatus).2
    simp [Live, hstatus, hphase]
  | bodyEnds hphase => simp [Live, hphase]
  | claimed hstatus hphase => simp [Live, hstatus, hphase]
  | freed hstatus => simp [Live, hstatus]

theorem Drops.live (h : Drops t t') (hso : t.Sound) : t.Live := by
  cases h with
  | canceled hstatus =>
    have hphase := (hso.waiting hstatus).2
    simp [Live, hstatus, hphase]
  | removed hphase =>
    refine ⟨?_, by simp [hphase]⟩
    intro hstatus
    have := (hso.canceled hstatus).2
    simp [hphase] at this

theorem Drops.not_live (h : Drops t t') : ¬t'.Live := by
  cases h with
  | canceled | removed => simp [Live]

theorem Moves.id_eq (h : Moves t t') : t'.id = t.id := by
  cases h <;> rfl

theorem Drops.id_eq (h : Drops t t') : t'.id = t.id := by
  cases h <;> rfl

/-- A cancelled task stays cancelled. -/
theorem Moves.stays_canceled (h : Moves t t') (hstatus : t.status = .kCanceled) : t'.status = .kCanceled := by
  cases h with
  | stay | bodyEnds | freed => exact hstatus
  | runs hwa => exact absurd (hstatus.symm.trans hwa) (by decide)
  | claimed hne => exact absurd hstatus hne

theorem Drops.stays_canceled (h : Drops t t') (hstatus : t.status = .kCanceled) : t'.status = .kCanceled := by
  cases h with
  | canceled => rfl
  | removed => exact hstatus

/-! ### The functions of a task -/

theorem moves_run (t : Cancelable) : Moves t t.run := by
  rw [run, tryRun, compareExchangeStatus]
  by_cases hstatus : t.status = .kWaiting
  · rw [if_pos hstatus]
    exact .runs t hstatus
  · rw [if_neg hstatus]
    exact .stay t

theorem moves_destroy (hphase : t.phase = .idle) : Moves t t.destroy := by
  rw [destroy, tryRun, compareExchangeStatus]
  cases hstatus : t.status with
  | kWaiting =>
    exact .claimed t (by simp [hstatus]) hphase
  | kRunning =>
    have hcl := Moves.claimed t (by simp [hstatus]) hphase
    rw [← hstatus] at hcl
    exact hcl
  | kCanceled =>
    exact .freed t hstatus

theorem cancel_eq (h : t.cancel = (t', true)) : t.status = .kWaiting ∧ t' = {t with status := .kCanceled} := by
  simp only [cancel, compareExchangeStatus] at h
  by_cases hstatus : t.status = .kWaiting
  · rw [if_pos hstatus] at h
    cases h
    exact ⟨hstatus, rfl⟩
  · rw [if_neg hstatus] at h
    cases h

theorem drops_cancel (h : t.cancel = (t', true)) : Drops t t' := by
  obtain ⟨hstatus, rfl⟩ := cancel_eq h
  exact .canceled t hstatus

end Cancelable

/-! ### The manager -/

/-- The table lists the live tasks, each under its own id. -/
structure Consistent (m : Manager) : Prop where
  sound : ∀ t ∈ m.tasks, t.Sound
  bound : ∀ t ∈ m.tasks, t.id ≤ m.taskIdCounter
  ids : ∀ (j k : Nat) (t u : Cancelable), m.tasks[j]? = some t → m.tasks[k]? = some u → t.id = u.id →
    t.id ≠ kInvalidTaskId → j = k
  table : ∀ id k, (id, k) ∈ m.cancelableTasks ↔ ∃ t, m.tasks[k]? = some t ∧ t.id = id ∧ t.Live

inductive Effect (m m' : Manager) : Prop where
  | stay (htasks : m'.tasks = m.tasks) (hcounter : m'.taskIdCounter = m.taskIdCounter)
    (htable : m'.cancelableTasks = m.cancelableTasks)
  | registered (hcanceled : m.canceled = false)
    (htasks : m'.tasks = m.tasks ++ [⟨m.taskIdCounter + 1, .kWaiting, .idle, 0⟩])
    (hcounter : m'.taskIdCounter = m.taskIdCounter + 1)
    (htable : m'.cancelableTasks = m.cancelableTasks ++ [(m.taskIdCounter + 1, m.tasks.length)])
  | refused (hcanceled : m.canceled = true) (htasks : m'.tasks = m.tasks ++ [⟨kInvalidTaskId, .kCanceled, .idle, 0⟩])
    (hcounter : m'.taskIdCounter = m.taskIdCounter) (htable : m'.cancelableTasks = m.cancelableTasks)
  | moved (k : Nat) (t t' : Cancelable) (ht : m.tasks[k]? = some t) (hmoves : t.Moves t')
    (htasks : m'.tasks = m.tasks.set k t') (hcounter : m'.taskIdCounter = m.taskIdCounter)
    (htable : m'.cancelableTasks = m.cancelableTasks)
  | dropped (k : Nat) (t t' : Cancelable) (ht : m.tasks[k]? = some t) (hdrops : t.Drops t')
    (htasks : m'.tasks = m.tasks.set k t') (hcounter : m'.taskIdCounter = m.taskIdCounter)
    (htable : m'.cancelableTasks = m.cancelableTasks.filter fun entry => entry.1 ≠ t.id)

namespace Consistent
variable {m m' : Manager} {k : Nat} {t t' : Cancelable}

theorem initial : Consistent Manager.initial := by
  constructor
  · exact nofun
  · exact nofun
  · intro j k t u hj
    cases hj
  · intro id k
    constructor
    · exact nofun
    · intro h
      obtain ⟨t, ht, -⟩ := h
      cases ht

theorem sound_of (h : Consistent m) (ht : m.tasks[k]? = some t) : t.Sound := h.sound t (List.mem_of_getElem? ht)

variable {l : List Cancelable} {u : Cancelable}

theorem getElem?_set_self (ht : l[k]? = some t) (u : Cancelable) : (l.set k u)[k]? = some u := by
  obtain ⟨hk, -⟩ := List.getElem?_eq_some_iff.mp ht
  rw [List.getElem?_set, if_pos rfl, if_pos hk]

/-- One task changes and keeps its id. -/
theorem changed (h : Consistent m) (ht : m.tasks[k]? = some t) (hso : t'.Sound) (hid : t'.id = t.id)
    (htasks : m'.tasks = m.tasks.set k t') (hcounter : m'.taskIdCounter = m.taskIdCounter)
    (htable : ∀ id j, (id, j) ∈ m'.cancelableTasks ↔ ∃ u, (m.tasks.set k t')[j]? = some u ∧ u.id = id ∧ u.Live) :
    Consistent m' := by
  constructor
  · intro u hu
    rw [htasks] at hu
    obtain hu | rfl := mem_or_eq_of_mem_set hu
    · exact h.sound u hu
    · exact hso
  · intro u hu
    rw [htasks] at hu
    rw [hcounter]
    obtain hu | rfl := mem_or_eq_of_mem_set hu
    · exact h.bound u hu
    · rw [hid]
      exact h.bound t (List.mem_of_getElem? ht)
  · intro i j u v hu hv huv hne
    rw [htasks] at hu hv
    obtain ⟨rfl, rfl⟩ | ⟨-, hbefore⟩ := getElem?_set_cases hu
    · obtain ⟨rfl, rfl⟩ | ⟨-, hafter⟩ := getElem?_set_cases hv
      · rfl
      · exact h.ids i j t v ht hafter (hid.symm.trans huv) (hid ▸ hne)
    · obtain ⟨rfl, rfl⟩ | ⟨-, hafter⟩ := getElem?_set_cases hv
      · exact h.ids i j u t hbefore ht (huv.trans hid) hne
      · exact h.ids i j u v hbefore hafter huv hne
  · rw [htasks]
    exact htable

theorem getElem?_append_cases {j : Nat} (hu : (l ++ [t])[j]? = some u) : l[j]? = some u ∨ (j = l.length ∧ u = t) := by
  rw [List.getElem?_append] at hu
  split at hu
  · exact .inl hu
  · next hge =>
    obtain ⟨hj, hu⟩ := List.getElem?_eq_some_iff.mp hu
    simp only [length_singleton] at hj
    refine .inr ⟨by omega, ?_⟩
    simpa using hu.symm

theorem getElem?_append_of_some {j : Nat} (hu : l[j]? = some u) : (l ++ [t])[j]? = some u := by
  obtain ⟨hj, -⟩ := List.getElem?_eq_some_iff.mp hu
  rw [List.getElem?_append_left hj, hu]

/-- A new task has an id of its own, or none. -/
theorem appended (h : Consistent m) (htasks : m'.tasks = m.tasks ++ [t]) (hso : t.Sound)
    (hcounter : m.taskIdCounter ≤ m'.taskIdCounter) (hbo : t.id ≤ m'.taskIdCounter)
    (hid : t.id = kInvalidTaskId ∨ m.taskIdCounter < t.id)
    (htable : ∀ id k, (id, k) ∈ m'.cancelableTasks ↔
      (id, k) ∈ m.cancelableTasks ∨ (id = t.id ∧ k = m.tasks.length ∧ t.Live)) : Consistent m' := by
  have hfresh : ∀ {j : Nat} {u : Cancelable}, m.tasks[j]? = some u → t.id = u.id → t.id = kInvalidTaskId := by
    intro j u hu heq
    have hle := h.bound u (List.mem_of_getElem? hu)
    exact hid.resolve_right (by omega)
  constructor
  · intro u hu
    rw [htasks, mem_append, mem_singleton] at hu
    obtain hu | rfl := hu
    · exact h.sound u hu
    · exact hso
  · intro u hu
    rw [htasks, mem_append, mem_singleton] at hu
    obtain hu | rfl := hu
    · exact (h.bound u hu).trans hcounter
    · exact hbo
  · intro i j u v hu hv huv hne
    rw [htasks] at hu hv
    obtain hold | ⟨hi, rfl⟩ := getElem?_append_cases hu
    · obtain hold' | ⟨hj, rfl⟩ := getElem?_append_cases hv
      · exact h.ids i j u v hold hold' huv hne
      · exact absurd (huv.trans (hfresh hold huv.symm)) hne
    · obtain hold' | ⟨hj, rfl⟩ := getElem?_append_cases hv
      · exact absurd (hfresh hold' huv) hne
      · rw [hi, hj]
  · intro id k
    rw [htable, h.table, htasks]
    constructor
    · intro hl
      obtain ⟨u, hu, hrest⟩ | ⟨rfl, rfl, hlive⟩ := hl
      · exact ⟨u, getElem?_append_of_some hu, hrest⟩
      · exact ⟨t, by simp, rfl, hlive⟩
    · intro hl
      obtain ⟨u, hu, heq, hlive⟩ := hl
      obtain hu | ⟨hk, rfl⟩ := getElem?_append_cases hu
      · exact .inl ⟨u, hu, heq, hlive⟩
      · exact .inr ⟨heq.symm, hk, hlive⟩

theorem effect (h : Consistent m) (hef : Effect m m') : Consistent m' := by
  cases hef with
  | stay htasks hcounter htable =>
    obtain ⟨hso, hbo, hids, hl⟩ := h
    rw [← htasks] at hso hbo hids hl
    rw [← hcounter] at hbo
    rw [← htable] at hl
    exact ⟨hso, hbo, hids, hl⟩
  | registered hcanceled htasks hcounter htable =>
    apply h.appended htasks
    · exact ⟨fun _ => ⟨rfl, rfl⟩, nofun, Nat.zero_le 1, nofun⟩
    · omega
    · simp [hcounter]
    · simp
    · intro id k
      rw [htable, mem_append, mem_singleton, Prod.mk.injEq]
      simp [Cancelable.Live]
  | refused hcanceled htasks hcounter htable =>
    apply h.appended htasks
    · exact ⟨nofun, fun _ => ⟨rfl, .inl rfl⟩, Nat.zero_le 1, fun _ => rfl⟩
    · omega
    · exact Nat.zero_le _
    · exact .inl rfl
    · intro id k
      rw [htable]
      simp [Cancelable.Live]
  | moved k t t' ht hmoves htasks hcounter htable =>
    have hso := h.sound_of ht
    refine h.changed ht (hmoves.sound hso) hmoves.id_eq htasks hcounter fun id j => ?_
    rw [htable, h.table]
    constructor
    · intro hl
      obtain ⟨u, hu, hid, hlive⟩ := hl
      by_cases hj : j = k
      · subst hj
        cases ht.symm.trans hu
        exact ⟨t', getElem?_set_self ht t', hmoves.id_eq.trans hid, (hmoves.live_iff hso).mpr hlive⟩
      · exact ⟨u, by rw [List.getElem?_set_ne (Ne.symm hj), hu], hid, hlive⟩
    · intro hl
      obtain ⟨u, hu, hid, hlive⟩ := hl
      obtain ⟨rfl, rfl⟩ | ⟨-, hu⟩ := getElem?_set_cases hu
      · exact ⟨t, ht, hmoves.id_eq.symm.trans hid, (hmoves.live_iff hso).mp hlive⟩
      · exact ⟨u, hu, hid, hlive⟩
  | dropped k t t' ht hdrops htasks hcounter htable =>
    have hso := h.sound_of ht
    refine h.changed ht (hdrops.sound hso) hdrops.id_eq htasks hcounter fun id j => ?_
    rw [htable, mem_filter, h.table]
    constructor
    · intro hl
      obtain ⟨⟨u, hu, hid, hlive⟩, hne⟩ := hl
      have hj : j ≠ k := by
        rintro rfl
        cases ht.symm.trans hu
        simp [hid] at hne
      exact ⟨u, by rw [List.getElem?_set_ne (Ne.symm hj), hu], hid, hlive⟩
    · intro hl
      obtain ⟨u, hu, hid, hlive⟩ := hl
      obtain ⟨rfl, rfl⟩ | ⟨hne, hu⟩ := getElem?_set_cases hu
      · exact absurd hlive hdrops.not_live
      · refine ⟨⟨u, hu, hid, hlive⟩, ?_⟩
        have hva : t.id ≠ kInvalidTaskId := fun hid => (hdrops.live hso).1 (hso.invalid hid)
        -- another task has another id
        have hids : id ≠ t.id := by
          intro heq
          exact hne (h.ids j k u t hu ht (hid.trans heq) (by rw [hid, heq]; exact hva))
        simpa using hids

end Consistent

/-- What a step does to the calls of `CancelAndWait`. -/
inductive Calls (m m' : Manager) : Prop where
  | same (hcanceled : m'.canceled = m.canceled) (hcallers : m'.callers = m.callers)
  /-- A call begins or goes on, and returns only where nothing is listed. -/
  | begun (caller : Caller) (hcanceled : m'.canceled = true) (hcallers : m'.callers = m.callers ++ [caller])
    (hreturned : caller = .returned → m'.cancelableTasks = [])
  | went (c : Nat) (caller : Caller) (hcanceled : m'.canceled = m.canceled)
    (hcallers : m'.callers = m.callers.set c caller) (hreturned : caller = .returned → m'.cancelableTasks = [])

/-! ### Each step has one of the effects -/

structure Does (m m' : Manager) : Prop where
  effect : Effect m m'
  calls : Calls m m'

variable {k id : Nat} {m m' : Manager} {as : List Action}

namespace Does
variable {m m' : Manager}

theorem of_locked {next : Option Manager} (h : m.locked next = some m') : next = some m' := by
  rw [locked] at h
  split at h
  · exact h
  · cases h

/-- A step of one task, which has to be there and to be ready for it. -/
theorem task_cases {ready : Cancelable → Prop} [DecidablePred ready] {next : Cancelable → Manager}
    (h : (match m.tasks[k]? with | some t => if ready t then some (next t) else none | none => none) = some m') :
    ∃ t, m.tasks[k]? = some t ∧ ready t ∧ next t = m' := by
  split at h
  · next t ht =>
    split at h
    · next hre => exact ⟨t, ht, hre, Option.some.inj h⟩
    · cases h
  · cases h

theorem stay (htasks : m'.tasks = m.tasks) (hcounter : m'.taskIdCounter = m.taskIdCounter)
    (htable : m'.cancelableTasks = m.cancelableTasks) (hcanceled : m'.canceled = m.canceled)
    (hcallers : m'.callers = m.callers) : Does m m' :=
  ⟨.stay htasks hcounter htable, .same hcanceled hcallers⟩

theorem of_register (m : Manager) : Does m m.register := by
  simp only [Manager.register]
  split
  · next hcanceled => exact ⟨.refused hcanceled rfl rfl rfl, .same rfl rfl⟩
  · next hcanceled => exact ⟨.registered (Bool.not_eq_true _ ▸ hcanceled) rfl rfl rfl, .same rfl rfl⟩

theorem mem_of_lookup {l : List (Nat × Nat)} (h : l.lookup id = some k) : (id, k) ∈ l := by
  obtain ⟨before, after, rfl, -⟩ := lookup_eq_some_iff.mp h
  exact mem_append_right before mem_cons_self

/-- The entry and the task are dropped together, or nothing happens, whoever has the mutex. -/
theorem of_cancelTask (hm : Consistent m) (hl : m.cancelableTasks.lookup id = some k) (pass : Option Pass) :
    Does m (({m with holder := pass} : Manager).cancelTask id k).1 := by
  obtain ⟨t, ht, hid, -⟩ := (hm.table id k).mp (mem_of_lookup hl)
  simp only [Manager.cancelTask, ht]
  split
  · next t' hca =>
    subst hid
    exact ⟨.dropped k t t' ht (Cancelable.drops_cancel hca) rfl rfl rfl, .same rfl rfl⟩
  · exact .stay rfl rfl rfl rfl rfl

theorem of_tryAbort (hm : Consistent m) (id : Nat) : Does m (m.tryAbort id).1 := by
  rw [Manager.tryAbort]
  split
  · next k hl =>
    have hca := of_cancelTask hm hl m.holder
    split
    all_goals
      next heq =>
      rw [heq] at hca
      exact hca
  · exact .stay rfl rfl rfl rfl rfl

theorem of_cancelLoop (m : Manager) (c : Nat) : Does m (m.cancelLoop c) := by
  rw [cancelLoop]
  split
  · next hem => exact ⟨.stay rfl rfl rfl, .went c .returned rfl rfl fun _ => List.isEmpty_iff.mp hem⟩
  · exact ⟨.stay rfl rfl rfl, .went c .canceling rfl rfl nofun⟩

theorem of_cancelAndWait (m : Manager) : Does m m.cancelAndWait := by
  rw [Manager.cancelAndWait, cancelLoop]
  split
  · next hem =>
    exact ⟨.stay rfl rfl rfl, .begun .returned rfl (by simp [setCaller]) fun _ => List.isEmpty_iff.mp hem⟩
  · exact ⟨.stay rfl rfl rfl, .begun .canceling rfl (by simp [setCaller]) nofun⟩

theorem of_next (hm : Consistent m) (h : m.next id = some m') : Does m m' := by
  rw [Manager.next] at h
  split at h
  · next pass hh =>
    split at h
    · dsimp only at h
      split at h
      · next k hl =>
        cases h
        exact of_cancelTask hm hl _
      · cases h
        exact .stay rfl rfl rfl rfl rfl
    · cases h
  · cases h

theorem of_passEnds (h : m.passEnds = some m') : Does m m' := by
  rw [Manager.passEnds] at h
  split at h
  · cases h
    exact .stay rfl rfl rfl rfl rfl
  · next c hh =>
    cases h
    refine ⟨.stay rfl rfl rfl, .went c _ rfl rfl ?_⟩
    split
    · next hem => exact fun _ => List.isEmpty_iff.mp hem
    · exact nofun
  · cases h

theorem of_step (hm : Consistent m) {a : Action} (h : m.step a = some m') : Does m m' := by
  cases a with
  | register =>
    cases of_locked h
    exact of_register m
  | run k =>
    obtain ⟨t, ht, -, rfl⟩ := task_cases h
    exact ⟨.moved k t t.run ht t.moves_run rfl rfl rfl, .same rfl rfl⟩
  | bodyEnds k =>
    obtain ⟨t, ht, hphase, rfl⟩ := task_cases h
    exact ⟨.moved k t _ ht (.bodyEnds t hphase) rfl rfl rfl, .same rfl rfl⟩
  | destroy k =>
    obtain ⟨t, ht, hphase, rfl⟩ := task_cases h
    exact ⟨.moved k t t.destroy ht (Cancelable.moves_destroy hphase) rfl rfl rfl, .same rfl rfl⟩
  | removeFinishedTask k =>
    obtain ⟨t, ht, hphase, rfl⟩ := task_cases (of_locked h)
    exact ⟨.dropped k t _ ht (.removed t hphase) rfl rfl rfl, .same rfl rfl⟩
  | tryAbort id =>
    have hab := of_locked h
    split at hab
    · cases hab
    · cases hab
      exact of_tryAbort hm id
  | tryAbortAll =>
    cases of_locked h
    rw [Manager.tryAbortAll]
    split <;> exact .stay rfl rfl rfl rfl rfl
  | cancelAndWait =>
    cases of_locked h
    exact of_cancelAndWait m
  | wakes c =>
    have hwa := of_locked h
    rw [Manager.wakes] at hwa
    split at hwa
    · cases hwa
      exact of_cancelLoop m c
    · cases hwa
  | next => exact of_next hm h
  | passEnds => exact of_passEnds h

end Does

theorem Consistent.step {a : Action} (h : Consistent m) (hst : m.step a = some m') : Consistent m' :=
  h.effect (Does.of_step h hst).effect

/-! ### A cancelled task stays cancelled -/

def Manager.Canceled (m : Manager) (k : Nat) : Prop := ∃ t, m.tasks[k]? = some t ∧ t.status = .kCanceled

theorem Manager.Canceled.effect (h : m.Canceled k) (hef : Effect m m') : m'.Canceled k := by
  obtain ⟨t, ht, hstatus⟩ := h
  have hset : ∀ (j : Nat) (u u' : Cancelable), m.tasks[j]? = some u → m'.tasks = m.tasks.set j u' →
      (u.status = .kCanceled → u'.status = .kCanceled) → m'.Canceled k := by
    intro j u u' hu htasks hke
    rw [Canceled, htasks]
    by_cases hj : j = k
    · subst hj
      cases ht.symm.trans hu
      exact ⟨u', Consistent.getElem?_set_self hu u', hke hstatus⟩
    · exact ⟨t, by rw [List.getElem?_set_ne hj, ht], hstatus⟩
  cases hef with
  | stay htasks => exact ⟨t, by rw [htasks, ht], hstatus⟩
  | registered _ htasks | refused _ htasks =>
    exact ⟨t, by rw [htasks]; exact Consistent.getElem?_append_of_some ht, hstatus⟩
  | moved j u u' hu hmoves htasks => exact hset j u u' hu htasks hmoves.stays_canceled
  | dropped j u u' hu hdrops htasks => exact hset j u u' hu htasks hdrops.stays_canceled

/-- It has never run, and never will. -/
theorem Manager.Canceled.never_runs (h : m.Canceled k) (hm : Consistent m) (hrun : machine.run m as = some m')
    {t : Cancelable} (ht : m'.tasks[k]? = some t) : t.runs = 0 := by
  have hbo : Consistent m' ∧ m'.Canceled k :=
    Machine.invariant (I := fun m => Consistent m ∧ m.Canceled k)
      (fun _ _ _ h hst => ⟨h.1.step hst, h.2.effect (Does.of_step h.1 hst).effect⟩) ⟨hm, h⟩ hrun
  obtain ⟨hco, u, hu, hstatus⟩ := hbo
  cases ht.symm.trans hu
  exact ((hco.sound_of ht).canceled hstatus).1

theorem Manager.tryAbort_canceled (hm : Consistent m) (h : m.tryAbort id = (m', .kTaskAborted)) :
    ∃ k t, m.tasks[k]? = some t ∧ t.id = id ∧ id ≠ kInvalidTaskId ∧ m'.Canceled k := by
  rw [tryAbort] at h
  split at h
  · next k hl =>
    obtain ⟨t, ht, hid, hlive⟩ := (hm.table id k).mp (Does.mem_of_lookup hl)
    split at h
    · next m₁ heq =>
      cases h
      rw [cancelTask, ht] at heq
      dsimp only at heq
      split at heq
      · next t' hca =>
        cases heq
        refine ⟨k, t, ht, hid, fun hin => hlive.1 ((hm.sound_of ht).invalid (hid.trans hin)), ?_⟩
        refine ⟨t', Consistent.getElem?_set_self ht t', ?_⟩
        obtain ⟨-, rfl⟩ := Cancelable.cancel_eq hca
        rfl
      · cases heq
    · cases h
  · cases h

theorem Manager.register_canceled (h : m.canceled) : m.register.Canceled m.tasks.length := by
  refine ⟨⟨kInvalidTaskId, .kCanceled, .idle, 0⟩, ?_, rfl⟩
  simp only [register, h, if_true]
  exact List.getElem?_concat_length

/-! ### `CancelAndWait` returns -/

/-- A call of `CancelAndWait` has begun by setting `canceled`, and has returned with nothing listed. -/
structure Called (m : Manager) : Prop where
  canceled : m.callers ≠ [] → m.canceled = true
  empty : .returned ∈ m.callers → m.cancelableTasks = []

namespace Called
variable {m m' : Manager}

theorem initial : Called Manager.initial := by
  constructor
  · intro hne
    exact absurd rfl hne
  · intro hmem
    cases hmem

/-- Nothing is listed again. -/
theorem stays_empty (hcanceled : m.canceled) (hem : m.cancelableTasks = []) (hef : Effect m m') :
    m'.cancelableTasks = [] := by
  cases hef with
  | stay _ _ htable | refused _ _ _ htable | moved _ _ _ _ _ _ _ htable => rw [htable, hem]
  | registered hnot =>
    rw [hcanceled] at hnot
    cases hnot
  | dropped k t t' ht hdrops htasks hcounter htable =>
    rw [htable, hem]
    rfl

theorem calls (h : Called m) (hef : Effect m m') (hca : Calls m m') : Called m' := by
  have hem (hmem : .returned ∈ m.callers) : m'.cancelableTasks = [] :=
    stays_empty (h.canceled (ne_nil_of_mem hmem)) (h.empty hmem) hef
  cases hca with
  | same hcanceled hcallers =>
    constructor
    · rw [hcanceled, hcallers]
      exact h.canceled
    · rw [hcallers]
      exact hem
  | begun caller hcanceled hcallers hreturned =>
    constructor
    · exact fun _ => hcanceled
    · intro hmem
      rw [hcallers, mem_append, mem_singleton] at hmem
      obtain hbefore | heq := hmem
      · exact hem hbefore
      · exact hreturned heq.symm
  | went c caller hcanceled hcallers hreturned =>
    constructor
    · intro hne
      rw [hcallers] at hne
      rw [hcanceled]
      refine h.canceled fun hnil => hne ?_
      rw [hnil, set_nil]
    · intro hmem
      rw [hcallers] at hmem
      obtain hbefore | heq := mem_or_eq_of_mem_set hmem
      · exact hem hbefore
      · exact hreturned heq.symm

end Called

theorem Calls.canceled (h : Calls m m') (hcanceled : m.canceled) : m'.canceled := by
  cases h with
  | same heq | went _ _ heq => rw [heq, hcanceled]
  | begun caller heq => exact heq

/-! ### Every run -/

structure Orderly (m : Manager) : Prop where
  consistent : Consistent m
  called : Called m

theorem Orderly.step {a : Action} (h : Orderly m) (hst : m.step a = some m') : Orderly m' :=
  have hdo := Does.of_step h.consistent hst
  ⟨h.consistent.effect hdo.effect, h.called.calls hdo.effect hdo.calls⟩

theorem Orderly.of_run (hrun : machine.run Manager.initial as = some m) : Orderly m :=
  Machine.invariant (fun _ _ _ h hst => h.step hst) ⟨.initial, .initial⟩ hrun

structure Quiet (m : Manager) : Prop where
  consistent : Consistent m
  canceled : m.canceled = true
  empty : m.cancelableTasks = []

theorem Orderly.quiet (h : Orderly m) (hreturned : .returned ∈ m.callers) : Quiet m :=
  ⟨h.consistent, h.called.canceled (ne_nil_of_mem hreturned), h.called.empty hreturned⟩

theorem Quiet.of_run (h : Quiet m) (hrun : machine.run m as = some m') : Quiet m' := by
  refine Machine.invariant (I := Quiet) ?_ h hrun
  intro m a m' h hst
  have hdo := Does.of_step h.consistent hst
  exact ⟨h.consistent.effect hdo.effect, hdo.calls.canceled h.canceled,
    Called.stays_empty h.canceled h.empty hdo.effect⟩

/-- A task in its body is listed. -/
theorem Quiet.not_running (h : Quiet m) {t : Cancelable} (ht : t ∈ m.tasks) : t.phase ≠ .running := by
  intro hphase
  obtain ⟨k, hk⟩ := List.getElem?_of_mem ht
  have hlive : t.Live := by
    refine ⟨fun hstatus => ?_, by simp [hphase]⟩
    have hca := ((h.consistent.sound t ht).canceled hstatus).2
    simp [hphase] at hca
  have hl := (h.consistent.table t.id k).mpr ⟨t, hk, rfl, hlive⟩
  rw [h.empty] at hl
  cases hl

/-- **Cancelled tasks never run.** At every moment of every run: each body was entered at most once;
the table lists the tasks that are neither cancelled nor destroyed, under their ids; a task that
`TryAbort` reports as aborted, and one that registers after `CancelAndWait` began, never runs; and once
a call of `CancelAndWait` has returned, no task is in its body, then or later. -/
theorem cancelled_never_runs (as : List Action) (m : Manager) (hrun : machine.run Manager.initial as = some m) :
    (∀ t ∈ m.tasks, t.runs ≤ 1) ∧ (∀ id k, (id, k) ∈ m.cancelableTasks ↔ ∃ t, m.tasks[k]? = some t ∧ t.id = id ∧ t.Live) ∧
      (∀ id m', m.tryAbort id = (m', .kTaskAborted) → ∃ (k : Nat) (t : Cancelable), m.tasks[k]? = some t ∧ t.id = id ∧
        ∀ (bs : List Action) (m'' : Manager) (u : Cancelable), machine.run m' bs = some m'' →
          m''.tasks[k]? = some u → u.runs = 0) ∧
      (m.callers ≠ [] → ∀ (bs : List Action) (m' : Manager) (u : Cancelable), machine.run m.register bs = some m' →
        m'.tasks[m.tasks.length]? = some u → u.runs = 0) ∧
      (.returned ∈ m.callers → ∀ bs m', machine.run m bs = some m' → ∀ t ∈ m'.tasks, t.phase ≠ .running) := by
  have horderly := Orderly.of_run hrun
  have hm := horderly.consistent
  refine ⟨fun t ht => (hm.sound t ht).once, hm.table, ?_, ?_, ?_⟩
  · intro id m' habort
    obtain ⟨k, t, ht, hid, -, hcanceled⟩ := tryAbort_canceled hm habort
    have hm' : Consistent m' := by
      have hdoes := Does.of_tryAbort hm id
      rw [habort] at hdoes
      exact hm.effect hdoes.effect
    exact ⟨k, t, ht, hid, fun bs m'' u hlater hu => hcanceled.never_runs hm' hlater hu⟩
  · intro hcallers bs m' u hlater hu
    have hcanceled := register_canceled (horderly.called.canceled hcallers)
    exact hcanceled.never_runs (hm.effect (Does.of_register m).effect) hlater hu
  · intro hreturned bs m' hlater t ht
    exact ((horderly.quiet hreturned).of_run hlater).not_running ht

/-- One task runs while another is cancelled; `CancelAndWait` returns when the first is destroyed. -/
theorem cancelled_never_runs_waited :
    machine.run Manager.initial [.register, .register, .run 0, .cancelAndWait, .next 1, .next 2, .passEnds,
      .run 1, .bodyEnds 0, .destroy 0, .removeFinishedTask 0, .wakes 0] =
        some ⟨[⟨1, .kRunning, .destroyed, 1⟩, ⟨2, .kCanceled, .idle, 0⟩], 2, [], true, none, [.returned]⟩ ∧
      ∀ bs m', machine.run ⟨[⟨1, .kRunning, .destroyed, 1⟩, ⟨2, .kCanceled, .idle, 0⟩], 2, [], true, none,
        [.returned]⟩ bs = some m' → ∀ t ∈ m'.tasks, t.phase ≠ .running := by
  have hrun : machine.run Manager.initial [.register, .register, .run 0, .cancelAndWait, .next 1, .next 2, .passEnds,
      .run 1, .bodyEnds 0, .destroy 0, .removeFinishedTask 0, .wakes 0] =
        some ⟨[⟨1, .kRunning, .destroyed, 1⟩, ⟨2, .kCanceled, .idle, 0⟩], 2, [], true, none, [.returned]⟩ := by
    decide
  exact ⟨hrun, (cancelled_never_runs _ _ hrun).2.2.2.2 mem_cons_self⟩

end V8Multithread.Tasks
