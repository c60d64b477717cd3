import V8Multithread.Platform.DefaultJob

/-! The outcomes of a step of a job.

Each action of the model is a function with its branches. `Effect` lists the branches with the state
each leads to, once, and the invariants of a job are proved over the list. -/
namespace V8Multithread.Platform.DefaultJob

/-- The delegate of a joining thread that is about to look for an opportunity, if it has one yet. -/
def Owner.participant : Owner → Option (Option JobDelegate)
  | .join (.waiting delegate) => some delegate
  | .join (.ran delegate) => some (some delegate)
  | _ => none

/-- The outcomes of each action, with what each needs. -/
inductive Effect (s : State) : Action → State → Prop where
  | notifyIgnored : Effect s .notify s
  | notified : Effect s .notify {s with notifiers := s.notifiers ++ [.called]}
  | accounted (n getMaxConcurrency : Nat) (hn : s.notifiers[n]? = some .called) (num : Nat) :
    Effect s (.notifyLocked n getMaxConcurrency)
      ({s with pendingTasks := s.pendingTasks + num}.setNotifier n (.posting num))
  | notifierPosted (n left : Nat) (hn : s.notifiers[n]? = some (.posting (left + 1))) :
    Effect s (.notifierPosts n) (s.setNotifier n (.posting left)).post
  | workerPosted (w left : Nat) (hw : s.workers[w]? = some (.posting (left + 1))) :
    Effect s (.threadPosts (.worker w)) (s.setWorker w (.posting left)).post
  | joinerPosted (left : Nat) (howner : s.owner = .join (.posting (left + 1))) :
    Effect s (.threadPosts .joiner) (s.setJoiner (.posting left)).post
  | workerRuns (w : Nat) (hw : s.workers[w]? = some (.posting 0)) :
    Effect s (.run (.worker w)) (s.setWorker w (.running {}))
  | joinerRuns (howner : s.owner = .join (.posting 0)) : Effect s (.run .joiner) (s.setJoiner (.running {}))
  | refused (w getMaxConcurrency : Nat) (hw : s.workers[w]? = some .posted) :
    Effect s (.canRunFirstTask w getMaxConcurrency) ({s with pendingTasks := s.pendingTasks - 1}.setWorker w .ended)
  | admitted (w getMaxConcurrency : Nat) (hw : s.workers[w]? = some .posted) (hcanceled : s.isCanceled = false)
      (hroom : s.activeWorkers < s.cappedMaxConcurrency getMaxConcurrency) :
    Effect s (.canRunFirstTask w getMaxConcurrency) ({s with
        pendingTasks := s.pendingTasks - 1
        activeWorkers := s.activeWorkers + 1}.setWorker w (.running {}))
  | loaded (thread : Thread) (hd : s.delegate thread = some ⟨none, none⟩) :
    Effect s (.loadTaskIds thread) (s.setDelegate thread ⟨none, some s.assignedTaskIds⟩)
  | exchanged (thread : Thread) (spurious : Bool) (hd : s.delegate thread = some ⟨none, some s.assignedTaskIds⟩)
      (taskId : Nat) (htaskId : taskId = countTrailingZeros32 (~~~s.assignedTaskIds)) :
    Effect s (.exchangeTaskIds thread spurious)
      ({s with assignedTaskIds := s.assignedTaskIds ||| taskBit taskId}.setDelegate thread ⟨some taskId, none⟩)
  | reloaded (thread : Thread) (spurious : Bool) (assigned : BitVec 32)
      (hd : s.delegate thread = some ⟨none, some assigned⟩) :
    Effect s (.exchangeTaskIds thread spurious) (s.setDelegate thread ⟨none, some s.assignedTaskIds⟩)
  | workerReturned (w : Nat) (d : JobDelegate) (hw : s.workers[w]? = some (.running d)) :
    Effect s (.runReturns (.worker w)) (s.setWorker w (.leaving d))
  | joinerReturned (d : JobDelegate) (howner : s.owner = .join (.running d)) :
    Effect s (.runReturns .joiner) (s.setJoiner (.ran d))
  | workerReleased (w : Nat) (d : JobDelegate) (hw : s.workers[w]? = some (.leaving d)) :
    Effect s (.releaseTaskId (.worker w)) ((s.release d).setWorker w .ran)
  | joinerReleased (d : JobDelegate) (howner : s.owner = .join (.leaving d)) :
    Effect s (.releaseTaskId .joiner) ((s.release d).setJoiner .returned)
  | letOut (w getMaxConcurrency : Nat) (hw : s.workers[w]? = some .ran) :
    Effect s (.didRunTask w getMaxConcurrency) ({s with activeWorkers := s.activeWorkers - 1}.setWorker w .ended)
  | kept (w getMaxConcurrency : Nat) (hw : s.workers[w]? = some .ran) (num : Nat) :
    Effect s (.didRunTask w getMaxConcurrency) ({s with pendingTasks := s.pendingTasks + num}.setWorker w (.posting num))
  | joinWaits (getMaxConcurrency : Nat) (howner : s.owner = .handle) : Effect s (.join getMaxConcurrency) ({s with
        numWorkerThreads := s.numWorkerThreads + 1
        activeWorkers := s.activeWorkers + 1}.setJoiner (.waiting none))
  | joinDone (getMaxConcurrency : Nat) (howner : s.owner = .handle) (hactive : s.activeWorkers = 0) :
    Effect s (.join getMaxConcurrency) ({s with
        numWorkerThreads := s.numWorkerThreads + 1
        activeWorkers := 0
        isCanceled := true}.setJoiner .returned)
  | joinPosts (getMaxConcurrency : Nat) (howner : s.owner = .handle) (num : Nat) : Effect s (.join getMaxConcurrency)
      ({s with
        numWorkerThreads := s.numWorkerThreads + 1
        activeWorkers := s.activeWorkers + 1
        pendingTasks := s.pendingTasks + num}.setJoiner (.posting num))
  | waitsOn (getMaxConcurrency : Nat) (delegate : Option JobDelegate) (howner : s.owner.participant = some delegate) :
    Effect s (.joinLocked getMaxConcurrency) (s.setJoiner (.waiting delegate))
  | firstDone (getMaxConcurrency : Nat) (howner : s.owner.participant = some none) (hactive : s.activeWorkers ≤ 1) :
    Effect s (.joinLocked getMaxConcurrency) ({s with activeWorkers := 0, isCanceled := true}.setJoiner .returned)
  | firstPosts (getMaxConcurrency : Nat) (howner : s.owner.participant = some none) (num : Nat) :
    Effect s (.joinLocked getMaxConcurrency) ({s with pendingTasks := s.pendingTasks + num}.setJoiner (.posting num))
  | againDone (getMaxConcurrency : Nat) (d : JobDelegate) (howner : s.owner.participant = some (some d))
      (hactive : s.activeWorkers ≤ 1) :
    Effect s (.joinLocked getMaxConcurrency) ({s with activeWorkers := 0, isCanceled := true}.setJoiner (.leaving d))
  | againRuns (getMaxConcurrency : Nat) (d : JobDelegate) (howner : s.owner.participant = some (some d)) :
    Effect s (.joinLocked getMaxConcurrency) (s.setJoiner (.running d))
  | cancelWaits (howner : s.owner = .handle) : Effect s .cancelAndWait {s with isCanceled := true, owner := .cancel false}
  | cancelAtOnce (howner : s.owner = .handle) (hactive : s.activeWorkers = 0) :
    Effect s .cancelAndWait {s with isCanceled := true, owner := .cancel true}
  | cancelWaitsOn (howner : s.owner = .cancel false) : Effect s .cancelWakes s
  | cancelReturns (howner : s.owner = .cancel false) (hactive : s.activeWorkers = 0) :
    Effect s .cancelWakes {s with owner := .cancel true}
  | detached (howner : s.owner = .handle) : Effect s .cancelAndDetach {s with isCanceled := true, owner := .detached}

variable {d : JobDelegate} {getMaxConcurrency : Nat}

namespace State
variable {s s' : State}

theorem delegate_worker {w : Nat} (h : s.delegate (.worker w) = some d) : s.workers[w]? = some (.running d) := by
  simp only [delegate] at h
  split at h
  · next hw =>
    cases h
    exact hw
  · cases h

theorem delegate_joiner (h : s.delegate .joiner = some d) : s.owner = .join (.running d) := by
  simp only [delegate] at h
  split at h
  · next howner =>
    cases h
    exact howner
  · cases h

/-- `WaitForParticipationOpportunity` waits on, finds the job done with nobody else in it, or changes nothing. -/
theorem waitForParticipationOpportunity_cases (s : State) (getMaxConcurrency : Nat) :
    s.waitForParticipationOpportunity getMaxConcurrency = none ∨
      (s.activeWorkers ≤ 1 ∧ s.waitForParticipationOpportunity getMaxConcurrency =
        some ({s with activeWorkers := 0, isCanceled := true}, 0)) ∨
      ∃ n, s.waitForParticipationOpportunity getMaxConcurrency = some (s, n + 1) := by
  rw [waitForParticipationOpportunity]
  split
  · exact .inl rfl
  · next hwa =>
    by_cases hmax : s.cappedMaxConcurrency getMaxConcurrency = 0
    · exact .inr (.inl ⟨by omega, if_neg (not_not.mpr hmax)⟩)
    · obtain ⟨n, hn⟩ := Nat.exists_eq_succ_of_ne_zero hmax
      exact .inr (.inr ⟨n, by rw [if_pos hmax, hn]⟩)

theorem joinFirst_cases (s : State) (getMaxConcurrency : Nat) :
    s.joinFirst getMaxConcurrency = s.setJoiner (.waiting none) ∨ (s.activeWorkers ≤ 1 ∧ s.joinFirst getMaxConcurrency =
        {s with activeWorkers := 0, isCanceled := true}.setJoiner .returned) ∨
      ∃ num, s.joinFirst getMaxConcurrency = {s with pendingTasks := s.pendingTasks + num}.setJoiner (.posting num) := by
  rw [joinFirst]
  obtain hwa | ⟨hactive, hwa⟩ | ⟨n, hwa⟩ := s.waitForParticipationOpportunity_cases getMaxConcurrency
  · rw [hwa]
    exact .inl rfl
  · rw [hwa]
    exact .inr (.inl ⟨hactive, rfl⟩)
  · rw [hwa]
    exact .inr (.inr ⟨_, rfl⟩)

end State

namespace Effect
variable {s s' : State}

theorem of_joinFirst (howner : s.owner.participant = some none) (getMaxConcurrency : Nat) :
    Effect s (.joinLocked getMaxConcurrency) (s.joinFirst getMaxConcurrency) := by
  obtain heq | ⟨hactive, heq⟩ | ⟨num, heq⟩ := s.joinFirst_cases getMaxConcurrency
  · rw [heq]
    exact .waitsOn getMaxConcurrency none howner
  · rw [heq]
    exact .firstDone getMaxConcurrency howner hactive
  · rw [heq]
    exact .firstPosts getMaxConcurrency howner num

theorem of_joinAgain (howner : s.owner.participant = some (some d)) (getMaxConcurrency : Nat) :
    Effect s (.joinLocked getMaxConcurrency) (s.joinAgain d getMaxConcurrency) := by
  rw [State.joinAgain]
  obtain hwa | ⟨hactive, hwa⟩ | ⟨n, hwa⟩ := s.waitForParticipationOpportunity_cases getMaxConcurrency
  · rw [hwa]
    exact .waitsOn getMaxConcurrency (some d) howner
  · rw [hwa]
    exact .againDone getMaxConcurrency d howner hactive
  · rw [hwa]
    exact .againRuns getMaxConcurrency d howner

/-- Every step has one of the outcomes. -/
theorem of_step {a : Action} (hst : s.step a = some s') : Effect s a s' := by
  cases a with
  | notify =>
    cases hst
    rw [State.notify]
    split
    · exact .notifyIgnored
    · exact .notified
  | notifyLocked n getMaxConcurrency =>
    simp only [State.step, State.notifyLocked] at hst
    split at hst
    · next hn =>
      cases hst
      exact .accounted n getMaxConcurrency hn _
    · cases hst
  | notifierPosts n =>
    simp only [State.step, State.notifierPosts] at hst
    split at hst
    · next left hn =>
      cases hst
      exact .notifierPosted n left hn
    · cases hst
  | threadPosts thread =>
    cases thread <;> simp only [State.step, State.threadPosts] at hst <;> split at hst <;> cases hst
    · next left hw => exact .workerPosted _ left hw
    · next left howner => exact .joinerPosted left howner
  | run thread =>
    cases thread <;> simp only [State.step, State.run] at hst <;> split at hst <;> cases hst
    · next hw => exact .workerRuns _ hw
    · next howner => exact .joinerRuns howner
  | canRunFirstTask w getMaxConcurrency =>
    simp only [State.step, State.canRunFirstTask] at hst
    split at hst
    · next hw =>
      split at hst
      · cases hst
        exact .refused w getMaxConcurrency hw
      · next hcanceled =>
        split at hst
        · cases hst
          exact .refused w getMaxConcurrency hw
        · next hroom =>
          cases hst
          exact .admitted w getMaxConcurrency hw (Bool.not_eq_true _ ▸ hcanceled) (Nat.lt_of_not_le hroom)
    · cases hst
  | loadTaskIds thread =>
    simp only [State.step, State.loadTaskIds] at hst
    split at hst
    · next hd =>
      cases hst
      exact .loaded thread hd
    · cases hst
  | exchangeTaskIds thread spurious =>
    simp only [State.step, State.exchangeTaskIds] at hst
    split at hst
    · next assigned hd =>
      split at hst
      · next hsa =>
        obtain ⟨rfl, -⟩ := hsa
        cases hst
        exact .exchanged thread spurious hd _ rfl
      · cases hst
        exact .reloaded thread spurious assigned hd
    · cases hst
  | runReturns thread =>
    simp only [State.step, State.runReturns] at hst
    split at hst
    · next taskId hd =>
      cases thread with
      | worker w =>
        cases hst
        exact .workerReturned w _ (State.delegate_worker hd)
      | joiner =>
        cases hst
        exact .joinerReturned _ (State.delegate_joiner hd)
    · cases hst
  | releaseTaskId thread =>
    cases thread <;> simp only [State.step, State.releaseTaskId] at hst <;> split at hst <;> cases hst
    · next d hw => exact .workerReleased _ d hw
    · next d howner => exact .joinerReleased d howner
  | didRunTask w getMaxConcurrency =>
    simp only [State.step, State.didRunTask] at hst
    split at hst
    · next hw =>
      split at hst
      · cases hst
        exact .letOut w getMaxConcurrency hw
      · cases hst
        exact .kept w getMaxConcurrency hw _
    · cases hst
  | join getMaxConcurrency =>
    simp only [State.step, State.join] at hst
    split at hst
    · next howner =>
      cases hst
      obtain heq | ⟨hactive, heq⟩ | ⟨num, heq⟩ := State.joinFirst_cases {s with
        numWorkerThreads := s.numWorkerThreads + 1, activeWorkers := s.activeWorkers + 1} getMaxConcurrency
      · rw [heq]
        exact .joinWaits getMaxConcurrency howner
      · rw [heq]
        exact .joinDone getMaxConcurrency howner (by simpa using hactive)
      · rw [heq]
        exact .joinPosts getMaxConcurrency howner num
    · cases hst
  | joinLocked getMaxConcurrency =>
    simp only [State.step, State.joinLocked] at hst
    split at hst <;> cases hst
    · next howner => exact of_joinFirst (by rw [howner]; rfl) getMaxConcurrency
    · next d howner => exact of_joinAgain (by rw [howner]; rfl) getMaxConcurrency
    · next d howner => exact of_joinAgain (by rw [howner]; rfl) getMaxConcurrency
  | cancelAndWait =>
    simp only [State.step, State.cancelAndWait] at hst
    split at hst
    · next howner =>
      cases hst
      by_cases hactive : s.activeWorkers = 0
      · rw [decide_eq_true hactive]
        exact .cancelAtOnce howner hactive
      · rw [decide_eq_false hactive]
        exact .cancelWaits howner
    · cases hst
  | cancelWakes =>
    simp only [State.step, State.cancelWakes] at hst
    split at hst
    · next howner =>
      cases hst
      by_cases hactive : s.activeWorkers = 0
      · rw [decide_eq_true hactive]
        exact .cancelReturns howner hactive
      · rw [decide_eq_false hactive, ← howner]
        exact .cancelWaitsOn howner
    · cases hst
  | cancelAndDetach =>
    simp only [State.step, State.cancelAndDetach] at hst
    split at hst
    · next howner =>
      cases hst
      exact .detached howner
    · cases hst

end Effect
end V8Multithread.Platform.DefaultJob
