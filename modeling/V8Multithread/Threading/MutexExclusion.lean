import V8Multithread.Threading.Mutex

/-! Mutual exclusion and no lost update.

At any moment the calls stand in a line: those that are done, then at most one call
that has the lock or is being given it, then those that are parked. `Token` says who
has the lock and how far along it is; `Line` says that the state is such a line, and
with it what has run and what the value is. Each step moves the token on
(`step_line`), so the line is there after every run. -/
namespace V8Multithread.Threading.Mutex.State
open List Option
variable {V : Type}

inductive Token where
  | free
  | holding (serializedVal : List UInt8)
  | releasing
  /-- The holder has picked its successor. -/
  | passing
  /-- The successor's task is on its way. -/
  | sent (d : Destination)
  /-- The successor's task was deleted. -/
  | dropped
  deriving DecidableEq

namespace Token

/-- The phases of the calls between the `n` done and the parked ones. -/
def phases (n : Nat) : Token → List Phase
  | free => []
  | holding v => [.holding v]
  | releasing => [.releasing]
  | passing => [.passing (n + 1), .chosen]
  | sent d => [.sent d]
  | dropped => [.dropped]

def begun : Token → Nat
  | holding _ | releasing | passing => 1
  | _ => 0

def ended : Token → Nat
  | releasing | passing => 1
  | _ => 0

end Token

/-- `n` calls are done, then comes the token, then `m` calls are parked. -/
structure Line (codec : Codec V) (value : List UInt8) (s : State V) (n m : Nat) (t : Token) :
    Prop where
  phases : s.phases = replicate n .done ++ (t.phases n ++ replicate m .parked)
  calls : s.calls.length = s.phases.length
  pending : s.mutex.pendingLocks = s.calls.drop (s.calls.length - m)
  locked : s.mutex.locked = true ↔ t ≠ .free
  nobody : t = .free → m = 0
  started : s.started = range (n + t.begun)
  completed : s.completed = range (n + t.ended)
  folded : s.mutex.serializedValue = (s.calls.take (n + t.ended)).foldl (fun v call => apply codec call.callback v) value
  current : ∀ v, t = .holding v → v = s.mutex.serializedValue
  resolvers : ∀ (i : Nat) (call : PendingLock V), s.calls[i]? = some call → call.resolver = i

/-! ### Finding the token -/

variable {n : Nat} {x : Phase} {xs : List Phase}

theorem getElem?_line {m i : Nat} (h : (replicate n Phase.done ++ (xs ++ replicate m .parked))[i]? = some x)
    (hdo : x ≠ .done) (hp : x ≠ .parked) : ∃ j, i = n + j ∧ xs[j]? = some x := by
  rw [getElem?_append] at h
  split at h
  · rename_i hlt
    rw [getElem?_replicate_of_lt (by simpa using hlt)] at h
    exact absurd (Option.some.inj h).symm hdo
  · rename_i hge
    rw [length_replicate] at h hge
    rw [getElem?_append] at h
    split at h
    · exact ⟨i - n, by omega, h⟩
    · rw [getElem?_replicate] at h
      split at h
      · exact absurd (Option.some.inj h).symm hp
      · cases h

/-- Changing the first call after the done ones. -/
theorem set_line {y : Phase} : (replicate n Phase.done ++ x :: xs).set n y = replicate n .done ++ y :: xs := by
  simp

/-- Changing the second. -/
theorem set_line_second {y z : Phase} : (replicate n Phase.done ++ x :: z :: xs).set (n + 1) y =
      replicate n .done ++ x :: y :: xs := by
  simp

theorem replicate_done : replicate n Phase.done ++ .done :: xs = replicate (n + 1) .done ++ xs := by
  rw [replicate_succ', append_assoc]
  rfl

namespace Line
variable {codec : Codec V} {hasRunner : Isolate → Bool} {value : List UInt8} {s : State V}
  {n m i : Nat} {t : Token}

section
variable (h : s.Line codec value n m t)
include h

theorem calls_length : s.calls.length = n + ((t.phases n).length + m) := by
  rw [h.calls, h.phases]
  simp

theorem ended_le : n + t.ended ≤ s.calls.length := by
  have hlen := h.calls_length
  cases t <;> simp [Token.phases, Token.ended] at hlen ⊢ <;> omega

/-- A call that is neither done nor parked is the token's. -/
theorem phase_at (hx : s.phases[i]? = some x) (hdo : x ≠ .done) (hp : x ≠ .parked) :
    ∃ j, i = n + j ∧ (t.phases n)[j]? = some x := by
  rw [h.phases] at hx
  exact getElem?_line hx hdo hp

theorem holding_at {v : List UInt8} (hx : s.phases[i]? = some (.holding v)) : i = n ∧ t = .holding v := by
  obtain ⟨j, rfl, hj⟩ := h.phase_at hx (by simp) (by simp)
  cases t <;> rcases j with _ | _ | j <;> simp_all [Token.phases]

theorem releasing_at (hx : s.phases[i]? = some .releasing) : i = n ∧ t = .releasing := by
  obtain ⟨j, rfl, hj⟩ := h.phase_at hx (by simp) (by simp)
  cases t <;> rcases j with _ | _ | j <;> simp_all [Token.phases]

theorem passing_at {next : Nat} (hx : s.phases[i]? = some (.passing next)) : i = n ∧ next = n + 1 ∧ t = .passing := by
  obtain ⟨j, rfl, hj⟩ := h.phase_at hx (by simp) (by simp)
  cases t <;> rcases j with _ | _ | j <;> simp_all [Token.phases]

theorem sent_at {d : Destination} (hx : s.phases[i]? = some (.sent d)) : i = n ∧ t = .sent d := by
  obtain ⟨j, rfl, hj⟩ := h.phase_at hx (by simp) (by simp)
  cases t <;> rcases j with _ | _ | j <;> simp_all [Token.phases]

/-! ### The steps -/

theorem resolvers_append {call : PendingLock V} (hca : call.resolver = s.calls.length) :
    ∀ (i : Nat) (c : PendingLock V), (s.calls ++ [call])[i]? = some c → c.resolver = i := by
  intro i c hc
  rw [getElem?_append] at hc
  split at hc
  · exact h.resolvers i c hc
  · rw [getElem?_singleton] at hc
    split at hc
    · obtain rfl := Option.some.inj hc
      have hi : s.calls.length = i := by omega
      exact hca.trans hi
    · cases hc

theorem enter (args : LockArgs V) (callback : Callback V) : ∃ n m t, (s.enter args callback).Line codec value n m t := by
  have hlen := h.calls_length
  by_cases hl : s.mutex.locked = true
  · refine ⟨n, m + 1, t, ?_⟩
    simp only [State.enter, if_pos hl]
    refine ⟨?_, ?_, ?_, h.locked, fun hfree => absurd hfree (h.locked.mp hl), h.started, h.completed,
      ?_, h.current, h.resolvers_append rfl⟩
    · simp only [h.phases, append_assoc, replicate_succ']
    · simp [h.calls]
    · rw [h.pending, length_append, length_singleton, Nat.add_sub_add_right, drop_append_of_le_length (by omega)]
    · rw [take_append_of_le_length h.ended_le]
      exact h.folded
  · have hfree : t = .free := by
      by_contra hne
      exact hl (h.locked.mpr hne)
    have hm := h.nobody hfree
    subst hfree hm
    have hn : n = s.calls.length := by simpa [Token.phases] using hlen.symm
    refine ⟨n, 0, .holding s.mutex.serializedValue, ?_⟩
    simp only [State.enter, if_neg hl]
    refine ⟨?_, ?_, ?_, ?_, ?_, ?_, h.completed, ?_, ?_, h.resolvers_append rfl⟩
    · simp only [h.phases, Token.phases, replicate_zero, append_nil]
    · simp [h.calls]
    · rw [h.pending]
      simp
    · simp
    · simp
    · rw [h.started, ← hn]
      simp only [Token.begun, add_zero, range_succ]
    · have hfo := h.folded
      simp only [Token.ended, add_zero] at hfo ⊢
      rw [take_append_of_le_length (by omega)]
      exact hfo
    · intro v hv
      exact (Token.holding.inj hv).symm

end

theorem writeBack {v : List UInt8} (h : s.Line codec value n m (.holding v))
    {call : PendingLock V} (hca : s.calls[n]? = some call) :
    (s.writeBack codec n call v).Line codec value n m .releasing := by
  obtain rfl := h.current v rfl
  have hfo := h.folded
  simp only [Token.ended, add_zero] at hfo
  simp only [State.writeBack]
  refine ⟨?_, ?_, h.pending, ?_, by simp, h.started, ?_, ?_, by simp, h.resolvers⟩
  · simp only [h.phases, Token.phases, singleton_append]
    exact set_line
  · simp [h.calls]
  · simpa using h.locked
  · rw [h.completed]
    simp only [Token.ended, add_zero, range_succ]
  · -- the callback ran on the value it now replaces, so the fold goes one call further
    show apply codec call.callback s.mutex.serializedValue = _
    simp only [Token.ended, take_add_one, hca, toList_some, foldl_append, foldl_cons, foldl_nil]
    rw [← hfo]

/-- The longest parked call is the one after the holder. -/
theorem pending_cons {k : Nat} (h : s.Line codec value n (k + 1) .releasing) :
    ∃ call, s.mutex.pendingLocks = call :: s.calls.drop (s.calls.length - k) ∧ call.resolver = n + 1 := by
  have hlen := h.calls_length
  simp only [Token.phases, length_singleton] at hlen
  have hdr : s.calls.length - (k + 1) = n + 1 := by omega
  have hnext : s.calls.length - k = n + 1 + 1 := by omega
  have hlt : n + 1 < s.calls.length := by omega
  refine ⟨s.calls[n + 1], ?_, h.resolvers (n + 1) _ (getElem?_eq_getElem hlt)⟩
  rw [h.pending, hdr, hnext]
  exact drop_eq_getElem_cons hlt

theorem next_parked (h : s.Line codec value n m .releasing) {pending : PendingLock V}
    {rest : List (PendingLock V)} (hp : s.mutex.pendingLocks = pending :: rest) :
    pending.resolver = n + 1 ∧ s.phases[n + 1]? = some .parked := by
  cases m with
  | zero =>
    rw [h.pending, Nat.sub_zero, drop_length] at hp
    cases hp
  | succ k =>
    obtain ⟨call, hca, hr⟩ := h.pending_cons
    rw [hca] at hp
    obtain ⟨rfl, -⟩ := List.cons.inj hp
    refine ⟨hr, ?_⟩
    rw [h.phases, getElem?_append_right (by simp), getElem?_append_right (by simp [Token.phases])]
    simp [Token.phases]

theorem releaseLock (h : s.Line codec value n m .releasing) : ∃ n' m' t', (s.releaseLock n).Line codec value n' m' t' := by
  cases m with
  | zero =>
    refine ⟨n + 1, 0, .free, ?_⟩
    have hp : s.mutex.pendingLocks = [] := by
      rw [h.pending]
      simp
    simp only [State.releaseLock, hp]
    refine ⟨?_, ?_, ?_, by simp, by simp, h.started, h.completed, h.folded, by simp, h.resolvers⟩
    · simp only [h.phases, Token.phases, singleton_append, nil_append]
      rw [set_line, replicate_done]
    · simp [h.calls]
    · simp
  | succ k =>
    refine ⟨n, k, .passing, ?_⟩
    obtain ⟨call, hp, hr⟩ := h.pending_cons
    simp only [State.releaseLock, hp, hr]
    refine ⟨?_, ?_, rfl, ?_, by simp, h.started, h.completed, h.folded, by simp, h.resolvers⟩
    · simp only [h.phases, Token.phases, singleton_append, replicate_succ]
      rw [set_line, set_line_second]
      rfl
    · simp [h.calls]
    · simpa using h.locked

theorem sendTask (h : s.Line codec value n m .passing) (call : PendingLock V) :
    ∃ t, (s.sendTask hasRunner n (n + 1) call).Line codec value (n + 1) m t := by
  obtain ⟨t, ht, hphase⟩ : ∃ t : Token, (t = .dropped ∨ ∃ d, t = .sent d) ∧
      t.phases (n + 1) = [.handed (destination hasRunner call.isolate call.workerIndex)] := by
    cases destination hasRunner call.isolate call.workerIndex with
    | deleted => exact ⟨.dropped, .inl rfl, rfl⟩
    | worker index => exact ⟨.sent (.worker index), .inr ⟨_, rfl⟩, rfl⟩
    | foreground isolate => exact ⟨.sent (.foreground isolate), .inr ⟨_, rfl⟩, rfl⟩
  have hbe : t.begun = 0 ∧ t.ended = 0 ∧ t ≠ .free := by
    rcases ht with rfl | ⟨d, rfl⟩ <;> simp [Token.begun, Token.ended]
  refine ⟨t, ?_⟩
  simp only [State.sendTask]
  refine ⟨?_, ?_, h.pending, ?_, fun hfree => absurd hfree hbe.2.2, ?_, ?_, ?_, ?_, h.resolvers⟩
  · rw [hphase]
    simp only [h.phases, Token.phases, cons_append, nil_append]
    rw [set_line, set_line_second, replicate_done]
  · simp [h.calls]
  · simp [hbe.2.2, h.locked]
  · rw [hbe.1]
    exact h.started
  · rw [hbe.2.1]
    exact h.completed
  · rw [hbe.2.1]
    exact h.folded
  · rintro v rfl
    rcases ht with ht | ⟨d, ht⟩ <;> cases ht

theorem startTask {d : Destination} (h : s.Line codec value n m (.sent d)) :
    (s.startTask n).Line codec value n m (.holding s.mutex.serializedValue) := by
  simp only [State.startTask]
  refine ⟨?_, ?_, h.pending, ?_, by simp, ?_, h.completed, h.folded, ?_, h.resolvers⟩
  · simp only [h.phases, Token.phases, singleton_append]
    exact set_line
  · simp [h.calls]
  · simp [h.locked]
  · rw [h.started]
    simp only [Token.begun, add_zero, range_succ]
  · intro v hv
    exact (Token.holding.inj hv).symm

end Line

section Run
variable {codec : Codec V} {hasRunner : Isolate → Bool} {value : List UInt8} {s s' : State V}

theorem step_line {a : Action V} (h : ∃ n m t, s.Line codec value n m t)
    (hs : s.step codec hasRunner a = some s') : ∃ n m t, s'.Line codec value n m t := by
  obtain ⟨n, m, t, h⟩ := h
  cases a with
  | lock args =>
    simp only [step] at hs
    split at hs
    · obtain rfl := Option.some.inj hs
      exact ⟨n, m, t, h.phases, h.calls, h.pending, h.locked, h.nobody, h.started, h.completed,
        h.folded, h.current, h.resolvers⟩
    · split at hs
      · obtain rfl := Option.some.inj hs
        exact h.enter args _
      · obtain rfl := Option.some.inj hs
        exact ⟨n, m, t, h⟩
  | finish i =>
    simp only [step] at hs
    split at hs
    · rename_i v call hphase hca
      obtain ⟨rfl, rfl⟩ := h.holding_at hphase
      obtain rfl := Option.some.inj hs
      exact ⟨_, _, _, h.writeBack hca⟩
    · cases hs
  | release i =>
    simp only [step] at hs
    split at hs
    · rename_i hphase
      obtain ⟨rfl, rfl⟩ := h.releasing_at hphase
      obtain rfl := Option.some.inj hs
      exact h.releaseLock
    · cases hs
  | dispatch i =>
    simp only [step] at hs
    split at hs
    · rename_i next hphase
      obtain ⟨rfl, rfl, rfl⟩ := h.passing_at hphase
      split at hs
      · obtain rfl := Option.some.inj hs
        obtain ⟨t, ht⟩ := h.sendTask _
        exact ⟨_, _, t, ht⟩
      · cases hs
    · cases hs
  | start i =>
    simp only [step] at hs
    split at hs
    · rename_i hphase
      obtain ⟨rfl, rfl⟩ := h.sent_at hphase
      obtain rfl := Option.some.inj hs
      exact ⟨_, _, _, h.startTask⟩
    · cases hs

theorem initial_line (mutex : MutexState V) (hfree : mutex.locked = false) (hno : mutex.pendingLocks = []) :
    (initial mutex).Line codec mutex.serializedValue 0 0 .free := by
  refine ⟨rfl, rfl, hno, ?_, by simp, rfl, rfl, rfl, by simp, by simp [initial]⟩
  simp [initial, hfree]

theorem run_line {mutex : MutexState V} (hfree : mutex.locked = false)
    (hno : mutex.pendingLocks = []) {as : List (Action V)}
    (hrun : (machine codec hasRunner).run (initial mutex) as = some s) :
    ∃ n m t, s.Line codec mutex.serializedValue n m t :=
  Machine.invariant (I := fun s => ∃ n m t, s.Line codec mutex.serializedValue n m t)
    (fun _ _ _ h hs => step_line h hs) ⟨0, 0, .free, initial_line mutex hfree hno⟩ hrun

end Run

/-! ### What the callbacks add up to -/

/-- What a callback is meant to do to the value: replace it by what it returns, and
leave it alone if it throws or returns something that cannot be written. -/
def contribution (codec : Codec V) (value : List UInt8) (callback : Callback V) : List UInt8 :=
  match currentValue codec value with
  | none => value
  | some current =>
    match callback current with
    | .error _ => value
    | .ok new => (codec.serialize new).getD value

theorem apply_eq_contribution (codec : Codec V) (callback : Callback V) (value : List UInt8) :
    apply codec callback value = contribution codec value callback := by
  cases hv : currentValue codec value with
  | none => simp only [apply, lockBody, contribution, hv, getD_none]
  | some current =>
    cases hc : callback current with
    | error exception => simp only [apply_of_throw codec hv hc, contribution, hv, hc]
    | ok new =>
      cases hs : codec.serialize new with
      | none => simp only [apply_of_unserializable codec hv hc hs, contribution, hv, hc, hs, getD_none]
      | some bytes => simp only [apply_of_ok codec hv hc hs, contribution, hv, hc, hs, getD_some]

def callbacks (s : State V) (is : List Nat) : List (Callback V) :=
  is.filterMap fun i => s.calls[i]?.map (·.callback)

theorem callbacks_range (s : State V) (hn : n ≤ s.calls.length) :
    s.callbacks (range n) = (s.calls.take n).map (·.callback) := by
  induction n with
  | zero => rfl
  | succ n ih =>
    have hget : s.calls[n]? = some s.calls[n] := getElem?_eq_getElem hn
    have hone : s.callbacks [n] = [s.calls[n].callback] := by
      simp [callbacks, hget]
    have happ : s.callbacks (range n ++ [n]) = s.callbacks (range n) ++ s.callbacks [n] := filterMap_append
    rw [range_succ, happ, ih (by omega), hone, take_add_one, hget, map_append]
    rfl

theorem Token.ended_le_begun (t : Token) : t.ended ≤ t.begun ∧ t.begun ≤ t.ended + 1 := by
  cases t <;> simp [Token.ended, Token.begun]

/-- In every interleaving of lock calls, from any isolates, nested ones included:
one callback at most is between its read and its write-back, and what it read is
still the value; callbacks start and finish in the order in which their calls came;
and the value is what the finished callbacks make of the initial one. -/
theorem mutual_exclusion (codec : Codec V) (hasRunner : Isolate → Bool) (initialValue : Option V)
    (as : List (Action V)) (s : State V)
    (hrun : (machine codec hasRunner).run (initial (threadMutex codec initialValue)) as = some s) :
    (∀ (i j : Nat) (v w : List UInt8), s.phases[i]? = some (.holding v) →
      s.phases[j]? = some (.holding w) → i = j ∧ v = s.mutex.serializedValue) ∧
    s.started = range s.started.length ∧
    s.completed = range s.completed.length ∧
    s.completed.length ≤ s.started.length ∧ s.started.length ≤ s.completed.length + 1 ∧
    s.mutex.serializedValue = (s.callbacks s.completed).foldl (contribution codec)
      (threadMutex codec initialValue).serializedValue := by
  obtain ⟨n, m, t, h⟩ := run_line rfl rfl hrun
  have hbegun := t.ended_le_begun
  refine ⟨?_, ?_, ?_, ?_, ?_, ?_⟩
  · intro i j v w hi hj
    obtain ⟨rfl, hv⟩ := h.holding_at hi
    obtain ⟨rfl, -⟩ := h.holding_at hj
    exact ⟨rfl, h.current v hv⟩
  · simp [h.started]
  · simp [h.completed]
  · simp [h.started, h.completed]
    omega
  · simp [h.started, h.completed]
    omega
  · rw [h.completed, s.callbacks_range h.ended_le, h.folded, foldl_map]
    simp only [apply_eq_contribution]

/-- A byte, stored as itself; 255 cannot be written. -/
def byteCodec : Codec UInt8 where
  undefined := 0
  deserialize bytes := bytes.head?
  serialize v := if v = 255 then none else some [v]

def lockWith (isolate : Isolate) (workerIndex : Int) (callback : Callback UInt8) : Action UInt8 :=
  .lock ⟨isolate, workerIndex, 1, some callback, ⟨1, true⟩, true⟩

/-- A callback that locks the same mutex while it runs, a second isolate whose
callback throws, and the hand-overs from one to the next. -/
def nestedRun : List (Action UInt8) :=
  [lockWith 0 0 fun v => .ok (v + 1), lockWith 0 0 fun v => .ok (v * 2),
    lockWith 1 (-1) .error, .finish 0, .release 0, .dispatch 0, .start 1, .finish 1, .release 1,
    .dispatch 1, .start 2, .finish 2, .release 2]

theorem mutual_exclusion_nestedRun : ∃ s, (machine byteCodec fun _ => true).run (initial (threadMutex byteCodec (some 3)))
        nestedRun = some s ∧ s.completed = [0, 1, 2] ∧ s.mutex.serializedValue = [8] ∧
      s.mutex.serializedValue = (s.callbacks s.completed).foldl (contribution byteCodec)
        (threadMutex byteCodec (some 3)).serializedValue :=
  ⟨_, rfl, rfl, rfl, (mutual_exclusion byteCodec (fun _ => true) (some 3) nestedRun _ rfl).2.2.2.2.2⟩

end V8Multithread.Threading.Mutex.State
