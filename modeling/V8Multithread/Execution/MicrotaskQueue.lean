import V8Multithread.Base.Machine

/-! The microtask queue.

A ring buffer that two implementations work on: `MicrotaskQueue` in C++, which finds slots
by remainder, and the builtins, which find them by masking with the capacity less one. The
garbage collector visits what is pending and shrinks the buffer.

A slot that was never written, or that is out of bounds, loads as `none`. -/
namespace V8Multithread.Execution
open Nat List

structure MicrotaskQueue (T : Type) where
  size : Nat := 0
  capacity : Nat := 0
  start : Nat := 0
  ringBuffer : List (Option T) := []
  deriving DecidableEq, Repr

namespace MicrotaskQueue
variable {T : Type}

def kMinimumCapacity : Nat := 8

def load (buffer : List (Option T)) (offset : Nat) : Option T := buffer[offset]?.join

/-! ### C++ -/

def get (q : MicrotaskQueue T) (index : Nat) : Option T :=
  load q.ringBuffer ((index + q.start) % q.capacity)

/-- The loop that copies the first `n` microtasks into the new buffer. -/
def copied (q : MicrotaskQueue T) (newCapacity : Nat) : Nat → List (Option T)
  | 0 => replicate newCapacity none
  | n + 1 => (copied q newCapacity n).set n (load q.ringBuffer ((q.start + n) % q.capacity))

def resizeBuffer (q : MicrotaskQueue T) (newCapacity : Nat) : MicrotaskQueue T :=
  {q with ringBuffer := copied q newCapacity q.size, capacity := newCapacity, start := 0}

def reserve (q : MicrotaskQueue T) : MicrotaskQueue T :=
  if q.size = q.capacity then resizeBuffer q (max kMinimumCapacity (q.capacity <<< 1)) else q

def append (q : MicrotaskQueue T) (microtask : T) : MicrotaskQueue T :=
  {q with
    ringBuffer := q.ringBuffer.set ((q.start + q.size) % q.capacity) (some microtask)
    size := q.size + 1}

/-- `EnqueueMicrotask`. The queue is not touched when the microtask is intercepted. -/
def enqueueMicrotask (q : MicrotaskQueue T) (intercepted : Bool) (microtask : T) : Option (MicrotaskQueue T) :=
  if intercepted then none else some (append (reserve q) microtask)

/-- The loop of `IterateMicrotasks` that halves the capacity. -/
def shrunk (size newCapacity : Nat) : Nat :=
  if 2 * size < newCapacity then shrunk size (newCapacity >>> 1) else newCapacity
termination_by newCapacity
decreasing_by
  rw [shiftRight_one]
  omega

/-- The two ranges of slots that the visitor is given. -/
def visitedFirst (q : MicrotaskQueue T) : List Nat :=
  if q.size = 0 then [] else List.range' q.start (min (q.start + q.size) q.capacity - q.start)

def visitedSecond (q : MicrotaskQueue T) : List Nat :=
  if q.size = 0 then [] else range (q.start + q.size - q.capacity)

def iterateMicrotasks (q : MicrotaskQueue T) : MicrotaskQueue T :=
  if q.capacity ≤ kMinimumCapacity then q
  else
    let newCapacity := max (shrunk q.size q.capacity) kMinimumCapacity
    if newCapacity < q.capacity then resizeBuffer q newCapacity else q

/-! ### Builtins -/

/-- `CalculateRingBufferOffset`, in slots. -/
def ringBufferOffset (capacity start index : Nat) : Nat := (start + index) &&& (capacity - 1)

/-- `EnqueueMicrotask`: the C++ function grows the buffer. -/
def enqueueBuiltin (q : MicrotaskQueue T) (intercepted : Bool) (microtask : T) : Option (MicrotaskQueue T) :=
  if q.size = q.capacity then enqueueMicrotask q intercepted microtask
  else some {q with
    ringBuffer := q.ringBuffer.set (ringBufferOffset q.capacity q.start q.size) (some microtask)
    size := q.size + 1}

/-- One round of the loop of `RunMicrotasks`: the microtask that it runs next, and the
queue it leaves; nothing when the queue is empty. -/
def dequeue (q : MicrotaskQueue T) : Option (Option T × MicrotaskQueue T) :=
  if q.size = 0 then none
  else some (load q.ringBuffer (ringBufferOffset q.capacity q.start 0),
    {q with size := q.size - 1, start := ringBufferOffset q.capacity q.start 1})

/-! ### What it is for -/

def pending (q : MicrotaskQueue T) : List (Option T) := (range q.size).map q.get

structure Valid (q : MicrotaskQueue T) : Prop where
  pow : q.capacity = 0 ∨ (∃ k, q.capacity = 2 ^ k) ∧ kMinimumCapacity ≤ q.capacity
  length_eq : q.ringBuffer.length = q.capacity
  size_le : q.size ≤ q.capacity
  start_lt : 0 < q.capacity → q.start < q.capacity

theorem Valid.mask {q : MicrotaskQueue T} (h : q.Valid) (hpos : 0 < q.capacity) (n : Nat) :
    n &&& (q.capacity - 1) = n % q.capacity := by
  rcases h.pow with hzero | ⟨⟨k, hk⟩, _⟩
  · omega
  · rw [hk, and_two_pow_sub_one_eq_mod]

theorem empty_valid : Valid ({} : MicrotaskQueue T) := by
  constructor
  · exact .inl rfl
  · rfl
  · exact le_refl 0
  · intro h
    exact absurd h (lt_irrefl 0)

/-! ### Slots -/

variable {buffer : List (Option T)} {n i : Nat}

theorem load_set_self (h : n < buffer.length) (v : Option T) : load (buffer.set n v) n = v := by
  rw [load, List.getElem?_set_self h]
  rfl

theorem load_set_ne {m : Nat} (h : n ≠ m) (v : Option T) : load (buffer.set n v) m = load buffer m := by
  rw [load, getElem?_set_ne h, load]

theorem length_copied (q : MicrotaskQueue T) (newCapacity n : Nat) : (copied q newCapacity n).length = newCapacity := by
  induction n with
  | zero => exact length_replicate
  | succ n ih => rw [copied, length_set, ih]

theorem load_copied (q : MicrotaskQueue T) {newCapacity : Nat} (hn : n ≤ newCapacity) (hi : i < n) :
    load (copied q newCapacity n) i = q.get i := by
  induction n with
  | zero => exact absurd hi (Nat.not_lt_zero i)
  | succ n ih =>
    rw [copied]
    rcases Nat.lt_succ_iff_lt_or_eq.mp hi with hlt | rfl
    · rw [load_set_ne (by omega), ih (by omega) hlt]
    · rw [load_set_self (by rw [length_copied]; omega), get, add_comm]

/-- Two pending microtasks have slots of their own. -/
theorem slot_ne {start j capacity : Nat} (hij : i < j) (hj : j < capacity) :
    (start + i) % capacity ≠ (start + j) % capacity := by
  intro heq
  have hmod : i ≡ j [MOD capacity] := Nat.ModEq.add_left_cancel' start heq
  rw [Nat.ModEq, mod_eq_of_lt (by omega), mod_eq_of_lt hj] at hmod
  omega

/-- Queues of one size that hold the same are pending the same. -/
theorem pending_congr {q q' : MicrotaskQueue T} (hsize : q'.size = q.size)
    (hget : ∀ i < q.size, q'.get i = q.get i) : q'.pending = q.pending := by
  rw [pending, pending, hsize]
  apply map_congr_left
  intro i hi
  exact hget i (mem_range.mp hi)

/-! ### The operations -/

section
variable {q : MicrotaskQueue T} {newCapacity : Nat}

theorem get_resizeBuffer (hsize : q.size ≤ newCapacity) {i : Nat} (hi : i < q.size) :
    (resizeBuffer q newCapacity).get i = q.get i := by
  show load (copied q newCapacity q.size) ((i + 0) % newCapacity) = q.get i
  rw [add_zero, mod_eq_of_lt (by omega), load_copied q hsize hi]

theorem pending_resizeBuffer (hsize : q.size ≤ newCapacity) : (resizeBuffer q newCapacity).pending = q.pending :=
  pending_congr rfl fun _ hi => get_resizeBuffer hsize hi

theorem resizeBuffer_valid (hpow : ∃ k, newCapacity = 2 ^ k) (hmin : kMinimumCapacity ≤ newCapacity)
    (hsize : q.size ≤ newCapacity) : (resizeBuffer q newCapacity).Valid where
  pow := .inr ⟨hpow, hmin⟩
  length_eq := length_copied q newCapacity q.size
  size_le := hsize
  start_lt := id

variable {c : Nat}

theorem max_pow (h : c = 0 ∨ ∃ k, c = 2 ^ k) : ∃ k, max kMinimumCapacity c = 2 ^ k := by
  by_cases hle : c ≤ kMinimumCapacity
  · exact ⟨3, max_eq_left hle⟩
  · rw [max_eq_right (Nat.le_of_not_le hle)]
    exact h.resolve_left fun hzero => hle (hzero ▸ zero_le _)

section
variable (h : q.Valid)
include h

theorem Valid.pow_or_zero : q.capacity = 0 ∨ ∃ k, q.capacity = 2 ^ k :=
  h.pow.imp id And.left

/-- The buffer grows to a power of two. -/
theorem Valid.reserve : (reserve q).Valid ∧ (reserve q).size < (reserve q).capacity ∧ (reserve q).pending = q.pending := by
  unfold MicrotaskQueue.reserve
  by_cases hfu : q.size = q.capacity
  · have hpow : ∃ k, max kMinimumCapacity (q.capacity <<< 1) = 2 ^ k := by
      apply max_pow
      rw [shiftLeft_eq]
      rcases h.pow_or_zero with hzero | ⟨k, hk⟩
      · exact .inl (by omega)
      · exact .inr ⟨k + 1, by rw [hk, pow_one, pow_succ]⟩
    have hlt : q.size < max kMinimumCapacity (q.capacity <<< 1) := by
      rw [shiftLeft_eq, kMinimumCapacity]
      omega
    rw [if_pos hfu]
    exact ⟨resizeBuffer_valid hpow (le_max_left ..) hlt.le, hlt, pending_resizeBuffer hlt.le⟩
  · have := h.size_le
    rw [if_neg hfu]
    exact ⟨h, by omega, rfl⟩

theorem Valid.append (hroom : q.size < q.capacity) (microtask : T) :
    (append q microtask).Valid ∧ (append q microtask).pending = q.pending ++ [some microtask] := by
  constructor
  · constructor
    · exact h.pow
    · exact length_set.trans h.length_eq
    · exact hroom
    · exact h.start_lt
  · have hke : ∀ i < q.size, (MicrotaskQueue.append q microtask).get i = q.get i := by
      intro i hi
      rw [get, get, add_comm i, add_comm i]
      exact load_set_ne (slot_ne hi hroom).symm _
    have hnew : (MicrotaskQueue.append q microtask).get q.size = some microtask := by
      rw [get, add_comm]
      apply load_set_self
      rw [h.length_eq]
      exact mod_lt _ (by omega)
    rw [pending, pending]
    show (range (q.size + 1)).map _ = _
    rw [range_succ, map_append, map_singleton, hnew]
    congr 1
    apply map_congr_left
    intro i hi
    exact hke i (mem_range.mp hi)

variable {microtask : T} {q' : MicrotaskQueue T}

/-- C++ and the builtin put a microtask at the end. -/
theorem Valid.enqueueMicrotask (intercepted : Bool) (hq' : q.enqueueMicrotask intercepted microtask = some q') :
    q'.Valid ∧ q'.pending = q.pending ++ [some microtask] := by
  cases intercepted with
  | true => cases hq'
  | false =>
    cases hq'
    obtain ⟨hva, hroom, hp⟩ := h.reserve
    rw [← hp]
    exact hva.append hroom microtask

/-- Where there is room the two are one function. -/
theorem Valid.enqueueBuiltin_eq (hroom : q.size ≠ q.capacity) (intercepted : Bool) (microtask : T) :
    q.enqueueBuiltin intercepted microtask = q.enqueueMicrotask false microtask := by
  have hpos : 0 < q.capacity := by
    have := h.size_le
    omega
  rw [enqueueBuiltin, if_neg hroom, ringBufferOffset, h.mask hpos, MicrotaskQueue.enqueueMicrotask,
    MicrotaskQueue.reserve, if_neg hroom]
  rfl

theorem Valid.enqueueBuiltin (intercepted : Bool) (hq' : q.enqueueBuiltin intercepted microtask = some q') :
    q'.Valid ∧ q'.pending = q.pending ++ [some microtask] := by
  by_cases hfu : q.size = q.capacity
  · rw [MicrotaskQueue.enqueueBuiltin, if_pos hfu] at hq'
    exact h.enqueueMicrotask intercepted hq'
  · rw [h.enqueueBuiltin_eq hfu] at hq'
    exact h.enqueueMicrotask false hq'

/-- The first one is taken, and the rest stay in their order. -/
theorem Valid.dequeue {m : Option T} (hq' : q.dequeue = some (m, q')) : q'.Valid ∧ q.pending = m :: q'.pending := by
  unfold MicrotaskQueue.dequeue at hq'
  split at hq'
  · cases hq'
  next hsize =>
    have hpos : 0 < q.capacity := by
      have := h.size_le
      omega
    cases hq'
    rw [ringBufferOffset, ringBufferOffset, h.mask hpos, h.mask hpos]
    constructor
    · refine ⟨h.pow, h.length_eq, ?_, fun _ => mod_lt _ hpos⟩
      have := h.size_le
      show q.size - 1 ≤ q.capacity
      omega
    · obtain ⟨n, hn⟩ : ∃ n, q.size = n + 1 := ⟨q.size - 1, by omega⟩
      show (range q.size).map q.get = _ :: (range (q.size - 1)).map _
      rw [hn, range_succ_eq_map, map_cons, map_map, Nat.add_sub_cancel]
      congr 1
      · rw [get, zero_add, add_zero]
      · apply map_congr_left
        intro i _
        show load _ ((i + 1 + q.start) % q.capacity) = load _ ((i + (q.start + 1) % q.capacity) % q.capacity)
        rw [add_mod_mod]
        congr 2
        omega

end

/-- Halving a power of two as long as half of it has room for all. -/
theorem shrunk_spec {size : Nat} (hsize : size ≤ c) (hpow : c = 0 ∨ ∃ k, c = 2 ^ k) :
    size ≤ shrunk size c ∧ (shrunk size c = 0 ∨ ∃ k, shrunk size c = 2 ^ k) := by
  fun_induction shrunk size c with
  | case1 c hlt ih =>
    rw [shiftRight_one] at ih ⊢
    apply ih
    · omega
    · rcases hpow with hzero | ⟨k, rfl⟩
      · omega
      · cases k with
        | zero => exact .inl rfl
        | succ k => exact .inr ⟨k, by rw [pow_succ, Nat.mul_div_cancel _ Nat.two_pos]⟩
  | case2 c hle => exact ⟨hsize, hpow⟩

/-- The garbage collector takes nothing away. -/
theorem Valid.iterateMicrotasks (h : q.Valid) : q.iterateMicrotasks.Valid ∧ q.iterateMicrotasks.pending = q.pending := by
  obtain ⟨hsize, hpow⟩ := shrunk_spec h.size_le h.pow_or_zero
  have hroom : q.size ≤ max (shrunk q.size q.capacity) kMinimumCapacity := hsize.trans (le_max_left ..)
  unfold MicrotaskQueue.iterateMicrotasks
  dsimp only
  split
  · exact ⟨h, rfl⟩
  · split
    · refine ⟨resizeBuffer_valid ?_ (le_max_right ..) hroom, pending_resizeBuffer hroom⟩
      rw [max_comm]
      exact max_pow hpow
    · exact ⟨h, rfl⟩

/-! ### What the garbage collector sees -/

theorem visited_nodup (h : q.Valid) : (q.visitedFirst ++ q.visitedSecond).Nodup := by
  have hsize := h.size_le
  unfold visitedFirst visitedSecond
  split
  · exact nodup_nil
  · refine nodup_append.mpr ⟨nodup_range', nodup_range, ?_⟩
    intro a ha b hb
    have hfi := (mem_range'_1.mp ha).1
    have hse := mem_range.mp hb
    omega

theorem visited_pending (h : q.Valid) : (q.visitedFirst ++ q.visitedSecond).map (load q.ringBuffer) = q.pending := by
  have hsize := h.size_le
  unfold visitedFirst visitedSecond
  by_cases hzero : q.size = 0
  · rw [if_pos hzero, if_pos hzero, pending, hzero]
    rfl
  · have hst := h.start_lt (by omega)
    set n := min (q.start + q.size) q.capacity - q.start with hn
    set m := q.start + q.size - q.capacity with hm
    have hsp : q.size = n + m := by omega
    rw [if_neg hzero, if_neg hzero, pending, hsp, range_add, map_append, map_append]
    congr 1
    · rw [range'_eq_map_range, map_map]
      apply map_congr_left
      intro i hi
      have := mem_range.mp hi
      rw [get, mod_eq_of_lt (by omega), add_comm]
      rfl
    · rw [map_map]
      apply map_congr_left
      intro j hj
      have := mem_range.mp hj
      have hwr : n + j + q.start = j + q.capacity := by omega
      show _ = load q.ringBuffer ((n + j + q.start) % q.capacity)
      rw [hwr, add_mod_right, mod_eq_of_lt (by omega)]

end

/-! ### Runs -/

/-- What is done to the queue. `intercepted` tells what `TryInterceptAutoParallelMicrotask`
answers if the call gets to it. -/
inductive Action (T : Type) where
  | enqueueMicrotask (microtask : T) (intercepted : Bool)
  | enqueueBuiltin (microtask : T) (intercepted : Bool)
  | dequeue
  | iterateMicrotasks
  deriving DecidableEq, Repr

/-- The queue and its history: the microtasks that were put into it, those that went to
the pool instead, and what the rounds of `RunMicrotasks` got. -/
structure State (T : Type) where
  queue : MicrotaskQueue T := {}
  enqueued : List T := []
  posted : List T := []
  dequeued : List (Option T) := []
  deriving DecidableEq, Repr

namespace State

def enqueue (s : State T) (microtask : T) : Option (MicrotaskQueue T) → State T
  | some queue => {s with queue, enqueued := s.enqueued ++ [microtask]}
  | none => {s with posted := s.posted ++ [microtask]}

def step (s : State T) : Action T → State T
  | .enqueueMicrotask m intercepted => s.enqueue m (s.queue.enqueueMicrotask intercepted m)
  | .enqueueBuiltin m intercepted => s.enqueue m (s.queue.enqueueBuiltin intercepted m)
  | .dequeue =>
    match s.queue.dequeue with
    | some (m, queue) => {s with queue, dequeued := s.dequeued ++ [m]}
    | none => s
  | .iterateMicrotasks => {s with queue := s.queue.iterateMicrotasks}

def machine : Machine (State T) (Action T) := ⟨fun s a => some (s.step a)⟩

/-- Everything that was put in came out or is pending, in order. -/
def Fifo (s : State T) : Prop :=
  s.queue.Valid ∧ s.dequeued ++ s.queue.pending = s.enqueued.map some

variable {s : State T}

theorem Fifo.enqueue (h : s.Fifo) {m : T} {queue : Option (MicrotaskQueue T)}
    (hqueue : ∀ q', queue = some q' → q'.Valid ∧ q'.pending = s.queue.pending ++ [some m]) :
    (s.enqueue m queue).Fifo := by
  have ⟨_, ho⟩ := h
  cases queue with
  | none => exact h
  | some q' =>
    obtain ⟨hva, hp⟩ := hqueue q' rfl
    refine ⟨hva, ?_⟩
    show s.dequeued ++ q'.pending = (s.enqueued ++ [m]).map some
    rw [hp, ← append_assoc, ho, map_append, map_singleton]

theorem Fifo.step (h : s.Fifo) (a : Action T) : (s.step a).Fifo := by
  have ⟨hva, ho⟩ := h
  cases a with
  | enqueueMicrotask m intercepted => exact h.enqueue fun _ => hva.enqueueMicrotask intercepted
  | enqueueBuiltin m intercepted => exact h.enqueue fun _ => hva.enqueueBuiltin intercepted
  | dequeue =>
    rw [State.step]
    cases hde : s.queue.dequeue with
    | none => exact h
    | some result =>
      obtain ⟨m, q'⟩ := result
      obtain ⟨hv', hp⟩ := hva.dequeue hde
      refine ⟨hv', ?_⟩
      show s.dequeued ++ [m] ++ q'.pending = s.enqueued.map some
      rw [← ho, hp, append_assoc]
      rfl
  | iterateMicrotasks =>
    obtain ⟨hv', hp⟩ := hva.iterateMicrotasks
    refine ⟨hv', ?_⟩
    show s.dequeued ++ s.queue.iterateMicrotasks.pending = s.enqueued.map some
    rw [hp, ho]

theorem run_fifo {as : List (Action T)} (hrun : machine.run {} as = some s) : s.Fifo := by
  refine Machine.invariant ?_ ?_ hrun
  · intro s a s' h hst
    cases hst
    exact h.step a
  · exact ⟨empty_valid, rfl⟩

end State

def Action.microtask? : Action T → Option T
  | .enqueueMicrotask m _ => some m
  | .enqueueBuiltin m _ => some m
  | .dequeue | .iterateMicrotasks => none

def Action.intercepted : Action T → Bool
  | .enqueueMicrotask _ i => i
  | .enqueueBuiltin _ i => i
  | .dequeue | .iterateMicrotasks => false

namespace State

/-- Without interceptions every microtask goes to the queue. -/
theorem enqueued_step (s : State T) {a : Action T} (ha : a.intercepted = false) :
    (s.step a).enqueued = s.enqueued ++ a.microtask?.toList := by
  cases a with
  | enqueueMicrotask m intercepted =>
    cases ha
    rfl
  | enqueueBuiltin m intercepted =>
    cases ha
    rw [State.step, MicrotaskQueue.enqueueBuiltin]
    split <;> rfl
  | dequeue =>
    rw [State.step]
    cases s.queue.dequeue <;> exact (append_nil _).symm
  | iterateMicrotasks => exact (append_nil _).symm

theorem enqueued_run {as : List (Action T)} (has : ∀ a ∈ as, a.intercepted = false) {s t : State T}
    (hrun : machine.run s as = some t) : t.enqueued = s.enqueued ++ as.filterMap Action.microtask? := by
  induction as generalizing s with
  | nil =>
    cases hrun
    exact (append_nil _).symm
  | cons a rest ih =>
    obtain ⟨s', hst, hrest⟩ := Machine.run_cons_some hrun
    cases hst
    rw [ih (fun b hb => has b (mem_cons_of_mem _ hb)) hrest, enqueued_step s (has a mem_cons_self)]
    cases hm : a.microtask? with
    | none | some => simp [hm]

/-- The queue is a FIFO, whoever works on it. -/
theorem microtasks_fifo {as : List (Action T)} {s : State T} (hrun : machine.run {} as = some s)
    (has : ∀ a ∈ as, a.intercepted = false) :
    (s.queue.capacity = 0 ∨ (∃ k, s.queue.capacity = 2 ^ k) ∧ 8 ≤ s.queue.capacity) ∧ s.queue.size ≤ s.queue.capacity ∧
      (0 < s.queue.capacity → s.queue.start < s.queue.capacity) ∧
      s.dequeued ++ s.queue.pending = (as.filterMap Action.microtask?).map some ∧
      (s.queue.visitedFirst ++ s.queue.visitedSecond).Nodup ∧
      (s.queue.visitedFirst ++ s.queue.visitedSecond).map (load s.queue.ringBuffer) = s.queue.pending := by
  obtain ⟨hvalid, horder⟩ := run_fifo hrun
  rw [enqueued_run has hrun, nil_append] at horder
  exact ⟨hvalid.pow, hvalid.size_le, hvalid.start_lt, horder, visited_nodup hvalid, visited_pending hvalid⟩

/-- Nine microtasks make the buffer grow to sixteen slots, eight rounds empty it but for
one, and the garbage collector shrinks it again. -/
def growRun : List (Action Nat) :=
  (range 9).map (.enqueueBuiltin · false) ++ replicate 8 .dequeue ++
    [.iterateMicrotasks, .enqueueMicrotask 9 false, .dequeue]

theorem microtasks_fifo_growRun : ∃ s, machine.run {} growRun = some s ∧
      s.dequeued ++ s.queue.pending = (growRun.filterMap Action.microtask?).map some := by
  refine ⟨_, rfl, ?_⟩
  exact (microtasks_fifo rfl (by decide)).2.2.2.1

example : (machine.run {} growRun).map (fun s => (s.queue.capacity, s.dequeued.length, s.queue.pending)) =
    some (8, 9, [some 9]) := by
  decide +kernel

end State
end MicrotaskQueue
end V8Multithread.Execution
