import V8Multithread.Threading.Channel

/-! Back-pressure and promises.

`Pressed` is what holds of the three queues between any two critical sections: a
bounded channel never holds more than its capacity, senders are parked only behind
a full queue, receivers only before an empty one that is still open.

Beside the queues stand the promises. Every promise a call makes is settled, or
carried by one task, or parked with its call, and never two of these
(`Accounted`). -/
namespace V8Multithread.Threading.Channel
open List Nat ChannelState

/-! ### The queues -/

structure ChannelState.Pressed (c : ChannelState) : Prop where
  bounded : 0 < c.capacity → c.messages.length ≤ c.capacity
  full : c.pendingSenders ≠ [] → 0 < c.capacity ∧ c.messages.length = c.capacity
  starved : c.pendingReceivers ≠ [] → c.messages = [] ∧ c.pendingSenders = [] ∧ c.closed = false

namespace ChannelState.Pressed

variable {c : ChannelState}

section
variable (h : c.Pressed)
include h

/-- Behind parked senders there is a message to take. -/
theorem messages_ne (hp : c.pendingSenders ≠ []) : c.messages ≠ [] := by
  intro hm
  obtain ⟨hpos, hlen⟩ := h.full hp
  rw [hm, length_nil] at hlen
  omega

theorem no_senders (hm : c.messages = []) : c.pendingSenders = [] := by
  by_cases hp : c.pendingSenders = []
  · exact hp
  · exact absurd hm (h.messages_ne hp)

theorem no_receivers (hm : c.messages ≠ []) : c.pendingReceivers = [] := by
  by_cases hp : c.pendingReceivers = []
  · exact hp
  · exact absurd (h.starved hp).1 hm

theorem send (sender : PendingSender) : (c.send sender).1.Pressed := by
  unfold ChannelState.send
  split
  case h_1 pending rest hr =>
    have hst := h.starved (by rw [hr]; exact cons_ne_nil pending rest)
    exact ⟨h.bounded, h.full, fun _ => hst⟩
  case h_2 hr =>
    split
    case isTrue hfu =>
      have hlen : c.messages.length = c.capacity := Nat.le_antisymm (h.bounded hfu.1) hfu.2
      exact ⟨h.bounded, fun _ => ⟨hfu.1, hlen⟩, fun hne => absurd hr hne⟩
    case isFalse hroom =>
      have hse : c.pendingSenders = [] := by
        by_cases hp : c.pendingSenders = []
        · exact hp
        · obtain ⟨hpos, hlen⟩ := h.full hp
          exact absurd ⟨hpos, Nat.le_of_eq hlen.symm⟩ hroom
      refine ⟨?_, fun hne => absurd hse hne, fun hne => absurd hr hne⟩
      intro hpos
      have hlt : c.messages.length < c.capacity := by
        by_contra hge
        exact hroom ⟨hpos, Nat.le_of_not_lt hge⟩
      simp only [length_append, length_singleton]
      omega

theorem recvInternal (receiver : PendingReceiver) : (c.recvInternal receiver).1.Pressed := by
  unfold ChannelState.recvInternal
  split
  case isTrue => exact h
  case isFalse ho =>
    split
    case h_1 msg rest hm =>
      have hre := h.no_receivers (by rw [hm]; exact cons_ne_nil msg rest)
      split
      case h_1 pending others hs =>
        -- the freed place is taken by a parked message, so the queue stays full
        obtain ⟨hpos, hlen⟩ := h.full (by rw [hs]; exact cons_ne_nil pending others)
        rw [hm, length_cons] at hlen
        refine ⟨fun _ => ?_, fun _ => ⟨hpos, ?_⟩, fun hne => absurd hre hne⟩
        · simp only [length_append, length_singleton]
          omega
        · simp only [length_append, length_singleton]
          omega
      case h_2 hs =>
        refine ⟨fun hpos => ?_, fun hne => absurd hs hne, fun hne => absurd hre hne⟩
        have := h.bounded hpos
        rw [hm, length_cons] at this
        show rest.length ≤ c.capacity
        omega
    case h_2 hm =>
      have hcl : c.closed = false := by
        by_contra hc
        exact ho ⟨by simpa using hc, hm⟩
      exact ⟨h.bounded, h.full, fun _ => ⟨hm, h.no_senders hm, hcl⟩⟩

theorem close : c.close.1.Pressed :=
  ⟨h.bounded, h.full, fun hne => absurd rfl hne⟩

end

end ChannelState.Pressed

theorem new_pressed (capacity : Nat) : (new capacity).Pressed :=
  ⟨fun _ => zero_le _, fun hne => absurd rfl hne, fun hne => absurd rfl hne⟩

/-! ### The promises -/

namespace State
variable {V : Type}

def settlements (s : State V) (resolver : Resolver) : Nat := (s.settled.map Prod.fst).count resolver

def parkedSends (s : State V) : List Resolver := s.channel.pendingSenders.map (·.resolver)

def parkedRequests (s : State V) : List Resolver := s.channel.pendingReceivers.map (·.resolver)

/-- Promises are made in order, so those below `fresh` exist. -/
def made (fresh resolver : Resolver) : Nat := if resolver < fresh then 1 else 0

/-- A promise that exists is settled, carried by a task or parked, and only one of
these; one that does not exist is none. -/
def Accounted (s : State V) : Prop :=
  ∀ r, s.settlements r + s.carried r + s.parkedSends.count r + s.parkedRequests.count r = made s.fresh r

/-- Sends and requests have promises of their own. -/
structure Apart (s : State V) : Prop where
  sends_lt : ∀ r ∈ s.sends.map Prod.fst, r < s.fresh
  requests_lt : ∀ r ∈ s.requests, r < s.fresh
  parked : ∀ r ∈ s.parkedRequests, r ∈ s.requests
  disjoint : ∀ r ∈ s.sends.map Prod.fst, r ∉ s.requests

theorem initial_accounted (capacity : Nat) : (initial (.new capacity) : State V).Accounted := by
  intro r
  simp [settlements, carried, carriedBy, parkedSends, parkedRequests, initial, new, made]

theorem initial_apart (capacity : Nat) : (initial (.new capacity) : State V).Apart := by
  constructor <;> simp [initial, parkedRequests, new]

theorem made_succ (fresh r : Nat) : made (fresh + 1) r = made fresh r + [fresh].count r := by
  rw [count_singleton]
  by_cases heq : fresh = r
  · simp [made, heq]
  · have hne : (fresh == r) = false := beq_eq_false_iff_ne.mpr heq
    have hiff : r < fresh + 1 ↔ r < fresh := by omega
    simp [made, hne, hiff]

variable {host : Host V} {s s' : State V} {a : Action} {r : Resolver}

theorem Accounted.effect (h : s.Accounted) (he : Effect host s a s') : s'.Accounted := by
  intro r
  have hr := h r
  cases he with
  | off => exact hr
  | handOff _ _ hp | takeWaking _ hp =>
    obtain ⟨tasks, deleted, hframe, hco⟩ := dispatch_frame host _ _ _ _
    have hc := hco r
    rw [hframe]
    simp only [settlements, carried, parkedSends, parkedRequests, settle, hp, made_succ,
      ChannelTask.resolver, map_append, map_cons, map_nil, count_append,
      count_cons, count_nil] at hr hc ⊢
    omega
  | parkSender sending he hp =>
    simp only [settlements, carried, parkedSends, parkedRequests, hp, made_succ,
      map_append, map_cons, map_nil, count_append, count_nil] at hr ⊢
    omega
  | enqueue sending he hp =>
    simp only [settlements, carried, parkedSends, parkedRequests, settle, hp, made_succ,
      map_append, map_cons, map_nil, count_append, count_nil] at hr ⊢
    omega
  | refuse | take =>
    simp only [settlements, carried, parkedSends, parkedRequests, settle, made_succ,
      map_append, map_cons, map_nil, count_append] at hr ⊢
    omega
  | parkReceiver =>
    simp only [settlements, carried, parkedSends, parkedRequests, made_succ,
      map_append, map_cons, map_nil, count_append] at hr ⊢
    omega
  | close =>
    obtain ⟨tasks, deleted, hframe, hco⟩ := closeChannel_frame host s
    have hc := hco r
    rw [hframe]
    simp only [settlements, carried, parkedSends, parkedRequests, map_nil, count_nil] at hr hc ⊢
    omega
  | @run i d task hta =>
    have hpe := getElem_cons_eraseIdx_perm (List.getElem?_eq_some_iff.mp hta).1
    rw [(List.getElem?_eq_some_iff.mp hta).2] at hpe
    have hc := (hpe.map fun t => t.2.resolver).count_eq r
    simp only [settlements, carried, carriedBy, parkedSends, parkedRequests, settle,
      map_append, map_cons, map_nil, count_append, count_cons,
      count_nil] at hr hc ⊢
    omega

theorem pressed_effect (h : s.channel.Pressed) (he : Effect host s a s') : s'.channel.Pressed := by
  have hse := fun args msg =>
    h.send ⟨msg, SendArgs.isolate args, SendArgs.workerIndex args, s.fresh⟩
  have hre := fun args =>
    h.recvInternal ⟨RecvArgs.isolate args, RecvArgs.workerIndex args, s.fresh, RecvArgs.isNext args⟩
  cases he with
  | off | refuse | run => exact h
  | @handOff _ args msg _ _ _ _ hr =>
    obtain ⟨tasks, deleted, hframe, _⟩ := dispatch_frame host _ _ _ _
    have := hse args msg
    rw [send_handOff hr] at this
    rw [hframe]
    exact this
  | @parkSender _ args msg _ _ hr hpos hfu =>
    have := hse args msg
    rw [send_park hr ⟨hpos, hfu⟩] at this
    exact this
  | @enqueue _ args msg _ _ hr hroom =>
    have := hse args msg
    rw [send_enqueue hr hroom] at this
    exact this
  | @take _ args _ _ hm hs =>
    have := hre args
    rw [recvInternal_take hm hs] at this
    exact this
  | @takeWaking _ args _ _ _ _ hm hs =>
    obtain ⟨tasks, deleted, hframe, _⟩ := dispatch_frame host _ _ _ _
    have := hre args
    rw [recvInternal_takeWaking hm hs] at this
    rw [hframe]
    exact this
  | @parkReceiver _ args hc hm =>
    have := hre args
    rw [recvInternal_park hc hm] at this
    exact this
  | close =>
    obtain ⟨tasks, deleted, hframe, _⟩ := closeChannel_frame host s
    rw [hframe]
    exact h.close

/-- A call that makes the next promise keeps the two kinds apart. -/
theorem Apart.grow (h : s.Apart) (hfresh : s'.fresh = s.fresh + 1)
    (hse : ∀ r ∈ s'.sends.map Prod.fst, r ∈ s.sends.map Prod.fst ∨ r = s.fresh)
    (hre : ∀ r ∈ s'.requests, r ∈ s.requests ∨ r = s.fresh) (hp : ∀ r ∈ s'.parkedRequests, r ∈ s'.requests)
    (hone : s.fresh ∈ s'.sends.map Prod.fst → s.fresh ∉ s'.requests) : s'.Apart := by
  refine ⟨fun r hr => ?_, fun r hr => ?_, hp, fun r hr hq => ?_⟩
  · rw [hfresh]
    rcases hse r hr with hr | rfl
    · exact lt_succ_of_lt (h.sends_lt r hr)
    · exact lt_succ_self _
  · rw [hfresh]
    rcases hre r hr with hr | rfl
    · exact lt_succ_of_lt (h.requests_lt r hr)
    · exact lt_succ_self _
  · rcases hse r hr with hs | rfl
    · rcases hre r hq with hq | rfl
      · exact h.disjoint r hs hq
      · exact lt_irrefl _ (h.sends_lt _ hs)
    · exact hone hr hq

theorem Apart.sent (h : s.Apart) {msg : ChannelMessage} (hfresh : s'.fresh = s.fresh + 1)
    (hse : s'.sends = s.sends ++ [(s.fresh, msg)]) (hre : s'.requests = s.requests)
    (hp : ∀ r ∈ s'.parkedRequests, r ∈ s.parkedRequests) :
    s'.Apart := by
  refine h.grow hfresh (fun r hr => ?_) (fun r hr => .inl (hre ▸ hr)) (fun r hr => ?_) fun _ hq => ?_
  · rw [hse, map_append, mem_append] at hr
    exact hr.imp_right fun hr => mem_singleton.mp hr
  · rw [hre]
    exact h.parked r (hp r hr)
  · rw [hre] at hq
    exact lt_irrefl _ (h.requests_lt _ hq)

theorem Apart.requested (h : s.Apart) (hfresh : s'.fresh = s.fresh + 1) (hse : s'.sends = s.sends)
    (hre : s'.requests = s.requests ++ [s.fresh])
    (hp : ∀ r ∈ s'.parkedRequests, r ∈ s.parkedRequests ∨ r = s.fresh) : s'.Apart := by
  refine h.grow hfresh (fun r hr => .inl (hse ▸ hr)) (fun r hr => ?_) (fun r hr => ?_) fun hr => ?_
  · rw [hre, mem_append] at hr
    exact hr.imp_right fun hr => mem_singleton.mp hr
  · rw [hre, mem_append]
    exact (hp r hr).imp (h.parked r) mem_singleton.mpr
  · rw [hse] at hr
    exact absurd (h.sends_lt _ hr) (lt_irrefl _)

theorem Apart.effect (h : s.Apart) (he : Effect host s a s') : s'.Apart := by
  cases he with
  | off | run => exact ⟨h.sends_lt, h.requests_lt, h.parked, h.disjoint⟩
  | handOff _ _ hr =>
    obtain ⟨tasks, deleted, hframe, _⟩ := dispatch_frame host _ _ _ _
    rw [hframe]
    refine h.sent rfl rfl rfl fun r hmem => ?_
    rw [parkedRequests, hr]
    exact mem_cons_of_mem _ hmem
  | parkSender | enqueue => exact h.sent rfl rfl rfl fun _ hmem => hmem
  | refuse | take => exact h.requested rfl rfl rfl fun _ hmem => .inl hmem
  | takeWaking =>
    obtain ⟨tasks, deleted, hframe, _⟩ := dispatch_frame host _ _ _ _
    rw [hframe]
    exact h.requested rfl rfl rfl fun _ hmem => .inl hmem
  | parkReceiver =>
    refine h.requested rfl rfl rfl fun r hmem => ?_
    simpa [parkedRequests] using hmem
  | close =>
    obtain ⟨tasks, deleted, hframe, _⟩ := closeChannel_frame host s
    rw [hframe]
    exact ⟨h.sends_lt, h.requests_lt, fun r hmem => absurd hmem not_mem_nil, h.disjoint⟩

structure Sound (s : State V) : Prop where
  pressed : s.channel.Pressed
  accounted : s.Accounted
  apart : s.Apart

theorem initial_sound (capacity : Nat) : (initial (.new capacity) : State V).Sound :=
  ⟨new_pressed capacity, initial_accounted capacity, initial_apart capacity⟩

theorem Sound.effect (h : s.Sound) (he : Effect host s a s') : s'.Sound :=
  ⟨pressed_effect h.pressed he, h.accounted.effect he, h.apart.effect he⟩

theorem run_sound {capacity : Nat} {as : List Action}
    (hrun : (machine host).run (initial (.new capacity)) as = some s) : s.Sound :=
  Machine.invariant (fun _ _ _ h hst => h.effect (step_effect hst)) (initial_sound capacity) hrun

end State

/-! A worker fills a channel of capacity one, sends again and is parked; a receiver
outside the pool takes the first message. The second is then in the queue, and its
promise waits for a task that the worker has yet to run. -/

def plainHost : Host (List UInt8) := ⟨fun _ => true, fun msg => .value msg.data⟩

def workerSend (byte : UInt8) : SendArgs := ⟨1, 0, 1, ⟨1, true⟩, some ⟨[byte], []⟩, true⟩

def outsideRecv : RecvArgs := ⟨0, -1, false, ⟨1, true⟩, true⟩

def wakingRun : List Action :=
  [.sendCheck 1 (workerSend 10), .sendEnter 1, .sendCheck 1 (workerSend 11), .sendEnter 1, .recv 0 outsideRecv]

end V8Multithread.Threading.Channel
