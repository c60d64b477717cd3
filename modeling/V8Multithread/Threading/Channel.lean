import V8Multithread.Base.Machine
import V8Multithread.Threading.Task

/-! The channel.

A `ChannelState` is shared by any number of senders and receivers in any number of
isolates. Its three queues are guarded by one mutex, so each call changes them in
one critical section: `ChannelState.send`, `ChannelState.recvInternal` and
`ChannelState.close`. What the calls do around the critical section is in the steps
of `machine`: the checks that throw, the promise that is settled at once, the task
that settles the promise of another isolate.

`Send` reads `closed` before it takes the mutex. That read is a step of its own
(`Action.sendCheck`); the critical section comes later (`Action.sendEnter`), and
anything may happen between the two. -/
namespace V8Multithread.Threading.Channel
open List

/-! ### The queues -/

structure ChannelMessage where
  data : List UInt8
  /-- The transferred backing stores, by their addresses. -/
  backingStores : List Nat
  deriving DecidableEq, Repr

structure PendingReceiver where
  isolate : Isolate
  workerIndex : Int
  resolver : Resolver
  isNext : Bool
  deriving DecidableEq, Repr

structure PendingSender where
  msg : ChannelMessage
  isolate : Isolate
  workerIndex : Int
  resolver : Resolver
  deriving DecidableEq, Repr

structure ChannelState where
  messages : List ChannelMessage
  pendingReceivers : List PendingReceiver
  pendingSenders : List PendingSender
  capacity : Nat
  closed : Bool
  deriving DecidableEq, Repr

def ChannelState.new (capacity : Nat) : ChannelState := ⟨[], [], [], capacity, false⟩

/-- What `Thread.channel(capacity)` makes. The argument is converted to a 64-bit
integer and stored in a `size_t`; anything but a number leaves it 0. -/
def threadChannel (capacity : Option Int) : ChannelState :=
  .new ((capacity.getD 0) % 2 ^ 64).toNat

/-- What became of a message in `Send`'s critical section. -/
inductive SendRoute where
  | handOff (receiver : PendingReceiver)
  | parked
  | queued

/-- What became of a request in `RecvInternal`'s critical section. `woken` is the
parked sender whose message took the freed place. -/
inductive RecvRoute where
  | closed
  | message (msg : ChannelMessage) (woken : Option PendingSender)
  | parked

namespace ChannelState

def send (c : ChannelState) (sender : PendingSender) : ChannelState × SendRoute :=
  match c.pendingReceivers with
  | pending :: rest => ({c with pendingReceivers := rest}, .handOff pending)
  | [] =>
    if c.capacity > 0 ∧ c.messages.length ≥ c.capacity then
      ({c with pendingSenders := c.pendingSenders ++ [sender]}, .parked)
    else ({c with messages := c.messages ++ [sender.msg]}, .queued)

def recvInternal (c : ChannelState) (receiver : PendingReceiver) : ChannelState × RecvRoute :=
  if c.closed ∧ c.messages = [] then (c, .closed)
  else match c.messages with
    | msg :: rest =>
      match c.pendingSenders with
      | pending :: others =>
        ({c with messages := rest ++ [pending.msg], pendingSenders := others}, .message msg (some pending))
      | [] => ({c with messages := rest}, .message msg none)
    | [] => ({c with pendingReceivers := c.pendingReceivers ++ [receiver]}, .parked)

/-- `Close` sets the flag and takes every parked receiver out, oldest first. -/
def close (c : ChannelState) : ChannelState × List PendingReceiver :=
  ({c with closed := true, pendingReceivers := []}, c.pendingReceivers)

variable {c : ChannelState} {sender pending : PendingSender} {others : List PendingSender}
  {receiver first : PendingReceiver} {behind : List PendingReceiver} {msg : ChannelMessage}
  {rest : List ChannelMessage}

theorem send_handOff (hr : c.pendingReceivers = first :: behind) :
    c.send sender = ({c with pendingReceivers := behind}, .handOff first) := by
  simp only [send, hr]

theorem send_park (hr : c.pendingReceivers = []) (hfu : 0 < c.capacity ∧ c.capacity ≤ c.messages.length) :
    c.send sender = ({c with pendingSenders := c.pendingSenders ++ [sender]}, .parked) := by
  simp only [send, hr]
  exact if_pos hfu

theorem send_enqueue (hr : c.pendingReceivers = []) (hroom : ¬ (0 < c.capacity ∧ c.capacity ≤ c.messages.length)) :
    c.send sender = ({c with messages := c.messages ++ [sender.msg]}, .queued) := by
  simp only [send, hr]
  exact if_neg hroom

theorem recvInternal_refuse (hc : c.closed) (hm : c.messages = []) : c.recvInternal receiver = (c, .closed) := by
  unfold recvInternal
  rw [if_pos ⟨hc, hm⟩]

theorem recvInternal_park (hc : c.closed = false) (hm : c.messages = []) : c.recvInternal receiver =
      ({c with pendingReceivers := c.pendingReceivers ++ [receiver]}, .parked) := by
  simp only [recvInternal, hc, hm, Bool.false_eq_true, false_and, if_false]

theorem recvInternal_take (hm : c.messages = msg :: rest) (hs : c.pendingSenders = []) :
    c.recvInternal receiver = ({c with messages := rest}, .message msg none) := by
  simp only [recvInternal, hm, hs, reduceCtorEq, and_false, if_false]

theorem recvInternal_takeWaking (hm : c.messages = msg :: rest) (hs : c.pendingSenders = pending :: others) :
    c.recvInternal receiver = ({c with messages := rest ++ [pending.msg], pendingSenders := others},
        .message msg (some pending)) := by
  simp only [recvInternal, hm, hs, reduceCtorEq, and_false, if_false]

end ChannelState

/-! ### Tasks that settle a promise of another isolate -/

inductive ChannelTask where
  | resolveSender (isolate : Isolate) (resolver : Resolver)
  | resolveChannel (isolate : Isolate) (data : ChannelMessage) (resolver : Resolver) (isNext : Bool)
  | resolveClose (isolate : Isolate) (resolver : Resolver) (isNext : Bool)
  deriving DecidableEq, Repr

def ChannelTask.resolver : ChannelTask → Resolver
  | .resolveSender _ resolver => resolver
  | .resolveChannel _ _ resolver _ => resolver
  | .resolveClose _ resolver _ => resolver

inductive Reading (V : Type) where
  | headerFailed
  | valueFailed
  | value (v : V)

/-- What the channel asks of the embedder and of the deserializer. -/
structure Host (V : Type) where
  hasRunner : Isolate → Bool
  readMessage : ChannelMessage → Reading V

section Settle
variable {V : Type} (host : Host V)

def settleMessage (msg : ChannelMessage) (isNext : Bool) : Settlement V :=
  match host.readMessage msg with
  | .headerFailed => .rejected (.error "Failed to deserialize message header")
  | .valueFailed => .rejected (.error "Failed to deserialize message")
  | .value v => if isNext then .iterResult (some v) false else .value v

def settleClosed (isNext : Bool) : Settlement V :=
  if isNext then .iterResult none true else .undefined

/-- What a task's `RunInternal` settles its promise with. -/
def ChannelTask.runInternal : ChannelTask → Settlement V
  | .resolveSender _ _ => .undefined
  | .resolveChannel _ data _ isNext => settleMessage host data isNext
  | .resolveClose _ _ isNext => settleClosed isNext

end Settle

/-! ### Calls -/

structure SendArgs where
  isolate : Isolate
  workerIndex : Int
  length : Nat
  holder : Holder
  /-- What the serializer makes of the message, if it can write it. -/
  serialized : Option ChannelMessage
  resolverMade : Bool

structure RecvArgs where
  isolate : Isolate
  workerIndex : Int
  isNext : Bool
  holder : Holder
  resolverMade : Bool

/-- What `Send` throws before it serializes, given what it read of `closed`. -/
def sendThrows (args : SendArgs) (closed : Bool) : Option Exception :=
  if args.length < 1 then some (.typeError "Message required")
  else if args.holder.internalFieldCount < 1 then some (.typeError "Invalid receiver object")
  else if !args.holder.wrapped then some (.typeError "Channel is closed")
  else if closed then some (.error "Channel is closed")
  else none

def recvThrows (args : RecvArgs) : Option Exception :=
  if args.holder.internalFieldCount < 1 then some (.typeError "Invalid receiver object")
  else if !args.holder.wrapped then some (.typeError "Channel is closed")
  else none

/-! ### The machine -/

/-- The channel, the calls and tasks around it, and what has happened so far.
`sends`, `requests`, `handed` and `refused` are history: the sends and the requests
in the order of their critical sections, each with its promise; the message each
request was given; the requests that were told the channel is closed. -/
structure State (V : Type) where
  channel : ChannelState
  /-- Threads between `Send`'s read of `closed` and its critical section. -/
  sending : Nat → Option SendArgs
  /-- Tasks on their way to the isolate of their promise. -/
  tasks : List (Destination × ChannelTask)
  /-- Tasks deleted for want of a foreground task runner. -/
  deleted : List ChannelTask
  settled : List (Resolver × Settlement V)
  thrown : List (Nat × Exception)
  fresh : Resolver
  sends : List (Resolver × ChannelMessage)
  requests : List Resolver
  handed : List (Resolver × ChannelMessage)
  refused : List Resolver

inductive Action where
  | sendCheck (thread : Nat) (args : SendArgs)
  | sendEnter (thread : Nat)
  | recv (thread : Nat) (args : RecvArgs)
  | close (thread : Nat) (holder : Holder)
  | runTask (i : Nat)

namespace State
variable {V : Type}

def initial (channel : ChannelState) : State V :=
  ⟨channel, fun _ => none, [], [], [], [], 0, [], [], [], []⟩

def settle (s : State V) (resolver : Resolver) (v : Settlement V) : State V :=
  {s with settled := s.settled ++ [(resolver, v)]}

def throwException (s : State V) (thread : Nat) (e : Exception) : State V :=
  {s with thrown := s.thrown ++ [(thread, e)]}

/-- Send a task to the isolate that owns its promise, or delete it. -/
def dispatch (host : Host V) (s : State V) (isolate : Isolate) (workerIndex : Int) (task : ChannelTask) : State V :=
  match destination host.hasRunner isolate workerIndex with
  | .deleted => {s with deleted := s.deleted ++ [task]}
  | d => {s with tasks := s.tasks ++ [(d, task)]}

/-- The call and the message with which a thread's `Send` enters its critical
section, when it gets that far. -/
def entering (s : State V) (thread : Nat) : Option (SendArgs × ChannelMessage) :=
  match s.sending thread with
  | some args => if args.resolverMade then args.serialized.map fun msg => (args, msg) else none
  | none => none

/-- `Send` from its critical section on. -/
def sendMessage (host : Host V) (s : State V) (args : SendArgs) (msg : ChannelMessage) : State V :=
  let resolver := s.fresh
  let (channel, route) := s.channel.send ⟨msg, args.isolate, args.workerIndex, resolver⟩
  let s := {s with
    channel := channel
    fresh := resolver + 1
    sends := s.sends ++ [(resolver, msg)] }
  match route with
  | .handOff pending =>
    let s := {s with handed := s.handed ++ [(pending.resolver, msg)]}
    (s.dispatch host pending.isolate pending.workerIndex
      (.resolveChannel pending.isolate msg pending.resolver pending.isNext)).settle resolver .undefined
  | .parked => s
  | .queued => s.settle resolver .undefined

/-- `RecvInternal` from its critical section on. -/
def receive (host : Host V) (s : State V) (args : RecvArgs) : State V :=
  let resolver := s.fresh
  let (channel, route) :=
    s.channel.recvInternal ⟨args.isolate, args.workerIndex, resolver, args.isNext⟩
  let s := {s with
    channel := channel
    fresh := resolver + 1
    requests := s.requests ++ [resolver] }
  match route with
  | .closed => {s with refused := s.refused ++ [resolver]}.settle resolver (settleClosed args.isNext)
  | .message msg woken =>
    let s := {s with handed := s.handed ++ [(resolver, msg)]}
    let s := match woken with
      | some pending => s.dispatch host pending.isolate pending.workerIndex
          (.resolveSender pending.isolate pending.resolver)
      | none => s
    s.settle resolver (settleMessage host msg args.isNext)
  | .parked => s

/-- `Close`: the drained receivers are told in order. -/
def closeChannel (host : Host V) (s : State V) : State V :=
  let (channel, drained) := s.channel.close
  let s := {s with channel := channel, refused := s.refused ++ drained.map (·.resolver)}
  drained.foldl (fun s pending => s.dispatch host pending.isolate pending.workerIndex
    (.resolveClose pending.isolate pending.resolver pending.isNext)) s

def step (host : Host V) (s : State V) : Action → Option (State V)
  | .sendCheck thread args =>
    if (s.sending thread).isSome then none
    else match sendThrows args s.channel.closed with
      | some e => some (s.throwException thread e)
      | none => some {s with sending := Function.update s.sending thread (some args)}
  | .sendEnter thread =>
    match s.sending thread with
    | none => none
    | some args =>
      let s := {s with sending := Function.update s.sending thread none}
      match args.serialized with
      | none => some (s.throwException thread (.error "Failed to serialize message"))
      | some msg => if args.resolverMade then some (s.sendMessage host args msg) else some s
  | .recv thread args =>
    if args.resolverMade then
      match recvThrows args with
      | some e => some (s.throwException thread e)
      | none => some (s.receive host args)
    else some s
  | .close thread holder =>
    if holder.internalFieldCount < 1 then
      some (s.throwException thread (.typeError "Invalid receiver object"))
    else if holder.wrapped then some (s.closeChannel host) else some s
  | .runTask i =>
    match s.tasks[i]? with
    | none => none
    | some (_, task) =>
      some ({s with tasks := s.tasks.eraseIdx i}.settle task.resolver (task.runInternal host))

end State

def machine {V : Type} (host : Host V) : Machine (State V) Action := ⟨State.step host⟩

/-! ### Sending tasks home

Whatever the destination, one task more is on its way or deleted, and nothing else
of the state moves. -/

def carriedBy (tasks : List (Destination × ChannelTask)) (deleted : List ChannelTask) (resolver : Resolver) : Nat :=
  (tasks.map fun t => t.2.resolver).count resolver + (deleted.map (·.resolver)).count resolver

namespace State
variable {V : Type}

def carried (s : State V) (resolver : Resolver) : Nat := carriedBy s.tasks s.deleted resolver

theorem dispatch_frame (host : Host V) (s : State V) (isolate : Isolate) (workerIndex : Int) (task : ChannelTask) :
    ∃ tasks deleted, s.dispatch host isolate workerIndex task = {s with tasks := tasks, deleted := deleted} ∧
      ∀ r, carriedBy tasks deleted r = s.carried r + [task.resolver].count r := by
  unfold dispatch
  split
  · refine ⟨s.tasks, _, rfl, fun r => ?_⟩
    simp only [carried, carriedBy, map_append, map_cons, map_nil, count_append]
    omega
  · refine ⟨_, s.deleted, rfl, fun r => ?_⟩
    simp only [carried, carriedBy, map_append, map_cons, map_nil, count_append]
    omega

theorem dispatchAll_frame (host : Host V) (s : State V) (drained : List PendingReceiver) :
    ∃ tasks deleted, drained.foldl (fun s pending => s.dispatch host pending.isolate
          pending.workerIndex (.resolveClose pending.isolate pending.resolver pending.isNext)) s =
        {s with tasks := tasks, deleted := deleted} ∧
      ∀ r, carriedBy tasks deleted r = s.carried r + (drained.map (·.resolver)).count r := by
  induction drained generalizing s with
  | nil => exact ⟨s.tasks, s.deleted, rfl, fun _ => rfl⟩
  | cons pending rest ih =>
    obtain ⟨tasks₁, deleted₁, hfi, hc₁⟩ := dispatch_frame host s pending.isolate
      pending.workerIndex (.resolveClose pending.isolate pending.resolver pending.isNext)
    obtain ⟨tasks, deleted, hrest, hco⟩ := ih {s with tasks := tasks₁, deleted := deleted₁}
    refine ⟨tasks, deleted, ?_, fun r => ?_⟩
    · rw [foldl_cons, hfi, hrest]
    · have h₁ := hc₁ r
      have h₂ := hco r
      simp only [carried, ChannelTask.resolver, map_cons, count_cons, count_nil] at h₁ h₂ ⊢
      omega

theorem closeChannel_frame (host : Host V) (s : State V) : ∃ tasks deleted, s.closeChannel host = {s with
          channel := {s.channel with closed := true, pendingReceivers := []}
          refused := s.refused ++ s.channel.pendingReceivers.map (·.resolver)
          tasks := tasks
          deleted := deleted } ∧
      ∀ r, carriedBy tasks deleted r = s.carried r + (s.channel.pendingReceivers.map (·.resolver)).count r :=
  dispatchAll_frame host _ s.channel.pendingReceivers

end State

/-! ### What a step does

`Effect` lists what a step can leave behind, branch by branch. Invariants are proved
by cases on it and never unfold `step`. -/

namespace State
variable {V : Type}

inductive Effect (host : Host V) (s : State V) : Action → State V → Prop where
  /-- A call that throws or returns before its critical section. -/
  | off {a : Action} (sending : Nat → Option SendArgs) (thrown : List (Nat × Exception)) :
      Effect host s a {s with sending := sending, thrown := thrown}
  | handOff {thread : Nat} {args : SendArgs} {msg : ChannelMessage} {pending : PendingReceiver}
      {rest : List PendingReceiver} (sending : Nat → Option SendArgs) :
      s.entering thread = some (args, msg) → s.channel.pendingReceivers = pending :: rest →
      Effect host s (.sendEnter thread) (({s with
            channel := {s.channel with pendingReceivers := rest}
            sending := sending
            fresh := s.fresh + 1
            sends := s.sends ++ [(s.fresh, msg)]
            handed := s.handed ++ [(pending.resolver, msg)] }.dispatch host pending.isolate
          pending.workerIndex
          (.resolveChannel pending.isolate msg pending.resolver pending.isNext)).settle s.fresh .undefined)
  | parkSender {thread : Nat} {args : SendArgs} {msg : ChannelMessage} (sending : Nat → Option SendArgs) :
      s.entering thread = some (args, msg) → s.channel.pendingReceivers = [] →
      0 < s.channel.capacity → s.channel.capacity ≤ s.channel.messages.length →
      Effect host s (.sendEnter thread) {s with
          channel := {s.channel with
            pendingSenders := s.channel.pendingSenders ++ [⟨msg, args.isolate, args.workerIndex, s.fresh⟩] }
          sending := sending
          fresh := s.fresh + 1
          sends := s.sends ++ [(s.fresh, msg)] }
  | enqueue {thread : Nat} {args : SendArgs} {msg : ChannelMessage} (sending : Nat → Option SendArgs) :
      s.entering thread = some (args, msg) → s.channel.pendingReceivers = [] →
      ¬ (0 < s.channel.capacity ∧ s.channel.capacity ≤ s.channel.messages.length) →
      Effect host s (.sendEnter thread) ({s with
          channel := {s.channel with messages := s.channel.messages ++ [msg]}
          sending := sending
          fresh := s.fresh + 1
          sends := s.sends ++ [(s.fresh, msg)] }.settle s.fresh .undefined)
  | refuse {thread : Nat} {args : RecvArgs} : s.channel.closed = true → s.channel.messages = [] →
      Effect host s (.recv thread args) ({s with
          fresh := s.fresh + 1
          requests := s.requests ++ [s.fresh]
          refused := s.refused ++ [s.fresh] }.settle s.fresh (settleClosed args.isNext))
  | take {thread : Nat} {args : RecvArgs} {msg : ChannelMessage} {rest : List ChannelMessage} :
      s.channel.messages = msg :: rest → s.channel.pendingSenders = [] →
      Effect host s (.recv thread args) ({s with
          channel := {s.channel with messages := rest}
          fresh := s.fresh + 1
          requests := s.requests ++ [s.fresh]
          handed := s.handed ++ [(s.fresh, msg)] }.settle s.fresh (settleMessage host msg args.isNext))
  | takeWaking {thread : Nat} {args : RecvArgs} {msg : ChannelMessage}
      {rest : List ChannelMessage} {pending : PendingSender} {others : List PendingSender} :
      s.channel.messages = msg :: rest → s.channel.pendingSenders = pending :: others →
      Effect host s (.recv thread args) (({s with
            channel := {s.channel with
              messages := rest ++ [pending.msg]
              pendingSenders := others }
            fresh := s.fresh + 1
            requests := s.requests ++ [s.fresh]
            handed := s.handed ++ [(s.fresh, msg)] }.dispatch host pending.isolate
          pending.workerIndex (.resolveSender pending.isolate pending.resolver)).settle s.fresh
            (settleMessage host msg args.isNext))
  | parkReceiver {thread : Nat} {args : RecvArgs} : s.channel.closed = false → s.channel.messages = [] →
      Effect host s (.recv thread args) {s with
          channel := {s.channel with
            pendingReceivers := s.channel.pendingReceivers ++ [⟨args.isolate, args.workerIndex, s.fresh, args.isNext⟩] }
          fresh := s.fresh + 1
          requests := s.requests ++ [s.fresh] }
  | close {thread : Nat} {holder : Holder} : Effect host s (.close thread holder) (s.closeChannel host)
  | run {i : Nat} {d : Destination} {task : ChannelTask} : s.tasks[i]? = some (d, task) → Effect host s (.runTask i)
        ({s with tasks := s.tasks.eraseIdx i}.settle task.resolver (task.runInternal host))

theorem sendMessage_effect {host : Host V} {s : State V} {thread : Nat} {args : SendArgs}
    {msg : ChannelMessage} (he : s.entering thread = some (args, msg))
    (sending : Nat → Option SendArgs) :
    Effect host s (.sendEnter thread) ({s with sending := sending}.sendMessage host args msg) := by
  cases hr : s.channel.pendingReceivers with
  | cons pending rest =>
    simp only [sendMessage, ChannelState.send_handOff hr]
    exact .handOff sending he hr
  | nil =>
    by_cases hfu : 0 < s.channel.capacity ∧ s.channel.capacity ≤ s.channel.messages.length
    · simp only [sendMessage, ChannelState.send_park hr hfu]
      exact .parkSender sending he hr hfu.1 hfu.2
    · simp only [sendMessage, ChannelState.send_enqueue hr hfu]
      exact .enqueue sending he hr hfu

theorem receive_effect (host : Host V) (s : State V) (thread : Nat) (args : RecvArgs) :
    Effect host s (.recv thread args) (s.receive host args) := by
  cases hm : s.channel.messages with
  | nil =>
    cases hc : s.channel.closed with
    | true =>
      simp only [receive, ChannelState.recvInternal_refuse hc hm]
      exact .refuse hc hm
    | false =>
      simp only [receive, ChannelState.recvInternal_park hc hm]
      exact .parkReceiver hc hm
  | cons msg rest =>
    cases hs : s.channel.pendingSenders with
    | nil =>
      simp only [receive, ChannelState.recvInternal_take hm hs]
      exact .take hm hs
    | cons pending others =>
      simp only [receive, ChannelState.recvInternal_takeWaking hm hs]
      exact .takeWaking hm hs

theorem step_effect {host : Host V} {s s' : State V} {a : Action}
    (h : (machine host).step s a = some s') : Effect host s a s' := by
  change s.step host a = some s' at h
  cases a with
  | sendCheck thread args =>
    simp only [step] at h
    split at h
    · cases h
    · split at h
      · cases h
        exact .off s.sending _
      · cases h
        exact .off _ s.thrown
  | sendEnter thread =>
    simp only [step] at h
    split at h
    · cases h
    · rename_i args har
      split at h
      · cases h
        exact .off _ _
      · rename_i msg hmsg
        split at h
        · rename_i hma
          cases h
          exact sendMessage_effect (by simp [entering, har, hma, hmsg]) _
        · cases h
          exact .off _ s.thrown
  | recv thread args =>
    simp only [step] at h
    split at h
    · split at h
      · cases h
        exact .off s.sending _
      · cases h
        exact receive_effect host s thread args
    · cases h
      exact .off s.sending s.thrown
  | close thread holder =>
    simp only [step] at h
    split at h
    · cases h
      exact .off s.sending _
    · split at h
      · cases h
        exact .close
      · cases h
        exact .off s.sending s.thrown
  | runTask i =>
    simp only [step] at h
    split at h
    · cases h
    · rename_i d task hta
      cases h
      exact .run hta

end State

end V8Multithread.Threading.Channel
