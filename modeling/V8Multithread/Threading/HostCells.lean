import V8Multithread.Base.Machine
import V8Multithread.Base.Tally

/-! The cells of host objects.

`WriteHostObject` copies a shared pointer into a heap cell and puts the cell's address
into the bytes; `ReadHostObject` reads the pointer out of the cell and deletes the cell.
So bytes with a host object in them can be decoded once. Most bytes have one owner, who
decodes them: a channel's queue, a task, a future. The bytes of a mutex stay where they
are and are decoded by every `Lock`, by every `ResolveMutexTask` and by `Value`.

Of the bytes only their cells are in the model, in the order in which they are read. A
decode takes them one by one, and other threads may do anything in between. -/
namespace V8Multithread.Threading.HostCells

/-- Serialized bytes: the addresses in them. -/
abbrev Buffer := List Nat

/-- A channel, by the messages in it. -/
structure Channel where
  messages : List Buffer := []
  pendingSenders : List Buffer := []
  pendingReceivers : Nat := 0
  capacity : Nat := 0
  closed : Bool := false
  deriving DecidableEq, Repr

/-- A spawned function: the arguments until its task is executed, the result from then
until somebody has got it, and whether its handle was joined. -/
structure Spawned where
  arguments : Option Buffer
  finished : Bool := false
  result : Option Buffer := none
  joined : Bool := false
  deriving DecidableEq, Repr

structure Mutex where
  serializedValue : Buffer
  locked : Bool := false
  pendingLocks : Nat := 0
  /-- `ResolveMutexTask`s on their way. -/
  granted : Nat := 0
  /-- History: the value was decoded since it was stored. -/
  decoded : Bool := false
  deriving DecidableEq, Repr

structure State where
  live : Finset Nat := ∅
  fresh : Nat := 0
  channels : List Channel := []
  spawned : List Spawned := []
  mutexes : List Mutex := []
  /-- The bytes in `ResolveChannelTask`s and `ResolveJoinTask`s. -/
  tasks : List Buffer := []
  /-- What the decodes under way have still to read. -/
  readers : List Buffer := []
  /-- History: the cells that were dereferenced, each with whether it was live then. -/
  dereferenced : List (Nat × Bool) := []
  deriving DecidableEq

/-- A value is serialized with so many host objects in it; it fails, perhaps, after that. -/
structure Serialization where
  hostObjects : Nat
  succeeds : Bool
  deriving DecidableEq, Repr

inductive Action where
  | threadChannel (capacity : Nat)
  | send (channel : Nat) (message : Serialization)
  | recv (channel : Nat)
  | close (channel : Nat)
  | threadSpawn (arguments : Serialization)
  | executeTask (function : Nat)
  | setResult (function : Nat) (result : Serialization)
  | threadJoin (function : Nat)
  /-- `JoinWaiterTask` has the result. -/
  | joinWaiter (function : Nat)
  | runTask (i : Nat)
  /-- There is no task runner for the task. -/
  | deleteTask (i : Nat)
  | threadMutex (initialValue : Serialization)
  | lock (mutex : Nat)
  | resolveMutex (mutex : Nat)
  | value (mutex : Nat)
  | writeBack (mutex : Nat) (newValue : Serialization)
  | releaseLock (mutex : Nat)
  | readHostObject (reader : Nat)
  /-- The decode is over, or gives up. -/
  | endRead (reader : Nat)
  deriving DecidableEq, Repr

namespace State

/-- `WriteHostObject` for each host object of the value. -/
def allocate (s : State) (n : Nat) : State :=
  {s with live := s.live ∪ (List.range' s.fresh n).toFinset, fresh := s.fresh + n}

def cells (s : State) (n : Nat) : Buffer := List.range' s.fresh n

def decode (s : State) (bytes : Buffer) : State := {s with readers := s.readers ++ [bytes]}

def setChannel (s : State) (i : Nat) (c : Channel) : State := {s with channels := s.channels.set i c}

def setSpawned (s : State) (i : Nat) (f : Spawned) : State := {s with spawned := s.spawned.set i f}

def setMutex (s : State) (i : Nat) (m : Mutex) : State := {s with mutexes := s.mutexes.set i m}

def post (s : State) (bytes : Buffer) : State := {s with tasks := s.tasks ++ [bytes]}

/-- `Send` in its critical section. -/
def sendMessage (s : State) (i : Nat) (c : Channel) (msg : Buffer) : State :=
  if 0 < c.pendingReceivers then
    (s.setChannel i {c with pendingReceivers := c.pendingReceivers - 1}).post msg
  else if c.capacity > 0 ∧ c.messages.length ≥ c.capacity then
    s.setChannel i {c with pendingSenders := c.pendingSenders ++ [msg]}
  else s.setChannel i {c with messages := c.messages ++ [msg]}

/-- `RecvInternal`: the receiver decodes the message there and then. -/
def receive (s : State) (i : Nat) (c : Channel) : State :=
  match c.messages, c.pendingSenders with
  | msg :: rest, pending :: others =>
    (s.setChannel i {c with messages := rest ++ [pending], pendingSenders := others}).decode msg
  | msg :: rest, [] => (s.setChannel i {c with messages := rest}).decode msg
  | [], _ =>
    if c.closed then s else s.setChannel i {c with pendingReceivers := c.pendingReceivers + 1}

/-- `Lock`, `ResolveMutexTask` and `Value` decode a copy of the stored bytes. -/
def decodeValue (s : State) (i : Nat) (m : Mutex) : State :=
  (s.setMutex i {m with decoded := true}).decode m.serializedValue

/-- `ReleaseLock`. -/
def release (s : State) (i : Nat) (m : Mutex) : State :=
  if m.pendingLocks = 0 then s.setMutex i {m with locked := false}
  else s.setMutex i {m with pendingLocks := m.pendingLocks - 1, granted := m.granted + 1}

/-- `ReadHostObject`: the pointer is read out of the cell, and the cell is deleted. -/
def dereference (s : State) (r cell : Nat) (rest : Buffer) : State :=
  {s with
    live := s.live.erase cell
    readers := s.readers.set r rest
    dereferenced := s.dereferenced ++ [(cell, decide (cell ∈ s.live))]}

def step (s : State) : Action → Option State
  | .threadChannel capacity => some {s with channels := s.channels ++ [{capacity}]}
  | .send i message =>
    s.channels[i]?.map fun c =>
      if message.succeeds then
        (s.allocate message.hostObjects).sendMessage i c (s.cells message.hostObjects)
      else s.allocate message.hostObjects
  | .recv i => s.channels[i]?.map fun c => s.receive i c
  | .close i => s.channels[i]?.map fun c => s.setChannel i {c with closed := true, pendingReceivers := 0}
  | .threadSpawn arguments =>
    let s' := s.allocate arguments.hostObjects
    if arguments.succeeds then
      some {s' with spawned := s.spawned ++ [{arguments := some (s.cells arguments.hostObjects)}]}
    else some s'
  | .executeTask i =>
    s.spawned[i]?.bind fun f => f.arguments.map fun bytes =>
      (s.setSpawned i {f with arguments := none}).decode bytes
  | .setResult i result =>
    s.spawned[i]?.bind fun f =>
      if f.arguments.isSome ∨ f.finished then none
      else
        let bytes := if result.succeeds then s.cells result.hostObjects else []
        some ((s.allocate result.hostObjects).setSpawned i {f with finished := true, result := some bytes})
  | .threadJoin i =>
    s.spawned[i]?.map fun f => if f.joined then s else s.setSpawned i {f with joined := true}
  | .joinWaiter i =>
    s.spawned[i]?.bind fun f => f.result.bind fun bytes =>
      if f.joined then some ((s.setSpawned i {f with result := none}).post bytes) else none
  | .runTask i => s.tasks[i]?.map fun bytes => {s with tasks := s.tasks.eraseIdx i}.decode bytes
  | .deleteTask i => s.tasks[i]?.map fun _ => {s with tasks := s.tasks.eraseIdx i}
  | .threadMutex initialValue =>
    let bytes := if initialValue.succeeds then s.cells initialValue.hostObjects else []
    let s' := s.allocate initialValue.hostObjects
    some {s' with mutexes := s.mutexes ++ [{serializedValue := bytes}]}
  | .lock i =>
    s.mutexes[i]?.map fun m =>
      if m.locked then s.setMutex i {m with pendingLocks := m.pendingLocks + 1}
      else s.decodeValue i {m with locked := true}
  | .resolveMutex i =>
    s.mutexes[i]?.bind fun m =>
      if m.granted = 0 then none else some (s.decodeValue i {m with granted := m.granted - 1})
  | .value i => s.mutexes[i]?.map fun m => s.decodeValue i m
  | .writeBack i newValue =>
    s.mutexes[i]?.bind fun m =>
      if m.locked then
        let s' := s.allocate newValue.hostObjects
        if newValue.succeeds then
          some (s'.setMutex i {m with serializedValue := s.cells newValue.hostObjects, decoded := false})
        else some s'
      else none
  | .releaseLock i => s.mutexes[i]?.bind fun m => if m.locked then some (s.release i m) else none
  | .readHostObject r =>
    s.readers[r]?.bind fun
      | [] => none
      | cell :: rest => some (s.dereference r cell rest)
  | .endRead r => s.readers[r]?.map fun _ => {s with readers := s.readers.eraseIdx r}

end State

def machine : Machine State Action := ⟨State.step⟩

end V8Multithread.Threading.HostCells
