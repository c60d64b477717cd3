import V8Multithread.Threading.HostCells

/-! Every dereference finds its cell.

A cell is live as long as there is a copy of its address that is still to be decoded, and
there is at most one. A mutex counts for such a copy until its value is decoded; that is
why decoding it again is what breaks the law. -/
namespace V8Multithread.Threading.HostCells
open List Option

/-! ### Copies of an address -/

def held (cell : Nat) (bytes : Buffer) : Int := bytes.count cell

def Channel.held (cell : Nat) (c : Channel) : Int :=
  tally (HostCells.held cell) c.messages + tally (HostCells.held cell) c.pendingSenders

def Spawned.held (cell : Nat) (f : Spawned) : Int :=
  f.arguments.elim 0 (HostCells.held cell) + f.result.elim 0 (HostCells.held cell)

/-- Once decoded a value is not to be decoded again. -/
def Mutex.held (cell : Nat) (m : Mutex) : Int :=
  if m.decoded then 0 else HostCells.held cell m.serializedValue

/-- The value was not decoded since it was stored, or has no host objects in it. -/
def Mutex.Undecoded (m : Mutex) : Prop := m.decoded = false ∨ m.serializedValue = []

theorem held_nonneg (cell : Nat) (bytes : Buffer) : 0 ≤ held cell bytes := Int.natCast_nonneg _

/-- Bytes that could not be written are empty. -/
theorem held_ite_le (cell : Nat) (succeeds : Bool) (bytes : Buffer) :
    held cell (if succeeds then bytes else []) ≤ held cell bytes := by
  cases succeeds with
  | true => exact le_refl _
  | false => exact held_nonneg cell bytes

theorem Channel.held_nonneg (cell : Nat) (c : Channel) : 0 ≤ c.held cell :=
  Int.add_nonneg (tally.nonneg fun _ _ => HostCells.held_nonneg ..) (tally.nonneg fun _ _ => HostCells.held_nonneg ..)

theorem Spawned.held_nonneg (cell : Nat) (f : Spawned) : 0 ≤ f.held cell := by
  apply Int.add_nonneg
  · cases f.arguments with
    | none => exact le_refl 0
    | some bytes => exact HostCells.held_nonneg cell bytes
  · cases f.result with
    | none => exact le_refl 0
    | some bytes => exact HostCells.held_nonneg cell bytes

theorem Mutex.held_nonneg (cell : Nat) (m : Mutex) : 0 ≤ m.held cell := by
  unfold Mutex.held
  split
  · exact le_refl 0
  · exact HostCells.held_nonneg ..

namespace State

def copies (s : State) (cell : Nat) : Int :=
  tally (Channel.held cell) s.channels + tally (Spawned.held cell) s.spawned +
    tally (Mutex.held cell) s.mutexes + tally (HostCells.held cell) s.tasks +
    tally (HostCells.held cell) s.readers

theorem copies_nonneg (s : State) (cell : Nat) : 0 ≤ s.copies cell := by
  have hch := tally.nonneg (l := s.channels) fun c _ => c.held_nonneg cell
  have hsp := tally.nonneg (l := s.spawned) fun f _ => f.held_nonneg cell
  have hmu := tally.nonneg (l := s.mutexes) fun m _ => m.held_nonneg cell
  have htasks := tally.nonneg (l := s.tasks) fun b _ => HostCells.held_nonneg cell b
  have hre := tally.nonneg (l := s.readers) fun b _ => HostCells.held_nonneg cell b
  unfold copies
  omega

section
variable {s : State} {cell i : Nat}

theorem copies_allocate (s : State) (n cell : Nat) : (s.allocate n).copies cell = s.copies cell := rfl

theorem copies_decode (s : State) (bytes : Buffer) (cell : Nat) :
    (s.decode bytes).copies cell = s.copies cell + held cell bytes := by
  simp only [copies, decode, tally.append, tally.cons, tally.nil]
  omega

theorem copies_post (s : State) (bytes : Buffer) (cell : Nat) :
    (s.post bytes).copies cell = s.copies cell + held cell bytes := by
  simp only [copies, post, tally.append, tally.cons, tally.nil]
  omega

theorem copies_setChannel {c : Channel} (h : s.channels[i]? = some c) (c' : Channel) :
    (s.setChannel i c').copies cell = s.copies cell - c.held cell + c'.held cell := by
  simp only [copies, setChannel, tally.set _ h]
  omega

theorem copies_setSpawned {f : Spawned} (h : s.spawned[i]? = some f) (f' : Spawned) :
    (s.setSpawned i f').copies cell = s.copies cell - f.held cell + f'.held cell := by
  simp only [copies, setSpawned, tally.set _ h]
  omega

theorem copies_setMutex {m : Mutex} (h : s.mutexes[i]? = some m) (m' : Mutex) :
    (s.setMutex i m').copies cell = s.copies cell - m.held cell + m'.held cell := by
  simp only [copies, setMutex, tally.set _ h]
  omega

end

variable {s s' : State}

theorem copies_sendMessage {i : Nat} {c : Channel} (h : s.channels[i]? = some c) (msg : Buffer) (cell : Nat) :
    (s.sendMessage i c msg).copies cell = s.copies cell + held cell msg := by
  unfold sendMessage
  split
  · rw [copies_post, copies_setChannel h]
    simp only [Channel.held]
    omega
  · split
    · rw [copies_setChannel h]
      simp only [Channel.held, tally.append, tally.cons, tally.nil]
      omega
    · rw [copies_setChannel h]
      simp only [Channel.held, tally.append, tally.cons, tally.nil]
      omega

theorem copies_receive {i : Nat} {c : Channel} (h : s.channels[i]? = some c) (cell : Nat) :
    (s.receive i c).copies cell = s.copies cell := by
  unfold receive
  split
  next msg rest pending others hm hs =>
    rw [copies_decode, copies_setChannel h]
    simp only [Channel.held, hm, hs, tally.append, tally.cons, tally.nil]
    omega
  next msg rest hm hs =>
    rw [copies_decode, copies_setChannel h]
    simp only [Channel.held, hm, hs, tally.cons]
    omega
  next hm =>
    split
    · rfl
    · rw [copies_setChannel h]
      simp only [Channel.held]
      omega

/-- A mutex whose value is decoded once more passes its copies on. -/
theorem copies_decodeValue {i : Nat} {m m' : Mutex} (h : s.mutexes[i]? = some m) (hu : m.Undecoded)
    (hva : m'.serializedValue = m.serializedValue) (cell : Nat) :
    (s.decodeValue i m').copies cell ≤ s.copies cell := by
  rw [decodeValue, copies_decode, copies_setMutex h, hva]
  rcases hu with hde | hnil
  · simp only [Mutex.held, hde, Bool.false_eq_true, if_false, if_true]
    omega
  · have := m.held_nonneg cell
    simp only [Mutex.held, HostCells.held, hnil, count_nil, if_true] at this ⊢
    omega

/-! ### What a step can do -/

/-- The cells and what was done with them are as before. -/
structure Frame (s s' : State) : Prop where
  live : s'.live = s.live
  fresh : s'.fresh = s.fresh
  dereferenced : s'.dereferenced = s.dereferenced

inductive Effect (s s' : State) : Prop where
  | move (hcopies : ∀ cell, s'.copies cell ≤ s.copies cell) (hframe : Frame s s')
  | write (n : Nat) (hcopies : ∀ cell, s'.copies cell ≤ s.copies cell + held cell (s.cells n))
      (hframe : Frame (s.allocate n) s')
  | read (cell : Nat) (hcopies : ∀ c, s'.copies c = s.copies c - if c = cell then 1 else 0)
      (hlive : s'.live = s.live.erase cell) (hfresh : s'.fresh = s.fresh)
      (hdereferenced : s'.dereferenced = s.dereferenced ++ [(cell, decide (cell ∈ s.live))])

theorem frame_sendMessage (s : State) (i : Nat) (c : Channel) (msg : Buffer) : Frame s (s.sendMessage i c msg) := by
  unfold sendMessage
  split
  · exact ⟨rfl, rfl, rfl⟩
  · split <;> exact ⟨rfl, rfl, rfl⟩

theorem frame_receive (s : State) (i : Nat) (c : Channel) : Frame s (s.receive i c) := by
  unfold receive
  split
  · exact ⟨rfl, rfl, rfl⟩
  · exact ⟨rfl, rfl, rfl⟩
  · split <;> exact ⟨rfl, rfl, rfl⟩

/-- The step decodes no value of a mutex for the second time. -/
def DecodesOnce (s : State) : Action → Prop
  | .lock i => ∀ m, s.mutexes[i]? = some m → m.locked = false → m.Undecoded
  | .resolveMutex i | .value i => ∀ m, s.mutexes[i]? = some m → m.Undecoded
  | _ => True

theorem write_le {n : Nat} (hframe : Frame (s.allocate n) s') (hcopies : ∀ cell, s'.copies cell ≤ s.copies cell) :
    Effect s s' := by
  refine .write n (fun cell => ?_) hframe
  have := hcopies cell
  have := held_nonneg cell (s.cells n)
  omega

theorem step_effect {a : Action} (hok : DecodesOnce s a) (hst : s.step a = some s') : Effect s s' := by
  cases a with
  | threadChannel capacity =>
    cases hst
    refine .move (fun cell => ?_) ⟨rfl, rfl, rfl⟩
    simp [copies, Channel.held]
  | send i message =>
    obtain ⟨c, hc, rfl⟩ := map_eq_some_iff.mp hst
    split
    · refine .write message.hostObjects (fun cell => ?_) (frame_sendMessage ..)
      have hc' : (s.allocate message.hostObjects).channels[i]? = some c := hc
      rw [copies_sendMessage hc', copies_allocate]
    · exact write_le ⟨rfl, rfl, rfl⟩ fun cell => le_refl _
  | recv i =>
    obtain ⟨c, hc, rfl⟩ := map_eq_some_iff.mp hst
    exact .move (fun cell => (copies_receive hc cell).le) (frame_receive ..)
  | close i =>
    obtain ⟨c, hc, rfl⟩ := map_eq_some_iff.mp hst
    refine .move (fun cell => ?_) ⟨rfl, rfl, rfl⟩
    rw [copies_setChannel hc]
    simp only [Channel.held]
    omega
  | threadSpawn arguments =>
    simp only [step] at hst
    split at hst
    · cases hst
      refine .write arguments.hostObjects (fun cell => ?_) ⟨rfl, rfl, rfl⟩
      simp only [copies, allocate, tally.append, tally.cons, tally.nil, Spawned.held, Option.elim]
      omega
    · cases hst
      exact write_le ⟨rfl, rfl, rfl⟩ fun cell => le_refl _
  | executeTask i =>
    obtain ⟨f, hf, hst⟩ := bind_eq_some_iff.mp hst
    obtain ⟨bytes, hby, rfl⟩ := map_eq_some_iff.mp hst
    refine .move (fun cell => ?_) ⟨rfl, rfl, rfl⟩
    rw [copies_decode, copies_setSpawned hf]
    simp only [Spawned.held, hby, Option.elim]
    omega
  | setResult i result =>
    obtain ⟨f, hf, hst⟩ := bind_eq_some_iff.mp hst
    split at hst
    · cases hst
    · cases hst
      refine .write result.hostObjects (fun cell => ?_) ⟨rfl, rfl, rfl⟩
      have hf' : (s.allocate result.hostObjects).spawned[i]? = some f := hf
      have hre := Spawned.held_nonneg cell ⟨none, false, f.result, false⟩
      have hby := held_ite_le cell result.succeeds (s.cells result.hostObjects)
      rw [copies_setSpawned hf', copies_allocate]
      simp only [Spawned.held, elim_none, elim_some] at hre ⊢
      omega
  | threadJoin i =>
    obtain ⟨f, hf, rfl⟩ := map_eq_some_iff.mp hst
    split
    · exact .move (fun cell => le_refl _) ⟨rfl, rfl, rfl⟩
    · refine .move (fun cell => ?_) ⟨rfl, rfl, rfl⟩
      rw [copies_setSpawned hf]
      simp only [Spawned.held]
      omega
  | joinWaiter i =>
    obtain ⟨f, hf, hst⟩ := bind_eq_some_iff.mp hst
    obtain ⟨bytes, hby, hst⟩ := bind_eq_some_iff.mp hst
    split at hst
    · cases hst
      refine .move (fun cell => ?_) ⟨rfl, rfl, rfl⟩
      rw [copies_post, copies_setSpawned hf]
      simp only [Spawned.held, hby, Option.elim]
      omega
    · cases hst
  | runTask i =>
    obtain ⟨bytes, hby, rfl⟩ := map_eq_some_iff.mp hst
    refine .move (fun cell => ?_) ⟨rfl, rfl, rfl⟩
    rw [copies_decode]
    simp only [copies, tally.eraseIdx _ hby]
    omega
  | deleteTask | endRead =>
    obtain ⟨bytes, hby, rfl⟩ := map_eq_some_iff.mp hst
    refine .move (fun cell => ?_) ⟨rfl, rfl, rfl⟩
    have := held_nonneg cell bytes
    simp only [copies, tally.eraseIdx _ hby]
    omega
  | threadMutex initialValue =>
    cases hst
    refine .write initialValue.hostObjects (fun cell => ?_) ⟨rfl, rfl, rfl⟩
    have hby := held_ite_le cell initialValue.succeeds (s.cells initialValue.hostObjects)
    simp only [copies, allocate, tally.append, tally.cons, tally.nil, Mutex.held]
    rw [if_neg Bool.false_ne_true]
    omega
  | lock i =>
    obtain ⟨m, hm, rfl⟩ := map_eq_some_iff.mp hst
    split
    · refine .move (fun cell => ?_) ⟨rfl, rfl, rfl⟩
      rw [copies_setMutex hm]
      simp only [Mutex.held]
      omega
    next hl =>
      have hu := hok m hm (Bool.eq_false_iff.mpr hl)
      exact .move (fun cell => copies_decodeValue hm hu (by rfl) cell) ⟨rfl, rfl, rfl⟩
  | resolveMutex i =>
    obtain ⟨m, hm, hst⟩ := bind_eq_some_iff.mp hst
    split at hst
    · cases hst
    · cases hst
      exact .move (fun cell => copies_decodeValue hm (hok m hm) (by rfl) cell) ⟨rfl, rfl, rfl⟩
  | value i =>
    obtain ⟨m, hm, rfl⟩ := map_eq_some_iff.mp hst
    exact .move (fun cell => copies_decodeValue hm (hok m hm) (by rfl) cell) ⟨rfl, rfl, rfl⟩
  | writeBack i newValue =>
    obtain ⟨m, hm, hst⟩ := bind_eq_some_iff.mp hst
    split at hst
    · dsimp only at hst
      split at hst
      · cases hst
        refine .write newValue.hostObjects (fun cell => ?_) ⟨rfl, rfl, rfl⟩
        have hm' : (s.allocate newValue.hostObjects).mutexes[i]? = some m := hm
        have hold := m.held_nonneg cell
        have hnew : Mutex.held cell {m with serializedValue := s.cells newValue.hostObjects, decoded := false} =
            held cell (s.cells newValue.hostObjects) := rfl
        rw [copies_setMutex hm', copies_allocate, hnew]
        omega
      · cases hst
        exact write_le ⟨rfl, rfl, rfl⟩ fun cell => le_refl _
    · cases hst
  | releaseLock i =>
    obtain ⟨m, hm, hst⟩ := bind_eq_some_iff.mp hst
    split at hst
    · cases hst
      unfold release
      split
      · refine .move (fun cell => ?_) ⟨rfl, rfl, rfl⟩
        rw [copies_setMutex hm]
        simp only [Mutex.held]
        omega
      · refine .move (fun cell => ?_) ⟨rfl, rfl, rfl⟩
        rw [copies_setMutex hm]
        simp only [Mutex.held]
        omega
    · cases hst
  | readHostObject r =>
    obtain ⟨bytes, hby, hst⟩ := bind_eq_some_iff.mp hst
    cases bytes with
    | nil => cases hst
    | cons cell rest =>
      cases hst
      refine .read cell (fun c => ?_) rfl rfl rfl
      have hco : held c (cell :: rest) = held c rest + if c = cell then 1 else 0 := by
        rw [held, held, count_cons]
        by_cases hc : c = cell
        · simp [hc]
        · simp [hc, Ne.symm hc]
      simp only [copies, dereference, tally.set _ hby, hco]
      omega

/-! ### The law -/

structure Linear (s : State) : Prop where
  once : ∀ cell, s.copies cell ≤ if cell ∈ s.live then 1 else 0
  bound : ∀ cell ∈ s.live, cell < s.fresh
  dead : ∀ d ∈ s.dereferenced, d.1 ∉ s.live ∧ d.1 < s.fresh
  found : ∀ d ∈ s.dereferenced, d.2 = true
  distinct : (s.dereferenced.map Prod.fst).Nodup

theorem initial_linear : Linear {} where
  once _ := le_refl 0
  bound _ h := absurd h (Finset.notMem_empty _)
  dead _ h := absurd h not_mem_nil
  found _ h := absurd h not_mem_nil
  distinct := nodup_nil

theorem mem_allocate {n cell : Nat} : cell ∈ (s.allocate n).live ↔ cell ∈ s.live ∨ s.fresh ≤ cell ∧ cell < s.fresh + n := by
  simp [allocate, mem_range'_1]

theorem held_cells (s : State) (n cell : Nat) :
    held cell (s.cells n) = if s.fresh ≤ cell ∧ cell < s.fresh + n then 1 else 0 := by
  have hno : (s.cells n).Nodup := nodup_range'
  rw [held, hno.count]
  simp [cells, mem_range'_1]

theorem Linear.write {n : Nat} (h : s.Linear)
    (hcopies : ∀ cell, s'.copies cell ≤ s.copies cell + held cell (s.cells n)) (hframe : Frame (s.allocate n) s') :
    s'.Linear := by
  have hfresh : s'.fresh = s.fresh + n := hframe.fresh
  have hold : s'.dereferenced = s.dereferenced := hframe.dereferenced
  constructor
  · intro cell
    have hle := hcopies cell
    have ho := h.once cell
    rw [held_cells] at hle
    rw [hframe.live]
    by_cases hlive : cell ∈ s.live
    · -- a cell in use is older than the new ones
      have hnew : ¬ (s.fresh ≤ cell ∧ cell < s.fresh + n) := by
        have := h.bound cell hlive
        omega
      rw [if_neg hnew] at hle
      rw [if_pos hlive] at ho
      rw [if_pos (mem_allocate.mpr (.inl hlive))]
      omega
    · rw [if_neg hlive] at ho
      by_cases hnew : s.fresh ≤ cell ∧ cell < s.fresh + n
      · rw [if_pos hnew] at hle
        rw [if_pos (mem_allocate.mpr (.inr hnew))]
        omega
      · rw [if_neg hnew] at hle
        rw [if_neg fun hmem => (mem_allocate.mp hmem).elim hlive hnew]
        omega
  · intro cell hce
    rw [hframe.live, mem_allocate] at hce
    rw [hfresh]
    rcases hce with hlive | hnew
    · have := h.bound cell hlive
      omega
    · exact hnew.2
  · intro d hd
    rw [hold] at hd
    obtain ⟨hde, hbo⟩ := h.dead d hd
    rw [hframe.live, mem_allocate, hfresh]
    refine ⟨?_, by omega⟩
    rintro (hlive | hnew)
    · exact hde hlive
    · omega
  · rw [hold]
    exact h.found
  · rw [hold]
    exact h.distinct

/-- What is to be decoded is live, so the cell is found. -/
theorem Linear.read {cell : Nat} (h : s.Linear) (hcopies : ∀ c, s'.copies c = s.copies c - if c = cell then 1 else 0)
    (hl' : s'.live = s.live.erase cell) (hfresh : s'.fresh = s.fresh)
    (hdereferenced : s'.dereferenced = s.dereferenced ++ [(cell, decide (cell ∈ s.live))]) :
    s'.Linear := by
  have hlive : cell ∈ s.live := by
    by_contra hde
    have ho := h.once cell
    have hre := hcopies cell
    have hno := s'.copies_nonneg cell
    rw [if_neg hde] at ho
    rw [if_pos rfl] at hre
    omega
  rw [decide_eq_true hlive] at hdereferenced
  constructor
  · intro c
    have ho := h.once c
    rw [hcopies, hl']
    by_cases hc : c = cell
    · subst hc
      rw [if_pos hlive] at ho
      rw [if_pos rfl, if_neg (Finset.notMem_erase c s.live)]
      omega
    · rw [if_neg hc]
      simp only [Finset.mem_erase, hc, ne_eq, not_false_eq_true, true_and]
      omega
  · intro c hc
    rw [hl'] at hc
    rw [hfresh]
    exact h.bound c (Finset.mem_of_mem_erase hc)
  · intro d hd
    rw [hdereferenced, mem_append, mem_singleton] at hd
    rw [hl', hfresh]
    rcases hd with hd | rfl
    · obtain ⟨hde, hbo⟩ := h.dead d hd
      exact ⟨fun hmem => hde (Finset.mem_of_mem_erase hmem), hbo⟩
    · exact ⟨Finset.notMem_erase cell s.live, h.bound cell hlive⟩
  · intro d hd
    rw [hdereferenced, mem_append, mem_singleton] at hd
    rcases hd with hd | rfl
    · exact h.found d hd
    · rfl
  · rw [hdereferenced, map_append, map_singleton, nodup_append]
    refine ⟨h.distinct, nodup_singleton _, ?_⟩
    intro a ha b hb heq
    obtain ⟨d, hd, rfl⟩ := mem_map.mp ha
    have hce : d.1 = cell := heq.trans (mem_singleton.mp hb)
    exact (h.dead d hd).1 (hce ▸ hlive)

theorem Linear.step {a : Action} (h : s.Linear) (hok : DecodesOnce s a) (hst : s.step a = some s') : s'.Linear := by
  cases step_effect hok hst with
  | move hcopies hframe =>
    constructor
    · intro cell
      rw [hframe.live]
      exact (hcopies cell).trans (h.once cell)
    · rw [hframe.live, hframe.fresh]
      exact h.bound
    · rw [hframe.live, hframe.fresh, hframe.dereferenced]
      exact h.dead
    · rw [hframe.dereferenced]
      exact h.found
    · rw [hframe.dereferenced]
      exact h.distinct
  | write n hcopies hframe => exact h.write hcopies hframe
  | read cell hcopies hlive hfresh hdereferenced => exact h.read hcopies hlive hfresh hdereferenced

/-- In a run that decodes no value of a mutex twice, every dereference finds its cell, and
no cell is dereferenced twice. -/
theorem cells_consumed_once {as : List Action} {s : State} (hrun : machine.run {} as = some s)
    (hok : machine.Meets DecodesOnce {} as) :
    (∀ d ∈ s.dereferenced, d.2 = true) ∧ (s.dereferenced.map Prod.fst).Nodup := by
  have h : s.Linear := Machine.invariant_of_meets (fun s a s' hs => hs.step) initial_linear hrun hok
  exact ⟨h.found, h.distinct⟩

/-- `lock` takes a channel end out of a mutex and puts one back, and then `value` is
called. -/
def onceRun : List Action :=
  [.threadChannel 0, .threadMutex ⟨1, true⟩, .lock 0, .readHostObject 0, .endRead 0,
    .writeBack 0 ⟨1, true⟩, .releaseLock 0, .value 0, .readHostObject 0]

theorem cells_consumed_once_onceRun : ∃ s, machine.run {} onceRun = some s ∧ s.dereferenced = [(0, true), (1, true)] ∧
      ∀ d ∈ s.dereferenced, d.2 = true := by
  refine ⟨_, rfl, rfl, ?_⟩
  refine (cells_consumed_once (show machine.run {} onceRun = _ from rfl) ?_).1
  refine ⟨trivial, trivial, ?_, trivial, trivial, trivial, trivial, ?_, trivial, trivial⟩
  · intro m hm _
    cases hm
    exact .inl rfl
  · intro m hm
    cases hm
    exact .inl rfl

/-- A mutex made with a channel end in it, and `value` called twice. -/
theorem cell_dereferenced_twice :
    (machine.run {} [.threadChannel 0, .threadMutex ⟨1, true⟩, .value 0, .readHostObject 0, .value 0,
      .readHostObject 1]).map (·.dereferenced) = some [(0, true), (0, false)] := by
  rfl

end State
end V8Multithread.Threading.HostCells
