import V8Multithread.Base.Machine
import V8Multithread.Base.Ring

/-! The work-stealing deque.

One owner pushes and pops at the bottom, any number of thieves steal at the top. The
items are in a ring that the owner replaces by a larger one when it is full and by a
smaller one when it has become too large; a thief may still be reading an old ring,
so old rings are kept. Only `top` and the compare-exchange on it decide who gets an
item.

Every action is one load, store or compare-exchange of the source, in any order, with
sequentially consistent memory. The values a thread has loaded are in its program
counter. `int64_t` indices are integers here: they only count up. -/
namespace V8Multithread.Threading.Deque

/-- What the owner does once it has replaced the ring. -/
inductive Job (T : Type) where
  /-- Go on with `Push(item)`. -/
  | push (item : T)
  /-- Return from `Pop`, with an item or without. -/
  | pop (result : Option (Option T))

/-- Where the owner is. The names of what it has loaded are those of the source. -/
inductive OwnerPc (T : Type) where
  | idle
  /-- `Push`. -/
  | pushBottom (item : T)
  | pushTop (item : T) (b : Int)
  | pushArray (item : T) (b t : Int)
  | pushReload (item : T) (b : Int)
  | pushSet (item : T) (b : Int) (a : Nat)
  | pushStore (item : T) (b : Int)
  /-- The loop of `Resize` and `MaybeShrink`, and the store that publishes the ring. -/
  | copy (job : Job T) (b : Int) (i : Int) (t : Int) (a : Nat) (newArr : Ring T)
  /-- `Pop`. -/
  | popBottom
  | popArray (b : Int)
  | popStore (b : Int) (a : Nat)
  | popTop (b : Int) (a : Nat)
  | popGet (b : Int) (a : Nat) (t : Int)
  | popExchange (b t : Int) (val : Option T)
  | popWon (b : Int) (val : Option T)
  | popLost (b : Int)
  | popEmpty (b : Int)
  /-- `MaybeShrink`, with what `Pop` will return. -/
  | shrinkArray (result : Option (Option T))
  | shrinkBottom (result : Option (Option T)) (a : Nat)
  | shrinkTop (result : Option (Option T)) (a : Nat) (b : Int)

inductive ThiefPc (T : Type) where
  | idle
  | loadTop
  | loadBottom (t : Int)
  | loadArray (t : Int)
  | read (t : Int) (a : Nat)
  | exchange (t : Int) (val : Option T)

/-- The deque, its parties, and what `Push`, `Pop` and `Steal` have been given and have
returned. `arrays` holds the rings made so far, `next` of them. -/
structure State (T : Type) where
  top : Int
  bottom : Int
  active : Nat
  arrays : Nat → Ring T
  next : Nat
  owner : OwnerPc T
  thieves : Nat → ThiefPc T
  pushed : List T
  popped : List (Option T)
  stolen : List (Option T)

inductive Action (T : Type) where
  | push (item : T)
  | pop
  | owner
  | steal (thief : Nat)
  | thief (thief : Nat)

/-- The constructor's loop: double `cap` until it is large enough. -/
def roundUpFrom (initialCapacity : Nat) (cap : Nat) : Nat → Nat
  | 0 => cap
  | fuel + 1 => if cap < initialCapacity then roundUpFrom initialCapacity (cap * 2) fuel else cap

/-- The capacity the constructor makes. So many rounds are enough. -/
def roundUp (initialCapacity : Nat) : Nat := roundUpFrom initialCapacity 1 initialCapacity

theorem roundUpFrom_pow (n k fuel : Nat) : ∃ m, roundUpFrom n (2 ^ k) fuel = 2 ^ m := by
  induction fuel generalizing k with
  | zero => exact ⟨k, rfl⟩
  | succ fuel ih =>
    unfold roundUpFrom
    split
    · exact ih (k + 1)
    · exact ⟨k, rfl⟩

namespace State
variable {T : Type}

def initial (initialCapacity : Nat) : State T where
  top := 0
  bottom := 0
  active := 0
  arrays := fun _ => .empty (roundUp initialCapacity) (roundUpFrom_pow initialCapacity 0 _)
  next := 1
  owner := .idle
  thieves := fun _ => .idle
  pushed := []
  popped := []
  stolen := []

def ring (s : State T) : Ring T := s.arrays s.active

/-- A ring of twice the capacity, as `Resize` makes it. -/
def larger (r : Ring T) : Ring T :=
  .empty (r.capacity * 2) <| by
    obtain ⟨k, hk⟩ := r.pow
    exact ⟨k + 1, by rw [hk, pow_succ]⟩

/-- A ring of half the capacity, but not below 64, as `MaybeShrink` makes it. -/
def smaller (r : Ring T) (h : 64 < r.capacity) : Ring T :=
  .empty (max 64 (r.capacity / 2)) <| by
    obtain ⟨k, hk⟩ := r.pow
    have hk6 : 6 < k := by
      rw [hk] at h
      exact (Nat.pow_lt_pow_iff_right (by decide : 1 < 2)).mp h
    obtain ⟨m, rfl⟩ := Nat.exists_eq_add_of_lt hk6
    have hhalf : r.capacity / 2 = 2 ^ (6 + m) := by
      rw [hk, pow_succ, Nat.mul_div_cancel _ (by decide : 0 < 2)]
    refine ⟨6 + m, ?_⟩
    rw [hhalf]
    exact max_eq_right (Nat.pow_le_pow_right (n := 2) (by decide) (Nat.le_add_right 6 m))

/-! ### The owner -/

/-- Return from `Pop`. -/
def ret (s : State T) (result : Option (Option T)) : State T :=
  {s with owner := .idle, popped := s.popped ++ result.toList}

/-- The loop over `[t, b)` is at `i`: copy one more item, or publish the ring. -/
def copyStep (s : State T) (job : Job T) (b i t : Int) (a : Nat) (newArr : Ring T) : State T :=
  if i < b then
    {s with owner := .copy job b (i + 1) t a (newArr.set i ((s.arrays a).get i))}
  else
    let s' := {s with
      active := s.next
      arrays := fun n => if n = s.next then newArr else s.arrays n
      next := s.next + 1 }
    match job with
    | .push item => {s' with owner := .pushReload item b}
    | .pop result => s'.ret result

/-- `MaybeShrink` has loaded everything. -/
def shrink (s : State T) (result : Option (Option T)) (a : Nat) (b t : Int) : State T :=
  if h : 64 < (s.arrays a).capacity ∧ (b - t).toNat < (s.arrays a).capacity / 4 then
    {s with owner := .copy (.pop result) b t t a (smaller (s.arrays a) h.1)}
  else s.ret result

def ownerStep (s : State T) : Option (State T) :=
  match s.owner with
  | .idle => none
  | .pushBottom item => some {s with owner := .pushTop item s.bottom}
  | .pushTop item b => some {s with owner := .pushArray item b s.top}
  | .pushArray item b t =>
    let a := s.active
    if b - t > (s.arrays a).capacity - 1 then
      some {s with owner := .copy (.push item) b t t a (larger (s.arrays a))}
    else some {s with owner := .pushSet item b a}
  | .pushReload item b => some {s with owner := .pushSet item b s.active}
  | .pushSet item b a =>
    some {s with
      arrays := fun n => if n = a then (s.arrays a).set b (some item) else s.arrays n
      owner := .pushStore item b}
  | .pushStore item b =>
    some {s with bottom := b + 1, owner := .idle, pushed := s.pushed ++ [item]}
  | .copy job b i t a newArr => some (s.copyStep job b i t a newArr)
  | .popBottom => some {s with owner := .popArray (s.bottom - 1)}
  | .popArray b => some {s with owner := .popStore b s.active}
  | .popStore b a => some {s with bottom := b, owner := .popTop b a}
  | .popTop b a =>
    if s.top ≤ b then some {s with owner := .popGet b a s.top}
    else some {s with owner := .popEmpty b}
  | .popGet b a t =>
    let val := (s.arrays a).get b
    if t = b then some {s with owner := .popExchange b t val}
    else some {s with owner := .shrinkArray (some val)}
  | .popExchange b t val =>
    if s.top = t then some {s with top := t + 1, owner := .popWon b val}
    else some {s with owner := .popLost b}
  | .popWon b val => some {s with bottom := b + 1, owner := .shrinkArray (some val)}
  | .popLost b => some ({s with bottom := b + 1}.ret none)
  | .popEmpty b => some {s with bottom := b + 1, owner := .shrinkArray none}
  | .shrinkArray result => some {s with owner := .shrinkBottom result s.active}
  | .shrinkBottom result a => some {s with owner := .shrinkTop result a s.bottom}
  | .shrinkTop result a b => some (s.shrink result a b s.top)

/-! ### A thief -/

def setThief (s : State T) (j : Nat) (pc : ThiefPc T) : State T :=
  {s with thieves := fun n => if n = j then pc else s.thieves n}

def thiefStep (s : State T) (j : Nat) : Option (State T) :=
  match s.thieves j with
  | .idle => none
  | .loadTop => some (s.setThief j (.loadBottom s.top))
  | .loadBottom t =>
    if t < s.bottom then some (s.setThief j (.loadArray t)) else some (s.setThief j .idle)
  | .loadArray t => some (s.setThief j (.read t s.active))
  | .read t a => some (s.setThief j (.exchange t ((s.arrays a).get t)))
  | .exchange t val =>
    if s.top = t then some {s.setThief j .idle with top := t + 1, stolen := s.stolen ++ [val]}
    else some (s.setThief j .loadTop)

def step (s : State T) : Action T → Option (State T)
  | .push item =>
    match s.owner with
    | .idle => some {s with owner := .pushBottom item}
    | _ => none
  | .pop =>
    match s.owner with
    | .idle => some {s with owner := .popBottom}
    | _ => none
  | .owner => s.ownerStep
  | .steal j =>
    match s.thieves j with
    | .idle => some (s.setThief j .loadTop)
    | _ => none
  | .thief j => s.thiefStep j

end State

def machine (T : Type) : Machine (State T) (Action T) := ⟨State.step⟩

end V8Multithread.Threading.Deque
