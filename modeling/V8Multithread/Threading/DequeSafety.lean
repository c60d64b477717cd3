import V8Multithread.Threading.Deque

/-! No item of the deque is lost or taken twice.

What the deque holds is the window of the active ring from `top` up to `limit`, which
is `bottom` except while a `Pop` has lowered `bottom` and not yet found out whether
the item there is its own. An item leaves the window in one step: at the end when `Pop`
sees that no thief can be after it, at the beginning with a compare-exchange on `top`.

The heart of the proof is what a thief knows between its loads and its exchange
(`ThiefOk`): if `top` has not moved, the item at `top` is still there, and it is what
the ring it has in hand holds, however often the owner has replaced the ring. -/
namespace V8Multithread.Threading.Deque.State
open List
variable {T : Type} {s s' : State T}

/-- `Pop` has lowered `bottom`, and the item there is not yet anybody's. -/
def undecided : OwnerPc T → Bool
  | .popGet b _ t => t = b
  | .popTop .. | .popExchange .. | .popWon .. | .popLost .. | .popEmpty .. => true
  | _ => false

def limit (s : State T) : Int := if undecided s.owner then s.bottom + 1 else s.bottom

/-- What the deque holds, from the oldest item to the newest. -/
def content (s : State T) : List (Option T) := s.ring.window s.top s.limit

/-- What a `Pop` has taken and not yet returned. -/
def inHand (s : State T) : OwnerPc T → List (Option T)
  | .popGet b a t => if t = b then [] else [(s.arrays a).get b]
  | .popWon _ val => [val]
  | .shrinkArray result | .shrinkBottom result _ | .shrinkTop result _ _
  | .copy (.pop result) _ _ _ _ _ => result.toList
  | _ => []

def OwnerOk (s : State T) : OwnerPc T → Prop
  | .idle | .pushBottom _ | .popBottom | .shrinkArray _ => True
  | .pushTop _ b => b = s.bottom
  | .pushArray _ b t => b = s.bottom ∧ 0 ≤ t ∧ t ≤ s.top ∧ b - t ≤ s.ring.capacity
  | .pushReload _ b => b = s.bottom ∧ b - s.top < s.ring.capacity
  | .pushSet _ b a => b = s.bottom ∧ a = s.active ∧ b - s.top < s.ring.capacity
  | .pushStore item b =>
    b = s.bottom ∧ b - s.top < s.ring.capacity ∧ s.ring.get b = some item
  | .copy _ b i t a newArr => b = s.bottom ∧ a = s.active ∧ 0 ≤ t ∧ t ≤ s.top ∧ t ≤ i ∧ i ≤ b ∧
      b - t < newArr.capacity ∧ ∀ k, t ≤ k → k < i → newArr.get k = s.ring.get k
  | .popArray b => b = s.bottom - 1
  | .popStore b a => b = s.bottom - 1 ∧ a = s.active
  | .popTop b a => b = s.bottom ∧ a = s.active
  | .popGet b a t => b = s.bottom ∧ a = s.active ∧ t ≤ b ∧ t ≤ s.top
  | .popExchange b t val => b = s.bottom ∧ t = b ∧ t ≤ s.top ∧ val = s.ring.get b
  | .popWon b _ | .popLost b | .popEmpty b => b = s.bottom ∧ s.top = b + 1
  | .shrinkBottom _ a => a = s.active
  | .shrinkTop _ a b => a = s.active ∧ b = s.bottom

/-- What a thief knows from its loads, if `top` is still what it loaded. -/
def ThiefOk (s : State T) : ThiefPc T → Prop
  | .idle | .loadTop => True
  | .loadBottom t => t ≤ s.top
  | .loadArray t => t ≤ s.top ∧ (s.top = t → t < s.limit)
  | .read t a => t ≤ s.top ∧ a < s.next ∧ (s.top = t → t < s.limit ∧ (s.arrays a).get t = s.ring.get t)
  | .exchange t val => t ≤ s.top ∧ (s.top = t → t < s.limit ∧ val = s.ring.get t)

structure Inv (s : State T) : Prop where
  nonneg : 0 ≤ s.top
  ordered : s.top ≤ s.limit
  fits : s.limit - s.top ≤ s.ring.capacity
  address : s.active < s.next
  owner : s.OwnerOk s.owner
  thieves : ∀ j, s.ThiefOk (s.thieves j)
  once : (s.pushed.map some).Perm (s.popped ++ s.stolen ++ s.inHand s.owner ++ s.content)
  /-- What was stolen and what is left are in the order of the pushes. -/
  inOrder : (s.stolen ++ s.content).Sublist (s.pushed.map some)

theorem initial_inv (initialCapacity : Nat) : (initial initialCapacity : State T).Inv where
  nonneg := le_refl 0
  ordered := le_refl 0
  fits := by
    show (0 : Int) - 0 ≤ _
    omega
  address := Nat.one_pos
  owner := trivial
  thieves := fun _ => trivial
  once := .nil
  inOrder := .slnil

theorem Inv.knows (h : s.Inv) {pc : OwnerPc T} (ho : s.owner = pc) : s.OwnerOk pc := ho ▸ h.owner

/-! ### Thieves -/

variable {pc : ThiefPc T} {item : T} {b t : Int} {a : Nat} {job : Job T} {newArr : Ring T} {val : Option T}

/-- `top` stays, and so does the item there. -/
theorem ThiefOk.keep (h : s.ThiefOk pc) (htop : s'.top = s.top) (hl : s.top < s.limit → s.top < s'.limit)
    (hnext : s.next ≤ s'.next) (hget : s.top < s.limit → s'.ring.get s.top = s.ring.get s.top)
    (hold : ∀ a < s.next, s.top < s.limit → (s'.arrays a).get s.top = (s.arrays a).get s.top) :
    s'.ThiefOk pc := by
  cases pc with
  | idle | loadTop => trivial
  | loadBottom t =>
    show t ≤ s'.top
    rw [htop]
    exact h
  | loadArray t =>
    refine ⟨by rw [htop]; exact h.1, fun heq => ?_⟩
    rw [htop] at heq
    subst heq
    exact hl (h.2 rfl)
  | read t a =>
    obtain ⟨hle, ha, hre⟩ := h
    refine ⟨by rw [htop]; exact hle, lt_of_lt_of_le ha hnext, fun heq => ?_⟩
    rw [htop] at heq
    subst heq
    obtain ⟨hlt, hsa⟩ := hre rfl
    refine ⟨hl hlt, ?_⟩
    rw [hold a ha hlt, hget hlt, hsa]
  | exchange t val =>
    obtain ⟨hle, hre⟩ := h
    refine ⟨by rw [htop]; exact hle, fun heq => ?_⟩
    rw [htop] at heq
    subst heq
    obtain ⟨hlt, hsa⟩ := hre rfl
    refine ⟨hl hlt, ?_⟩
    rw [hget hlt, hsa]

/-- `top` has moved: what a thief loaded is out of date. -/
theorem ThiefOk.overtaken (h : s.ThiefOk pc) (htop : s.top < s'.top) (hnext : s.next ≤ s'.next) : s'.ThiefOk pc := by
  cases pc with
  | idle | loadTop => trivial
  | loadBottom t => exact le_trans h (le_of_lt htop)
  | loadArray t | exchange t =>
    have hle : t ≤ s.top := h.1
    exact ⟨by omega, fun heq => by omega⟩
  | read t a =>
    have hle : t ≤ s.top := h.1
    exact ⟨by omega, lt_of_lt_of_le h.2.1 hnext, fun heq => by omega⟩

/-! ### Steps that leave the content alone -/

/-- The window stays as it is; what the owner has in hand may be returned. -/
theorem Inv.keep (h : s.Inv) (howner : s'.OwnerOk s'.owner) (htop : s'.top = s.top)
    (hl : s'.limit = s.limit) (hth : s'.thieves = s.thieves) (hnext : s.next ≤ s'.next)
    (had : s'.active < s'.next) (hca : s.limit - s.top ≤ s'.ring.capacity)
    (hget : ∀ i, s.top ≤ i → i < s.limit → s'.ring.get i = s.ring.get i)
    (hold : ∀ a < s.next, s.top < s.limit → (s'.arrays a).get s.top = (s.arrays a).get s.top)
    (hp : s'.pushed = s.pushed) (hst : s'.stolen = s.stolen)
    (hpo : (s.popped ++ s.stolen ++ s.inHand s.owner).Perm (s'.popped ++ s'.stolen ++ s'.inHand s'.owner)) :
    s'.Inv := by
  have hco : s'.content = s.content := by
    rw [content, htop, hl]
    exact Ring.window_congr hget
  refine ⟨?_, ?_, ?_, had, howner, ?_, ?_, ?_⟩
  · rw [htop]
    exact h.nonneg
  · rw [htop, hl]
    exact h.ordered
  · rw [htop, hl]
    exact hca
  · intro j
    rw [hth]
    refine (h.thieves j).keep htop ?_ hnext (fun hlt => hget _ (le_refl _) hlt) hold
    rw [hl]
    exact id
  · rw [hp, hco]
    exact h.once.trans (hpo.append_right _)
  · rw [hp, hst, hco]
    exact h.inOrder

theorem limit_of_decided (h : undecided s.owner = false) : s.limit = s.bottom := by
  simp [limit, h]

theorem limit_of_undecided (h : undecided s.owner) : s.limit = s.bottom + 1 := by
  simp [limit, h]

/-- The owner moves on and nothing else changes. -/
theorem Inv.move (h : s.Inv) {pc pc' : OwnerPc T} (ho : s.owner = pc)
    (hu : undecided pc' = undecided pc) (hh : s.inHand pc' = s.inHand pc)
    (howner : s.OwnerOk pc') : ({s with owner := pc'} : State T).Inv := by
  subst ho
  refine h.keep ?_ rfl ?_ rfl (le_refl _) h.address h.fits (fun _ _ _ => rfl) (fun _ _ _ => rfl) rfl rfl (.of_eq ?_)
  · cases pc' <;> exact howner
  · simp only [limit, hu]
  · rw [← hh]
    rfl

/-- What `Pop` had in hand is now what it returned. -/
theorem perm_returned (popped stolen result : List (Option T)) :
    (popped ++ stolen ++ result).Perm (popped ++ result ++ stolen ++ []) := by
  rw [append_nil, append_assoc, append_assoc]
  exact perm_append_comm.append_left _

/-- `Pop` returns what it has in hand. -/
theorem Inv.ret (h : s.Inv) {result : Option (Option T)} (hu : undecided s.owner = false)
    (hh : s.inHand s.owner = result.toList) : (s.ret result).Inv := by
  refine h.keep trivial rfl ?_ rfl (le_refl _) h.address h.fits (fun _ _ _ => rfl) (fun _ _ _ => rfl) rfl rfl ?_
  · rw [limit_of_decided hu]
    exact limit_of_decided rfl
  · rw [hh]
    exact perm_returned ..

/-! ### Pushing -/

/-- The cell for the new item is not in use. -/
theorem Inv.pushSet (h : s.Inv) (ho : s.owner = .pushSet item b a) : ({s with
      arrays := fun n => if n = a then (s.arrays a).set b (some item) else s.arrays n
      owner := .pushStore item b} : State T).Inv := by
  obtain ⟨rfl, rfl, hlt⟩ := h.knows ho
  have hl : s.limit = s.bottom := limit_of_decided (by rw [ho]; rfl)
  have hno := h.nonneg
  have hget : ∀ i, s.top ≤ i → i < s.limit → (s.ring.set s.bottom (some item)).get i = s.ring.get i := by
    intro i hi hib
    exact Ring.get_set_of_lt _ _ (by omega) (by omega) (by omega)
  refine h.keep ?_ rfl ?_ rfl (le_refl _) h.address ?_ ?_ ?_ rfl rfl (.of_eq ?_)
  · refine ⟨rfl, ?_, ?_⟩ <;> simp only [State.ring, if_true]
    · exact hlt
    · exact Ring.get_set_self ..
  · rw [hl]
    rfl
  · simp only [State.ring, if_true]
    exact h.fits
  · simp only [State.ring, if_true]
    exact hget
  · intro n _ hlt
    by_cases hn : n = s.active
    · subst hn
      simp only [if_true]
      exact hget s.top (le_refl _) hlt
    · simp only [if_neg hn]
  · rw [ho]
    rfl

theorem Inv.pushStore (h : s.Inv) (ho : s.owner = .pushStore item b) :
    ({s with bottom := b + 1, owner := .idle, pushed := s.pushed ++ [item]} : State T).Inv := by
  obtain ⟨rfl, hlt, hit⟩ := h.knows ho
  have hl : s.limit = s.bottom := limit_of_decided (by rw [ho]; rfl)
  have hor := h.ordered
  rw [hl] at hor
  have hco : s.ring.window s.top (s.bottom + 1) = s.content ++ [some item] := by
    rw [Ring.window_succ _ hor, hit, content, hl]
  have hh : s.inHand s.owner = [] := by rw [ho]; rfl
  refine ⟨h.nonneg, ?_, ?_, h.address, trivial, ?_, ?_, ?_⟩
  · show s.top ≤ s.bottom + 1
    omega
  · show s.bottom + 1 - s.top ≤ s.ring.capacity
    omega
  · intro j
    refine (h.thieves j).keep rfl (fun hlt => ?_) (le_refl _) (fun _ => rfl) fun _ _ _ => rfl
    show s.top < s.bottom + 1
    omega
  · show ((s.pushed ++ [item]).map some).Perm (s.popped ++ s.stolen ++ [] ++ s.ring.window s.top (s.bottom + 1))
    have hon := h.once
    rw [hh] at hon
    rw [hco, map_append, ← append_assoc]
    exact hon.append_right _
  · show (s.stolen ++ s.ring.window s.top (s.bottom + 1)).Sublist ((s.pushed ++ [item]).map some)
    rw [hco, map_append, ← append_assoc]
    exact h.inOrder.append_right _

/-! ### Replacing the ring -/

/-- One more item is in the new ring. -/
theorem Inv.copyOne (h : s.Inv) {i : Int} (ho : s.owner = .copy job b i t a newArr) (hi : i < b) :
    ({s with owner := .copy job b (i + 1) t a (newArr.set i ((s.arrays a).get i))} : State T).Inv := by
  obtain ⟨hb, rfl, ht, htop, hti, hib, hcap, hco⟩ := h.knows ho
  refine h.move ho rfl ?_ ⟨hb, rfl, ht, htop, by omega, by omega, hcap, ?_⟩
  · cases job <;> rfl
  · intro k htk hki
    by_cases hk : k = i
    · subst hk
      exact Ring.get_set_self ..
    · rw [Ring.get_set_of_lt _ _ (by omega) (by omega) (by omega)]
      exact hco k htk (by omega)

def published (s : State T) (newArr : Ring T) (pc : OwnerPc T) (popped : List (Option T)) : State T :=
  {s with
    active := s.next
    arrays := fun n => if n = s.next then newArr else s.arrays n
    next := s.next + 1
    owner := pc
    popped }

/-- The new ring holds all that the old one did. -/
theorem Inv.publish (h : s.Inv) {i : Int} (ho : s.owner = .copy job b i t a newArr) (hi : ¬ i < b) {pc : OwnerPc T}
    {popped : List (Option T)} (hu : undecided pc = false)
    (howner : s.bottom - s.top < newArr.capacity → (s.published newArr pc popped).OwnerOk pc) (hp : (s.popped ++
    s.stolen ++ s.inHand s.owner).Perm (popped ++ s.stolen ++ (s.published newArr pc popped).inHand pc)) :
    (s.published newArr pc popped).Inv := by
  obtain ⟨rfl, rfl, ht, htop, hti, hib, hcap, hco⟩ := h.knows ho
  have hl : s.limit = s.bottom := limit_of_decided (by rw [ho]; rfl)
  have hbe := h.address
  refine h.keep (howner (by omega)) rfl ?_ rfl (Nat.le_succ _) (Nat.lt_succ_self _) ?_ ?_ ?_ rfl rfl hp
  · rw [hl]
    exact limit_of_decided hu
  · simp only [State.ring, published, if_true]
    omega
  · intro k hk hkb
    simp only [State.ring, published, if_true]
    exact hco k (by omega) (by omega)
  · intro n hn _
    simp only [published, if_neg (ne_of_lt hn)]

/-! ### Popping -/

/-- Lowering `bottom` decides nothing yet. -/
theorem Inv.popStore (h : s.Inv) (ho : s.owner = .popStore b a) :
    ({s with bottom := b, owner := .popTop b a} : State T).Inv := by
  obtain ⟨rfl, rfl⟩ := h.knows ho
  refine h.keep ⟨rfl, rfl⟩ rfl ?_ rfl (le_refl _) h.address h.fits (fun _ _ _ => rfl)
    (fun _ _ _ => rfl) rfl rfl (.of_eq ?_)
  · rw [limit_of_undecided rfl, limit_of_decided (s := s) (by rw [ho]; rfl)]
    exact Int.sub_add_cancel ..
  · rw [ho]
    rfl

/-- `bottom` is restored where the deque has been seen to be empty. -/
theorem Inv.restore (h : s.Inv) {pc pc' : OwnerPc T} (ho : s.owner = pc) (hb : b = s.bottom)
    (hpc : undecided pc) (hpc' : undecided pc' = false) (hh : s.inHand pc' = s.inHand pc)
    (howner : OwnerOk {s with bottom := b + 1, owner := pc'} pc') :
    ({s with bottom := b + 1, owner := pc'} : State T).Inv := by
  subst ho
  refine h.keep howner rfl ?_ rfl (le_refl _) h.address h.fits (fun _ _ _ => rfl) (fun _ _ _ => rfl) rfl rfl (.of_eq ?_)
  · rw [limit_of_undecided hpc, limit_of_decided hpc', hb]
  · rw [← hh]
    rfl

/-- With `top` below it, the item at `bottom` is the owner's: no thief can get there. -/
theorem Inv.popBelow (h : s.Inv) (ho : s.owner = .popTop b a) (hlt : s.top < b) :
    ({s with owner := .popGet b a s.top} : State T).Inv := by
  obtain ⟨rfl, rfl⟩ := h.knows ho
  have hne : s.top ≠ s.bottom := ne_of_lt hlt
  have hl : s.limit = s.bottom + 1 := limit_of_undecided (by rw [ho]; rfl)
  have hl' : ({s with owner := .popGet s.bottom s.active s.top} : State T).limit = s.bottom :=
    limit_of_decided (decide_eq_false hne)
  have hh : s.inHand s.owner = [] := by rw [ho]; rfl
  have hco : s.content = s.ring.window s.top s.bottom ++ [s.ring.get s.bottom] := by
    rw [content, hl, Ring.window_succ _ (le_of_lt hlt)]
  have hfi := h.fits
  refine ⟨h.nonneg, ?_, ?_, h.address, ⟨rfl, rfl, le_of_lt hlt, le_refl _⟩, ?_, ?_, ?_⟩
  · rw [hl']
    exact le_of_lt hlt
  · rw [hl']
    show s.bottom - s.top ≤ s.ring.capacity
    omega
  · intro j
    refine (h.thieves j).keep rfl (fun _ => ?_) (le_refl _) (fun _ => rfl) fun _ _ _ => rfl
    rw [hl']
    exact hlt
  · have hon := h.once
    rw [hh, hco, append_nil] at hon
    rw [content, hl']
    simp only [inHand, if_neg hne]
    refine hon.trans ?_
    rw [append_assoc (s.popped ++ s.stolen) [_]]
    exact perm_append_comm.append_left _
  · have hor := h.inOrder
    rw [hco, ← append_assoc] at hor
    rw [content, hl']
    exact (sublist_append_left _ _).trans hor

/-- The owner wins the race for the last item. -/
theorem Inv.popWins (h : s.Inv) (ho : s.owner = .popExchange b t val) (htop : s.top = t) :
    ({s with top := t + 1, owner := .popWon b val} : State T).Inv := by
  obtain ⟨hb, rfl, -, rfl⟩ := h.knows ho
  subst hb
  have hl : s.limit = s.bottom + 1 := limit_of_undecided (by rw [ho]; rfl)
  have hh : s.inHand s.owner = [] := by rw [ho]; rfl
  have hco : s.content = [s.ring.get s.bottom] := by
    rw [content, hl, htop, Ring.window_eq_cons _ (by omega), Ring.window_eq_nil _ (by omega)]
  have hc' : ({s with
      top := s.bottom + 1, owner := .popWon s.bottom (s.ring.get s.bottom)} : State T).content =
      [] := Ring.window_eq_nil _ (le_refl _)
  have hno := h.nonneg
  refine ⟨?_, le_refl _, ?_, h.address, ⟨rfl, rfl⟩, ?_, ?_, ?_⟩
  · show 0 ≤ s.bottom + 1
    omega
  · show s.bottom + 1 - (s.bottom + 1) ≤ (s.ring.capacity : Int)
    omega
  · intro j
    refine (h.thieves j).overtaken ?_ (le_refl _)
    show s.top < s.bottom + 1
    omega
  · rw [hc']
    have hon := h.once
    rw [hh, hco, append_nil] at hon
    rw [append_nil]
    exact hon
  · rw [hc']
    have hor := h.inOrder
    rw [append_nil]
    exact (sublist_append_left _ _).trans hor

/-- Beyond `bottom` there is only the end of the items. -/
theorem Inv.top_eq (h : s.Inv) (hu : undecided s.owner) (hlt : s.bottom < s.top) : s.top = s.bottom + 1 := by
  have ho := h.ordered
  rw [limit_of_undecided hu] at ho
  omega

/-! ### The steps of the owner -/

theorem Inv.copyStep (h : s.Inv) {i : Int} (ho : s.owner = .copy job b i t a newArr) :
    (s.copyStep job b i t a newArr).Inv := by
  have hok := h.knows ho
  by_cases hi : i < b
  · rw [State.copyStep, if_pos hi]
    exact h.copyOne ho hi
  · rw [State.copyStep, if_neg hi]
    cases job with
    | push item =>
      refine h.publish ho hi rfl (fun hcap => ⟨hok.1, ?_⟩) (.of_eq ?_)
      · simp only [State.ring, published, if_true]
        rw [hok.1]
        exact hcap
      · rw [ho]
        rfl
    | pop result =>
      refine h.publish ho hi rfl (fun _ => trivial) ?_
      rw [ho]
      exact perm_returned ..

/-- The items fit into half the ring: there are fewer than a quarter of its cells. -/
theorem Inv.shrink (h : s.Inv) {result : Option (Option T)} {a : Nat} {b : Int}
    (ho : s.owner = .shrinkTop result a b) : (s.shrink result a b s.top).Inv := by
  obtain ⟨rfl, rfl⟩ := h.knows ho
  have hu : undecided s.owner = false := by rw [ho]; rfl
  have hor := h.ordered
  rw [limit_of_decided hu] at hor
  rw [State.shrink]
  split
  next hsm =>
    obtain ⟨hcap, hsize⟩ := hsm
    refine h.move ho rfl rfl ⟨rfl, rfl, h.nonneg, le_refl _, le_refl _, hor, ?_, fun k hk hkt => by omega⟩
    show s.bottom - s.top < ((max 64 ((s.arrays s.active).capacity / 2) : Nat) : Int)
    omega
  next =>
    refine h.ret hu ?_
    rw [ho]
    rfl

theorem ownerStep_inv (h : s.Inv) (hst : s.ownerStep = some s') : s'.Inv := by
  cases ho : s.owner <;> have hok := h.knows ho <;>
    simp only [ownerStep, ho, reduceCtorEq, Option.some.injEq] at hst
  case pushBottom item =>
    subst hst
    exact h.move ho rfl rfl rfl
  case pushTop item b =>
    subst hst
    have hfi := h.fits
    rw [limit_of_decided (by rw [ho]; rfl)] at hfi
    refine h.move ho rfl rfl ⟨hok, h.nonneg, le_refl _, ?_⟩
    rw [show b = s.bottom from hok]
    exact hfi
  case pushArray item b t =>
    -- a ring of twice the size is needed if there is no room
    obtain ⟨hb, ht, htop, hfi⟩ := hok
    have hor := h.ordered
    rw [limit_of_decided (by rw [ho]; rfl)] at hor
    have hpos := s.ring.capacity_pos
    split at hst <;> rename_i hroom <;> cases hst
    · refine h.move ho rfl rfl ⟨hb, rfl, ht, htop, le_refl _, by omega, ?_, fun k hk hkt => by omega⟩
      show b - t < ((s.ring.capacity * 2 : Nat) : Int)
      omega
    · have hroom : ¬ b - t > s.ring.capacity - 1 := hroom
      exact h.move ho rfl rfl ⟨hb, rfl, by omega⟩
  case pushReload item b =>
    subst hst
    exact h.move ho rfl rfl ⟨hok.1, rfl, hok.2⟩
  case pushSet item b a =>
    subst hst
    exact h.pushSet ho
  case pushStore item b =>
    subst hst
    exact h.pushStore ho
  case copy job b i t a newArr =>
    subst hst
    exact h.copyStep ho
  case popBottom =>
    subst hst
    exact h.move ho rfl rfl rfl
  case popArray b =>
    subst hst
    exact h.move ho rfl rfl ⟨hok, rfl⟩
  case popStore b a =>
    subst hst
    exact h.popStore ho
  case popTop b a =>
    -- an item of its own, the last one, or none
    obtain ⟨rfl, rfl⟩ := hok
    split at hst <;> rename_i hle <;> cases hst
    · by_cases heq : s.top = s.bottom
      · exact h.move ho (decide_eq_true heq) (if_pos heq) ⟨rfl, rfl, hle, le_refl _⟩
      · exact h.popBelow ho (by omega)
    · exact h.move ho rfl rfl ⟨rfl, h.top_eq (by rw [ho]; rfl) (by omega)⟩
  case popGet b a t =>
    obtain ⟨rfl, rfl, htb, htop⟩ := hok
    split at hst <;> rename_i heq <;> cases hst
    · exact h.move ho (decide_eq_true heq).symm (if_pos heq).symm ⟨rfl, heq, htop, rfl⟩
    · exact h.move ho (decide_eq_false heq).symm (if_neg heq).symm trivial
  case popExchange b t val =>
    split at hst <;> rename_i heq <;> cases hst
    · exact h.popWins ho heq
    · -- a thief was faster
      obtain ⟨rfl, rfl, htop, -⟩ := hok
      exact h.move ho rfl rfl ⟨rfl, h.top_eq (by rw [ho]; rfl) (by omega)⟩
  case popWon b val =>
    subst hst
    exact h.restore ho hok.1 rfl rfl rfl trivial
  case popLost b =>
    subst hst
    rw [State.ret, Option.toList_none, append_nil]
    exact h.restore ho hok.1 rfl rfl rfl trivial
  case popEmpty b =>
    subst hst
    exact h.restore ho hok.1 rfl rfl rfl trivial
  case shrinkArray result =>
    subst hst
    exact h.move ho rfl rfl rfl
  case shrinkBottom result a =>
    subst hst
    exact h.move ho rfl rfl ⟨hok, rfl⟩
  case shrinkTop result a b =>
    subst hst
    exact h.shrink ho

/-! ### The steps of a thief -/

/-- A thief moves on with what it has just loaded. -/
theorem Inv.setThief (h : s.Inv) (j : Nat) (hpc : s.ThiefOk pc) : (s.setThief j pc).Inv := by
  refine ⟨h.nonneg, h.ordered, h.fits, h.address, h.owner, ?_, h.once, h.inOrder⟩
  intro n
  show s.ThiefOk (if n = j then pc else s.thieves n)
  split
  · exact hpc
  · exact h.thieves n

/-- What the owner knows survives a steal: an owner that has seen the end has seen the
last item go. -/
theorem OwnerOk.stolen {pc : OwnerPc T} (h : s.OwnerOk pc) (hlt : s.top < s.limit)
    (ho : s.owner = pc) {j : Nat} {stolen : List (Option T)} :
    ({s.setThief j .idle with top := s.top + 1, stolen } : State T).OwnerOk pc := by
  cases pc with
  | idle | pushBottom _ | popBottom | shrinkArray _ => trivial
  | pushTop _ b => exact h
  | pushArray _ b t =>
    obtain ⟨hb, ht, htop, hfi⟩ := h
    exact ⟨hb, ht, by show t ≤ s.top + 1; omega, hfi⟩
  | pushReload _ b =>
    obtain ⟨hb, hroom⟩ := h
    exact ⟨hb, by show b - (s.top + 1) < s.ring.capacity; omega⟩
  | pushSet _ b a =>
    obtain ⟨hb, ha, hroom⟩ := h
    exact ⟨hb, ha, by show b - (s.top + 1) < s.ring.capacity; omega⟩
  | pushStore item b =>
    obtain ⟨hb, hroom, hit⟩ := h
    exact ⟨hb, by show b - (s.top + 1) < s.ring.capacity; omega, hit⟩
  | copy _ b i t a newArr =>
    obtain ⟨hb, ha, ht, htop, hti, hib, hcap, hco⟩ := h
    exact ⟨hb, ha, ht, by show t ≤ s.top + 1; omega, hti, hib, hcap, hco⟩
  | popArray b | popStore b a | popTop b a | shrinkBottom _ a | shrinkTop _ a b => exact h
  | popGet b a t =>
    obtain ⟨hb, ha, htb, htop⟩ := h
    exact ⟨hb, ha, htb, by show t ≤ s.top + 1; omega⟩
  | popExchange b t val =>
    obtain ⟨hb, htb, htop, hval⟩ := h
    exact ⟨hb, htb, by show t ≤ s.top + 1; omega, hval⟩
  | popWon b _ | popLost b | popEmpty b =>
    obtain ⟨hb, htop⟩ := h
    rw [limit_of_undecided (by rw [ho]; rfl)] at hlt
    omega

/-- A thief whose exchange succeeds takes the oldest item. -/
theorem Inv.steal (h : s.Inv) {j : Nat} (hj : s.thieves j = .exchange t val) (htop : s.top = t) :
    ({s.setThief j .idle with top := t + 1, stolen := s.stolen ++ [val]} : State T).Inv := by
  have hth := h.thieves j
  rw [hj] at hth
  obtain ⟨-, hre⟩ := hth
  subst htop
  obtain ⟨hlt, rfl⟩ := hre rfl
  have hco : s.content = s.ring.get s.top :: s.ring.window (s.top + 1) s.limit :=
    Ring.window_eq_cons _ hlt
  have hno := h.nonneg
  have hfi := h.fits
  have hthi : (s.setThief j .idle).Inv := h.setThief j trivial
  refine ⟨?_, hlt, ?_, h.address, h.owner.stolen hlt rfl, ?_, ?_, ?_⟩
  · show 0 ≤ s.top + 1
    omega
  · show s.limit - (s.top + 1) ≤ s.ring.capacity
    omega
  · intro n
    refine (hthi.thieves n).overtaken ?_ (le_refl _)
    show s.top < s.top + 1
    omega
  · show (s.pushed.map some).Perm (s.popped ++ (s.stolen ++ [s.ring.get s.top]) ++
      s.inHand s.owner ++ s.ring.window (s.top + 1) s.limit)
    have hon := h.once
    rw [hco] at hon
    refine hon.trans ?_
    -- the item moves to the left past what the owner has in hand
    have hsw : (s.inHand s.owner ++ [s.ring.get s.top]).Perm ([s.ring.get s.top] ++ s.inHand s.owner) := perm_append_comm
    simpa only [append_assoc, singleton_append, cons_append, nil_append] using
      ((hsw.append_left (s.popped ++ s.stolen)).append_right (s.ring.window (s.top + 1) s.limit))
  · show (s.stolen ++ [s.ring.get s.top] ++ s.ring.window (s.top + 1) s.limit).Sublist _
    have ho := h.inOrder
    rw [hco] at ho
    rw [append_assoc]
    exact ho

theorem thiefStep_inv (h : s.Inv) {j : Nat} (hst : s.thiefStep j = some s') : s'.Inv := by
  have hok := h.thieves j
  cases hj : s.thieves j <;> rw [hj] at hok <;>
    simp only [thiefStep, hj, reduceCtorEq, Option.some.injEq] at hst
  case loadTop =>
    subst hst
    exact h.setThief j (le_refl _)
  case loadBottom t =>
    split at hst <;> rename_i hlt <;> cases hst
    · refine h.setThief j ⟨hok, fun _ => ?_⟩
      rw [limit]
      split <;> omega
    · exact h.setThief j trivial
  case loadArray t =>
    subst hst
    exact h.setThief j ⟨hok.1, h.address, fun heq => ⟨hok.2 heq, rfl⟩⟩
  case read t a =>
    subst hst
    exact h.setThief j ⟨hok.1, hok.2.2⟩
  case exchange t val =>
    split at hst <;> rename_i htop <;> cases hst
    · exact h.steal hj htop
    · exact h.setThief j trivial

/-! ### Whole runs -/

theorem step_inv (h : s.Inv) {action : Action T} (hst : s.step action = some s') : s'.Inv := by
  cases action with
  | owner => exact ownerStep_inv h hst
  | thief j => exact thiefStep_inv h hst
  | push item | pop =>
    cases ho : s.owner <;> simp only [step, ho, reduceCtorEq, Option.some.injEq] at hst
    subst hst
    exact h.move ho rfl rfl trivial
  | steal j =>
    cases hj : s.thieves j <;> simp only [step, hj, reduceCtorEq, Option.some.injEq] at hst
    subst hst
    exact h.setThief j trivial

theorem run_inv {initialCapacity : Nat} {as : List (Action T)} {t : State T}
    (hrun : (machine T).run (initial initialCapacity) as = some t) : t.Inv :=
  Machine.invariant (I := Inv) (fun _ _ _ h hst => step_inv h hst) (initial_inv _) hrun

/-- Along every interleaving every pushed item is in one place: returned by one `Pop` or
one `Steal`, taken by a `Pop` that is about to return it, or still in the deque. Between
the calls of the owner what is still in the deque is the range from `top` to `bottom` of
the active ring. Steals return items in the order they were pushed, and nothing is
returned that was not pushed. -/
theorem items_conserved {initialCapacity : Nat} {as : List (Action T)} {t : State T}
    (hrun : (machine T).run (initial initialCapacity) as = some t) :
    (t.pushed.map some).Perm (t.popped ++ t.stolen ++ t.inHand t.owner ++ t.content) ∧
    (t.owner = .idle → (t.pushed.map some).Perm (t.popped ++ t.stolen ++ t.ring.window t.top t.bottom)) ∧
    t.stolen.Sublist (t.pushed.map some) ∧
    ∀ value ∈ t.popped ++ t.stolen, ∃ item ∈ t.pushed, value = some item := by
  have h := run_inv hrun
  refine ⟨h.once, ?_, (sublist_append_left _ _).trans h.inOrder, ?_⟩
  · intro hidle
    have honce := h.once
    rw [content, limit_of_decided (by rw [hidle]; rfl), hidle] at honce
    rw [← append_nil (t.popped ++ t.stolen)]
    exact honce
  · intro value hvalue
    have hmem : value ∈ t.pushed.map some := by
      refine h.once.mem_iff.mpr ?_
      rw [append_assoc]
      exact mem_append_left _ hvalue
    obtain ⟨item, hitem, rfl⟩ := mem_map.mp hmem
    exact ⟨item, hitem, rfl⟩

/-- A thief loads the ring, the owner replaces it by a smaller one, and the thief's
exchange succeeds all the same. -/
def staleThiefRun : List (Action Nat) :=
  [Action.push 10] ++ replicate 5 Action.owner ++ [Action.push 20] ++
    replicate 5 Action.owner ++ [Action.steal 0] ++ replicate 3 (Action.thief 0) ++
    [Action.pop] ++ replicate 10 Action.owner ++ replicate 2 (Action.thief 0)

theorem items_conserved_staleThiefRun : ∃ t : State Nat, (machine Nat).run (initial 128) staleThiefRun = some t ∧
    (t.active, t.ring.capacity, t.popped, t.stolen) = (1, 64, [some 20], [some 10]) ∧
    (t.pushed.map some).Perm (t.popped ++ t.stolen ++ t.inHand t.owner ++ t.content) := by
  have hrun : ((machine Nat).run (initial 128) staleThiefRun).map
      (fun t => (t.active, t.ring.capacity, t.popped, t.stolen)) =
      some (1, 64, [some 20], [some 10]) := by decide +kernel
  obtain ⟨t, hrun, hend⟩ := Option.map_eq_some_iff.mp hrun
  exact ⟨t, hrun, hend, (items_conserved hrun).1⟩

end V8Multithread.Threading.Deque.State
