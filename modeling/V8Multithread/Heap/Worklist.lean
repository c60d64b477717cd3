import V8Multithread.Base.Machine
import V8Multithread.Base.Tally

/-! The worklists of the garbage collector.

A worklist is a list of segments behind a lock. A thread has a view on it, with a segment to push to and one to pop from,
and publishes segments and steals them. A step is a section under the lock, with the tests that lead to it, or what a
thread does on its own, so that others go on in the middle of `Push`, `Pop`, `Publish` and `Merge`. A segment is in the
place whose pointer leads to it: the code moves pointers and does not copy them, except that a view keeps the one to a
segment it has published until its next action, and does not use it. The sentinel that the views share is `none`. -/
namespace V8Multithread.Heap
open Bool List Option

/-- An entry is known by the name it was pushed under: `Update` may rewrite its value. The entries are those below
`index_`, the last one first, and there is room for one at least. -/
structure Segment (κ α : Type) where
  capacity : ℕ+
  entries : List (κ × α)

section
variable {κ α : Type}

def entriesOf (p : Option (Segment κ α)) : List (κ × α) := p.elim [] Segment.entries

def isEmpty (p : Option (Segment κ α)) : Bool := (entriesOf p).length = 0

def isFull : Option (Segment κ α) → Bool
  | none => true
  | some segment => segment.entries.length = segment.capacity

/-- `Segment::Push`, `Segment::Pop` and `Segment::Clear` leave these entries. -/
def write (p : Option (Segment κ α)) (entries : List (κ × α)) : Option (Segment κ α) := p.map ({· with entries})

/-- The callback says what becomes of an entry, if it is kept. -/
def Segment.update (callback : α → Option α) (segment : Segment κ α) : Segment κ α :=
  {segment with entries := segment.entries.filterMap fun e => (callback e.2).map (e.1, ·)}

end

structure Worklist (κ α : Type) where
  top : List (Segment κ α)
  size : Nat

inductive Pc (κ α : Type) where
  | idle
  /-- `Push` has published the full segment. -/
  | renew (e : κ × α)
  /-- `Publish` has published the push segment. -/
  | published
  /-- `StealPopSegment` has seen segments, and then has one. -/
  | steal
  | stolen (newSegment : Segment κ α)

structure View (κ α : Type) where
  worklist : Nat
  pushSegment : Option (Segment κ α)
  popSegment : Option (Segment κ α)
  pc : Pc κ α

/-- What `Merge` has taken from the other worklist. -/
structure Merge (κ α : Type) where
  target : Nat
  top : List (Segment κ α)
  size : Nat

/-- Whoever can have segments: a worklist, the view of a thread on one, or a thread that merges. -/
inductive Party (κ α : Type) where
  | worklist (w : Worklist κ α)
  | view (x : View κ α)
  | merge (m : Option (Merge κ α))

/-- With the names of what was pushed, popped and dropped, and whether the code's own checks of what is empty have held. -/
structure State (κ α : Type) where
  party : List (Party κ α)
  pushed : List κ
  popped : List κ
  dropped : List κ
  checked : Bool

inductive ViewAction (κ α : Type) where
  | push (e : κ × α)
  /-- The rest of `Push`, with a new segment of the capacity that the allocator gives it. -/
  | renew (capacity : ℕ+)
  | pop
  | steal
  /-- The rest of `Pop`. -/
  | take
  | publish
  /-- The rest of `Publish`. -/
  | publishPop
  | clear

inductive Action (κ α : Type) where
  | view (v : Nat) (action : ViewAction κ α)
  | merge (m target other : Nat)
  /-- The rest of `Merge`. -/
  | attach (m : Nat)
  | clear (w : Nat)
  | update (w : Nat) (callback : α → Option α)

variable {κ α : Type}

def namesOf (entries : List (κ × α)) : List κ := entries.map Prod.fst

namespace State
variable (s : State κ α)

def set (i : Nat) (p : Party κ α) : State κ α := {s with party := s.party.set i p}

/-- `PublishPushSegment` and `PublishPopSegment`, to the worklist `i`. -/
def publishSegment (i : Nat) (w : Worklist κ α) : Option (Segment κ α) → State κ α
  | none => s
  | some segment => {s.set i (.worklist ⟨segment :: w.top, w.size + 1⟩) with
      checked := s.checked && !isEmpty (some segment)}

/-- `Segment::Pop` for the pop segment of a view. -/
def popEntry (v : Nat) (x : View κ α) : State κ α :=
  match entriesOf x.popSegment with
  | [] => {s with checked := false}
  | e :: rest => {s.set v (.view {x with popSegment := write x.popSegment rest}) with popped := e.1 :: s.popped}

/-- The second half of `Publish`. -/
def publishRest (v : Nat) (x : View κ α) (w : Worklist κ α) : State κ α :=
  if isEmpty x.popSegment then s.set v (.view {x with pc := .idle})
  else (s.publishSegment x.worklist w x.popSegment).set v (.view {x with popSegment := none, pc := .idle})

/-- A step of a view, and whether it is one in which `Pop` returns false. -/
def viewStep (v : Nat) (x : View κ α) (w : Worklist κ α) : ViewAction κ α → Pc κ α → Option (State κ α × Bool)
  | .push e, .idle =>
    if isFull x.pushSegment then
      some ((s.publishSegment x.worklist w x.pushSegment).set v (.view {x with pushSegment := none, pc := .renew e}), false)
    else
      some ({s.set v (.view {x with pushSegment := write x.pushSegment (e :: entriesOf x.pushSegment)}) with
        pushed := e.1 :: s.pushed}, false)
  | .renew capacity, .renew e =>
    some ({s.set v (.view {x with pushSegment := some ⟨capacity, [e]⟩, pc := .idle}) with pushed := e.1 :: s.pushed}, false)
  | .pop, .idle =>
    if isEmpty x.popSegment then
      if isEmpty x.pushSegment then
        if w.size = 0 then some (s, true) else some (s.set v (.view {x with pc := .steal}), false)
      else some (s.popEntry v {x with pushSegment := x.popSegment, popSegment := x.pushSegment}, false)
    else some (s.popEntry v x, false)
  | .steal, .steal =>
    match w.top with
    | [] => some (s.set v (.view {x with pc := .idle}), true)
    | segment :: rest => some ({(s.set x.worklist (.worklist ⟨rest, w.size - 1⟩)).set v (.view {x with pc := .stolen segment})
        with checked := s.checked && 0 < w.size}, false)
  -- The segment that the view had is deleted.
  | .take, .stolen segment => some (s.popEntry v {x with popSegment := some segment, pc := .idle}, false)
  | .publish, .idle =>
    if isEmpty x.pushSegment then some (s.publishRest v x w, false)
    else some ((s.publishSegment x.worklist w x.pushSegment).set v (.view {x with pushSegment := none, pc := .published}), false)
  | .publishPop, .published => some (s.publishRest v x w, false)
  | .clear, .idle =>
    some ({s.set v (.view {x with pushSegment := write x.pushSegment [], popSegment := write x.popSegment []}) with
      dropped := namesOf (entriesOf x.pushSegment ++ entriesOf x.popSegment) ++ s.dropped}, false)
  | _, _ => none

def step : Action κ α → Option (State κ α × Bool)
  | .view v action =>
    match s.party[v]? with
    | some (.view x) => match s.party[x.worklist]? with
      | some (.worklist w) => s.viewStep v x w action x.pc
      | _ => none
    | _ => none
  | .merge m target other =>
    match s.party[m]?, s.party[other]? with
    | some (.merge none), some (.worklist w) =>
      if w.top = [] then some (s, false)
      else some ((s.set other (.worklist ⟨[], 0⟩)).set m (.merge (some ⟨target, w.top, w.size⟩)), false)
    | _, _ => none
  | .attach m =>
    match s.party[m]? with
    | some (.merge (some x)) => match s.party[x.target]? with
      | some (.worklist w) =>
        some ((s.set x.target (.worklist ⟨x.top ++ w.top, w.size + x.size⟩)).set m (.merge none), false)
      | _ => none
    | _ => none
  | .clear i =>
    match s.party[i]? with
    | some (.worklist w) => some ({s.set i (.worklist ⟨[], 0⟩) with
        dropped := namesOf (w.top.flatMap Segment.entries) ++ s.dropped}, false)
    | _ => none
  | .update i callback =>
    match s.party[i]? with
    | some (.worklist w) =>
      let updated := w.top.map (Segment.update callback)
      let deleted := updated.countP fun segment => isEmpty (some segment)
      some ({s.set i (.worklist ⟨updated.filter fun segment => !isEmpty (some segment), w.size - deleted⟩) with
        dropped := namesOf ((w.top.flatMap Segment.entries).filter fun e => (callback e.2).isNone) ++ s.dropped
        checked := s.checked && (deleted = 0 || 0 < w.size)}, false)
    | _ => none

end State

def machine : Machine (State κ α) (Action κ α) := ⟨fun s a => (s.step a).map Prod.fst⟩

/-! ### What is kept -/

namespace Party

def entries : Party κ α → List (κ × α)
  | worklist w => w.top.flatMap Segment.entries
  | view x => entriesOf x.pushSegment ++ entriesOf x.popSegment ++ match x.pc with
    | .stolen segment => segment.entries
    | _ => []
  | merge none => []
  | merge (some m) => m.top.flatMap Segment.entries

def Shared (top : List (Segment κ α)) (size : Nat) : Prop :=
  size = top.length ∧ ∀ segment ∈ top, isEmpty (some segment) = false

/-- Shared segments have entries and are counted, and a view gets a segment only if it has no entries in its place. -/
def Fine : Party κ α → Prop
  | worklist w => Shared w.top w.size
  | view x => match x.pc with
    | .renew _ => x.pushSegment = none
    | .steal => isEmpty x.pushSegment ∧ isEmpty x.popSegment
    | .stolen segment => isEmpty (some segment) = false ∧ isEmpty x.popSegment
    | _ => True
  | merge none => True
  | merge (some m) => Shared m.top m.size

variable [DecidableEq κ]

def count (c : κ) (p : Party κ α) : Int := (namesOf p.entries).count c

end Party

variable [DecidableEq κ]

structure Inv (s : State κ α) : Prop where
  fine : ∀ p ∈ s.party, p.Fine
  ledger : ∀ c, (s.pushed.count c : Int) = s.popped.count c + s.dropped.count c + tally (Party.count c) s.party
  checked : s.checked = true

section
variable {s s' : State κ α} {i j v : Nat} {p p' q q' : Party κ α} {x x' : View κ α} {w : Worklist κ α}

omit [DecidableEq κ] in
theorem isEmpty_iff {r : Option (Segment κ α)} : isEmpty r = true ↔ entriesOf r = [] := by
  rw [isEmpty, decide_eq_true_iff, length_eq_zero_iff]

theorem Inv.fine_at (h : Inv s) (hi : s.party[i]? = some p) : p.Fine := h.fine p (mem_of_getElem? hi)

/-- One party changes. -/
theorem Inv.set (h : Inv s) (hi : s.party[i]? = some p) (hs' : s'.party = s.party.set i p') (hp : p'.Fine)
    (hl : ∀ c, (s'.pushed.count c : Int) + s.popped.count c + s.dropped.count c + p.count c =
      s.pushed.count c + s'.popped.count c + s'.dropped.count c + p'.count c) (hch : s'.checked) : Inv s' := by
  refine ⟨fun q hq => ?_, fun c => ?_, hch⟩
  · rw [hs'] at hq
    exact (mem_or_eq_of_mem_set hq).elim (h.fine q) fun heq => heq ▸ hp
  · have hold := h.ledger c
    have hnew := hl c
    rw [hs', tally.set _ hi]
    omega

/-- Two parties exchange segments. -/
theorem Inv.exchange (h : Inv s) (hi : s.party[i]? = some p) (hj : s.party[j]? = some q) (hne : p ≠ q)
    (hs' : s'.party = (s.party.set i p').set j q') (hp : p'.Fine) (hq : q'.Fine)
    (hsa : (s'.pushed, s'.popped, s'.dropped) = (s.pushed, s.popped, s.dropped))
    (hco : ∀ c, p.count c + q.count c = p'.count c + q'.count c) (hch : s'.checked) : Inv s' := by
  simp only [Prod.mk.injEq] at hsa
  obtain ⟨hpu, hpo, hdr⟩ := hsa
  have hij : i ≠ j := by
    rintro rfl
    exact hne (Option.some.inj (hi.symm.trans hj))
  refine ⟨fun r hr => ?_, fun c => ?_, hch⟩
  · rw [hs'] at hr
    rcases mem_or_eq_of_mem_set hr with hr | rfl
    · exact (mem_or_eq_of_mem_set hr).elim (h.fine r) fun heq => heq ▸ hp
    · exact hq
  · have hold := h.ledger c
    have hnew := hco c
    rw [hs', tally.set _ (by rw [getElem?_set_ne hij, hj]), tally.set _ hi, hpu, hpo, hdr]
    omega

/-- A view publishes a segment. -/
theorem Inv.publish (h : Inv s) (hv : s.party[v]? = some (.view x)) (hw : s.party[i]? = some (.worklist w))
    {r : Option (Segment κ α)} (hfi : r ≠ none → isEmpty r = false) (hfin : (Party.view x').Fine)
    (hco : ∀ c, (Party.view x).count c = (namesOf (entriesOf r)).count c + (Party.view x').count c) :
    Inv ((s.publishSegment i w r).set v (.view x')) := by
  cases r with
  | none =>
    refine h.set hv rfl hfin (fun c => ?_) h.checked
    rw [hco]
    simp [State.set, State.publishSegment, namesOf, entriesOf]
  | some segment =>
    obtain ⟨hsize, htop⟩ := h.fine_at hw
    refine h.exchange hw hv nofun rfl ⟨congrArg Nat.succ hsize, ?_⟩ hfin rfl (fun c => ?_) ?_
    · exact forall_mem_cons.mpr ⟨hfi nofun, htop⟩
    · rw [hco]
      simp [Party.count, Party.entries, namesOf, entriesOf]
      omega
    · simp [State.set, State.publishSegment, h.checked, hfi nofun]

/-- The second half of `Publish`. -/
theorem Inv.publishRest {push pop : Option (Segment κ α)} {pc : Pc κ α} (h : Inv s)
    (hv : s.party[v]? = some (.view ⟨i, push, pop, pc⟩)) (hw : s.party[i]? = some (.worklist w))
    (hpc : pc = .idle ∨ pc = .published) : Inv (s.publishRest v ⟨i, push, pop, pc⟩ w) := by
  have hco : ∀ c, (Party.view ⟨i, push, pop, pc⟩).count c = (Party.view ⟨i, push, pop, .idle⟩).count c := by
    rcases hpc with rfl | rfl <;> exact fun _ => rfl
  rw [State.publishRest]
  split
  · refine h.set hv rfl trivial (fun c => ?_) h.checked
    rw [hco]
    rfl
  · next hem =>
    refine h.publish hv hw (fun _ => eq_false_iff.mpr hem) trivial fun c => ?_
    rw [hco]
    simp [Party.count, Party.entries, namesOf, entriesOf]
    omega

/-- The view has an entry to pop. -/
theorem Inv.popEntry (h : Inv s) (hv : s.party[v]? = some (.view x)) (hne : isEmpty x'.popSegment = false)
    (hpc : x'.pc = .idle) (hco : ∀ c, (Party.view x).count c = (Party.view x').count c) : Inv (s.popEntry v x') := by
  rw [State.popEntry]
  rcases hen : entriesOf x'.popSegment with - | ⟨e, rest⟩
  · rw [isEmpty_iff.mpr hen] at hne
    cases hne
  · refine h.set hv rfl (by simp [Party.Fine, hpc]) (fun c => ?_) h.checked
    rw [hco]
    obtain ⟨segment, hse⟩ : ∃ segment, x'.popSegment = some segment :=
      ne_none_iff_exists'.mp fun hno => by simp [hno, entriesOf] at hen
    rw [hse] at hen
    simp [State.set, Party.count, Party.entries, namesOf, hpc, write, hse, entriesOf] at hen ⊢
    simp [hen, count_cons]
    omega

/-- `Pop` returns false only if the view has no entries and the worklist no segments. -/
theorem Inv.viewStep (h : Inv s) (hv : s.party[v]? = some (.view x)) (hw : s.party[x.worklist]? = some (.worklist w))
    {action : ViewAction κ α} {b : Bool} (hst : s.viewStep v x w action x.pc = some (s', b)) :
    Inv s' ∧ (b → isEmpty x.pushSegment ∧ isEmpty x.popSegment ∧ w.top = []) := by
  obtain ⟨i, push, pop, pc⟩ := x
  have hvi := h.fine_at hv
  have hl := h.fine_at hw
  unfold State.viewStep at hst
  split at hst
  · next e hpc =>
    cases hpc
    split at hst
    · next hfu =>
      cases hst
      refine ⟨h.publish hv hw (fun hne => ?_) rfl fun c => ?_, nofun⟩
      · obtain ⟨segment, rfl⟩ := ne_none_iff_exists'.mp hne
        have hlen : segment.entries.length = segment.capacity := of_decide_eq_true hfu
        exact decide_eq_false (hlen ▸ segment.capacity.ne_zero)
      · simp [Party.count, Party.entries, namesOf, entriesOf]
    · next hroom =>
      cases hst
      obtain ⟨segment, rfl⟩ : ∃ segment, push = some segment :=
        ne_none_iff_exists'.mp fun hno => hroom (by rw [hno]; rfl)
      refine ⟨h.set hv rfl trivial (fun c => ?_) h.checked, nofun⟩
      simp [State.set, Party.count, Party.entries, namesOf, entriesOf, write, count_cons]
      omega
  · next capacity e hpc =>
    cases hpc
    cases hst
    cases hvi
    refine ⟨h.set hv rfl trivial (fun c => ?_) h.checked, nofun⟩
    simp [State.set, Party.count, Party.entries, namesOf, entriesOf, count_cons]
    omega
  · next hpc =>
    cases hpc
    split at hst
    · next hpop =>
      split at hst
      · next hp =>
        split at hst
        · next hsize =>
          cases hst
          exact ⟨h, fun _ => ⟨hp, hpop, length_eq_zero_iff.mp (hl.1.symm.trans hsize)⟩⟩
        · cases hst
          exact ⟨h.set hv rfl ⟨hp, hpop⟩ (fun _ => rfl) h.checked, nofun⟩
      · next hp =>
        cases hst
        refine ⟨h.popEntry hv (eq_false_iff.mpr hp) rfl fun c => ?_, nofun⟩
        simp [Party.count, Party.entries, namesOf]
        omega
    · next hpop =>
      cases hst
      exact ⟨h.popEntry hv (eq_false_iff.mpr hpop) rfl fun _ => rfl, nofun⟩
  · next hpc =>
    cases hpc
    split at hst
    · next htop =>
      cases hst
      exact ⟨h.set hv rfl trivial (fun _ => rfl) h.checked, fun _ => ⟨hvi.1, hvi.2, htop⟩⟩
    · next segment rest htop =>
      cases hst
      obtain ⟨hsize, hfi⟩ := hl
      rw [htop] at hsize hfi
      rw [forall_mem_cons] at hfi
      refine ⟨h.exchange hw hv nofun rfl ⟨by rw [hsize]; rfl, hfi.2⟩ ⟨hfi.1, hvi.2⟩ rfl (fun c => ?_) ?_, nofun⟩
      · simp [Party.count, Party.entries, namesOf, htop]
        omega
      · simp [h.checked, hsize]
  · next segment hpc =>
    cases hpc
    cases hst
    refine ⟨h.popEntry hv hvi.1 rfl fun c => ?_, nofun⟩
    have hpop : entriesOf pop = [] := isEmpty_iff.mp hvi.2
    simp [Party.count, Party.entries, namesOf, hpop]
    rfl
  · next hpc =>
    cases hpc
    split at hst
    · cases hst
      exact ⟨h.publishRest hv hw (.inl rfl), nofun⟩
    · next hem =>
      cases hst
      refine ⟨h.publish hv hw (fun _ => eq_false_iff.mpr hem) trivial fun c => ?_, nofun⟩
      simp [Party.count, Party.entries, namesOf, entriesOf]
  · next hpc =>
    cases hpc
    cases hst
    exact ⟨h.publishRest hv hw (.inr rfl), nofun⟩
  · next hpc =>
    cases hpc
    cases hst
    refine ⟨h.set hv rfl trivial (fun c => ?_) h.checked, nofun⟩
    have hcl : ∀ r : Option (Segment κ α), entriesOf (write r []) = [] := by rintro (- | segment) <;> rfl
    simp [State.set, Party.count, Party.entries, namesOf, hcl]
    omega
  · cases hst

/-- What `Update` keeps and what it drops. -/
theorem count_update (callback : α → Option α) (c : κ) (entries : List (κ × α)) :
    (namesOf entries).count c = (namesOf (entries.filterMap fun e => (callback e.2).map (e.1, ·))).count c +
      (namesOf (entries.filter fun e => (callback e.2).isNone)).count c := by
  induction entries with
  | nil => rfl
  | cons e entries ih =>
    simp only [namesOf] at *
    cases hca : callback e.2 <;> simp [hca, count_cons] <;> omega

omit [DecidableEq κ] in
/-- A segment that is deleted has no entries. -/
theorem entries_update (callback : α → Option α) (top : List (Segment κ α)) :
    ((top.map (Segment.update callback)).filter fun segment => !isEmpty (some segment)).flatMap Segment.entries =
      (top.flatMap Segment.entries).filterMap fun e => (callback e.2).map (e.1, ·) := by
  induction top with
  | nil => rfl
  | cons segment top ih =>
    rw [flatMap_cons, filterMap_append, ← ih, map_cons, filter_cons]
    split
    · rfl
    · next hem =>
      have hen := isEmpty_iff.mp (by simpa using hem)
      rw [show (segment.entries.filterMap fun e => (callback e.2).map (e.1, ·)) = [] from hen]
      rfl

theorem Inv.step (h : Inv s) {action : Action κ α} {b : Bool} (hst : s.step action = some (s', b)) : Inv s' := by
  unfold State.step at hst
  split at hst
  · split at hst
    · next hv =>
      split at hst
      · next hw => exact (h.viewStep hv hw hst).1
      · cases hst
    · cases hst
  · split at hst
    · next w hm hw =>
      split at hst
      · cases hst
        exact h
      · cases hst
        have hl : Party.Shared w.top w.size := h.fine_at hw
        exact h.exchange hw hm nofun rfl ⟨rfl, nofun⟩ hl rfl (fun _ => add_comm _ _) h.checked
    · cases hst
  · split at hst
    · next x hm =>
      split at hst
      · next w hw =>
        cases hst
        obtain ⟨hsize, htop⟩ := h.fine_at hw
        obtain ⟨hs', htop'⟩ := h.fine_at hm
        refine h.exchange hw hm nofun rfl ⟨?_, forall_mem_append.mpr ⟨htop', htop⟩⟩ trivial rfl (fun c => ?_) h.checked
        · rw [hsize, hs', length_append, add_comm]
        · simp [Party.count, Party.entries, namesOf]
          omega
      · cases hst
    · cases hst
  · split at hst
    · next w hw =>
      cases hst
      refine h.set hw rfl ⟨rfl, nofun⟩ (fun c => ?_) h.checked
      simp [State.set, Party.count, Party.entries, namesOf]
      omega
    · cases hst
  · next callback =>
    split at hst
    · next w hw =>
      cases hst
      obtain ⟨hsize, htop⟩ := h.fine_at hw
      have hsp := length_eq_countP_add_countP (fun segment => isEmpty (some segment))
        (l := w.top.map (Segment.update callback))
      rw [length_map, ← hsize] at hsp
      refine h.set hw rfl ⟨?_, fun segment hse => ?_⟩ (fun c => ?_) ?_
      · rw [← countP_eq_length_filter, hsp, Nat.add_sub_cancel_left]
        simp
      · simpa using (mem_filter.mp hse).2
      · have hco := count_update callback c (w.top.flatMap Segment.entries)
        rw [← entries_update] at hco
        simp [State.set, Party.count, Party.entries, namesOf] at hco ⊢
        omega
      · simp only [h.checked, Bool.true_and, or_eq_true, decide_eq_true_eq]
        omega
    · cases hst

end

def Party.fresh : Party κ α → Bool
  | worklist ⟨[], 0⟩ | view ⟨_, none, none, .idle⟩ | merge none => true
  | _ => false

theorem inv_initial {party : List (Party κ α)} (hfresh : ∀ p ∈ party, p.fresh) : Inv ⟨party, [], [], [], true⟩ := by
  have hp : ∀ p ∈ party, p.Fine ∧ p.entries = [] := by
    intro p hp
    have h := hfresh p hp
    unfold Party.fresh at h
    split at h
    · exact ⟨⟨rfl, nofun⟩, rfl⟩
    · exact ⟨trivial, rfl⟩
    · exact ⟨trivial, rfl⟩
    · cases h
  refine ⟨fun p h => (hp p h).1, fun c => ?_, rfl⟩
  rw [tally.eq_zero fun p h => by rw [Party.count, (hp p h).2]; rfl]
  rfl

/-- Whatever the threads do, the entries pushed are those popped, those that `Clear` and `Update` have dropped, and
those in the segments of views, worklists and merges, each once. `Pop` returns false only when the view has no entries
and the worklist no segments. -/
theorem worklists_keep_entries {party : List (Party κ α)} (hfresh : ∀ p ∈ party, p.fresh) {actions : List (Action κ α)}
    {s : State κ α} (hrun : machine.run ⟨party, [], [], [], true⟩ actions = some s) :
    s.pushed.Perm (s.popped ++ s.dropped ++ s.party.flatMap fun p => namesOf p.entries) ∧ s.checked = true ∧
      ∀ v action s', s.step (.view v action) = some (s', true) → ∃ x w, s.party[v]? = some (.view x) ∧
        s.party[x.worklist]? = some (.worklist w) ∧ isEmpty x.pushSegment ∧ isEmpty x.popSegment ∧ w.top = [] := by
  have hinv : Inv s := by
    refine Machine.invariant (fun s action s' h hstep => ?_) (inv_initial hfresh) hrun
    obtain ⟨⟨t, b⟩, ht, rfl⟩ := map_eq_some_iff.mp hstep
    exact h.step ht
  refine ⟨perm_iff_count.mpr fun c => ?_, hinv.checked, fun v action s' hstep => ?_⟩
  · have hledger := hinv.ledger c
    have htally : tally (Party.count c) s.party = ((s.party.flatMap fun p => namesOf p.entries).count c : Int) := by
      rw [count_flatMap, Nat.cast_list_sum, List.map_map]
      rfl
    rw [count_append, count_append]
    omega
  · rw [State.step] at hstep
    split at hstep
    · next x hv =>
      split at hstep
      · next w hw => exact ⟨x, w, hv, hw, (hinv.viewStep hv hw hstep).2 rfl⟩
      · cases hstep
    · cases hstep

theorem worklists_keep_entries_two : ∃ s : State Nat Unit,
    machine.run ⟨[.worklist ⟨[], 0⟩, .view ⟨0, none, none, .idle⟩, .view ⟨0, none, none, .idle⟩], [], [], [], true⟩
      [.view 1 (.push (7, ())), .view 1 (.renew 1), .view 1 (.push (8, ())), .view 2 .pop, .view 2 .steal, .view 2 .take] = some s ∧
    s.pushed.Perm (s.popped ++ s.dropped ++ s.party.flatMap fun p => namesOf p.entries) :=
  Exists.imp (fun _ hrun => ⟨hrun, (worklists_keep_entries (by decide) hrun).1⟩) ⟨_, rfl⟩

end V8Multithread.Heap
