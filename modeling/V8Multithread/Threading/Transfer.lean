import V8Multithread.Threading.Channel
import V8Multithread.Threading.Pool

/-! Transferred buffers.

`Send` and `Thread.spawn` detach the array buffers of a transfer list before they write the message, and
number them by their places in the list. The receiver numbers the backing stores that came with the
message. The message is taken as what the serializer meets on its way through the value, in that order;
what it writes for anything but an array buffer is not looked into here. -/
namespace V8Multithread.Threading.Transfer
open Option List

/-! ### The sender's objects -/

/-- An object, by its address. -/
abbrev Ref := Nat

/-- A backing store, by its address. -/
abbrev BackingStore := Nat

structure JSArrayBuffer where
  /-- None if the buffer is detached. -/
  backingStore : Option BackingStore
  data : List UInt8
  /-- Whether `Detach` without a key succeeds. It does not for the memory of a WebAssembly instance, for an
  immutable buffer and for one that has a key; the process is then stopped. -/
  detachable : Bool

/-- Of an object that is not an array buffer there is what is written for it, if it can be cloned. -/
inductive Object where
  | arrayBuffer (b : JSArrayBuffer)
  | other (written : Option (List UInt8))

namespace Object

def isArrayBuffer : Object → Bool
  | arrayBuffer _ => true
  | other _ => false

def backingStore : Object → Option BackingStore
  | arrayBuffer b => b.backingStore
  | other _ => none

def detach : Object → Object
  | arrayBuffer b => .arrayBuffer {b with backingStore := none, data := []}
  | other written => .other written

@[simp] theorem backingStore_detach (o : Object) : o.detach.backingStore = none := by
  cases o <;> rfl

@[simp] theorem isArrayBuffer_detach (o : Object) : o.detach.isArrayBuffer = o.isArrayBuffer := by
  cases o <;> rfl

theorem detach_of_other {o : Object} (h : o.isArrayBuffer = false) : o.detach = o := by
  cases o with
  | arrayBuffer b => cases h
  | other written => rfl

@[simp] theorem detach_detach (o : Object) : o.detach.detach = o.detach := by
  cases o <;> rfl

end Object

/-- The sender's heap. No two array buffers have one backing store. -/
structure Heap where
  object : Ref → Object
  owned : ∀ {r r' s}, (object r).backingStore = some s → (object r').backingStore = some s → r = r'

def Heap.detach (h : Heap) (r : Ref) : Heap where
  object := Function.update h.object r (h.object r).detach
  owned := by
    have hstore : ∀ {r' s}, (Function.update h.object r (h.object r).detach r').backingStore = some s →
        (h.object r').backingStore = some s := by
      intro r' s hs
      rw [Function.update_apply] at hs
      split at hs
      · simp at hs
      · exact hs
    intro r₁ r₂ s h₁ h₂
    exact h.owned (hstore h₁) (hstore h₂)

/-! ### The transfer list -/

structure Sender where
  heap : Heap
  /-- `array_buffer_transfer_map_`. -/
  transferMap : Ref → Option Nat
  /-- None for the empty backing store, which a detached buffer gives. -/
  backingStores : List (Option BackingStore)

/-- A round. An item is none if it is not an object or cannot be read. A buffer that is listed again gets the
new number. -/
def transferItem (s : Sender) (entry : Option Ref × Nat) : Option Sender :=
  match entry with
  | (none, _) => some s
  | (some r, i) =>
    match s.heap.object r with
    | .other _ => some s
    | .arrayBuffer b =>
      if b.detachable then
        some ⟨s.heap.detach r, Function.update s.transferMap r (some i), s.backingStores ++ [b.backingStore]⟩
      else none

def transferList (h : Heap) (items : List (Option Ref)) : Option Sender :=
  items.zipIdx.foldlM transferItem ⟨h, fun _ => none, []⟩

/-! ### The message -/

/-- What the serializer meets: a value without identity, if it can be cloned, or an object. -/
inductive Visit where
  | value (data : Option (List UInt8))
  | receiver (r : Ref)

inductive Entry where
  | value (data : List UInt8)
  | object (data : List UInt8)
  | arrayBuffer (data : List UInt8)
  | arrayBufferTransfer (id : Nat)
  | objectReference (id : Nat)
  deriving DecidableEq

def writeJSArrayBuffer (transferMap : Ref → Option Nat) (r : Ref) (b : JSArrayBuffer) : Option Entry :=
  match transferMap r with
  | some id => some (.arrayBufferTransfer id)
  | none => if b.backingStore.isSome ∧ b.data.length ≤ 2 ^ 32 - 1 then some (.arrayBuffer b.data) else none

def writeObject (s : Sender) (r : Ref) : Option Entry :=
  match s.heap.object r with
  | .arrayBuffer b => writeJSArrayBuffer s.transferMap r b
  | .other written => written.map .object

/-- The objects of `ids` have been written. -/
def write (s : Sender) : (ids : List Ref) → List Visit → Option (List Entry)
  | _, [] => some []
  | ids, .value data :: rest => do
    let data ← data
    let entries ← write s ids rest
    return .value data :: entries
  | ids, .receiver r :: rest =>
    match ids.idxOf? r with
    | some id => (write s ids rest).map (.objectReference id :: ·)
    | none => do
      let entry ← writeObject s r
      let entries ← write s (ids ++ [r]) rest
      return entry :: entries

inductive Received where
  | value (data : List UInt8)
  | object (data : List UInt8)
  | copy (data : List UInt8)
  | over (store : Option BackingStore)
  deriving DecidableEq

/-- The receiver makes an array buffer over each backing store, and numbers them. -/
def readEntry (backingStores : List (Option BackingStore)) (objects : List Received) : Entry → Option Received
  | .value data => some (.value data)
  | .object data => some (.object data)
  | .arrayBuffer data => some (.copy data)
  | .arrayBufferTransfer id => backingStores[id]?.map .over
  | .objectReference id => objects[id]?

/-- The objects that the receiver has numbered after one more entry. -/
def Entry.objects (objects : List Received) (x : Received) : Entry → List Received
  | .value _ | .objectReference _ => objects
  | _ => objects ++ [x]

def read (backingStores : List (Option BackingStore)) : (objects : List Received) → List Entry → Option (List Received)
  | _, [] => some []
  | objects, entry :: rest => do
    let x ← readEntry backingStores objects entry
    let xs ← read backingStores (entry.objects objects x) rest
    return x :: xs

/-! ### What the loop leaves -/

section
variable {h : Heap} {items : List (Option Ref)} {s : Sender}

def Heap.buffers (h : Heap) (items : List (Option Ref)) : List Ref :=
  items.filterMap fun item => item.filter fun r => (h.object r).isArrayBuffer

variable {r : Ref}

theorem Heap.mem_buffers : r ∈ h.buffers items ↔ some r ∈ items ∧ (h.object r).isArrayBuffer := by
  simp [buffers, filter_eq_some_iff]

theorem Heap.buffers_append (items items' : List (Option Ref)) :
    h.buffers (items ++ items') = h.buffers items ++ h.buffers items' := filterMap_append ..

def lastPlace (items : List (Option Ref)) (r : Ref) : Nat := items.length - 1 - items.reverse.idxOf (some r)

theorem lastPlace_self (items : List (Option Ref)) (r : Ref) : lastPlace (items ++ [some r]) r = items.length := by
  simp [lastPlace]

theorem lastPlace_append {item : Option Ref} (hne : item ≠ some r) (hr : some r ∈ items) :
    lastPlace (items ++ [item]) r = lastPlace items r := by
  have hlt := idxOf_lt_length_of_mem (mem_reverse.mpr hr)
  simp only [lastPlace, length_append, length_singleton, reverse_append, reverse_singleton,
    singleton_append, idxOf_cons_ne _ hne, length_reverse] at hlt ⊢
  omega

theorem lastPlace_spec (hr : some r ∈ items) :
    ∃ before after, items = before ++ some r :: after ∧ before.length = lastPlace items r ∧ some r ∉ after := by
  induction items using List.reverseRecOn with
  | nil => cases hr
  | append_singleton items item ih =>
    by_cases heq : item = some r
    · rw [heq]
      exact ⟨items, [], rfl, (lastPlace_self items r).symm, not_mem_nil⟩
    · have hmem : some r ∈ items := by simpa [Ne.symm heq] using hr
      obtain ⟨before, after, hit, hl, hafter⟩ := ih hmem
      refine ⟨before, after ++ [item], ?_, hl.trans (lastPlace_append heq hmem).symm, by simp [hafter, Ne.symm heq]⟩
      rw [hit, append_assoc, cons_append]

/-- After the rounds for `items`: the buffers among them are detached, the number of each is its last place, and the
backing store of each is that which it had, except where it was detached by an earlier round. -/
structure Transferred (h : Heap) (items : List (Option Ref)) (s : Sender) : Prop where
  object : ∀ r, s.heap.object r = if some r ∈ items then (h.object r).detach else h.object r
  number : ∀ r, s.transferMap r = if r ∈ h.buffers items then some (lastPlace items r) else none
  stores : ∀ k, s.backingStores[k]? = (h.buffers items)[k]?.map fun r =>
    if r ∈ (h.buffers items).take k then none else (h.object r).backingStore

section
variable (ht : Transferred h items s)
include ht

theorem Transferred.length : s.backingStores.length = (h.buffers items).length := by
  refine le_antisymm ?_ ?_
  · have := ht.stores (h.buffers items).length
    rwa [List.getElem?_eq_none le_rfl, map_none, List.getElem?_eq_none_iff] at this
  · have := ht.stores s.backingStores.length
    rwa [List.getElem?_eq_none le_rfl, eq_comm, map_eq_none_iff, List.getElem?_eq_none_iff] at this

theorem Transferred.isArrayBuffer (r : Ref) : (s.heap.object r).isArrayBuffer = (h.object r).isArrayBuffer := by
  rw [ht.object]
  split <;> simp

/-- A round for an item that is not a buffer. -/
theorem Transferred.skip {item : Option Ref} (hit : ∀ r, item = some r → (h.object r).isArrayBuffer = false) :
    Transferred h (items ++ [item]) s := by
  have hbu : h.buffers (items ++ [item]) = h.buffers items := by
    rw [Heap.buffers_append, append_right_eq_self, Heap.buffers]
    cases item with
    | none => rfl
    | some r => simp [hit r rfl, Option.filter]
  refine ⟨fun r => ?_, fun r => ?_, fun k => by rw [hbu, ht.stores]⟩
  · by_cases heq : item = some r
    · rw [ht.object, Object.detach_of_other (hit r heq), ite_self, ite_self]
    · rw [ht.object]
      simp [Ne.symm heq]
  · rw [hbu, ht.number]
    split
    · next hmem =>
      obtain ⟨hl, hr⟩ := Heap.mem_buffers.mp hmem
      refine congrArg some (lastPlace_append (fun heq => ?_) hl).symm
      rw [hit r heq] at hr
      cases hr
    · rfl

/-- A round for a buffer. -/
theorem Transferred.claim (hr : (h.object r).isArrayBuffer) :
    Transferred h (items ++ [some r]) ⟨s.heap.detach r, Function.update s.transferMap r (some items.length),
      s.backingStores ++ [(s.heap.object r).backingStore]⟩ := by
  have hbu : h.buffers (items ++ [some r]) = h.buffers items ++ [r] := by
    simp [Heap.buffers, Option.filter, hr]
  refine ⟨fun r' => ?_, fun r' => ?_, fun k => ?_⟩
  · by_cases heq : r' = r
    · rw [heq]
      simp only [Heap.detach, Function.update_self, ht.object, mem_append, mem_singleton, or_true, if_true]
      split <;> simp
    · simp [Heap.detach, ht.object, heq]
  · by_cases heq : r' = r
    · rw [heq, hbu, lastPlace_self]
      simp
    · rw [hbu]
      simp only [Function.update_of_ne heq, ht.number, mem_append, mem_singleton, heq, or_false]
      split
      · next hmem => exact congrArg some (lastPlace_append (by simpa using Ne.symm heq) (Heap.mem_buffers.mp hmem).1).symm
      · rfl
  · have hl := ht.length
    rw [hbu]
    rcases Nat.lt_trichotomy k (h.buffers items).length with hlt | heq | hgt
    · rw [List.getElem?_append_left (by omega), List.getElem?_append_left hlt, ht.stores, take_append_of_le_length hlt.le]
    · rw [heq, take_left, List.getElem?_concat_length, ← hl, List.getElem?_concat_length, ht.object]
      simp only [map_some, Heap.mem_buffers, hr, and_true]
      split <;> simp
    · rw [List.getElem?_eq_none (by simp; omega), List.getElem?_eq_none (by simp; omega), map_none]

end

theorem transferList_append (items : List (Option Ref)) (item : Option Ref) :
    transferList h (items ++ [item]) = (transferList h items).bind (transferItem · (item, items.length)) := by
  simp [transferList, zipIdx_append]

theorem transferList_transferred (hs : transferList h items = some s) : Transferred h items s := by
  induction items using List.reverseRecOn generalizing s with
  | nil =>
    obtain rfl := Option.some.inj hs
    exact ⟨fun r => by simp, fun r => by simp [Heap.buffers], fun k => by simp [Heap.buffers]⟩
  | append_singleton items item ih =>
    rw [transferList_append] at hs
    obtain ⟨s₀, hs₀, hit⟩ := bind_eq_some_iff.mp hs
    have ht := ih hs₀
    cases item with
    | none =>
      obtain rfl := Option.some.inj hit
      exact ht.skip fun r hr => by cases hr
    | some r =>
      have hsa := ht.isArrayBuffer r
      simp only [transferItem] at hit
      split at hit
      · next written ho =>
        obtain rfl := Option.some.inj hit
        rw [ho] at hsa
        refine ht.skip fun r' hr' => ?_
        obtain rfl := Option.some.inj hr'
        exact hsa.symm
      · next b hbu =>
        split at hit
        · obtain rfl := Option.some.inj hit
          rw [hbu] at hsa
          have hcl := ht.claim hsa.symm
          rwa [hbu] at hcl
        · cases hit

/-! ### What the receiver gets -/

/-- What is written where the serializer meets something for the first time. -/
def Visit.entry (s : Sender) : Visit → Option Entry
  | .value data => data.map .value
  | .receiver r => writeObject s r

def Visit.image (s : Sender) (v : Visit) : Option Received := (v.entry s).bind (readEntry s.backingStores [])

variable {entry : Entry} {ids : List Ref} {visits : List Visit} {entries : List Entry} {objects : List Received}

theorem writeObject_cases (hen : writeObject s r = some entry) :
    (∃ data, entry = .object data) ∨ (∃ data, entry = .arrayBuffer data) ∨ ∃ id, entry = .arrayBufferTransfer id := by
  simp only [writeObject, writeJSArrayBuffer] at hen
  split at hen
  · split at hen
    · exact .inr (.inr ⟨_, (Option.some.inj hen).symm⟩)
    · split at hen
      · exact .inr (.inl ⟨_, (Option.some.inj hen).symm⟩)
      · cases hen
  · obtain ⟨data, -, heq⟩ := map_eq_some_iff.mp hen
    exact .inl ⟨data, heq.symm⟩

/-- Everything the serializer meets can be written if the message can. -/
theorem write_entry (hw : write s ids visits = some entries)
    (hids : ∀ r ∈ ids, (writeObject s r).isSome) : ∀ v ∈ visits, (v.entry s).isSome := by
  induction visits generalizing ids entries with
  | nil => simp
  | cons v rest ih =>
    cases v with
    | value data =>
      obtain ⟨data, rfl, hw⟩ := bind_eq_some_iff.mp hw
      obtain ⟨entries, hrest, -⟩ := bind_eq_some_iff.mp hw
      exact forall_mem_cons.mpr ⟨rfl, ih hrest hids⟩
    | receiver r =>
      rw [write] at hw
      split at hw
      · next id hid =>
        obtain ⟨entries, hrest, -⟩ := map_eq_some_iff.mp hw
        obtain ⟨hlt, hget, -⟩ := List.idxOf?_eq_some_iff.mp hid
        exact forall_mem_cons.mpr ⟨hids r (hget ▸ getElem_mem hlt), ih hrest hids⟩
      · obtain ⟨entry, hen, hw⟩ := bind_eq_some_iff.mp hw
        obtain ⟨entries, hrest, -⟩ := bind_eq_some_iff.mp hw
        have hso : (writeObject s r).isSome := by rw [hen]; rfl
        refine forall_mem_cons.mpr ⟨hso, ih hrest fun r' hr' => ?_⟩
        rcases mem_append.mp hr' with hold | hnew
        · exact hids r' hold
        · rwa [mem_singleton.mp hnew]

theorem read_cons {stores : List (Option BackingStore)} {rest : List Entry} {xs : List Received} :
    read stores objects (entry :: rest) = some xs ↔ ∃ x xs', xs = x :: xs' ∧ readEntry stores objects entry = some x ∧
      read stores (entry.objects objects x) rest = some xs' := by
  simp only [read, bind_eq_bind, bind_eq_some_iff, Option.pure_def, Option.some.injEq]
  constructor
  · rintro ⟨x, hx, xs', hxs, rfl⟩
    exact ⟨x, xs', rfl, hx, hxs⟩
  · rintro ⟨x, xs', rfl, hx, hxs⟩
    exact ⟨x, hx, xs', hxs, rfl⟩

/-- The receiver gets the image of each thing that the serializer met, or nothing if one has none. -/
theorem read_write
    (hw : write s ids visits = some entries) (hids : ids.map (fun r => (Visit.receiver r).image s) = objects.map some)
    (xs : List Received) : read s.backingStores objects entries = some xs ↔ visits.map (Visit.image s) = xs.map some := by
  induction visits generalizing ids entries objects xs with
  | nil =>
    obtain rfl := Option.some.inj hw
    cases xs <;> simp [read]
  | cons v rest ih =>
    have hco : ∀ {entry : Entry} {rest' : List Entry} {ids' : List Ref}, write s ids' rest = some rest' →
        readEntry s.backingStores objects entry = v.image s →
        (∀ x, v.image s = some x → ids'.map (fun r => (Visit.receiver r).image s) = (entry.objects objects x).map some) →
        (read s.backingStores objects (entry :: rest') = some xs ↔ (v :: rest).map (Visit.image s) = xs.map some) := by
      intro entry rest' ids' hrest hre hids'
      rw [read_cons, hre]
      cases xs with
      | nil => simp
      | cons x xs =>
        rw [map_cons, map_cons, List.cons.injEq]
        constructor
        · rintro ⟨x', xs', heq, hx, hxs⟩
          cases heq
          exact ⟨hx, (ih hrest (hids' x hx) xs).mp hxs⟩
        · rintro ⟨hx, hxs⟩
          exact ⟨x, xs, rfl, hx, (ih hrest (hids' x hx) xs).mpr hxs⟩
    cases v with
    | value data =>
      obtain ⟨data, rfl, hw⟩ := bind_eq_some_iff.mp hw
      obtain ⟨rest', hrest, heq⟩ := bind_eq_some_iff.mp hw
      obtain rfl := Option.some.inj heq
      exact hco hrest rfl fun x _ => hids
    | receiver r =>
      rw [write] at hw
      split at hw
      · next id hid =>
        obtain ⟨rest', hrest, rfl⟩ := map_eq_some_iff.mp hw
        obtain ⟨hlt, hget, -⟩ := List.idxOf?_eq_some_iff.mp hid
        have hsa := congrArg (·[id]?) hids
        simp only [List.getElem?_map, List.getElem?_eq_getElem hlt, hget, map_some] at hsa
        obtain ⟨x, hx, heq⟩ := map_eq_some_iff.mp hsa.symm
        exact hco hrest (by rw [readEntry, hx, heq]) fun x _ => hids
      · obtain ⟨entry, hen, hw⟩ := bind_eq_some_iff.mp hw
        obtain ⟨rest', hrest, heq⟩ := bind_eq_some_iff.mp hw
        obtain rfl := Option.some.inj heq
        have him : (Visit.receiver r).image s = readEntry s.backingStores [] entry := by
          rw [Visit.image, Visit.entry, hen, bind_some]
        refine hco hrest ?_ fun x hx => ?_
        · rw [him]
          rcases writeObject_cases hen with ⟨data, rfl⟩ | ⟨data, rfl⟩ | ⟨id, rfl⟩ <;> rfl
        · have ho : entry.objects objects x = objects ++ [x] := by
            rcases writeObject_cases hen with ⟨data, rfl⟩ | ⟨data, rfl⟩ | ⟨id, rfl⟩ <;> rfl
          rw [ho, map_append, map_append, hids, map_singleton, map_singleton, hx]

/-- Where the numbers of the sender and of the receiver agree for each listed buffer in the message. A buffer that has a
backing store is listed once, with nothing but buffers before it; for a detached one, no more is needed than that the
receiver has a buffer of its number. -/
def Aligned (h : Heap) (items : List (Option Ref)) (visits : List Visit) : Prop :=
  ∀ r, .receiver r ∈ visits → r ∈ h.buffers items →
    if (h.object r).backingStore = none then lastPlace items r < (h.buffers items).length
    else ∀ item ∈ items.take (lastPlace items r), ∃ r' ≠ r, item = some r' ∧ (h.object r').isArrayBuffer

theorem image_listed (ht : Transferred h items s) (hr : r ∈ h.buffers items) :
    (Visit.receiver r).image s = s.backingStores[lastPlace items r]?.map .over := by
  have hbu := ht.isArrayBuffer r
  rw [(Heap.mem_buffers.mp hr).2] at hbu
  rw [Visit.image, Visit.entry, writeObject]
  cases ho : s.heap.object r with
  | other written =>
    rw [ho] at hbu
    cases hbu
  | arrayBuffer b =>
    dsimp only
    rw [writeJSArrayBuffer, ht.number, if_pos hr]
    rfl

/-- The receiver finds the backing store of a buffer under its number exactly if there is nothing before the buffer that
shifts the numbers. -/
theorem store_iff (ht : Transferred h items s) {store : BackingStore} (hr : r ∈ h.buffers items)
    (hstore : (h.object r).backingStore = some store) :
    s.backingStores[lastPlace items r]? = some (some store) ↔
      ∀ item ∈ items.take (lastPlace items r), ∃ r' ≠ r, item = some r' ∧ (h.object r').isArrayBuffer := by
  obtain ⟨hli, hbuf⟩ := Heap.mem_buffers.mp hr
  obtain ⟨before, after, hit, hl, hafter⟩ := lastPlace_spec hli
  have hta : items.take (lastPlace items r) = before := by
    rw [← hl]
    conv_lhs => rw [hit]
    exact take_left
  have hbu : h.buffers items = h.buffers before ++ r :: h.buffers after := by
    rw [hit, Heap.buffers_append]
    simp [Heap.buffers, Option.filter, hbuf]
  have hle : (h.buffers before).length ≤ before.length := length_filterMap_le _ _
  rw [hta, ht.stores, ← hl, hbu]
  constructor
  · intro hfound
    obtain ⟨r', hr', hval⟩ := map_eq_some_iff.mp hfound
    split at hval
    · cases hval
    next hnew =>
    obtain rfl := h.owned hval hstore
    -- The last time that the buffer is listed is the only one, so all before it are buffers.
    have hfu : (h.buffers before).length = before.length := by
      by_contra hne
      rw [List.getElem?_append_right hle, show before.length - (h.buffers before).length =
        (before.length - (h.buffers before).length - 1) + 1 by omega, List.getElem?_cons_succ] at hr'
      exact hafter (Heap.mem_buffers.mp (List.mem_of_getElem? hr')).1
    rw [← hfu, take_left] at hnew
    intro item hite
    have hso := filterMap_length_eq_length.mp hfu item hite
    obtain ⟨r', hr'⟩ := isSome_iff_exists.mp hso
    obtain ⟨hi', hb'⟩ := filter_eq_some_iff.mp hr'
    refine ⟨r', fun heq => hnew ?_, hi', hb'⟩
    rw [← heq]
    exact Heap.mem_buffers.mpr ⟨hi' ▸ hite, hb'⟩
  · intro hall
    have hfu : (h.buffers before).length = before.length := by
      refine filterMap_length_eq_length.mpr fun item hite => ?_
      obtain ⟨r', -, rfl, hb'⟩ := hall item hite
      simp [Option.filter, hb']
    have hnew : r ∉ h.buffers before := fun hmem => by
      obtain ⟨r', hne, heq, -⟩ := hall (some r) (Heap.mem_buffers.mp hmem).1
      exact hne (Option.some.inj heq).symm
    rw [← hfu, take_left, List.getElem?_append_right le_rfl, Nat.sub_self]
    simp [hnew, hstore]

theorem Aligned.isSome (hal : Aligned h items visits) (ht : Transferred h items s)
    (hv : .receiver r ∈ visits) (hr : r ∈ h.buffers items) : s.backingStores[lastPlace items r]?.isSome := by
  have hco := hal r hv hr
  split at hco
  · rw [← ht.length] at hco
    rw [List.getElem?_eq_getElem hco]
    rfl
  · next hso =>
    obtain ⟨store, hstore⟩ := ne_none_iff_exists'.mp hso
    rw [(store_iff ht hr hstore).mpr hco]
    rfl

theorem image_unlisted (ht : Transferred h items s) (hr : r ∉ h.buffers items)
    (hen : writeObject s r = some entry) : ((Visit.receiver r).image s).isSome := by
  have hnu : s.transferMap r = none := by rw [ht.number, if_neg hr]
  rw [Visit.image, Visit.entry, hen]
  rcases writeObject_cases hen with ⟨data, rfl⟩ | ⟨data, rfl⟩ | ⟨id, rfl⟩
  · rfl
  · rfl
  · simp only [writeObject, writeJSArrayBuffer, hnu] at hen
    split at hen
    · split at hen <;> cases hen
    · simp at hen

/-- The receiver has each listed buffer over the backing store that it had. -/
def Kept (h : Heap) (items : List (Option Ref)) (visits : List Visit) (received : List Received) : Prop :=
  ∀ (i : Nat) (r : Ref) (store : BackingStore), visits[i]? = some (Visit.receiver r) → some r ∈ items →
    (h.object r).backingStore = some store → received[i]? = some (Received.over (some store))

/-- For every message that can be written, the listed buffers keep their backing stores exactly if the numbers agree. -/
theorem transferred_buffers_kept (h : Heap) (items : List (Option Ref)) (visits : List Visit) {s : Sender}
    {entries : List Entry} (hs : transferList h items = some s) (hw : write s [] visits = some entries) :
    (∃ received, read s.backingStores [] entries = some received ∧ Kept h items visits received) ↔
      Aligned h items visits := by
  have ht := transferList_transferred hs
  have himage : ∀ {received : List Received}, visits.map (Visit.image s) = received.map some →
      ∀ {i : Nat} {v : Visit}, visits[i]? = some v → ∃ x, received[i]? = some x ∧ v.image s = some x := by
    intro received hsame i v hv
    have hat := congrArg (·[i]?) hsame
    simp only [List.getElem?_map, hv, map_some] at hat
    obtain ⟨x, hx, heq⟩ := map_eq_some_iff.mp hat.symm
    exact ⟨x, hx, heq.symm⟩
  have hread := @read_write s [] visits entries [] hw rfl
  simp only [hread]
  constructor
  · rintro ⟨received, hsame, hkept⟩ r hvisit hr
    obtain ⟨i, hi⟩ := List.mem_iff_getElem?.mp hvisit
    obtain ⟨x, hx, hgot⟩ := himage hsame hi
    rw [image_listed ht hr, map_eq_some_iff] at hgot
    obtain ⟨found, hfound, rfl⟩ := hgot
    split
    · rw [← ht.length]
      exact (List.getElem?_eq_some_iff.mp hfound).1
    · next hsome =>
      obtain ⟨store, hstore⟩ := ne_none_iff_exists'.mp hsome
      rw [hkept i r store hi (Heap.mem_buffers.mp hr).1 hstore] at hx
      cases hx
      exact (store_iff ht hr hstore).mp hfound
  · intro haligned
    have hall : ∀ v ∈ visits, (v.image s).isSome := by
      intro v hv
      obtain ⟨entry, hentry⟩ := isSome_iff_exists.mp (write_entry hw (by simp) v hv)
      cases v with
      | value data =>
        obtain ⟨data, rfl, -⟩ := map_eq_some_iff.mp hentry
        rfl
      | receiver r =>
        by_cases hr : r ∈ h.buffers items
        · rw [image_listed ht hr, isSome_map]
          exact haligned.isSome ht hv hr
        · exact image_unlisted ht hr hentry
    refine ⟨visits.map fun v => (v.image s).getD (.value []), ?_, fun i r store hi hlisted hstore => ?_⟩
    · rw [List.map_map]
      refine map_congr_left fun v hv => ?_
      obtain ⟨x, hx⟩ := isSome_iff_exists.mp (hall v hv)
      simp [hx]
    · have hbuffer : r ∈ h.buffers items := Heap.mem_buffers.mpr ⟨hlisted, by
        cases hobject : h.object r <;> simp_all [Object.backingStore, Object.isArrayBuffer]⟩
      have hcond := haligned r (List.mem_of_getElem? hi) hbuffer
      rw [if_neg (by simp [hstore])] at hcond
      rw [List.getElem?_map, hi, map_some, image_listed ht hbuffer, (store_iff ht hbuffer hstore).mpr hcond]
      rfl

end

def twoBuffers : Heap where
  object r := if r < 2 then .arrayBuffer ⟨some r, [], true⟩ else .other none
  owned := by
    intro r r' s hr hr'
    split at hr <;> split at hr' <;> simp_all [Object.backingStore]

theorem transferred_buffers_kept_two : ∃ s entries, transferList twoBuffers [some 0, some 1] = some s ∧
    write s [] [.receiver 1, .receiver 0] = some entries ∧ ∃ received, read s.backingStores [] entries = some received ∧
      Kept twoBuffers [some 0, some 1] [.receiver 1, .receiver 0] received := by
  refine ⟨_, _, rfl, rfl, (transferred_buffers_kept _ _ _ rfl rfl).mpr fun r hr _ => ?_⟩
  obtain rfl | rfl : r = 1 ∨ r = 0 := by simpa using hr
  · refine (if_neg (by decide)).mpr fun item hitem => ?_
    obtain rfl : item = some 0 := mem_singleton.mp hitem
    exact ⟨0, by decide, rfl, rfl⟩
  · exact (if_neg (by decide)).mpr fun item hitem => absurd hitem not_mem_nil

/-- An item that is not a buffer comes first: the receiver has the first buffer over the backing store of the second. -/
theorem transfer_shifts_buffers : ∃ s entries, transferList twoBuffers [none, some 0, some 1] = some s ∧
    write s [] [.receiver 0] = some entries ∧
    read s.backingStores [] entries = some [.over (some 1)] := ⟨_, _, rfl, rfl, rfl⟩

/-! ### Calls that throw -/

inductive Outcome where
  | returned
  /-- None is an exception of the engine's own. -/
  | threw (e : Option Exception)

structure SendCall where
  isolate : Isolate
  workerIndex : Int
  length : Nat
  holder : Holder
  /-- The items of the second argument, if it is an array. -/
  transferList : List (Option Ref)
  message : List Visit
  resolver : Option Resolver

/-- Without a second argument that is an array there is no item. No result is a stop of the process. -/
def send (bytes : List Entry → List UInt8) (call : SendCall) (h : Heap) (c : Channel.ChannelState) :
    Option (Outcome × Heap × Channel.ChannelState) :=
  match Channel.sendThrows ⟨call.isolate, call.workerIndex, call.length, call.holder, none, call.resolver.isSome⟩ c.closed with
  | some e => some (.threw e, h, c)
  | none => do
    let s ← transferList h call.transferList
    match write s [] call.message, call.resolver with
    | none, _ => return (.threw (some (.error "Failed to serialize message")), s.heap, c)
    | some _, none => return (.threw none, s.heap, c)
    | some entries, some resolver =>
      let msg : Channel.ChannelMessage := ⟨bytes entries, s.backingStores.map (·.getD 0)⟩
      return (.returned, s.heap, (c.send ⟨msg, call.isolate, call.workerIndex, resolver⟩).1)

structure SpawnCall where
  isFunction : Bool
  /-- Whether `fn->ToString` succeeds. -/
  stringified : Bool
  /-- The items of the property `transfer` of the last argument, if it has one that is an array. -/
  transferList : List (Option Ref)
  /-- Whether the other arguments can be put in an array. -/
  argumentsSet : Bool
  arguments : List Visit
  handleMade : Bool

def spawn (call : SpawnCall) (h : Heap) (p : Pool.State) : Option (Outcome × Heap × Pool.State) :=
  if !call.isFunction then
    some (.threw (some (.typeError "First argument to Thread.spawn must be a function")), h, p)
  else if !call.stringified then some (.threw (some (.error "Failed to stringify function")), h, p)
  else do
    let s ← transferList h call.transferList
    if !call.argumentsSet then return (.threw (some (.error "Failed to set argument in array")), s.heap, p)
    match write s [] call.arguments with
    | none => return (.threw (some (.error "Failed to serialize arguments")), s.heap, p)
    | some _ =>
      let p := p.begin .spawned none .globalQueue
      if call.handleMade then return (.returned, s.heap, p) else return (.threw none, s.heap, p)

/-- Whether `ThreadSpawn` gets as far as `Submit`. -/
def SpawnCall.submits (call : SpawnCall) (h : Heap) : Bool :=
  call.isFunction && call.stringified && call.argumentsSet &&
    ((Transfer.transferList h call.transferList).bind (write · [] call.arguments)).isSome

/-- The buffers of a transfer list have the backing stores they had. -/
def Unharmed (items : List (Option Ref)) (h h' : Heap) : Prop :=
  ∀ r, some r ∈ items → (h'.object r).backingStore = (h.object r).backingStore

def NothingToLose (items : List (Option Ref)) (h : Heap) : Prop := ∀ r, some r ∈ items → (h.object r).backingStore = none

theorem unharmed_iff {h : Heap} {items : List (Option Ref)} {s : Sender} (hs : transferList h items = some s) :
    Unharmed items h s.heap ↔ NothingToLose items h := by
  refine forall₂_congr fun r hr => ?_
  rw [(transferList_transferred hs).object, if_pos hr, Object.backingStore_detach, eq_comm]

theorem begin_ne (p : Pool.State) : p.begin .spawned none .globalQueue ≠ p := fun h => by
  have := congrArg Pool.State.nextTask h
  simp [Pool.State.begin] at this

/-- A call that throws has changed nothing exactly if it throws before it looks at the transfer list or no buffer of the
list has a backing store, and, for `Thread.spawn`, if it does not get as far as `Submit`. -/
theorem thrown_call_changes_nothing_iff (h : Heap) :
    (∀ bytes (call : SendCall) c e h' c', send bytes call h c = some (.threw e, h', c') →
      (Unharmed call.transferList h h' ∧ c' = c ↔
        (Channel.sendThrows ⟨call.isolate, call.workerIndex, call.length, call.holder, none, call.resolver.isSome⟩
          c.closed).isSome ∨ NothingToLose call.transferList h)) ∧
    ∀ (call : SpawnCall) p e h' p', spawn call h p = some (.threw e, h', p') → (Unharmed call.transferList h h' ∧ p' = p ↔
        (call.isFunction = false ∨ call.stringified = false ∨ NothingToLose call.transferList h) ∧
          call.submits h = false) := by
  constructor
  · intro bytes call c e h' c' hsend
    rw [send] at hsend
    split at hsend
    · next ex hearly =>
      cases hsend
      simp [hearly, Unharmed]
    · next hearly =>
      obtain ⟨s, hs, hsend⟩ := bind_eq_some_iff.mp hsend
      have hiff := unharmed_iff hs
      split at hsend <;> cases hsend <;> simp [hearly, hiff]
  · intro call p e h' p' hspawn
    rw [spawn] at hspawn
    split at hspawn
    · next hfunction =>
      cases hspawn
      simp_all [SpawnCall.submits, Unharmed]
    · next hfunction =>
      split at hspawn
      · next hstringified =>
        cases hspawn
        simp_all [SpawnCall.submits, Unharmed]
      · next hstringified =>
        obtain ⟨s, hs, hspawn⟩ := bind_eq_some_iff.mp hspawn
        have hiff := unharmed_iff hs
        rw [Bool.not_eq_true, Bool.not_eq_false'] at hfunction hstringified
        simp only [SpawnCall.submits, hs, bind_some]
        split at hspawn
        · next hset =>
          cases hspawn
          simp_all
        · next hset =>
          split at hspawn
          · next hw =>
            cases hspawn
            simp_all
          · next entries hw =>
            split at hspawn <;> cases hspawn
            simp_all [begin_ne]

/-- A message that cannot be cloned, and a buffer to be transferred. -/
def failingSend : SendCall := ⟨0, -1, 2, ⟨1, true⟩, [some 0], [.receiver 2], some 0⟩

theorem thrown_call_changes_nothing_iff_early : ∃ e h' c',
    send (fun _ => []) {failingSend with length := 0} twoBuffers (.new 1) = some (.threw e, h', c') ∧
      Unharmed [some 0] twoBuffers h' ∧ c' = .new 1 :=
  ⟨_, _, _, rfl, ((thrown_call_changes_nothing_iff twoBuffers).1 (fun _ => []) {failingSend with length := 0} _ _ _ _ rfl).mpr (.inl rfl)⟩

/-- The send throws, and the buffer of the transfer list is detached. -/
theorem failed_send_detaches : ∃ e h' c', send (fun _ => []) failingSend twoBuffers (.new 1) = some (.threw e, h', c') ∧
    (twoBuffers.object 0).backingStore = some 0 ∧ (h'.object 0).backingStore = none := ⟨_, _, _, rfl, rfl, rfl⟩

end V8Multithread.Threading.Transfer
