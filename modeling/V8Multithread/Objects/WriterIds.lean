import V8Multithread.Objects.Image

/-! The ids that a serializer has given: when it succeeds, all objects that can be reached
from what it wrote have one. -/
namespace V8Multithread.Objects
open Option List

/-- A property of objects that is true of what good objects hold, and that says that they are
valid. -/
structure GoodGraph (E : Engine) (I : Isolate) (good : Receiver → Prop) : Prop where
  valid : ∀ r o, good r → I.obj r = some o → o.Valid E I ∧ ∀ x ∈ o.held, x.Valid E
  held : ∀ r x, good r → .object x ∈ I.held r → good x

variable {v : Value}

theorem ValidGraph.good {E : Engine} {I : Isolate} (h : ValidGraph E I v) : GoodGraph E I (Reachable I v) :=
  ⟨fun r o hr hobj => h.objects r o hr hobj, fun _ _ hr hx => .step hr hx⟩

/-- From `w` to `w'` ids were only added, each to a new and good object, and what it holds has
one. -/
structure Grows (I : Isolate) (good : Receiver → Prop) (w w' : Writer) : Prop where
  subset : w.ids ⊆ w'.ids
  nodup : w.ids.Nodup → w'.ids.Nodup
  good : ∀ x ∈ w'.ids, x ∈ w.ids ∨ good x
  closed : ∀ x ∈ w'.ids, x ∉ w.ids → ∀ y, .object y ∈ I.held x → y ∈ w'.ids

section
variable {E : Engine} {I : Isolate} {good : Receiver → Prop} {w w' : Writer}

theorem Grows.of_ids (h : w'.ids = w.ids) : Grows I good w w' :=
  ⟨h ▸ List.Subset.refl _, fun hno => h ▸ hno, fun _ hx => .inl (h ▸ hx), fun _ hx hnot => absurd (h ▸ hx) hnot⟩

theorem Grows.put (w : Writer) (bytes : List UInt8) : Grows I good w (w.put bytes) := Grows.of_ids rfl

theorem Grows.trans {w₁ w₂ w₃ : Writer} (h₁ : Grows I good w₁ w₂) (h₂ : Grows I good w₂ w₃) : Grows I good w₁ w₃ := by
  refine ⟨fun x hx => h₂.subset (h₁.subset hx), fun h => h₂.nodup (h₁.nodup h), fun x hx => ?_, fun x hx hnot y hy => ?_⟩
  · rcases h₂.good x hx with hx | hx
    · exact h₁.good x hx
    · exact .inr hx
  · by_cases hmem : x ∈ w₂.ids
    · exact h₂.subset (h₁.closed x hmem hnot y hy)
    · exact h₂.closed x hx hmem y hy

def Registers (I : Isolate) (good : Receiver → Prop) (write : Value → Writer → Option Writer) : Prop :=
  ∀ v w w', (∀ r, v = .object r → good r) → write v w = some w' → Grows I good w w' ∧ ∀ r, v = .object r → r ∈ w'.ids

/-- The same for an object; a view comes after its buffer. -/
def RegistersReceiver (I : Isolate) (good : Receiver → Prop) (writeReceiver : Receiver → Writer → Option Writer) : Prop :=
  ∀ r w w', good r → (∀ v, I.obj r = some (.view v) → r ∉ w.ids → v.buffer ∈ w.ids) →
    writeReceiver r w = some w' → Grows I good w w' ∧ r ∈ w'.ids

/-- What is written of good values has ids after it. -/
def Covers (I : Isolate) (good : Receiver → Prop) (values : List Value) (w : Writer) (run : Option Writer) : Prop :=
  ∀ w', run = some w' → (∀ r, .object r ∈ values → good r) → Grows I good w w' ∧ ∀ r, .object r ∈ values → r ∈ w'.ids

variable {values values' : List Value} {run : Option Writer} {write : Value → Writer → Option Writer}
  {writeReceiver : Receiver → Writer → Option Writer} {p : Properties} {length : Nat} {r : Receiver}

theorem Covers.of_ids (h : w'.ids = w.ids) : Covers I good [] w (some w') := by
  rintro _ ⟨⟩ -
  exact ⟨Grows.of_ids h, (by simp)⟩

theorem Covers.of_iff (h : Covers I good values w run) (hsa : ∀ r, .object r ∈ values ↔ .object r ∈ values') :
    Covers I good values' w run := by
  intro w' hrun
  simp only [← hsa]
  exact h w' hrun

theorem Covers.bind {next : Writer → Option Writer} (h : Covers I good values w run)
    (hnext : ∀ w₁, Covers I good values' w₁ (next w₁)) : Covers I good (values ++ values') w (run.bind next) := by
  intro w' hrun hgo
  obtain ⟨w₁, hfi, hrest⟩ := bind_eq_some_iff.mp hrun
  obtain ⟨hg, hmem⟩ := h w₁ hfi fun r hr => hgo r (mem_append_left _ hr)
  obtain ⟨hg', hmem'⟩ := hnext w₁ w' hrest fun r hr => hgo r (mem_append_right _ hr)
  refine ⟨hg.trans hg', fun r hr => ?_⟩
  rcases mem_append.mp hr with hr | hr
  · exact hg'.subset (hmem r hr)
  · exact hmem' r hr

/-- Other bytes come before. -/
theorem Covers.before {w₁ : Writer} (h : Covers I good values w₁ run) (hids : w₁.ids = w.ids) :
    Covers I good values w run := fun w' hrun hg =>
  ⟨(Grows.of_ids hids).trans (h w' hrun hg).1, (h w' hrun hg).2⟩

/-- Other bytes come after. -/
theorem Covers.after {bytes : Writer → List UInt8} (h : Covers I good values w run) :
    Covers I good values w (run.map fun w => w.put (bytes w)) := by
  intro w' hmap hg
  obtain ⟨w₁, hrun, rfl⟩ := map_eq_some_iff.mp hmap
  exact ⟨(h w₁ hrun hg).1.trans (Grows.put _ _), (h w₁ hrun hg).2⟩

theorem writeAll_covers {ε : Type} {write : ε → Writer → Option Writer} {refs : ε → List Value}
    (h : ∀ e w, Covers I good (refs e) w (write e w)) (es : List ε) (w : Writer) :
    Covers I good (es.flatMap refs) w (writeAll write es w) := by
  induction es generalizing w with
  | nil => exact Covers.of_ids rfl
  | cons e rest ih => exact (h e w).bind ih

theorem not_view_of_head (h : I.head r ≠ .other) (v : View) : I.obj r ≠ some (.view v) := by
  intro hobj
  rw [Isolate.head, hobj] at h
  exact h rfl

theorem RegistersReceiver.covers (h : RegistersReceiver I good writeReceiver) (hh : I.head r ≠ .other) (w : Writer) :
    Covers I good [.object r] w (writeReceiver r w) := by
  intro w' hrun hgo
  obtain ⟨hg, hmem⟩ := h r w w' (hgo r (by simp)) (fun v hv => absurd hv (not_view_of_head hh v)) hrun
  refine ⟨hg, fun x hx => ?_⟩
  cases mem_singleton.mp hx
  exact hmem

section
variable (hwrites : Registers I good write)
include hwrites

theorem Registers.covers (v : Value) (w : Writer) : Covers I good [v] w (write v w) := by
  intro w' hrun hgo
  obtain ⟨hg, hmem⟩ := hwrites v w w' (fun r hr => hgo r (by simp [hr])) hrun
  exact ⟨hg, fun r hr => hmem r (mem_singleton.mp hr).symm⟩

theorem writeProperties_covers (properties : List (Value × Value)) (w : Writer) :
    Covers I good (properties.flatMap fun e => [e.1, e.2]) w (writeProperties write properties w) :=
  writeAll_covers (fun e w => (hwrites.covers e.1 w).bind (hwrites.covers e.2)) properties w

/-! ### The kinds of objects -/

theorem namedProperties_covers (w : Writer) :
    Covers I good (p.named.map Prod.snd) w (writeProperties write (namedProperties I p) w) :=
  (writeProperties_covers hwrites _ w).of_iff (by simp [namedProperties, flatMap_map])

/-- Keys of properties are not objects. -/
theorem ownProperties_covers (w : Writer) : Covers I good (p.elements.map Prod.snd ++ p.named.map Prod.snd) w
    (writeProperties write (ownProperties E I p) w) := by
  refine (writeProperties_covers hwrites _ w).of_iff fun r => ?_
  have hkey : ∀ i, .object r ≠ E.newNumberFromInt i := by
    intro i
    rw [Engine.newNumberFromInt]
    split <;> simp
  simp [ownProperties, namedProperties, flatMap_map, hkey]

omit hwrites in
/-- The elements of a dense array are all below its length. -/
theorem mem_denseElements {packed : Bool} (hp : JSArray.Valid E packed length p) (hv : v ∈ p.elements.map Prod.snd) :
    some v ∈ denseElements length p := by
  obtain ⟨⟨i, u⟩, hmem, rfl⟩ := List.mem_map.mp hv
  have hlt : i < length := hp.elements i (List.mem_map.mpr ⟨_, hmem, rfl⟩)
  have hno : (p.elements.map Prod.fst).Nodup := hp.properties.sorted.imp ne_of_lt
  have hl : p.elements.lookup i = some u := by
    rw [lookup_eq_some_iff]
    obtain ⟨before, after, heq⟩ := append_of_mem hmem
    refine ⟨before, after, heq, fun x hx => ?_⟩
    rw [heq, map_append, map_cons, nodup_append] at hno
    have hne := hno.2.2 x.1 (mem_map_of_mem hx) i (by simp)
    simpa using Ne.symm hne
  rw [denseElements, List.mem_map]
  exact ⟨i, mem_range.mpr hlt, hl⟩

omit hwrites in
theorem value_of_mem_denseElements (h : some v ∈ denseElements length p) : v ∈ p.elements.map Prod.snd := by
  rw [denseElements, List.mem_map] at h
  obtain ⟨i, -, hl⟩ := h
  obtain ⟨before, after, heq, -⟩ := lookup_eq_some_iff.mp hl
  rw [heq]
  simp

theorem writeJSArray_covers {packed : Bool} (hp : JSArray.Valid E packed length p) :
    Covers I good (p.elements.map Prod.snd ++ p.named.map Prod.snd) w (writeJSArray E I write packed length p w) := by
  cases packed with
  | true =>
    have hel : ∀ (element : Option Value) w, Covers I good element.toList w (writeElement write element w) := by
      rintro (- | v) w
      · exact Covers.of_ids rfl
      · exact hwrites.covers v w
    refine Covers.before (Covers.after (Covers.bind ((writeAll_covers hel _ _).of_iff fun r => ?_)
      (namedProperties_covers hwrites))) rfl
    simp only [mem_flatMap, mem_toList]
    exact ⟨fun ⟨_, he, hr⟩ => value_of_mem_denseElements (mem_def.mp hr ▸ he),
      fun hr => ⟨_, mem_denseElements hp hr, rfl⟩⟩
  | false => exact (ownProperties_covers hwrites _).after.before rfl

theorem writeJSMap_covers (entries : List (Value × Value)) :
    Covers I good (Obj.map entries).held w (writeJSMap write entries w) :=
  (writeProperties_covers hwrites entries _).after.before rfl

theorem writeJSSet_covers (entries : List Value) : Covers I good entries w (writeJSSet write entries w) :=
  ((writeAll_covers hwrites.covers entries _).of_iff (by simp)).after.before rfl

theorem writeJSError_covers {e : ErrorObject} : Covers I good e.cause.toList w (writeJSError write e w) := by
  have hids : (writeErrorString ErrorTag.stack e.stack (writeErrorString ErrorTag.message e.message
      (w.put (SerializationTag.error.byte :: (e.type.tag.map varint8).getD [])))).ids = w.ids := by
    rcases e.stack with - | stack <;> rcases e.message with - | message <;> rfl
  refine Covers.after ?_
  rcases e.cause with - | cause
  · exact Covers.of_ids hids
  · exact (hwrites.covers cause _).before hids

end

theorem writeSharedArrayBuffer_covers (hre : RegistersReceiver I good writeReceiver) {b : SharedArrayBuffer}
    (hb : b.Valid I) : Covers I good (Obj.sharedArrayBuffer b).held w (writeSharedArrayBuffer I writeReceiver r b w) := by
  rw [writeSharedArrayBuffer, Obj.held]
  rcases I.delegate.bind fun d => d.getSharedArrayBufferId r with - | id
  · rintro _ ⟨⟩
  rw [bind_some]
  have hl := hb.linked
  rcases hm : b.memory with - | m
  · rw [hm, isSome_none, eq_comm, Bool.and_eq_false_iff] at hl
    split
    · next hwa =>
      rw [if_neg (by simpa [hwa] using hl)]
      exact Covers.of_ids rfl
    · exact Covers.of_ids rfl
  · rw [hm, isSome_some, eq_comm, Bool.and_eq_true] at hl
    rw [if_pos hl.1, if_pos hl.2, bind_some]
    exact (hre.covers (by simp [hb.memory m hm]) _).before rfl

theorem writeWasmMemory_covers (hre : RegistersReceiver I good writeReceiver) {maximumPages : Int} {memory64 : Bool}
    {buffer : Option Receiver} : Covers I good (buffer.map Value.object).toList w
      (writeWasmMemory I writeReceiver maximumPages memory64 buffer w) := by
  intro w' hwr
  obtain ⟨x, rfl, hbu⟩ := bind_eq_some_iff.mp hwr
  split at hbu
  · next length resizable hh =>
    refine Covers.before (hre.covers ?_ _) ?_ w' hbu
    · simp [Isolate.head, hh]
    · rfl
  · cases hbu

theorem ids_of_put {bytes : List UInt8} (hwr : some (w.put bytes) = some w') : w'.ids = w.ids := by
  cases hwr
  rfl

theorem writeJSPrimitiveWrapper_ids (hwr : writeJSPrimitiveWrapper v w = some w') : w'.ids = w.ids := by
  unfold writeJSPrimitiveWrapper at hwr
  split at hwr
  · exact ids_of_put hwr
  · exact ids_of_put hwr
  · exact ids_of_put hwr
  · cases hwr
    rfl
  · obtain ⟨d, -, rfl⟩ := map_eq_some_iff.mp hwr
    rfl

theorem writeJSArrayBuffer_ids {b : ArrayBuffer} (hwr : writeJSArrayBuffer b w = some w') : w'.ids = w.ids := by
  unfold writeJSArrayBuffer at hwr
  split at hwr
  · cases hwr
  · split at hwr
    · exact ids_of_put hwr
    · exact ids_of_put hwr

theorem writeJSArrayBufferView_ids {v : View} (hwr : writeJSArrayBufferView I v w = some w') : w'.ids = w.ids := by
  unfold writeJSArrayBufferView at hwr
  split at hwr
  · split at hwr
    · cases hwr
    · exact ids_of_put hwr
  · cases hwr

theorem writeWasmModule_ids (hwr : writeWasmModule I r w = some w') : w'.ids = w.ids := by
  obtain ⟨d, -, rfl⟩ := map_eq_some_iff.mp hwr
  split <;> rfl

theorem writeHostObject_ids (hwr : writeHostObject I r w = some w') : w'.ids = w.ids := by
  obtain ⟨payload, -, rfl⟩ := map_eq_some_iff.mp hwr
  rfl

theorem held_own {o : Obj} (hh : I.host r = false) (hobj : I.obj r = some o) : I.held r = o.held := by
  rw [Isolate.held, hh, hobj]
  rfl

theorem held_host (hh : I.host r) : I.held r = [] := by
  rw [Isolate.held, hh]
  rfl

/-- What `writeNewReceiver` writes of an object that is not left to the delegate. -/
def writeKind (E : Engine) (I : Isolate) (write : Value → Writer → Option Writer)
    (writeReceiver : Receiver → Writer → Option Writer) (r : Receiver) (o : Obj) (w : Writer) : Option Writer :=
  match o with
  | .jsObject _ p => writeJSObject E I write p w
  | .error e => writeJSError write e w
  | .jsArray packed length p => writeJSArray E I write packed length p w
  | .date d => some (w.put (SerializationTag.date.byte :: doubleBytes d))
  | .primitiveWrapper v => writeJSPrimitiveWrapper v w
  | .regExp source flags => some (writeJSRegExp source flags w)
  | .map entries => writeJSMap write entries w
  | .set entries => writeJSSet write entries w
  | .arrayBuffer b => writeJSArrayBuffer b w
  | .sharedArrayBuffer b => writeSharedArrayBuffer I writeReceiver r b w
  | .view v => writeJSArrayBufferView I v w
  | .wasmModule _ => writeWasmModule I r w
  | .wasmMemory maximumPages memory64 buffer => writeWasmMemory I writeReceiver maximumPages memory64 buffer w
  | .uncloneable => none

/-- An object is written by the delegate or as what it is. -/
theorem writeNewReceiver_own {a : Nat} (hwr : writeNewReceiver E I write writeReceiver (.own a) w = some w') :
    ∃ o, I.obj (.own a) = some o ∧ (I.host (.own a) ∧ writeHostObject I (.own a) w = some w' ∨
      I.host (.own a) = false ∧ writeKind E I write writeReceiver (.own a) o w = some w') := by
  rcases hobj : I.obj (.own a) with - | o
  · rw [writeNewReceiver, hobj] at hwr
    cases hwr
  · rw [writeNewReceiver, hobj] at hwr
    rw [Isolate.host, hobj]
    refine ⟨o, rfl, ?_⟩
    cases o with
    | jsObject | error =>
      dsimp only at hwr ⊢
      split at hwr
      · next h => exact .inl ⟨h, hwr⟩
      · next h => exact .inr ⟨Bool.not_eq_true _ ▸ h, hwr⟩
    | _ => exact .inr ⟨rfl, hwr⟩

/-- An object that has just got its id: all it holds has one after it. -/
theorem writeNewReceiver_grows (hG : GoodGraph E I good) (hwrites : Registers I good write)
    (hre : RegistersReceiver I good writeReceiver) (hr : good r)
    (hvi : ∀ v, I.obj r = some (.view v) → v.buffer ∈ w.ids)
    (hwr : writeNewReceiver E I write writeReceiver r w = some w') :
    Grows I good w w' ∧ ∀ y, .object y ∈ I.held r → y ∈ w'.ids := by
  cases r with
  | shared k =>
    obtain ⟨persist, -, rfl⟩ := map_eq_some_iff.mp hwr
    exact ⟨Grows.put _ _, fun y hy => by cases hy⟩
  | own a =>
    obtain ⟨o, hobj, ⟨hh, hwr⟩ | ⟨hh, hwr⟩⟩ := writeNewReceiver_own hwr
    · rw [held_host hh]
      exact ⟨Grows.of_ids (writeHostObject_ids hwr), (by simp)⟩
    have hva := (hG.valid _ o hr hobj).1
    have hgo : ∀ x, .object x ∈ o.held → good x := fun x hx => hG.held _ x hr (by rwa [held_own hh hobj])
    rw [held_own hh hobj]
    cases o with
    | jsObject field p =>
      refine Covers.before (Covers.after (ownProperties_covers hwrites _)) ?_ w' hwr hgo
      rfl
    | error e => exact writeJSError_covers hwrites w' hwr hgo
    | jsArray packed length p => exact writeJSArray_covers hwrites hva w' hwr hgo
    | map entries => exact writeJSMap_covers hwrites entries w' hwr hgo
    | set entries => exact writeJSSet_covers hwrites entries w' hwr hgo
    | sharedArrayBuffer b => exact writeSharedArrayBuffer_covers hre hva w' hwr hgo
    | view v =>
      have hg := @Grows.of_ids I good _ _ (writeJSArrayBufferView_ids hwr)
      refine ⟨hg, fun y hy => hg.subset ?_⟩
      rw [Obj.held, mem_singleton] at hy
      injection hy with hy
      rw [hy]
      exact hvi v hobj
    | wasmMemory maximumPages memory64 buffer => exact writeWasmMemory_covers hre w' hwr hgo
    -- the others hold nothing
    | date | regExp =>
      cases hwr
      exact ⟨Grows.of_ids rfl, (by simp [Obj.held])⟩
    | primitiveWrapper v => exact ⟨Grows.of_ids (writeJSPrimitiveWrapper_ids hwr), (by simp [Obj.held])⟩
    | arrayBuffer b => exact ⟨Grows.of_ids (writeJSArrayBuffer_ids hwr), (by simp [Obj.held])⟩
    | wasmModule m => exact ⟨Grows.of_ids (writeWasmModule_ids hwr), (by simp [Obj.held])⟩
    | uncloneable => cases hwr

/-! ### The serializer -/

theorem writeObject_primitive (h : ∀ r, v ≠ .object r) (w : Writer) :
    writeObject I writeReceiver v w = (primitiveBytes w.buffer.length v).map w.put := by
  cases v with
  | object r => exact absurd rfl (h r)
  | _ => rfl

theorem writeObject_registers (hG : GoodGraph E I good) (hre : RegistersReceiver I good writeReceiver) :
    Registers I good (writeObject I writeReceiver) := by
  intro v w w' hg hwr
  by_cases hv : ∃ r, v = .object r
  · obtain ⟨r, rfl⟩ := hv
    have hr := hg r rfl
    suffices h : Grows I good w w' ∧ r ∈ w'.ids by
      refine ⟨h.1, fun x hx => ?_⟩
      injection hx with hx
      rw [← hx]
      exact h.2
    unfold writeObject at hwr
    dsimp only at hwr
    split at hwr
    · next view hobj =>
      split at hwr
      · next hmem => exact hre r w w' hr (fun _ _ hnot => absurd hmem hnot) hwr
      · obtain ⟨w₁, hbu, hvi⟩ := bind_eq_some_iff.mp hwr
        have hh : .object view.buffer ∈ I.held r := by
          rw [Isolate.held, Isolate.host, hobj]
          simp [Obj.held]
        obtain ⟨length, resizable, shared, hhe, -⟩ := (hG.valid r _ hr hobj).1
        have ho : I.head view.buffer ≠ .other := by
          rw [hhe]
          simp
        obtain ⟨hg₁, hmem₁⟩ := hre view.buffer w w₁ (hG.held r _ hr hh)
          (fun v hv => absurd hv (not_view_of_head ho v)) hbu
        have hsa : ∀ v, I.obj r = some (.view v) → r ∉ w₁.ids → v.buffer ∈ w₁.ids := by
          intro v hv _
          rw [hobj] at hv
          injection hv with hv
          injection hv with hv
          rw [← hv]
          exact hmem₁
        obtain ⟨hg₂, hmem₂⟩ := hre r w₁ w' hr hsa hvi
        exact ⟨hg₁.trans hg₂, hmem₂⟩
    · next hnot => exact hre r w w' hr (fun v hv => absurd hv (hnot v)) hwr
  · rw [writeObject_primitive fun r hr => hv ⟨r, hr⟩] at hwr
    obtain ⟨bytes, -, rfl⟩ := map_eq_some_iff.mp hwr
    exact ⟨Grows.put _ _, fun r hr => absurd ⟨r, hr⟩ hv⟩

theorem writeJSReceiver_registers (hG : GoodGraph E I good) (stack : Nat) :
    RegistersReceiver I good (writeJSReceiver E I stack) := by
  induction stack with
  | zero =>
    intro r w w' hr hvi hwr
    rw [writeJSReceiver] at hwr
    split at hwr
    · next hmem =>
      cases hwr
      exact ⟨Grows.put _ _, hmem⟩
    · cases hwr
  | succ stack ih =>
    intro r w w' hr hvi hwr
    rw [writeJSReceiver] at hwr
    split at hwr
    · next hmem =>
      cases hwr
      exact ⟨Grows.put _ _, hmem⟩
    · next hnot =>
      obtain ⟨hg, hh⟩ := writeNewReceiver_grows hG (writeObject_registers hG ih) ih hr
        (fun v hv => mem_append_left _ (hvi v hv hnot)) hwr
      have hmem : r ∈ w'.ids := hg.subset (mem_append_right _ (mem_singleton_self r))
      refine ⟨⟨fun x hx => hg.subset (mem_append_left _ hx), fun hno => hg.nodup ?_, fun x hx => ?_,
        fun x hx hnew y hy => ?_⟩, hmem⟩
      · exact nodup_append.mpr ⟨hno, nodup_singleton r, by
          rintro x hx y hy rfl
          exact hnot (mem_singleton.mp hy ▸ hx)⟩
      · rcases hg.good x hx with hx | hx
        · rcases mem_append.mp hx with hx | hx
          · exact .inl hx
          · exact .inr (mem_singleton.mp hx ▸ hr)
        · exact .inr hx
      · by_cases hxr : x = r
        · exact hh y (hxr ▸ hy)
        · exact hg.closed x hx (by simp [hnew, hxr]) y hy

/-- A set of objects that has the root and all that its members hold has everything that can be
reached. -/
theorem Reachable.mem_of_closed {S : Receiver → Prop} (hro : ∀ r, v = .object r → S r)
    (hcl : ∀ r x, S r → .object x ∈ I.held r → S x) (h : Reachable I v r) : S r := by
  induction h with
  | root hv => exact hro _ hv
  | step _ hx ih => exact hcl _ _ ih hx

/-- The ids of a message, one for each object that can be reached. -/
theorem serialize_ids (hG : ValidGraph E I v) {stack : Nat} (hwr : serialize E I stack v = some w) :
    w.ids.Nodup ∧ ∀ r, r ∈ w.ids ↔ Reachable I v r := by
  obtain ⟨hg, hro⟩ := writeObject_registers hG.good (writeJSReceiver_registers hG.good stack) v _ w
    (fun r hr => .root hr) hwr
  refine ⟨hg.nodup nodup_nil, fun r => ⟨fun hr => ?_, fun hr => ?_⟩⟩
  · rcases hg.good r hr with h | h
    · cases h
    · exact h
  · exact hr.mem_of_closed hro fun r x hr hx => hg.closed r hr (by simp) x hx

end

end V8Multithread.Objects
