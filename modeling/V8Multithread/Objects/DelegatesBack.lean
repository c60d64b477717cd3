import V8Multithread.Objects.KindsBack

/-! Reading back the objects that the delegate helps with: shared buffers, modules, memories
and host objects. -/
namespace V8Multithread.Objects
open Option List Base Scan
open Reads (skip after seq)

/-- The buffer that the delegate answers with, for the buffer `b` that it was told of: the same
memory. How long it is, and whether it grows, is only told by the bytes if it belongs to a
`WebAssembly.Memory`. -/
structure Backs (b₀ b : SharedArrayBuffer) : Prop where
  store : b₀.store = b.store
  wasm : b₀.wasm = b.wasm
  memory : b₀.memory = none
  byteLength : if b.wasm && !b.resizable then b.byteLength ≤ b₀.byteLength else b₀.byteLength = b.byteLength
  resizable : (b.wasm && b.resizable) = false → b₀.resizable = b.resizable

/-- What the reading delegate gives back is what the writing delegate was given. -/
structure Delivers (I : Isolate) (D : Option ReadDelegate) (H : Hosts) (good : Receiver → Prop) : Prop where
  host : ∀ r payload, good r → I.host r = true → (I.delegate.bind fun d => d.writeHostObject r) = some payload →
    ∃ d, D = some d ∧ ∀ s, ReadsBack Any d.readHostObject s payload (H.image r)
      {s with hostReads := s.hostReads ++ H.reads r}
  buffer : ∀ r b id, good r → I.obj r = some (.sharedArrayBuffer b) →
    (I.delegate.bind fun d => d.getSharedArrayBufferId r) = some id →
    id < 2 ^ 32 ∧ ∃ d b₀, D = some d ∧ d.getSharedArrayBufferFromId id = some b₀ ∧ Backs b₀ b
  module : ∀ r m d, good r → I.obj r = some (.wasmModule m) → I.delegate = some d →
    ∃ id, d.getWasmModuleTransferId r = some id ∧ id < 2 ^ 32 ∧ ∃ d', D = some d' ∧ d'.getWasmModuleFromId id = some m

section
variable {E : Engine} {I : Isolate} {D : Option ReadDelegate} {H : Hosts} {good : Receiver → Prop}
  {writeReceiver : Receiver → Writer → Option Writer} {w w' : Writer} {r : Receiver} {rd : Read Value} {depth : Nat}

theorem host_mirrors (hD : Delivers I D H good) (hr : good r) (hho : I.host r)
    (hwr : writeHostObject I r w = some w') : NewMirrors E I H (readObjectInternal E D rd (depth + 1)) r w w' := by
  obtain ⟨payload, hp, rfl⟩ := map_eq_some_iff.mp hwr
  obtain ⟨d, rfl, hre⟩ := hD.host r payload hr hho hp
  have hall := Wrote.put w (SerializationTag.hostObject.byte :: payload)
  refine ⟨_, [], hall, Nat.succ_pos _, opening_tag (t := .hostObject) _ rfl, ?_⟩
  intro ids final heap reads hids hfi hsm hh
  have hg : grown E I H final heap reads [r] = inStep (heap ++ [H.image r]) (reads ++ H.reads r) := by
    simp [grown, imageOf, readsOf, hho]
  rw [hg]
  refine internal_reads (t := .hostObject) (by simp)
    (skip (newId_reads (room hall hids hfi hsm hh)) (after (hre (numbered heap reads)) ?_))
  exact @createObject_reads _ _ (reads ++ H.reads r) _

theorem wasmModule_mirrors (hD : Delivers I D H good) {m : Nat}
    (h : Stands E I good r (.wasmModule m)) (hwr : writeWasmModule I r w = some w') :
    NewMirrors E I H (readObjectInternal E D rd (depth + 1)) r w w' := by
  obtain ⟨d, hd, rfl⟩ := map_eq_some_iff.mp hwr
  obtain ⟨id, hid, hlt, d', rfl, hmo⟩ := hD.module r m d h.isGood h.obj hd
  rw [hid]
  refine NewMirrors.leaf (t := .wasmModuleTransfer) rfl h fun φ heap reads hroom => ?_
  refine after (readVarint32_reads hlt) ?_
  rw [bind_some, hmo]
  exact skip (newId_reads hroom) (createObject_reads _)

/-- An object with an id is where the id says, at least with the right head. -/
theorem Heads.get {ids final : List Receiver} {heap : List Obj} (h : Heads I ids heap) (hfi : ids <+: final)
    {a : Nat} (hmem : .own a ∈ ids) : ∃ k o, place final (.own a) = .own k ∧ heap[k]? = some o ∧ o.head = I.head (.own a) := by
  have hlt : ids.idxOf (.own a) < heap.length := by
    rw [h.length]
    exact idxOf_lt_length_of_mem hmem
  refine ⟨ids.idxOf (.own a), heap[ids.idxOf (.own a)], ?_, getElem?_eq_getElem hlt, ?_⟩
  · rw [place, idxOf_final hfi hmem]
  · have hget := congrArg (fun heads : List Head => heads[ids.idxOf (.own a)]?) h
    simp only [getElem?_map, getElem?_eq_getElem hlt, getElem?_idxOf hmem, map_some] at hget
    exact Option.some.inj hget

/-- The head of an object that was read is what the writer knew. -/
theorem headOf_place {ids final : List Receiver} {heap : List Obj} {reads : List (Nat × Nat)} (h : Heads I ids heap)
    (hfi : ids <+: final) {a : Nat} (hmem : .own a ∈ ids) {T : List UInt8 → Prop} :
    ReadsBack T (headOf (.object (place final (.own a)))) (inStep heap reads) [] (I.head (.own a)) (inStep heap reads) := by
  obtain ⟨k, o, hp, hget, hh⟩ := h.get hfi hmem
  rw [hp, ← hh]
  exact headOf_reads hget

theorem put_nil (w : Writer) : w.put [] = w := by
  simp [Writer.put]

/-- The buffer of the delegate, and what the bytes say of it. -/
theorem readSharedArrayBuffer_reads {d : ReadDelegate} {id : Nat} {b₀ : SharedArrayBuffer} (hlt : id < 2 ^ 32)
    (hget : d.getSharedArrayBufferFromId id = some b₀) {heap : List Obj} {reads : List (Nat × Nat)} {bytes : List UInt8}
    {s' : ReaderState} (hroom : heap.length + 1 < 2 ^ 32)
    (h : ReadsBack Any (readWasmBuffer rd b₀ heap.length) (inStep (heap ++ [.sharedArrayBuffer b₀]) reads) bytes () s') :
    ReadsBack Any (readSharedArrayBuffer (some d) rd) (inStep heap reads) (varint32 id ++ bytes)
      (.object (.own heap.length)) s' := by
  refine skip (newId_reads hroom) (seq (readVarint32_reads hlt) ?_)
  rw [bind_some, hget]
  exact skip (addObjectWithID_reads _) (after h Reads.pure)

/-- What `writeReceiver` writes of an object of this kind is what `rd` reads. -/
def CarriesKind (E : Engine) (I : Isolate) (H : Hosts) (good : Receiver → Prop)
    (writeReceiver : Receiver → Writer → Option Writer) (rd : Read Value) (kind : Head → Prop) : Prop :=
  ∀ x w w', good x → kind (I.head x) → writeReceiver x w = some w' →
    Mirrors E I H Any rd (fun final => .object (place final x)) w w' ∧ ∃ a, x = .own a ∧ .own a ∈ w'.ids

def Head.isSharedBuffer : Head → Prop
  | .buffer _ _ shared => shared = true
  | _ => False

theorem sharedArrayBuffer_mirrors (hD : Delivers I D H good) {b : SharedArrayBuffer}
    (h : Stands E I good r (.sharedArrayBuffer b))
    (hme : CarriesKind E I H good writeReceiver rd (· = .wasmMemory))
    (hwr : writeSharedArrayBuffer I writeReceiver r b w = some w') :
    NewMirrors E I H (readObjectInternal E D rd (depth + 1)) r w w' := by
  obtain ⟨id, hid, hwr⟩ := bind_eq_some_iff.mp hwr
  have hb : b.Valid I := h.valid
  obtain ⟨hlt, d, b₀, rfl, hget, hba⟩ := hD.buffer r b id h.isGood h.obj hid
  by_cases hwa : b.wasm = true
  · have hsu : ∀ a, readWasmBuffer rd b₀ a = readWasmSubtag rd a := fun a => by
      rw [readWasmBuffer, hba.wasm, if_pos hwa]
    by_cases hre : b.resizable = true
    · obtain ⟨m, hm⟩ := isSome_iff_exists.mp (hb.linked.trans (by rw [hwa, hre]; rfl))
      simp only [hwa, hre, ↓reduceIte, hm, bind_some, put_put, cons_append] at hwr
      obtain ⟨⟨bytes, new, hwro, -, hrea⟩, a, rfl, hmem⟩ := hme m _ w'
        ((h.held (.object m) (by simp [Obj.held, hm])).good m rfl) (hb.memory m hm) hwr
      have hl : b₀.byteLength = b.byteLength := by
        have h := hba.byteLength
        rwa [hwa, hre] at h
      have him : ∀ φ, (Obj.sharedArrayBuffer b).image E φ =
          .sharedArrayBuffer {b₀ with resizable := true, memory := some (φ (.own a))} := by
        intro φ
        simp [Obj.image, Obj.cloned, Obj.transform, hm, hba.store, hba.wasm, hl, hre]
      rw [← put_nil w']
      refine (@NewMirrors.container _ _ _ _ _ _ _ _ _ .sharedArrayBuffer _ _ _ (.sharedArrayBuffer {b₀ with resizable := true})) rfl h
        (by rw [Obj.head, Obj.head, hl, hre]) hwro ?_
      intro final heap reads hfin hsm hroom hh
      have hfil := hrea final _ reads hfin hsm hh
      have hhe := @headOf_place _ _ _ _ (reads ++ new.flatMap (readsOf I H))
        (hwro.heads_set (E := E) (H := H) hh rfl final) hfin _ hmem Any
      rw [hb.memory _ hm] at hhe
      rw [grown_cons] at hfil ⊢
      rw [him, append_nil, append_assoc]
      refine readSharedArrayBuffer_reads hlt hget hroom ?_
      rw [hsu]
      refine seq (readUint8_reads _) ?_
      exact skip (updateObject_reads rfl) (after hfil (skip hhe (updateObject_reads rfl)))
    · have hfi : b.resizable = false := Bool.not_eq_true _ ▸ hre
      have hl : b.byteLength ≤ b₀.byteLength := by
        have h := hba.byteLength
        rwa [hwa, hfi] at h
      have hno : b.memory = none := by
        have h := hb.linked
        rwa [hwa, hfi, Bool.and_false, isSome_eq_false_iff, isNone_iff_eq_none] at h
      have him : ∀ φ, (Obj.sharedArrayBuffer b).image E φ = .sharedArrayBuffer {b₀ with byteLength := b.byteLength} := by
        intro φ
        simp [Obj.image, Obj.cloned, Obj.transform, hno, hba.store, hba.wasm, hba.memory,
          hba.resizable (by rw [hfi, Bool.and_false])]
      simp only [hwa, hfi, ↓reduceIte, put_put, cons_append, Bool.false_eq_true] at hwr
      injection hwr with hwr
      rw [← hwr]
      refine NewMirrors.leaf (t := .sharedArrayBuffer) rfl h fun φ heap reads hroom => ?_
      rw [him]
      refine readSharedArrayBuffer_reads hlt hget hroom ?_
      rw [hsu]
      refine seq (readUint8_reads _) ?_
      refine after (readVarint64_reads hb.byteLength_lt) (updateObject_reads ?_)
      rw [Obj.setByteLength, if_neg (by omega)]
  · have hp : b.wasm = false := Bool.not_eq_true _ ▸ hwa
    have hl : b₀.byteLength = b.byteLength := by
      have h := hba.byteLength
      rwa [hp] at h
    have hno : b.memory = none := by
      have h := hb.linked
      rwa [hp, Bool.false_and, isSome_eq_false_iff, isNone_iff_eq_none] at h
    have him : ∀ φ, (Obj.sharedArrayBuffer b).image E φ = .sharedArrayBuffer b₀ := by
      intro φ
      rcases b₀ with ⟨store, byteLength, resizable, wasm, memory⟩
      have h₁ := hba.store
      have h₂ := hba.wasm
      have h₃ := hba.memory
      have h₄ := hba.resizable (by rw [hp, Bool.false_and])
      simp_all [Obj.image, Obj.cloned, Obj.transform]
    simp only [hp, Bool.false_eq_true, ↓reduceIte] at hwr
    injection hwr with hwr
    rw [← hwr]
    refine NewMirrors.leaf (t := .sharedArrayBuffer) rfl h fun φ heap reads hroom => ?_
    have hrea := (@readSharedArrayBuffer_reads rd _ _ _ hlt hget _ reads []) hroom (by
      rw [readWasmBuffer, hba.wasm, if_neg hwa]
      exact Reads.pure)
    rw [append_nil] at hrea
    rw [him]
    exact hrea

theorem wasmMemory_mirrors {maximumPages : Int} {memory64 : Bool} {buffer : Option Receiver}
    (h : Stands E I good r (.wasmMemory maximumPages memory64 buffer))
    (hbu : CarriesKind E I H good writeReceiver (readObjectInternal E D rd (depth + 1)) Head.isSharedBuffer)
    (hwri : writeWasmMemory I writeReceiver maximumPages memory64 buffer w = some w') :
    NewMirrors E I H (readObjectInternal E D rd (depth + 2)) r w w' := by
  obtain ⟨x, rfl, hwr⟩ := bind_eq_some_iff.mp hwri
  split at hwr
  · next length resizable hx =>
    have hhe : I.head x = .buffer length resizable true := by
      rw [Isolate.head, hx]
      rfl
    rw [cons_append] at hwr
    obtain ⟨⟨bytes, new, hwro, -, hre⟩, a, rfl, hmem⟩ := hbu x _ w'
      ((h.held _ (by simp [Obj.held])).good x rfl) (by rw [hhe]; rfl) hwr
    rw [← put_nil w']
    refine (@NewMirrors.container _ _ _ _ _ _ _ _ _ .wasmMemoryTransfer (zigZag32 maximumPages ++ [if memory64 then 1 else 0])
      _ _ (.wasmMemory maximumPages memory64 none)) rfl h rfl hwro ?_
    intro final heap reads hfin hsm hroom hh
    have hfi := hre final _ reads hfin hsm hh
    have hki := @headOf_place _ _ _ _ (reads ++ new.flatMap (readsOf I H))
      (hwro.heads_set (E := E) (H := H) hh rfl final) hfin _ hmem Any
    have him : (Obj.wasmMemory maximumPages memory64 (some (.own a))).image E (place final) =
        .wasmMemory maximumPages memory64 (some (place final (.own a))) := rfl
    have hra : -2 ^ 31 ≤ maximumPages ∧ maximumPages < 2 ^ 31 := by
      have hp : maximumPages = -1 ∨ 0 ≤ maximumPages ∧ maximumPages ≤ maxSupportedPages memory64 := h.valid
      have hmax : maxSupportedPages memory64 ≤ 262144 := by
        rw [maxSupportedPages]
        split <;> decide
      omega
    rw [hhe] at hki
    rw [grown_cons] at hfi ⊢
    rw [him, append_nil, append_assoc]
    refine skip (newId_reads hroom) (seq (readZigZag_reads hra.1 hra.2) (seq (readByte_reads _) ?_))
    cases memory64 <;>
      exact skip (Reads.check ⟨by decide, h.valid⟩) (skip (addObjectWithID_reads _)
        (after hfi (skip hki (skip (updateObject_reads rfl) Reads.pure))))
  · cases hwr

end

end V8Multithread.Objects
