import V8Multithread.Objects.EntriesBack
import V8Multithread.Objects.WriterIds

/-! Reading back an object of each kind. -/
namespace V8Multithread.Objects
open List Option Base Scan

/-- The bytes of an object `r` that has got its id last: they are read as the object at the end
of the heap, which becomes the image of `r`. -/
def NewMirrors (E : Engine) (I : Isolate) (H : Hosts) (x : Read Value) (r : Receiver) (w w' : Writer) : Prop :=
  ∃ bytes new, Wrote w w' bytes new ∧ new.length < bytes.length ∧ Opening bytes ∧
    ∀ ids final heap reads, w.ids = ids ++ [r] → w'.ids <+: final → final.length < 2 ^ 32 → Heads I ids heap →
      ReadsBack Any x (inStep heap reads) bytes (.object (.own heap.length)) (grown E I H final heap reads (r :: new))

theorem put_put (w : Writer) (bytes₁ bytes₂ : List UInt8) : (w.put bytes₁).put bytes₂ = w.put (bytes₁ ++ bytes₂) := by
  simp [Writer.put]

section
variable {E : Engine} {I : Isolate} {D : Option ReadDelegate} {H : Hosts} {good : Receiver → Prop}
  {write : Value → Writer → Option Writer} {writeReceiver : Receiver → Writer → Option Writer} {w w' : Writer}
  {r : Receiver} {rd : Read Value} {stack depth : Nat}

variable {bytes : List UInt8} {o : Obj} {p : Properties} {s : ReaderState} {length : Nat}

/-- There are fewer than 2^32 objects. -/
theorem room {ids final : List Receiver} {heap : List Obj} {new : List Receiver} (hwr : Wrote w w' bytes new)
    (hids : w.ids = ids ++ [r]) (hfi : w'.ids <+: final) (hsm : final.length < 2 ^ 32)
    (hh : Heads I ids heap) : heap.length + 1 < 2 ^ 32 := by
  have hle := hfi.length_le
  rw [hwr.ids, hids, length_append, length_append, length_singleton] at hle
  rw [hh.length]
  omega

/-- The new object is there, so far as its head is concerned. -/
theorem Heads.begin {ids : List Receiver} {heap : List Obj} (h : Heads I ids heap) (ho : o.head = I.head r) :
    Heads I (ids ++ [r]) (heap ++ [o]) := by
  rw [Heads, map_append, map_append, h, map_singleton, map_singleton, ho]

theorem head_own (hobj : I.obj r = some o) : I.head r = o.head := by
  rw [Isolate.head, hobj]
  rfl

/-- An object of the sender's own, which can be sent with what it holds. -/
structure Stands (E : Engine) (I : Isolate) (good : Receiver → Prop) (r : Receiver) (o : Obj) : Prop where
  isGood : good r
  host : I.host r = false
  obj : I.obj r = some o
  valid : o.Valid E I
  held : ∀ v ∈ o.held, Sendable E good v

/-! ### Objects that hold no others -/

/-- An object that is made when all of it was read. -/
theorem NewMirrors.leaf {t : SerializationTag} (ht : t.opening) (h : Stands E I good r o) (hre : ∀ φ heap reads, heap.length + 1 < 2 ^ 32 → ReadsBack Any (readTagged E D rd
    (readObjectInternal E D rd depth) t.byte) (inStep heap reads) bytes (.object (.own heap.length)) (inStep (heap ++
    [o.image E φ]) reads)) :
    NewMirrors E I H (readObjectInternal E D rd (depth + 1)) r w (w.put (t.byte :: bytes)) := by
  refine ⟨t.byte :: bytes, [], Wrote.put _ _, Nat.succ_pos _, opening_tag bytes ht, ?_⟩
  intro ids final heap reads hids hfi hsm hh
  have hg : grown E I H final heap reads [r] = inStep (heap ++ [o.image E (place final)]) reads := by
    simp [grown, imageOf_own h.host h.obj, readsOf_own h.host]
  rw [hg]
  exact internal_reads (by rintro rfl; cases ht)
    (hre (place final) heap reads (room (Wrote.put w (t.byte :: bytes)) hids hfi hsm hh))

theorem date_mirrors {d : Double} (h : Stands E I good r (.date d)) :
    NewMirrors E I H (readObjectInternal E D rd (depth + 1)) r w (w.put (SerializationTag.date.byte :: doubleBytes d)) := by
  have hd : E.timeClip (canonical d) = canonical d := h.valid
  refine NewMirrors.leaf rfl h fun φ heap reads hroom => ?_
  have hcr := @createObject_reads Any heap reads (.date (E.timeClip (canonical d)))
  rw [hd] at hcr
  refine Reads.after (readDouble_reads d) (Reads.skip (newId_reads hroom) ?_)
  rw [hd]
  exact hcr

/-- The number of a wrapper is written as a double, also if it is a Smi. -/
theorem newNumber_toDouble? {v : Value} {d : Double} (hv : v.Valid E) (h : v.toDouble? = some d) (φ : Receiver → Receiver) :
    E.newNumber (canonical d) = v.image E φ := by
  cases v with
  | smi i =>
    injection h with h
    obtain ⟨hlow, hh⟩ := E.isSmi_int32 i hv
    have habs : i.natAbs < 2 ^ 53 := by omega
    rw [← h, canonical_doubleOfInt habs, Engine.newNumber, intOfDouble_doubleOfInt habs]
    exact if_pos hv
  | heapNumber e =>
    injection h with h
    rw [← h]
    rfl
  | _ => cases h

/-- The value of a wrapper comes after the id. -/
theorem wrapper_mirrors {t : SerializationTag} {v : Value} (ht : t.opening) (h : Stands E I good r (.primitiveWrapper v))
    (hta : ∀ internal, readTagged E D rd internal t.byte = readJSPrimitiveWrapper E rd t)
    (hre : ∀ φ s, s.version = latestVersion → ReadsBack Any (readWrapped E rd t) s bytes (v.image E φ) s) :
    NewMirrors E I H (readObjectInternal E D rd (depth + 1)) r w (w.put (t.byte :: bytes)) := by
  refine NewMirrors.leaf ht h fun φ heap reads hroom => ?_
  rw [hta]
  exact Reads.skip (newId_reads hroom) (Reads.after (hre φ _ rfl) (createObject_reads _))

theorem primitiveWrapper_mirrors {v : Value} (h : Stands E I good r (.primitiveWrapper v)) (hwr : writeJSPrimitiveWrapper v w = some w') :
    NewMirrors E I H (readObjectInternal E D (readObject E D (stack + 1)) (depth + 1)) r w w' := by
  have hnu : ∀ d, v.toDouble? = some d → NewMirrors E I H
      (readObjectInternal E D (readObject E D (stack + 1)) (depth + 1)) r w
      (w.put (SerializationTag.numberObject.byte :: doubleBytes d)) := by
    intro d hd
    refine wrapper_mirrors rfl h (fun _ => rfl) fun φ s _ => Reads.after (readDouble_reads d) ?_
    rw [newNumber_toDouble? h.valid hd φ]
    exact Reads.pure
  cases v with
  | boolean b =>
    cases b with
    | true =>
      cases hwr
      exact wrapper_mirrors (t := .trueObject) rfl h (fun _ => rfl) fun φ s _ => Reads.pure
    | false =>
      cases hwr
      exact wrapper_mirrors (t := .falseObject) rfl h (fun _ => rfl) fun φ s _ => Reads.pure
  | bigint b =>
    cases hwr
    exact wrapper_mirrors (t := .bigIntObject) rfl h (fun _ => rfl) fun φ s _ =>
      Reads.after (readBigInt_reads h.valid) Reads.pure
  | string str =>
    cases hwr
    rw [put_put]
    exact wrapper_mirrors (t := .stringObject) rfl h (fun _ => rfl) fun φ s hs =>
      Reads.after (readString_reads h.valid hs _ stack) Reads.pure
  | smi | heapNumber =>
    cases hwr
    exact hnu _ rfl
  | undefined | null | symbol | object => cases hwr

theorem regExp_mirrors {source : Str} {flags : Nat} (h : Stands E I good r (.regExp source flags)) :
    NewMirrors E I H (readObjectInternal E D (readObject E D (stack + 1)) (depth + 1)) r w (writeJSRegExp source flags w) := by
  obtain ⟨hso, hfl, hco⟩ := h.valid
  have hlt : flags < 2 ^ 32 := by
    have h := hfl
    rw [validFlags, Bool.and_eq_true, Bool.and_eq_true] at h
    have := of_decide_eq_true h.1.1
    omega
  rw [writeJSRegExp, put_put, put_put, singleton_append]
  refine NewMirrors.leaf rfl h fun φ heap reads hroom => ?_
  refine Reads.skip (newId_reads hroom) (Reads.seq (readString_reads hso rfl _ stack)
    (Reads.after (readVarint32_reads hlt) (Reads.skip (Reads.check hfl) ?_)))
  rw [Str.units_image, if_pos hco]
  exact createObject_reads _

theorem arrayBuffer_mirrors {b : ArrayBuffer} (h : Stands E I good r (.arrayBuffer b)) (hwr : writeJSArrayBuffer b w = some w') :
    NewMirrors E I H (readObjectInternal E D rd (depth + 1)) r w w' := by
  have hb : b.Valid E := h.valid
  rw [writeJSArrayBuffer] at hwr
  split at hwr
  · cases hwr
  · next hl =>
    have hlt : b.bytes.length < 2 ^ 64 := by omega
    injection hwr with hwr
    -- what follows the lengths
    have hco : ∀ (isResizable isImmutable : Bool) max heap reads,
        b.maxByteLength.getD b.bytes.length = max → b.bytes.length ≤ max →
        (if isResizable then some max else none) = b.maxByteLength → isImmutable = b.immutable →
        ReadsBack Any (Scan.check (b.bytes.length ≤ max) >>= fun _ => Scan.remaining >>= fun remaining =>
            Scan.check (b.bytes.length ≤ remaining) >>= fun _ =>
              if E.allocates b.bytes.length max then readRawBytes b.bytes.length >>= fun bytes =>
                createObject heap.length (.arrayBuffer ⟨bytes, if isResizable then some max else none, isImmutable⟩)
              else Scan.fail .invalid)
          (numbered heap reads) b.bytes (.object (.own heap.length)) (inStep (heap ++ [.arrayBuffer b]) reads) := by
      intro isResizable isImmutable max heap reads hmax hle hre him
      refine Reads.skip (Reads.check hle) (Reads.remaining fun n hn => Reads.skip (Reads.check hn) ?_)
      rw [← hmax, if_pos hb.allocates, hmax]
      have hcr := @createObject_reads Any heap reads
        (.arrayBuffer ⟨b.bytes, if isResizable then some max else none, isImmutable⟩)
      rw [hre, him] at hcr
      refine Reads.after (readRawBytes_reads b.bytes) ?_
      rw [hre, him]
      exact hcr
    cases hmax : b.maxByteLength with
    | some max =>
      obtain ⟨hle, hma, him⟩ := hb.resizable max hmax
      simp only [hmax, cons_append, append_assoc] at hwr
      rw [← hwr]
      refine NewMirrors.leaf (t := .resizableArrayBuffer) rfl h fun φ heap reads hroom => ?_
      refine Reads.skip (newId_reads hroom) (Reads.seq (readVarint64_reads hlt) (Reads.seq (readVarint64_reads hma) ?_))
      exact hco true false max heap reads (by rw [hmax]; rfl) hle hmax.symm him.symm
    | none =>
      rw [hmax] at hwr
      rw [← hwr]
      cases him : b.immutable with
      | true =>
        refine NewMirrors.leaf (t := .immutableArrayBuffer) rfl h fun φ heap reads hroom => ?_
        refine Reads.skip (newId_reads hroom) (Reads.seq (readVarint64_reads hlt) (Reads.skip Reads.pure ?_))
        exact hco false true b.bytes.length heap reads (by rw [hmax]; rfl) (le_refl _) hmax.symm him.symm
      | false =>
        refine NewMirrors.leaf (t := .arrayBuffer) rfl h fun φ heap reads hroom => ?_
        refine Reads.skip (newId_reads hroom) (Reads.seq (readVarint64_reads hlt) (Reads.skip Reads.pure ?_))
        exact hco false false b.bytes.length heap reads (by rw [hmax]; rfl) (le_refl _) hmax.symm him.symm

/-! ### Objects and arrays -/

theorem ownProperties_sendable (hp : p.Valid E)
    (hh : ∀ v ∈ p.elements.map Prod.snd ++ p.named.map Prod.snd, Sendable E good v) :
    ∀ e ∈ ownProperties E I p, (∃ key, OwnKey E e.1 key) ∧ Sendable E good e.2 := by
  intro e he
  rw [ownProperties, namedProperties, mem_append, List.mem_map, List.mem_map] at he
  rcases he with ⟨x, hx, rfl⟩ | ⟨x, hx, rfl⟩
  · exact ⟨⟨_, .index (hp.indices _ (mem_map_of_mem hx))⟩, hh _ (mem_append_left _ (mem_map_of_mem hx))⟩
  · obtain ⟨hna, hl⟩ := hp.names _ (mem_map_of_mem hx)
    have hu := I.internalized_units x.1
    refine ⟨⟨_, .name (show (I.internalized x.1).units.length ≤ _ from ?_) ?_⟩,
      hh _ (mem_append_right _ (mem_map_of_mem hx))⟩
    · rw [hu]
      exact hl
    · rw [hu]
      exact hna

/-- An object that is put into the heap as `o₀` and filled. The bytes of what it holds are
between those that come first and those that come last. -/
theorem NewMirrors.container {t : SerializationTag} {first bytes last : List UInt8} {o₀ source : Obj} {w₁ : Writer}
    {new : List Receiver} (ht : t.opening) (h : Stands E I good r source)
    (hhe : o₀.head = source.head) (hwr : Wrote (w.put (t.byte :: first)) w₁ bytes new)
    (hre : ∀ final heap reads, w₁.ids <+: final → final.length < 2 ^ 32 → heap.length + 1 < 2 ^ 32 →
      Heads I w.ids (heap ++ [o₀]) →
      ReadsBack Any (readTagged E D rd (readObjectInternal E D rd depth) t.byte) (inStep heap reads)
        (first ++ (bytes ++ last)) (.object (.own heap.length))
        (grown E I H final (heap ++ [source.image E (place final)]) reads new)) :
    NewMirrors E I H (readObjectInternal E D rd (depth + 1)) r w (w₁.put last) := by
  have hall := @Wrote.put_after _ _ _ last _ hwr.put_before
  have hp := hwr.paid
  refine ⟨_, new, hall, by simp; omega, ((opening_tag first ht).append bytes).append last, ?_⟩
  intro ids final heap reads hids hfin hsm hh
  have hst : Heads I w.ids (heap ++ [o₀]) := by
    rw [hids]
    exact hh.begin (hhe.trans (head_own h.obj).symm)
  have hfi := hre final heap reads hfin hsm (room hall hids hfin hsm hh) hst
  have him : source.image E (place final) = imageOf E I H final r := (imageOf_own h.host h.obj).symm
  rw [grown_cons, him] at hfi
  rw [append_assoc, cons_append, ← grown_new h.host rfl]
  exact internal_reads (by rintro rfl; cases ht) hfi

theorem jsObject_mirrors (hcarries : Carries E I H good write (readObject E D (stack + 1)))
    (hp : WritesPrimitives write) {field : Option Nat} (h : Stands E I good r (.jsObject field p))
    (hwr : writeJSObject E I write p w = some w') :
    NewMirrors E I H (readObjectInternal E D (readObject E D (stack + 1)) (depth + 1)) r w w' := by
  obtain ⟨w₁, hpr, rfl⟩ := map_eq_some_iff.mp hwr
  obtain ⟨bytes, new, hwro, hre⟩ := (@readJSObjectProperties_reads _ _ _ _ _ _ _ _ _ .endJSObject) hcarries hp rfl
    (by simp) (by simp) (ownProperties_sendable h.valid h.held) hpr
  refine (@NewMirrors.container _ _ _ _ _ _ _ _ _ _ _ _ _ (.jsObject none {})) rfl h rfl hwro ?_
  intro final heap reads hfin hsm hroom hh
  have hfo := (@addProperty_own E I (place final)) extensible_jsObject h.valid (fun _ _ => trivial)
    fun _ _ => trivial
  have hfi := hre final heap _ [] reads hfin hsm hh hfo
  rw [nil_append, append_cons bytes]
  refine Reads.skip (newId_reads hroom) (Reads.skip (addObjectWithID_reads _) (Reads.seq hfi ?_))
  exact Reads.after (readVarint32_mod _) (Reads.skip (Reads.check rfl) Reads.pure)

theorem endJSArray_reads {T : List UInt8 → Prop} (a count : Nat) (hl : length < 2 ^ 32) :
    ReadsBack T (endJSArray a length (count % 2 ^ 32)) s (varint32 count ++ varint32 length) (.object (.own a)) s :=
  Reads.seq (readVarint32_mod _) (Reads.after (readVarint32_reads hl) (Reads.skip (Reads.check ⟨rfl, rfl⟩) Reads.pure))

theorem sparseArray_mirrors (hcarries : Carries E I H good write rd)
    (h : Stands E I good r (.jsArray false length p)) (hwr : writeJSArray E I write false length p w = some w') :
    NewMirrors E I H (readObjectInternal E D rd (depth + 1)) r w w' := by
  have hp : JSArray.Valid E false length p := h.valid
  obtain ⟨w₁, hpr, rfl⟩ := map_eq_some_iff.mp hwr
  obtain ⟨bytes, new, hwro, -, hre⟩ := (@slowProperties_reads _ _ _ _ _ _ _ _ hcarries .endSparseJSArray) rfl
    (by simp) (by simp) (fun e he => (ownProperties_sendable hp.properties h.held e he).imp_left ownKey_sendable) hpr
  refine (@NewMirrors.container _ _ _ _ _ _ _ _ _ _ _ _ _ (.jsArray false length {})) rfl h rfl hwro ?_
  intro final heap reads hfin hsm hroom hh
  have hfo := (@addProperty_own E I (place final)) (extensible_jsArray length) hp.properties hp.elements
    fun n hn heq => hp.names (heq ▸ hn)
  have hfi := hre final heap _ _ [] reads 0 hfin hsm hh hfo (by decide)
  rw [zero_add] at hfi
  rw [cons_append, append_cons bytes]
  exact Reads.seq (readVarint32_reads hp.length_lt) (Reads.skip (newId_reads hroom) (Reads.skip (addObjectWithID_reads _)
    (Reads.seq hfi (endJSArray_reads _ _ hp.length_lt))))

theorem denseArray_mirrors (hcarries : Carries E I H good write rd)
    (h : Stands E I good r (.jsArray true length p)) (hwr : writeJSArray E I write true length p w = some w') :
    NewMirrors E I H (readObjectInternal E D rd (depth + 1)) r w w' := by
  have hp : JSArray.Valid E true length p := h.valid
  obtain ⟨w₁, hbo, rfl⟩ := map_eq_some_iff.mp hwr
  obtain ⟨w₂, hel, hpr⟩ := bind_eq_some_iff.mp hbo
  have hl : (denseElements length p).length = length := by simp [denseElements]
  obtain ⟨bytes₁, new₁, hw₁, hlo, -, hr₁⟩ := elements_mirror hcarries (denseElements length p) _ w₂
    (fun e he v hv => h.held v (mem_append_left _ (value_of_mem_denseElements (mem_def.mp hv ▸ he)))) hel
  have hna : ∀ e ∈ namedProperties I p, Sendable E good e.1 ∧ Sendable E good e.2 := fun e he =>
    (ownProperties_sendable hp.properties h.held e (mem_append_right _ he)).imp_left ownKey_sendable
  obtain ⟨bytes₂, new₂, hw₂, hno, hr₂⟩ :=
    (@slowProperties_reads _ _ _ _ _ _ _ _ hcarries .endDenseJSArray) rfl (by simp) (by simp) hna hpr
  refine (@NewMirrors.container _ _ _ _ _ _ _ _ _ _ _ _ _ (.jsArray false length {})) rfl h rfl (hw₁.trans hw₂) ?_
  intro final heap reads hfi hsm hroom hh
  have hf₁ := hr₁ final heap 0 length [] [] reads (hw₂.extends.trans hfi) hsm hh (by simp)
  rw [present_denseElements hp.properties.sorted hp.elements, nil_append, hl, grown_cons, nil_append] at hf₁
  have hfo := (@addProperty_named E I (place final)) (extensible_jsArray length) p.elements p.named
    hp.properties.nodup (fun n hn => (hp.properties.names n hn).1) fun n hn heq => hp.names (heq ▸ hn)
  have hf₂ := hr₂ final heap _ _ _ (reads ++ new₁.flatMap (readsOf I H)) 0 hfi hsm
    (hw₁.heads_set (E := E) (H := H) hh (by rfl) final) hfo (by decide)
  have hco : (0 + (namedProperties I p).length) % 2 ^ 32 = p.named.length % 2 ^ 32 := by
    rw [zero_add, namedProperties, length_map]
  rw [hco, grown_after] at hf₂
  have hre : ∀ n, (bytes₁ ++ bytes₂ ++ (SerializationTag.endDenseJSArray.byte ::
      varint32 p.named.length ++ varint32 length)).length ≤ n → length ≤ n := by
    intro n hn
    rw [length_append, length_append] at hn
    omega
  refine Reads.seq (readVarint32_reads hp.length_lt) (Reads.remaining fun n hn => Reads.skip
    (Reads.check ⟨hp.packed_le rfl, hre n hn⟩) (Reads.skip (newId_reads hroom) (Reads.skip (addObjectWithID_reads _) ?_)))
  rw [append_assoc]
  refine Reads.bind hf₁ ?_ fun tail _ => ?_
  · rw [cons_append, append_cons bytes₂]
    exact Reads.seq hf₂ (endJSArray_reads _ _ hp.length_lt)
  · rw [append_assoc]
    exact hno _ (noView_tag _ (by simp) (by simp))

/-! ### Maps and sets -/

theorem mapEntry_end (a count : Nat) (s : ReaderState) :
    ReadsBack Any (mapEntry rd a count) s [SerializationTag.endJSMap.byte] (.inr count) s := by
  refine peekTag_reads (nextTag_tag (t := .endJSMap) (by simp) []) ?_
  dsimp only
  rw [if_pos rfl]
  exact Reads.after (consumeTag_reads (t := .endJSMap) (by simp)) Reads.pure

theorem setEntry_end (a count : Nat) (s : ReaderState) :
    ReadsBack Any (setEntry rd a count) s [SerializationTag.endJSSet.byte] (.inr count) s := by
  refine peekTag_reads (nextTag_tag (t := .endJSSet) (by simp) []) ?_
  dsimp only
  rw [if_pos rfl]
  exact Reads.after (consumeTag_reads (t := .endJSSet) (by simp)) Reads.pure

theorem head_mapSet {key value : Value} {o' : Obj} (h : o.mapSet key value = some o') : o'.head = o.head := by
  cases o with
  | map entries =>
    cases h
    rfl
  | _ => cases h

theorem head_setAdd {value : Value} {o' : Obj} (h : o.setAdd value = some o') : o'.head = o.head := by
  cases o with
  | set entries =>
    cases h
    rfl
  | _ => cases h

/-- Keys that have ids stay different. -/
theorem ValidKeys.place {keys : List Value} (h : ValidKeys keys) {final : List Receiver}
    (hids : ∀ r, .object r ∈ keys → r ∈ final) :
    (keys.map fun k => (k.image E (place final)).mapKey).Nodup := by
  have hno := @ValidKeys.image E (Objects.place final) _ h fun r x hr _ heq => place_injective (hids r hr) heq
  rwa [List.map_map] at hno

theorem map_mirrors (hcarries : Carries E I H good write rd) (hre : Registers I good write)
    {entries : List (Value × Value)} (h : Stands E I good r (.map entries)) (hwr : writeJSMap write entries w = some w') :
    NewMirrors E I H (readObjectInternal E D rd (depth + 1)) r w w' := by
  have hids := (writeJSMap_covers hre entries w' hwr fun x hx => (h.held _ hx).good x rfl).2
  obtain ⟨w₁, hen, rfl⟩ := map_eq_some_iff.mp hwr
  have hse : ∀ e ∈ entries, Sendable E good e.1 ∧ Sendable E good e.2 := fun e he =>
    ⟨h.held _ (mem_flatMap.mpr ⟨e, he, by simp⟩), h.held _ (mem_flatMap.mpr ⟨e, he, by simp⟩)⟩
  obtain ⟨bytes, new, hwro, -, hrea⟩ := (@entries_reads _ _ _ _ _ _ _
    fun ids o e => o.mapSet (Value.image E (place ids) e.1) (Value.image E (place ids) e.2)) mapEntry_end (by simp) (by simp)
    (fun ids o e o' => head_mapSet)
    (fun e he w w' => mapEntry_mirrors hcarries (hse e he).1 (hse e he).2) hen
  refine (@NewMirrors.container _ _ _ _ _ _ _ _ _ _ _ _ _ (.map [])) rfl h rfl hwro ?_
  intro final heap reads hfin hsm hroom hh
  have hno := (@ValidKeys.place E _ h.valid final) (by
    intro x hx
    obtain ⟨e, he, hkey⟩ := List.mem_map.mp hx
    exact hfin.subset (hids x (mem_flatMap.mpr ⟨e, he, by simp [hkey]⟩)))
  have hfo := (@foldlM_mapSet E (place final)) entries hno
    fun e he => ValidKeys.no_minus_zero h.valid _ (mem_map_of_mem he)
  have hfi := hrea final heap _ _ [] reads 0 hfin hsm hh hfo (by decide)
  rw [zero_add] at hfi
  rw [nil_append, append_cons bytes]
  refine Reads.skip (newId_reads hroom) (Reads.skip (addObjectWithID_reads _) (Reads.seq hfi ?_))
  exact Reads.after (readVarint32_mod _) (Reads.skip (Reads.check rfl) Reads.pure)

theorem set_mirrors (hcarries : Carries E I H good write rd) (hre : Registers I good write)
    {entries : List Value} (h : Stands E I good r (.set entries)) (hwr : writeJSSet write entries w = some w') :
    NewMirrors E I H (readObjectInternal E D rd (depth + 1)) r w w' := by
  have hids := (writeJSSet_covers hre entries w' hwr fun x hx => (h.held _ hx).good x rfl).2
  obtain ⟨w₁, hen, rfl⟩ := map_eq_some_iff.mp hwr
  obtain ⟨bytes, new, hwro, -, hrea⟩ := (@entries_reads _ _ _ _ _ _ _
    fun ids o v => o.setAdd (Value.image E (place ids) v)) setEntry_end (by simp) (by simp)
    (fun ids o e o' => head_setAdd) (fun v hv w w' => setEntry_mirrors hcarries (h.held v hv)) hen
  refine (@NewMirrors.container _ _ _ _ _ _ _ _ _ _ _ _ _ (.set [])) rfl h rfl hwro ?_
  intro final heap reads hfin hsm hroom hh
  have hno := (@ValidKeys.place E _ h.valid final) fun x hx => hfin.subset (hids x hx)
  have hfo := (@foldlM_setAdd E (place final)) entries hno (ValidKeys.no_minus_zero h.valid)
  have hfi := hrea final heap _ _ [] reads 0 hfin hsm hh hfo (by decide)
  rw [zero_add, one_mul] at hfi
  rw [nil_append, append_cons bytes]
  refine Reads.skip (newId_reads hroom) (Reads.skip (addObjectWithID_reads _) (Reads.seq hfi ?_))
  exact Reads.after (readVarint32_mod _) (Reads.skip (Reads.check rfl) Reads.pure)

/-! ### Errors

The reader is one tag ahead. -/

/-- The tag that stands before what is written with `tag`, if it is there, and then `next`. -/
def leadTag (tag : UInt8) (present : Bool) (next : UInt8) : UInt8 := if present then tag else next

def errorStringBytes (size : Nat) (part : Option Str) (next : UInt8) : List UInt8 :=
  match part with
  | some s => stringBytes size s ++ varint8 next
  | none => []

theorem writeErrorString_put (tag next : UInt8) (part : Option Str) (w : Writer) :
    (writeErrorString tag part w).put (varint8 next) = (w.put (varint8 (leadTag tag part.isSome next))).put
        (errorStringBytes (w.put (varint8 tag)).buffer.length part next) := by
  cases part with
  | some | none => simp [writeErrorString, leadTag, errorStringBytes, Writer.put]

theorem readErrorString_reads (hve : s.version = latestVersion) {part : Option Str}
    (hpart : ∀ str ∈ part, str.Valid E) {tag next : UInt8} (hne : next ≠ tag) (size : Nat) :
    ReadsBack Any (readErrorString E (readObject E D (stack + 1)) tag (leadTag tag part.isSome next)) s
      (errorStringBytes size part next) (part.map Str.image, next) s := by
  cases part with
  | some str =>
    have hl : leadTag tag (some str).isSome next = tag := rfl
    rw [readErrorString, hl, if_pos rfl]
    exact Reads.seq (readString_reads (hpart str rfl) hve size stack) (Reads.after (readUint8_reads next) Reads.pure)
  | none =>
    have hl : leadTag tag (none : Option Str).isSome next = next := rfl
    rw [readErrorString, hl, if_neg hne]
    exact Reads.pure

theorem readErrorType_reads (type : ErrorType) {next : UInt8} (hnext : ErrorType.ofTag next = none) :
    ReadsBack Any (readUint8 >>= readErrorType) s ((type.tag.map varint8).getD [] ++ varint8 next) (type, next) s := by
  have hno : ReadsBack Any (readErrorType next) s [] (.error, next) s := by
    rw [readErrorType, hnext]
    exact Reads.pure
  have hso : ∀ tag, type.tag = some tag → ErrorType.ofTag tag = some type →
      ReadsBack Any (readErrorType tag) s (varint8 next) (type, next) s := by
    intro tag _ htag
    rw [readErrorType, htag]
    exact Reads.after (readUint8_reads next) Reads.pure
  cases type with
  | error => exact Reads.after (readUint8_reads next) hno
  | evalError | rangeError | referenceError | syntaxError | typeError | uriError =>
    exact Reads.seq (readUint8_reads _) (hso _ rfl rfl)

/-- The type and the strings, up to the tag that comes next: with them the object is made. -/
theorem readJSError_begin {e : ErrorObject} (he : e.Valid E) {next : UInt8}
    (hnext : next = ErrorTag.cause ∨ next = ErrorTag.end) (w : Writer) :
    ∃ first, (writeErrorString ErrorTag.stack e.stack (writeErrorString ErrorTag.message e.message
        (w.put (SerializationTag.error.byte :: (e.type.tag.map varint8).getD [])))).put (varint8 next) =
          w.put (SerializationTag.error.byte :: first) ∧
      ∀ heap reads bytes v s', heap.length + 1 < 2 ^ 32 →
        ReadsBack Any (readErrorCause (readObject E D (stack + 1)) heap.length next >>= fun tag =>
            Scan.check (tag = ErrorTag.end) >>= fun _ => pure (.object (.own heap.length)))
          (inStep (heap ++ [.error {type := e.type, message := e.message.map Str.image, stack := e.stack.map Str.image}]) reads)
          bytes v s' →
        ReadsBack Any (readJSError E (readObject E D (stack + 1))) (inStep heap reads) (first ++ bytes) v s' := by
  have hst : next ≠ ErrorTag.stack := by rcases hnext with rfl | rfl <;> decide
  have hme : leadTag ErrorTag.stack e.stack.isSome next ≠ ErrorTag.message := by
    cases e.stack.isSome <;> rcases hnext with rfl | rfl <;> decide
  have hty : ErrorType.ofTag (leadTag ErrorTag.message e.message.isSome
      (leadTag ErrorTag.stack e.stack.isSome next)) = none := by
    cases e.message.isSome <;> cases e.stack.isSome <;> rcases hnext with rfl | rfl <;> decide
  have hwr : ∀ size₁ size₂, ((((w.put (SerializationTag.error.byte :: (e.type.tag.map varint8).getD [])).put
        (varint8 (leadTag ErrorTag.message e.message.isSome (leadTag ErrorTag.stack e.stack.isSome next)))).put
        (errorStringBytes size₁ e.message (leadTag ErrorTag.stack e.stack.isSome next))).put
        (errorStringBytes size₂ e.stack next)) =
      w.put (SerializationTag.error.byte :: ((e.type.tag.map varint8).getD [] ++
        varint8 (leadTag ErrorTag.message e.message.isSome (leadTag ErrorTag.stack e.stack.isSome next)) ++
        (errorStringBytes size₁ e.message (leadTag ErrorTag.stack e.stack.isSome next) ++
        errorStringBytes size₂ e.stack next))) := by
    intro size₁ size₂
    simp [Writer.put]
  refine ⟨_, by rw [writeErrorString_put, writeErrorString_put, hwr], ?_⟩
  intro heap reads bytes v s' hroom hrest
  refine Reads.skip (newId_reads hroom) ?_
  show ReadsBack Any (readUint8 >>= fun tag => readErrorType tag >>= _) _ _ _ _
  rw [← Scan.bind_assoc, append_assoc, append_assoc (errorStringBytes _ _ _)]
  refine Reads.seq (readErrorType_reads e.type hty) ?_
  refine Reads.seq (readErrorString_reads rfl he.message hme _) ?_
  refine Reads.seq (readErrorString_reads rfl he.stack hst _) ?_
  exact Reads.skip (addObjectWithID_reads _) hrest

theorem error_mirrors (hcarries : Carries E I H good write (readObject E D (stack + 1))) {e : ErrorObject}
    (h : Stands E I good r (.error e)) (hwr : writeJSError write e w = some w') :
    NewMirrors E I H (readObjectInternal E D (readObject E D (stack + 1)) (depth + 1)) r w w' := by
  obtain ⟨w₁, hca, rfl⟩ := map_eq_some_iff.mp hwr
  cases hc : e.cause with
  | none =>
    rw [hc] at hca
    injection hca with hca
    obtain ⟨first, hfi, hre⟩ :=
      (@readJSError_begin _ D stack _ h.valid ErrorTag.end) (.inr rfl) w
    rw [← hca, hfi]
    refine NewMirrors.leaf (t := .error) rfl h fun φ heap reads hroom => ?_
    have hall := hre heap reads [] (.object (.own heap.length)) _ hroom
      (Reads.skip (a := ErrorTag.end) Reads.pure (Reads.skip (Reads.check rfl) Reads.pure))
    rw [append_nil] at hall
    have him : (Obj.error e).image E φ =
        .error {type := e.type, message := e.message.map Str.image, stack := e.stack.map Str.image} := by
      simp [Obj.image, Obj.cloned, Obj.transform, Properties.transform, hc]
    rw [him]
    exact hall
  | some cause =>
    rw [hc] at hca
    obtain ⟨first, hfi, hre⟩ :=
      (@readJSError_begin _ D stack _ h.valid ErrorTag.cause) (.inl rfl) w
    dsimp only at hca
    rw [hfi] at hca
    obtain ⟨bytes, new, hwro, -, hva⟩ := hcarries cause _ w₁ (h.held cause (by simp [Obj.held, hc])) hca
    refine (@NewMirrors.container _ _ _ _ _ _ _ _ _ .error _ _ _
      (.error {type := e.type, message := e.message.map Str.image, stack := e.stack.map Str.image}))
      rfl h rfl hwro ?_
    intro final heap reads hfin hsm hroom hh
    refine hre heap reads _ _ _ hroom ?_
    have hfil := hva final _ reads hfin hsm hh
    have him : (Obj.error e).image E (place final) = .error ⟨e.type, e.message.map Str.image, e.stack.map Str.image,
        some (cause.image E (place final)), {}⟩ := by
      simp [Obj.image, Obj.cloned, Obj.transform, Properties.transform, hc]
    rw [grown_cons] at hfil ⊢
    rw [him, readErrorCause, if_pos rfl, Scan.bind_assoc]
    refine Reads.bind hfil ?_ fun tail _ => NoView.fits (by rintro ⟨⟩) cause
    rw [Scan.bind_assoc]
    exact Reads.skip (updateObject_reads rfl) (Reads.after (readUint8_reads _) (Reads.skip (Reads.check rfl) Reads.pure))

end

end V8Multithread.Objects
