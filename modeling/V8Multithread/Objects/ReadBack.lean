import V8Multithread.Objects.Image

/-! Reading back what was written: the wire format, values that are not objects, and the
steps of the reader in a state where it is in step with the writer. -/
namespace V8Multithread.Objects
open List Option Base Scan Reads
open Reads (seq skip)

abbrev ReadsBack {α : Type} (T : List UInt8 → Prop) (x : Read α) (s : ReaderState) (bytes : List UInt8)
    (a : α) (s' : ReaderState) : Prop := Reads (2 ^ 32) T x s bytes a s'

/-! ### The wire format -/

variable {t : SerializationTag}

section
variable {T : List UInt8 → Prop} {s : ReaderState}

theorem nextTag_padded (pad tail : List UInt8) (ht : t ≠ .padding) (hpad : ∀ b ∈ pad, b = SerializationTag.padding.byte) :
    nextTag (pad ++ t.byte :: tail) = (some t.byte, pad.length + 1) := by
  induction pad with
  | nil =>
    have hby : t.byte ≠ SerializationTag.padding.byte := by
      cases t <;> first | exact absurd rfl ht | decide
    rw [nil_append, nextTag, if_neg hby]
    rfl
  | cons b pad ih =>
    rw [cons_append, nextTag, if_pos (hpad b (by simp)), ih fun x hx => hpad x (by simp [hx])]
    rfl

theorem nextTag_tag (ht : t ≠ .padding) (bytes tail : List UInt8) : (nextTag (t.byte :: bytes ++ tail)).1 = some t.byte :=
  congrArg Prod.fst (nextTag_padded [] (bytes ++ tail) ht (by simp))

theorem readTag_reads (pad : List UInt8) (ht : t ≠ .padding) (hpad : ∀ b ∈ pad, b = SerializationTag.padding.byte) :
    ReadsBack T readTag s (pad ++ [t.byte]) t.byte s := by
  refine take fun tail _ => ?_
  rw [append_assoc, singleton_append, nextTag_padded pad tail ht hpad, length_append]
  rfl

theorem consumeTag_reads (ht : t ≠ .padding) : ReadsBack T consumeTag s [t.byte] () s :=
  after (readTag_reads [] ht (by simp)) Reads.pure

theorem readVarint_reads {width n : Nat} (h : 8 ∣ width) (hpos : 0 < width) (hn : n < 2 ^ width) :
    ReadsBack T (readVarint width) s (Varint.encode (Varint.limit width) n) n s :=
  take fun tail _ => Varint.decode_encode h hpos hn tail

theorem readVarint32_mod (n : Nat) : ReadsBack T (readVarint 32) s (varint32 n) (n % 2 ^ 32) s :=
  readVarint_reads (by decide) (by decide) (Nat.mod_lt _ (by decide))

theorem readVarint32_reads {n : Nat} (hn : n < 2 ^ 32) : ReadsBack T (readVarint 32) s (varint32 n) n s := by
  have h := readVarint32_mod (T := T) (s := s) n
  rwa [Nat.mod_eq_of_lt hn] at h

theorem readVarint64_reads {n : Nat} (hn : n < 2 ^ 64) : ReadsBack T (readVarint 64) s (varint64 n) n s := by
  rw [varint64, Nat.mod_eq_of_lt hn]
  exact readVarint_reads (by decide) (by decide) hn

theorem readUint8_reads (b : UInt8) : ReadsBack T readUint8 s (varint8 b) b s := by
  have hp : ReadsBack T (pure (UInt8.ofNat b.toNat)) s [] b s := by
    rw [UInt8.ofNat_toNat]
    exact Reads.pure
  exact after (readVarint_reads (by decide) (by decide) b.toNat_lt) hp

theorem readZigZag_reads {i : Int} (hlow : -2 ^ 31 ≤ i) (hh : i < 2 ^ 31) :
    ReadsBack T readZigZag s (zigZag32 i) i s := by
  have hp : ReadsBack T (pure (ZigZag.decode (ZigZag.encode i))) s [] i s := by
    rw [ZigZag.decode_encode hlow hh]
    exact Reads.pure
  exact after (readVarint32_reads (ZigZag.encode_lt i)) hp

/-- Here the data has to be shorter than 4 GiB. -/
theorem readDouble_reads (d : Double) : ReadsBack T readDouble s (doubleBytes d) (canonical d) s := by
  intro c tail hs hlen hta hrest
  have hl : (doubleBytes d).length = 8 := length_littleEndian 8 _
  have hlo : ¬ 8 > (doubleBytes d ++ tail).length % 2 ^ 32 := by
    have hda := c.length_rest
    rw [hrest] at hda
    rw [Nat.mod_eq_of_lt (by omega), length_append, hl]
    omega
  have hva : UInt64.ofNat (ofLittleEndian (doubleBytes d)) = d := by
    rw [doubleBytes, ofLittleEndian_littleEndian (show d.toNat < 256 ^ 8 from d.toNat_lt), UInt64.ofNat_toNat]
  have hfr : doubleFrom (doubleBytes d ++ tail) = (some (canonical d), 8) := by
    rw [doubleFrom, if_neg hlo, take_append_of_le_length (by omega), ← hl, take_length, hva]
  refine ⟨c.moveTo (c.position + 8), ?_, rfl, by rw [hl]; rfl, hs⟩
  rw [readDouble, Scan.take, hrest, hfr]

theorem readRawBytes_reads (bytes : List UInt8) : ReadsBack T (readRawBytes bytes.length) s bytes bytes s := by
  refine take fun tail _ => ?_
  rw [rawBytesFrom, if_neg (by simp), take_left]

theorem readByte_reads (b : UInt8) : ReadsBack T readByte s [b] b s :=
  take fun _ _ => rfl

end

/-! ### Values that are not objects -/

section
variable {E : Engine} {T : List UInt8 → Prop} {s : ReaderState}

variable {str : Str} {bytes : List UInt8} {v : Value}

theorem newString_reads (h : str.Valid E) : ReadsBack T (newString E str) s [] str s := by
  rw [newString, if_pos (show str.units.length ≤ E.maxStringLength from h)]
  exact Reads.pure

theorem readOneByteString_reads {chars : List UInt8} (h : (Str.oneByte chars).Valid E) :
    ReadsBack T (readOneByteString E) s (varint32 chars.length ++ chars) (.oneByte chars) s := by
  have hlt : chars.length < 2 ^ 32 := by
    have := E.maxStringLength_lt
    rw [Str.Valid, Str.units, length_map] at h
    omega
  exact seq (readVarint32_reads hlt) (after (readRawBytes_reads chars) (newString_reads h))

theorem twoByteChars_flatMap (chars : List UInt16) :
    twoByteChars ((chars.map UInt16.toNat).flatMap (littleEndian 2)) = chars := by
  have hu := unpack_flatMap 2 (chars.map UInt16.toNat) (by
    intro v hv
    obtain ⟨c, -, rfl⟩ := mem_map.mp hv
    exact c.toNat_lt)
  rw [length_map] at hu
  rw [twoByteChars, length_flatMap_littleEndian, Nat.mul_div_cancel_left _ Nat.two_pos, length_map, hu, List.map_map]
  exact map_id'' (fun c => UInt16.ofNat_toNat) chars

theorem readTwoByteString_reads {chars : List UInt16} (h : (Str.twoByte chars).Valid E) :
    ReadsBack T (readTwoByteString E) s
      (varint32 (2 * chars.length) ++ (chars.map UInt16.toNat).flatMap (littleEndian 2)) (Str.twoByte chars).image s := by
  have hlt : 2 * chars.length < 2 ^ 32 := by
    have := E.maxStringLength_lt
    rw [Str.Valid, Str.units] at h
    omega
  have hby := readRawBytes_reads (T := T) (s := s) ((chars.map UInt16.toNat).flatMap (littleEndian 2))
  rw [length_flatMap_littleEndian, length_map] at hby
  refine seq (readVarint32_reads hlt) (skip (check (by omega)) (after hby ?_))
  rw [twoByteChars_flatMap]
  rcases chars with - | ⟨c, chars⟩
  · exact Reads.pure
  · rw [if_neg (by simp)]
    exact newString_reads h

theorem readBigInt_reads {b : BigInt} (h : (Value.bigint b).Valid E) : ReadsBack T (readBigInt E) s b.contents b s := by
  obtain ⟨hla, hsi, hle⟩ := h
  have hmax := E.maxBigIntLength_lt
  have hbit : (if b.sign then 1 else 0) ≤ 1 := by split <;> omega
  have hby := readRawBytes_reads (T := T) (s := s) ((b.digits.map UInt64.toNat).flatMap (littleEndian 8))
  rw [length_flatMap_littleEndian, length_map] at hby
  have hu := unpack_flatMap 8 (b.digits.map UInt64.toNat) (by
    intro v hv
    obtain ⟨d, -, rfl⟩ := mem_map.mp hv
    exact d.toNat_lt)
  rw [length_map] at hu
  have hdi : (unpack 8 b.digits.length ((b.digits.map UInt64.toNat).flatMap (littleEndian 8))).map UInt64.ofNat =
      b.digits := by
    rw [hu, List.map_map]
    exact map_id'' (fun d => UInt64.ofNat_toNat) b.digits
  have hca : BigInt.canonicalize ⟨b.sign, b.digits⟩ = b := by
    have hdr : b.digits.rdropWhile (· = 0) = b.digits := by
      rw [rdropWhile_eq_self_iff]
      intro hne hzero
      rw [getLast?_eq_some_getLast hne] at hla
      exact hla (congrArg some (of_decide_eq_true hzero))
    rw [BigInt.canonicalize]
    simp only [hdr]
    rcases hb : b.digits with - | ⟨d, rest⟩
    · have hfa : b.sign = false := by
        rw [← Bool.not_eq_true]
        exact fun htr => hsi htr hb
      rcases b with ⟨sign, digits⟩
      simp_all
    · rcases b with ⟨sign, digits⟩
      simp_all
  have hfr : ReadsBack T (fromSerializedDigits E ((if b.sign then 1 else 0) + 2 * (8 * b.digits.length))
      ((b.digits.map UInt64.toNat).flatMap (littleEndian 8))) s [] b s := by
    have hl : (8 * b.digits.length + 7) / 8 = b.digits.length := by omega
    have hodd : decide (((if b.sign then 1 else 0) + 2 * (8 * b.digits.length)) % 2 = 1) = b.sign := by
      cases b.sign <;> simp
    have hco : (((b.digits.map UInt64.toNat).flatMap (littleEndian 8)).length + 7) / 8 = b.digits.length := by
      rw [length_flatMap_littleEndian, length_map]
      exact hl
    refine skip (check ?_) ?_
    · rw [hco, hodd]
      rintro ⟨hzero, htr⟩
      exact hsi htr (length_eq_zero_iff.mp hzero)
    · simp only [hco, hodd]
      rw [if_neg (by omega), hdi, hca]
      exact Reads.pure
  have hraw : ReadsBack T (readRawBytes (((if b.sign then 1 else 0) + 2 * (8 * b.digits.length)) / 2)) s
      ((b.digits.map UInt64.toNat).flatMap (littleEndian 8)) ((b.digits.map UInt64.toNat).flatMap (littleEndian 8)) s := by
    rw [show ((if b.sign then 1 else 0) + 2 * (8 * b.digits.length)) / 2 = 8 * b.digits.length by omega]
    exact hby
  exact seq (readVarint32_reads (by omega)) (after hraw hfr)

variable {D : Option ReadDelegate} {rd : Read Value} {depth : Nat}

/-- A tag, perhaps after padding, and what follows it. -/
theorem internal_reads_padded (pad : List UInt8) (ht : t ≠ .padding)
    (hpad : ∀ b ∈ pad, b = SerializationTag.padding.byte) {s' : ReaderState}
    (h : ReadsBack T (readTagged E D rd (readObjectInternal E D rd depth) t.byte) s bytes v s') :
    ReadsBack T (readObjectInternal E D rd (depth + 1)) s (pad ++ t.byte :: bytes) v s' := by
  have hre := seq (readTag_reads pad ht hpad) h
  rw [append_assoc, singleton_append] at hre
  exact hre

theorem internal_reads (ht : t ≠ .padding) {s' : ReaderState}
    (h : ReadsBack T (readTagged E D rd (readObjectInternal E D rd depth) t.byte) s bytes v s') :
    ReadsBack T (readObjectInternal E D rd (depth + 1)) s (t.byte :: bytes) v s' :=
  internal_reads_padded [] ht (by simp) h

theorem string_internal (h : str.Valid E) (size : Nat) :
    ReadsBack T (readObjectInternal E D rd (depth + 1)) s (stringBytes size str) (.string str.image) s := by
  cases str with
  | oneByte chars =>
    exact internal_reads (t := .oneByteString) (by simp) (after (readOneByteString_reads h) Reads.pure)
  | twoByte chars =>
    have hre : ReadsBack T (readTagged E D rd (readObjectInternal E D rd depth) SerializationTag.twoByteString.byte) s
        (varint32 (2 * chars.length) ++ (chars.map UInt16.toNat).flatMap (littleEndian 2))
        (.string (Str.twoByte chars).image) s :=
      after (readTwoByteString_reads h) Reads.pure
    rw [stringBytes]
    split
    · exact internal_reads_padded (t := .twoByteString) [SerializationTag.padding.byte] (by simp) (by simp) hre
    · exact internal_reads_padded (t := .twoByteString) [] (by simp) (by simp) hre

theorem primitive_internal {size : Nat} (φ : Receiver → Receiver) (hby : primitiveBytes size v = some bytes)
    (h : v.Valid E) :
    ReadsBack T (readObjectInternal E D rd (depth + 1)) s bytes (v.image E φ) s := by
  cases v with
  | undefined =>
    cases hby
    exact internal_reads (t := .undefined) (by simp) Reads.pure
  | null =>
    cases hby
    exact internal_reads (t := .null) (by simp) Reads.pure
  | boolean b =>
    cases b with
    | true =>
      cases hby
      exact internal_reads (t := .true) (by simp) Reads.pure
    | false =>
      cases hby
      exact internal_reads (t := .false) (by simp) Reads.pure
  | smi i =>
    cases hby
    obtain ⟨hlow, hh⟩ := E.isSmi_int32 i h
    have hnu : ReadsBack T (pure (E.newNumberFromInt i)) s [] (.smi i) s := by
      rw [Engine.newNumberFromInt, if_pos (show E.isSmi i = true from h)]
      exact Reads.pure
    exact internal_reads (t := .int32) (by simp) (after (readZigZag_reads hlow hh) hnu)
  | heapNumber d =>
    cases hby
    exact internal_reads (t := .double) (by simp) (after (readDouble_reads d) Reads.pure)
  | bigint b =>
    cases hby
    exact internal_reads (t := .bigInt) (by simp) (after (readBigInt_reads h) Reads.pure)
  | string str =>
    cases hby
    exact string_internal h size
  | symbol | object => cases hby

/-- Nothing that is not an object is the buffer of a view. -/
theorem readViewOf_primitive (h : ∀ r, v ≠ .object r) : ReadsBack T (readViewOf E v) s [] v s := by
  refine skip (a := s.head v) (action rfl) ?_
  cases v with
  | object r => exact absurd rfl (h r)
  | _ => exact Reads.pure

theorem primitive_reads {size : Nat} (φ : Receiver → Receiver) (hby : primitiveBytes size v = some bytes)
    (h : v.Valid E) (stack : Nat) :
    ReadsBack T (readObject E D (stack + 1)) s bytes (v.image E φ) s := by
  refine after (sized fun n _ => primitive_internal φ hby h) (readViewOf_primitive fun r hr => ?_)
  cases v with
  | heapNumber d =>
    have := toDouble?_newNumber E (canonical d)
    rw [show E.newNumber (canonical d) = .object r from hr] at this
    cases this
  | object x => cases hby
  | _ => cases hr

theorem readString_reads (h : str.Valid E) (hve : s.version = latestVersion) (size stack : Nat) :
    ReadsBack T (readString E (readObject E D (stack + 1))) s (stringBytes size str) str.image s := by
  refine skip Reads.get ?_
  rw [if_neg (by rw [hve]; decide)]
  exact after (primitive_reads (v := .string str) id rfl h stack) Reads.pure

end

/-! ### The states of a reader that is in step -/

/-- Every object was registered under its place in the heap. -/
def inStep (heap : List Obj) (reads : List (Nat × Nat)) : ReaderState where
  version := latestVersion
  nextId := heap.length
  idMap := (range heap.length).map some
  heap := heap
  hostReads := reads

def numbered (heap : List Obj) (reads : List (Nat × Nat)) : ReaderState :=
  {inStep heap reads with nextId := heap.length + 1}

section
variable {T : List UInt8 → Prop} {heap post : List Obj} {reads : List (Nat × Nat)}

theorem newId_reads (h : heap.length + 1 < 2 ^ 32) :
    ReadsBack T newId (inStep heap reads) [] heap.length (numbered heap reads) := by
  refine (@action _ _ _ _ _ _ _ _ _ []) ?_
  rw [numbered, ← Nat.mod_eq_of_lt h]
  rfl

theorem setAndGrow_next (n a : Nat) :
    setAndGrow ((range n).map some) n a = (range n).map some ++ [some a] := by
  have hl : ((range n).map some).length = n := by simp
  rw [setAndGrow, hl, Nat.add_sub_cancel_left, set_append_right _ _ hl.le, hl, Nat.sub_self]
  rfl

theorem addObjectWithID_reads (o : Obj) :
    ReadsBack T (addObjectWithID heap.length o) (numbered heap reads) [] heap.length (inStep (heap ++ [o]) reads) := by
  refine (@action _ _ _ _ _ _ _ _ _ [.registered heap.length heap.length]) ?_
  simp only [numbered, inStep, setAndGrow_next, length_append, length_singleton, range_succ, map_append, map_singleton]

theorem createObject_reads (o : Obj) :
    ReadsBack T (createObject heap.length o) (numbered heap reads) [] (.object (.own heap.length))
      (inStep (heap ++ [o]) reads) :=
  after (addObjectWithID_reads o) Reads.pure

/-- An object in the middle of the heap takes a step, and nothing else changes. -/
theorem updateObject_reads {f : Obj → Option Obj} {o o' : Obj} (h : f o = some o') :
    ReadsBack T (updateObject heap.length f) (inStep (heap ++ o :: post) reads) [] ()
      (inStep (heap ++ o' :: post) reads) := by
  have hget : (heap ++ o :: post)[heap.length]? = some o := getElem?_append_right (Nat.le_refl _) |>.trans (by simp)
  have hset : (heap ++ o :: post).set heap.length o' = heap ++ o' :: post := by
    rw [set_append_right _ _ (Nat.le_refl _), Nat.sub_self]
    rfl
  refine (@action _ _ _ _ _ _ _ _ _ []) ?_
  simp only [inStep, hget, bind_some, h, hset, length_append, length_cons]

theorem getObjectWithID_reads {id : Nat} (h : id < heap.length) :
    ReadsBack T (getObjectWithID id) (inStep heap reads) [] (.object (.own id)) (inStep heap reads) := by
  have hget : ((range heap.length).map some)[id]? = some (some id) := by simp [h]
  refine (@action _ _ _ _ _ _ _ _ _ [.resolved id id]) ?_
  simp only [inStep, hget]

theorem headOf_reads {id : Nat} {o : Obj} (h : heap[id]? = some o) :
    ReadsBack T (headOf (.object (.own id))) (inStep heap reads) [] o.head (inStep heap reads) := by
  refine (@action _ _ _ _ _ _ _ _ _ []) ?_
  rw [ReaderState.head]
  simp only [inStep, h, map_some, getD_some]

end

/-! ### Varints of every width -/

def readVarintLoop (width : Nat) : Read Nat := Scan.take (Varint.decodeLoop width 0 0)

def writeVarint (width value : Nat) : List UInt8 := Varint.encode (Varint.limit width) value

/-- A number of the signed type, as its bits. -/
def writeZigZag (width : Nat) (value : BitVec width) : List UInt8 :=
  writeVarint width (value <<< 1 ^^^ value.sshiftRight (width - 1)).toNat

def readZigZagOf (width : Nat) : Read (BitVec width) := do
  let value ← readVarint width
  let unsignedValue := BitVec.ofNat width value
  pure (unsignedValue >>> 1 ^^^ -(unsignedValue &&& BitVec.ofNat width 1))

/-- What is written with 32 bits, and read. -/
theorem zigZag32_eq (i : Int) : zigZag32 i = writeZigZag 32 (BitVec.ofInt 32 i) := by
  rw [zigZag32, varint32, Nat.mod_eq_of_lt (ZigZag.encode_lt i)]
  rfl

theorem readZigZag_eq : readZigZag = BitVec.toInt <$> readZigZagOf 32 := by
  funext c
  show _ = (readZigZagOf 32 >>= fun x => Pure.pure x.toInt) c
  rw [readZigZagOf, Scan.bind_assoc]
  rfl

theorem readVarint_written {width n : Nat} (h : 8 ∣ width) (hpos : 0 < width) (hn : n < 2 ^ width)
    {c : Cursor ReaderState Event} {rest : List UInt8} (hc : c.rest = writeVarint width n ++ rest) :
    readVarint width c = (.ok n, c.moveTo (c.position + (writeVarint width n).length)) := by
  simp only [readVarint, Scan.take, hc, writeVarint, Varint.decode_encode h hpos hn]

theorem readZigZagOf_written {w : Nat} (h : 8 ∣ w + 1) (value : BitVec (w + 1)) {c : Cursor ReaderState Event}
    {rest : List UInt8} (hc : c.rest = writeZigZag (w + 1) value ++ rest) :
    readZigZagOf (w + 1) c = (.ok value, c.moveTo (c.position + (writeZigZag (w + 1) value).length)) := by
  rw [readZigZagOf, bind_ok (readVarint_written h w.succ_pos (BitVec.isLt _) hc), BitVec.ofNat_toNat, BitVec.setWidth_eq,
    Nat.add_sub_cancel, ZigZag.unzig]
  rfl

/-- The unrolled reader does what the loop does, and both read back what was written, in front of anything. -/
theorem varints_read_exactly {width : Nat} (h : width = 8 ∨ width = 16 ∨ width = 32 ∨ width = 64) :
    readVarint width = readVarintLoop width ∧
      ∀ (c : Cursor ReaderState Event) (rest : List UInt8),
        (∀ n < 2 ^ width, c.rest = writeVarint width n ++ rest →
          readVarint width c = (.ok n, c.moveTo (c.position + (writeVarint width n).length))) ∧
        ∀ value, c.rest = writeZigZag width value ++ rest →
          readZigZagOf width c = (.ok value, c.moveTo (c.position + (writeZigZag width value).length)) := by
  have h8 : 8 ∣ width := by rcases h with rfl | rfl | rfl | rfl <;> decide
  obtain ⟨w, rfl⟩ : ∃ w, width = w + 1 := ⟨width - 1, by omega⟩
  refine ⟨?_, fun c rest => ⟨fun n hn hc => readVarint_written h8 w.succ_pos hn hc, fun value hc => ?_⟩⟩
  · rw [readVarint, funext (Varint.decode_eq_loop h8)]
    rfl
  · exact readZigZagOf_written h8 value hc

theorem varints_read_exactly_sixteen :
    readZigZagOf 16 {data := [9, 0x83, 0x02], position := 1, high := 1, state := {}} =
      (.ok (-130), {data := [9, 0x83, 0x02], position := 3, high := 3, state := {}}) :=
  ((varints_read_exactly (.inr (.inl rfl))).2 _ []).2 (-130) (by decide)

end V8Multithread.Objects
