import V8Multithread.Base.Scan
import V8Multithread.Objects.ValueSerializer

/-! `ValueDeserializer`.

The bytes are read once from left to right, by a recursive descent that looks ahead at tags,
goes back when the fast way to read a key does not work out, and reads the whole again in
the mode for broken data of version 13. Objects are numbered as they are met; the bytes only
say the numbers of those that are met again. -/
namespace V8Multithread.Objects
open Base

/-! ### Tags -/

def SerializationTag.all : List SerializationTag :=
  [.version, .padding, .verifyObjectCount, .theHole, .undefined, .null, .true, .false, .int32, .uint32,
    .double, .bigInt, .utf8String, .oneByteString, .twoByteString, .objectReference, .beginJSObject,
    .endJSObject, .beginSparseJSArray, .endSparseJSArray, .beginDenseJSArray, .endDenseJSArray, .date,
    .trueObject, .falseObject, .numberObject, .bigIntObject, .stringObject, .regExp, .beginJSMap,
    .endJSMap, .beginJSSet, .endJSSet, .arrayBuffer, .immutableArrayBuffer, .resizableArrayBuffer,
    .arrayBufferTransfer, .arrayBufferView, .sharedArrayBuffer, .sharedObject, .wasmModuleTransfer,
    .hostObject, .wasmMemoryTransfer, .error]

def SerializationTag.ofByte (b : UInt8) : Option SerializationTag :=
  SerializationTag.all.find? fun t => t.byte = b

theorem SerializationTag.ofByte_byte (t : SerializationTag) : SerializationTag.ofByte t.byte = some t := by
  cases t <;> decide

def ViewType.ofTag (b : UInt8) : Option ViewType :=
  [ViewType.int8Array, .uint8Array, .uint8ClampedArray, .int16Array, .uint16Array, .int32Array,
    .uint32Array, .float16Array, .float32Array, .float64Array, .bigInt64Array, .bigUint64Array,
    .dataView].find? fun t => t.tag = b

theorem ViewType.ofTag_tag (t : ViewType) : ViewType.ofTag t.tag = some t := by
  cases t <;> decide

def ErrorType.ofTag (b : UInt8) : Option ErrorType :=
  [ErrorType.evalError, .rangeError, .referenceError, .syntaxError, .typeError, .uriError].find? fun t =>
    t.tag = some b

/-! ### The receiving side -/

/-- The address of the object is its place among those that were made. -/
inductive Event where
  | registered (id address : Nat)
  | resolved (id address : Nat)
  deriving DecidableEq, Repr

structure ReaderState where
  version : Nat := 0
  nextId : Nat := 0
  /-- The addresses of the objects; `none` is the hole. -/
  idMap : List (Option Nat) := []
  heap : List Obj := []
  version13BrokenDataMode : Bool := false
  /-- The pairs that the delegate has decoded from host objects. -/
  hostReads : List (Nat × Nat) := []
  deriving DecidableEq, Repr

abbrev Read := Scan ReaderState Event

structure ReadDelegate where
  readHostObject : Read Obj
  getSharedArrayBufferFromId : Nat → Option SharedArrayBuffer
  getWasmModuleFromId : Nat → Option Nat
  /-- The conveyor, and the object of the shared heap that it keeps under an id. -/
  getPersisted : Option (Nat → Nat)

/-! ### Reading the wire format -/

/-- Padding is passed over. -/
def nextTag : List UInt8 → Option UInt8 × Nat
  | [] => (none, 0)
  | b :: rest => if b = SerializationTag.padding.byte then ((nextTag rest).1, (nextTag rest).2 + 1) else (some b, 1)

def peekTag : Read (Option UInt8) := Scan.peek fun bytes => (nextTag bytes).1

def readTag : Read UInt8 := Scan.take nextTag

/-- After a `peekTag`. -/
def consumeTag : Read Unit := do
  let _ ← readTag

def readVarint (width : Nat) : Read Nat := Scan.take (Varint.decode width)

def readUint8 : Read UInt8 := do
  let value ← readVarint 8
  pure (UInt8.ofNat value)

def readZigZag : Read Int := do
  let value ← readVarint 32
  pure (ZigZag.decode value)

/-- The number of bytes left is cast to `unsigned`. -/
def doubleFrom (bytes : List UInt8) : Option Double × Nat :=
  if 8 > bytes.length % 2 ^ 32 then (none, 0)
  else (some (canonical (UInt64.ofNat (ofLittleEndian (bytes.take 8)))), 8)

def readDouble : Read Double := Scan.take doubleFrom

def rawBytesFrom (size : Nat) (bytes : List UInt8) : Option (List UInt8) × Nat :=
  if size > bytes.length then (none, 0) else (some (bytes.take size), size)

def readRawBytes (size : Nat) : Read (List UInt8) := Scan.take (rawBytesFrom size)

def byteFrom : List UInt8 → Option UInt8 × Nat
  | [] => (none, 0)
  | b :: _ => (some b, 1)

def readByte : Read UInt8 := Scan.take byteFrom

/-! ### The objects read so far -/

def newId : Read Nat := Scan.action fun s => .ok (s.nextId, {s with nextId := (s.nextId + 1) % 2 ^ 32}, [])

/-- `FixedArray::SetAndGrow`. -/
def setAndGrow (idMap : List (Option Nat)) (id a : Nat) : List (Option Nat) :=
  (idMap ++ List.replicate (id + 1 - idMap.length) none).set id (some a)

/-- A new object, and `AddObjectWithID`. -/
def addObjectWithID (id : Nat) (o : Obj) : Read Nat := Scan.action fun s =>
  .ok (s.heap.length, {s with heap := s.heap ++ [o], idMap := setAndGrow s.idMap id s.heap.length},
    [.registered id s.heap.length])

def getObjectWithID (id : Nat) : Read Value := Scan.action fun s =>
  match s.idMap[id]? with
  | some (some a) => .ok (.object (.own a), s, [.resolved id a])
  | _ => .error .invalid

def updateObject (a : Nat) (f : Obj → Option Obj) : Read Unit := Scan.action fun s =>
  match s.heap[a]?.bind f with
  | some o => .ok ((), {s with heap := s.heap.set a o}, [])
  | none => .error .invalid

def ReaderState.head (s : ReaderState) : Value → Head
  | .object (.own a) => (s.heap[a]?.map Obj.head).getD .other
  | _ => .other

def headOf (v : Value) : Read Head := Scan.action fun s => .ok (s.head v, s, [])

def createObject (id : Nat) (o : Obj) : Read Value := do
  let a ← addObjectWithID id o
  pure (.object (.own a))

section
variable (E : Engine) (D : Option ReadDelegate)

/-! ### Strings and numbers -/

def newString (s : Str) : Read Str :=
  if s.units.length ≤ E.maxStringLength then pure s else Scan.fail .exception

def readUtf8String : Read Str := do
  let byteLength ← readVarint 32
  let bytes ← readRawBytes byteLength
  match E.utf8 bytes with
  | some s => newString E s
  | none => Scan.fail .exception

def readOneByteString : Read Str := do
  let byteLength ← readVarint 32
  let bytes ← readRawBytes byteLength
  newString E (.oneByte bytes)

def twoByteChars (bytes : List UInt8) : List UInt16 := (unpack 2 (bytes.length / 2) bytes).map UInt16.ofNat

def readTwoByteString : Read Str := do
  let byteLength ← readVarint 32
  Scan.check (byteLength % 2 = 0)
  let bytes ← readRawBytes byteLength
  if byteLength = 0 then pure (.oneByte []) else newString E (.twoByte (twoByteChars bytes))

/-- `MutableBigInt::MakeImmutable`. -/
def BigInt.canonicalize (b : BigInt) : BigInt :=
  let digits := b.digits.rdropWhile (· = 0)
  ⟨b.sign && !digits.isEmpty, digits⟩

/-- There is no -0n. Too many digits are a fatal error. -/
def fromSerializedDigits (bitfield : Nat) (bytes : List UInt8) : Read BigInt := do
  let sign := decide (bitfield % 2 = 1)
  let length := (bytes.length + 7) / 8
  Scan.check (¬ (length = 0 ∧ sign = true))
  if length > E.maxBigIntLength then Scan.fail .exception
  else pure (BigInt.canonicalize ⟨sign, (unpack 8 length bytes).map UInt64.ofNat⟩)

def readBigInt : Read BigInt := do
  let bitfield ← readVarint 32
  let bytes ← readRawBytes (bitfield / 2)
  fromSerializedDigits E bitfield bytes

/-! ### Objects

`readObject` is `ReadObject` for what is nested. -/

variable (readObject : Read Value)

def readString : Read Str := do
  let s ← Scan.get
  if s.version < 12 then readUtf8String E
  else
    match ← readObject with
    | .string s => pure s
    | _ => Scan.fail .invalid

/-- The slow path: one property, or the end. -/
def slowProperty (a : Nat) (endTag : SerializationTag) (count : Nat) : Read (Nat ⊕ Nat) := do
  match ← peekTag with
  | none => Scan.fail .invalid
  | some tag =>
    if tag = endTag.byte then
      consumeTag
      pure (.inr count)
    else
      let key ← readObject
      match E.propertyKey key with
      | none => Scan.fail .invalid
      | some key =>
        let value ← readObject
        updateObject a (Obj.define key value)
        pure (.inl ((count + 1) % 2 ^ 32))

def slowProperties (a : Nat) (endTag : SerializationTag) (count : Nat) : Read Nat :=
  Scan.forever (slowProperty E readObject a endTag) count

/-- `ReadRawTwoBytes` asks for an even address as well. -/
def readRawTwoBytes (size : Nat) : Read (List UInt8) := do
  let p ← Scan.position
  Scan.check ((p % 2 = 0 ↔ E.aligned = true) ∧ size % 2 = 0)
  readRawBytes size

def keyChars (tag : UInt8) (byteLength : Nat) : Read (Option Name) :=
  match SerializationTag.ofByte tag with
  | some .oneByteString => do
    let chars ← Scan.attempt (readRawBytes byteLength)
    pure (chars.map fun chars => (Str.oneByte chars).units)
  | some .twoByteString => do
    let chars ← Scan.attempt (readRawTwoBytes E byteLength)
    pure (chars.map twoByteChars)
  | some .utf8String => do
    let chars ← Scan.attempt (readRawBytes byteLength)
    pure ((chars.filter fun chars => chars.all fun c => decide (c.toNat < 128)).map fun chars =>
      (Str.oneByte chars).units)
  | _ => pure none

def readExpectedKey (p : Nat) (keys : List Name) : Read (Option (PropertyKey × Bool)) := do
  let tag ← readTag
  let byteLength ← readVarint 32
  let chars ← keyChars E tag byteLength
  pure (chars.bind fun chars => if E.expectedTransition p keys = some chars then some (.name chars, true) else none)

/-- Any other key, and whether there is a transition for it. -/
def readOtherKey (p : Nat) (keys : List Name) : Read (PropertyKey × Bool) := do
  let key ← readObject
  match E.propertyKey key with
  | none => Scan.fail .invalid
  | some (.name n) => pure (.name n, E.findTransition p keys n)
  | some (.index i) => pure (.index i, false)

/-- `CommitProperties`. -/
def commit (properties : List (Name × Value)) : Obj → Option Obj
  | .jsObject field p => some (.jsObject field {p with named := p.named ++ properties})
  | _ => none

/-- The fast path: the properties gathered so far, and one more or the end. It is left with
the number of properties and whether that was all. -/
def fastProperty (a : Nat) (endTag : SerializationTag) (properties : List (Name × Value)) :
    Read (List (Name × Value) ⊕ Nat × Bool) := do
  match ← peekTag with
  | none => Scan.fail .invalid
  | some tag =>
    if tag = endTag.byte then
      consumeTag
      updateObject a (commit properties)
      pure (.inr (properties.length % 2 ^ 32, true))
    else
      let p ← Scan.position
      let keys := properties.map Prod.fst
      let (key, transitioning) ← Scan.orBack (readExpectedKey E p keys) (readOtherKey E readObject p keys)
      let value ← readObject
      match key, transitioning && (match key with | .name n => E.fits p keys n value | .index _ => false) with
      | .name n, true => pure (.inl (properties ++ [(n, value)]))
      | _, _ =>
        updateObject a (commit properties)
        updateObject a (Obj.define key value)
        pure (.inr ((properties.length + 1) % 2 ^ 32, false))

def readJSObjectProperties (a : Nat) (endTag : SerializationTag) (canUseTransitions : Bool) : Read Nat := do
  if canUseTransitions then
    let (count, finished) ← Scan.forever (fastProperty E readObject a endTag) []
    if finished then pure count else slowProperties E readObject a endTag count
  else slowProperties E readObject a endTag 0

def readJSObject : Read Value := do
  let id ← newId
  let a ← addObjectWithID id (.jsObject none {})
  let numProperties ← readJSObjectProperties E readObject a .endJSObject true
  let expectedNumProperties ← readVarint 32
  Scan.check (numProperties = expectedNumProperties)
  pure (.object (.own a))

def endJSArray (a length numProperties : Nat) : Read Value := do
  let expectedNumProperties ← readVarint 32
  let expectedLength ← readVarint 32
  Scan.check (numProperties = expectedNumProperties ∧ length = expectedLength)
  pure (.object (.own a))

def readSparseJSArray : Read Value := do
  let length ← readVarint 32
  let id ← newId
  let a ← addObjectWithID id (.jsArray false length {})
  let numProperties ← readJSObjectProperties E readObject a .endSparseJSArray false
  endJSArray a length numProperties

def Obj.setElement (i : Nat) (v : Value) : Obj → Option Obj
  | .jsArray packed length p =>
    some (.jsArray packed length {p with elements := Properties.insertElement i v p.elements})
  | _ => none

/-- Before version 11 a hole is written as `undefined`. -/
def readElement (a i : Nat) : Read Unit := do
  if (← peekTag) = some SerializationTag.theHole.byte then consumeTag
  else
    let element ← readObject
    let s ← Scan.get
    if s.version < 11 ∧ element = .undefined then pure () else updateObject a (Obj.setElement i element)

def readDenseJSArray : Read Value := do
  let length ← readVarint 32
  let remaining ← Scan.remaining
  Scan.check (length ≤ E.maxFixedArrayLength ∧ length ≤ remaining)
  let id ← newId
  let a ← addObjectWithID id (.jsArray false length {})
  Scan.upFrom (readElement readObject a) 0 length
  let numProperties ← readJSObjectProperties E readObject a .endDenseJSArray false
  endJSArray a length numProperties

def readJSDate : Read Value := do
  let value ← readDouble
  let id ← newId
  createObject id (.date (E.timeClip value))

def readWrapped (tag : SerializationTag) : Read Value :=
  match tag with
  | .trueObject => pure (.boolean true)
  | .falseObject => pure (.boolean false)
  | .numberObject => do
    let number ← readDouble
    pure (E.newNumber number)
  | .bigIntObject => do
    let bigint ← readBigInt E
    pure (.bigint bigint)
  | .stringObject => do
    let s ← readString E readObject
    pure (.string s)
  | _ => Scan.fail .invalid

def readJSPrimitiveWrapper (tag : SerializationTag) : Read Value := do
  let id ← newId
  let value ← readWrapped E readObject tag
  createObject id (.primitiveWrapper value)

/-- Nine flags; `l` (bit 6) needs its engine, `u` and `v` (bits 4 and 8) exclude each other. -/
def validFlags (flags : Nat) : Bool :=
  decide (flags < 2 ^ 9) && (E.linearRegExps || !flags.testBit 6) && !(flags.testBit 4 && flags.testBit 8)

def readJSRegExp : Read Value := do
  let id ← newId
  let pattern ← readString E readObject
  let flags ← readVarint 32
  Scan.check (validFlags E flags = true)
  if E.compiles pattern.units flags then createObject id (.regExp pattern flags)
  else Scan.fail .exception

def Obj.mapSet (key value : Value) : Obj → Option Obj
  | .map entries => some (.map (Objects.mapSet key value entries))
  | _ => none

def Obj.setAdd (value : Value) : Obj → Option Obj
  | .set entries => some (.set (Objects.setAdd value entries))
  | _ => none

def mapEntry (a length : Nat) : Read (Nat ⊕ Nat) := do
  match ← peekTag with
  | none => Scan.fail .invalid
  | some tag =>
    if tag = SerializationTag.endJSMap.byte then
      consumeTag
      pure (.inr length)
    else
      let key ← readObject
      let value ← readObject
      updateObject a (Obj.mapSet key value)
      pure (.inl ((length + 2) % 2 ^ 32))

def readJSMap : Read Value := do
  let id ← newId
  let a ← addObjectWithID id (.map [])
  let length ← Scan.forever (mapEntry readObject a) 0
  let expectedLength ← readVarint 32
  Scan.check (length = expectedLength)
  pure (.object (.own a))

def setEntry (a length : Nat) : Read (Nat ⊕ Nat) := do
  match ← peekTag with
  | none => Scan.fail .invalid
  | some tag =>
    if tag = SerializationTag.endJSSet.byte then
      consumeTag
      pure (.inr length)
    else
      let value ← readObject
      updateObject a (Obj.setAdd value)
      pure (.inl ((length + 1) % 2 ^ 32))

def readJSSet : Read Value := do
  let id ← newId
  let a ← addObjectWithID id (.set [])
  let length ← Scan.forever (setEntry readObject a) 0
  let expectedLength ← readVarint 32
  Scan.check (length = expectedLength)
  pure (.object (.own a))

/-! ### Buffers and views -/

def readMaxByteLength (isResizable : Bool) (byteLength : Nat) : Read Nat :=
  if isResizable then readVarint 64 else pure byteLength

def readJSArrayBuffer (isResizable isImmutable : Bool) : Read Value := do
  let id ← newId
  let byteLength ← readVarint 64
  let maxByteLength ← readMaxByteLength isResizable byteLength
  Scan.check (byteLength ≤ maxByteLength)
  let remaining ← Scan.remaining
  Scan.check (byteLength ≤ remaining)
  if E.allocates byteLength maxByteLength then
    let bytes ← readRawBytes byteLength
    createObject id (.arrayBuffer ⟨bytes, if isResizable then some maxByteLength else none, isImmutable⟩)
  else Scan.fail .invalid

def Obj.setResizable : Obj → Option Obj
  | .sharedArrayBuffer b => some (.sharedArrayBuffer {b with resizable := true})
  | _ => none

def Obj.linkMemory (memory : Receiver) : Obj → Option Obj
  | .sharedArrayBuffer b => some (.sharedArrayBuffer {b with memory := some memory})
  | _ => none

def Obj.setByteLength (byteLength : Nat) : Obj → Option Obj
  | .sharedArrayBuffer b =>
    if byteLength > b.byteLength then none else some (.sharedArrayBuffer {b with byteLength})
  | _ => none

/-- The buffer of a `WebAssembly.Memory`: what follows says how long it is here. -/
def readWasmSubtag (a : Nat) : Read Unit := do
  let subtag ← readUint8
  if subtag = WasmMemoryArrayBufferTag.resizable then
    updateObject a Obj.setResizable
    let memory ← readObject
    match memory, ← headOf memory with
    | .object r, .wasmMemory => updateObject a (Obj.linkMemory r)
    | _, _ => Scan.fail .invalid
  else if subtag = WasmMemoryArrayBufferTag.fixedLength then
    let byteLength ← readVarint 64
    updateObject a (Obj.setByteLength byteLength)
  else Scan.fail .invalid

def readWasmBuffer (b : SharedArrayBuffer) (a : Nat) : Read Unit :=
  if b.wasm then readWasmSubtag readObject a else pure ()

def readSharedArrayBuffer : Read Value := do
  let id ← newId
  let cloneId ← readVarint 32
  match D.bind fun d => d.getSharedArrayBufferFromId cloneId with
  | none => Scan.fail .invalid
  | some b =>
    let a ← addObjectWithID id (.sharedArrayBuffer b)
    readWasmBuffer readObject b a
    pure (.object (.own a))

/-- Without a map of transferred buffers. -/
def readTransferredJSArrayBuffer : Read Value := do
  let _ ← newId
  let _ ← readVarint 32
  Scan.fail .invalid

/-- `ValidateJSArrayBufferViewFlags`. -/
def validateViewFlags (lengthTracking backedByRab resizable shared : Bool) : Bool :=
  !((backedByRab || lengthTracking) && (!resizable || backedByRab && shared)) && !(resizable && !shared && !backedByRab)

def readViewFlags : Read Nat := do
  let s ← Scan.get
  if s.version ≥ 14 ∨ s.version13BrokenDataMode = true then readVarint 32 else pure 0

def readJSArrayBufferView (buffer : Receiver) (bufferLength : Nat) (resizable shared : Bool) : Read Value := do
  let tag ← readUint8
  let byteOffset ← readVarint 64
  let byteLength ← readVarint 64
  Scan.check (byteOffset ≤ bufferLength ∧ byteLength ≤ bufferLength - byteOffset)
  let flags ← readViewFlags
  let id ← newId
  match ViewType.ofTag tag with
  | none => Scan.fail .invalid
  | some type =>
    let lengthTracking := flags.testBit 0
    let backedByRab := flags.testBit 1
    Scan.check ((type = .float16Array → E.float16Arrays = true) ∧ byteOffset % type.elementSize = 0 ∧
      byteLength % type.elementSize = 0 ∧ validateViewFlags lengthTracking backedByRab resizable shared = true)
    createObject id (.view ⟨type, buffer, byteOffset, if lengthTracking then 0 else byteLength,
      lengthTracking, backedByRab⟩)

/-! ### Errors -/

/-- The next tag comes with the string, if it is there. -/
def readErrorString (expected tag : UInt8) : Read (Option Str × UInt8) := do
  if tag = expected then
    let s ← readString E readObject
    let next ← readUint8
    pure (some s, next)
  else pure (none, tag)

def readErrorType (tag : UInt8) : Read (ErrorType × UInt8) := do
  match ErrorType.ofTag tag with
  | some type =>
    let next ← readUint8
    pure (type, next)
  | none => pure (.error, tag)

def Obj.setCause (cause : Value) : Obj → Option Obj
  | .error e => some (.error {e with cause := some cause})
  | _ => none

def readErrorCause (a : Nat) (tag : UInt8) : Read UInt8 := do
  if tag = ErrorTag.cause then
    let cause ← readObject
    updateObject a (Obj.setCause cause)
    readUint8
  else pure tag

def readJSError : Read Value := do
  let id ← newId
  let tag ← readUint8
  let (type, tag) ← readErrorType tag
  let (message, tag) ← readErrorString E readObject ErrorTag.message tag
  let (stack, tag) ← readErrorString E readObject ErrorTag.stack tag
  let a ← addObjectWithID id (.error {type, message, stack})
  let tag ← readErrorCause readObject a tag
  Scan.check (tag = ErrorTag.end)
  pure (.object (.own a))

/-! ### What the delegate helps with -/

def readWasmModuleTransfer : Read Value := do
  let transferId ← readVarint 32
  match D.bind fun d => d.getWasmModuleFromId transferId with
  | none => Scan.fail .invalid
  | some module =>
    let id ← newId
    createObject id (.wasmModule module)

def maxSupportedPages (memory64 : Bool) : Int := if memory64 then 262144 else 65536

def Obj.setBuffer (buffer : Receiver) : Obj → Option Obj
  | .wasmMemory maximumPages memory64 _ => some (.wasmMemory maximumPages memory64 (some buffer))
  | _ => none

/-- The buffer is read by `ReadObjectInternal`, which does not look at the stack. -/
def readWasmMemory (readObjectInternal : Read Value) : Read Value := do
  let id ← newId
  let maximumPages ← readZigZag
  let memory64Byte ← readByte
  let memory64 := decide (memory64Byte = 1)
  Scan.check (memory64Byte.toNat ≤ 1 ∧ (maximumPages = -1 ∨ 0 ≤ maximumPages ∧ maximumPages ≤ maxSupportedPages memory64))
  let a ← addObjectWithID id (.wasmMemory maximumPages memory64 none)
  let buffer ← readObjectInternal
  match buffer, ← headOf buffer with
  | .object r, .buffer _ _ true =>
    updateObject a (Obj.setBuffer r)
    pure (.object (.own a))
  | _, _ => Scan.fail .invalid

/-- No id is taken and no object is registered. -/
def readSharedObject : Read Value := do
  let sharedObjectId ← readVarint 32
  match D with
  | none => Scan.fail .exception
  | some d =>
    match d.getPersisted with
    | none => Scan.fail .invalid
    | some getPersisted => pure (.object (.shared (getPersisted sharedObjectId)))

def readHostObject : Read Value :=
  match D with
  | none => Scan.fail .invalid
  | some d => do
    let id ← newId
    let o ← d.readHostObject
    createObject id o

/-- Before version 13 all unknown tags were left to the host. -/
def readUnknown : Read Value := do
  let s ← Scan.get
  if s.version < 13 then
    Scan.unread
    readHostObject D
  else Scan.fail .invalid

/-! ### `ReadObject` -/

def readTagged (readObjectInternal : Read Value) (tag : UInt8) : Read Value :=
  match SerializationTag.ofByte tag with
  | some .verifyObjectCount => do
    let _ ← readVarint 32
    readObject
  | some .undefined => pure .undefined
  | some .null => pure .null
  | some .true => pure (.boolean true)
  | some .false => pure (.boolean false)
  | some .int32 => do
    let number ← readZigZag
    pure (E.newNumberFromInt number)
  | some .uint32 => do
    let number ← readVarint 32
    pure (E.newNumberFromInt number)
  | some .double => do
    let number ← readDouble
    pure (E.newNumber number)
  | some .bigInt => do
    let bigint ← readBigInt E
    pure (.bigint bigint)
  | some .utf8String => do
    let s ← readUtf8String E
    pure (.string s)
  | some .oneByteString => do
    let s ← readOneByteString E
    pure (.string s)
  | some .twoByteString => do
    let s ← readTwoByteString E
    pure (.string s)
  | some .objectReference => do
    let id ← readVarint 32
    getObjectWithID id
  | some .beginJSObject => readJSObject E readObject
  | some .beginSparseJSArray => readSparseJSArray E readObject
  | some .beginDenseJSArray => readDenseJSArray E readObject
  | some .date => readJSDate E
  | some .trueObject => readJSPrimitiveWrapper E readObject .trueObject
  | some .falseObject => readJSPrimitiveWrapper E readObject .falseObject
  | some .numberObject => readJSPrimitiveWrapper E readObject .numberObject
  | some .bigIntObject => readJSPrimitiveWrapper E readObject .bigIntObject
  | some .stringObject => readJSPrimitiveWrapper E readObject .stringObject
  | some .regExp => readJSRegExp E readObject
  | some .beginJSMap => readJSMap readObject
  | some .beginJSSet => readJSSet readObject
  | some .arrayBuffer => readJSArrayBuffer E false false
  | some .resizableArrayBuffer => readJSArrayBuffer E true false
  | some .immutableArrayBuffer => readJSArrayBuffer E false true
  | some .arrayBufferTransfer => readTransferredJSArrayBuffer
  | some .sharedArrayBuffer => readSharedArrayBuffer D readObject
  | some .error => readJSError E readObject
  | some .wasmModuleTransfer => readWasmModuleTransfer D
  | some .wasmMemoryTransfer => readWasmMemory readObjectInternal
  | some .hostObject => readHostObject D
  | some .sharedObject => do
    let s ← Scan.get
    if s.version ≥ 15 then readSharedObject D else readUnknown D
  | _ => readUnknown D

/-- `ReadObjectInternal`, nested in itself at most so often: each time takes a byte. -/
def readObjectInternal : (depth : Nat) → Read Value
  | 0 => Scan.fail .diverged
  | depth + 1 => do
    let tag ← readTag
    readTagged E D readObject (readObjectInternal depth) tag

/-- A view takes the buffer that was read before it. -/
def readViewOf (v : Value) : Read Value := do
  match v, ← headOf v with
  | .object r, .buffer length resizable shared =>
    if (← peekTag) = some SerializationTag.arrayBufferView.byte then
      consumeTag
      readJSArrayBufferView E r length resizable shared
    else pure v
  | _, _ => pure v

end

/-- `ReadObject`, with room for `stack` of them on the stack. -/
def readObject (E : Engine) (D : Option ReadDelegate) : (stack : Nat) → Read Value
  | 0 => Scan.fail .exception
  | stack + 1 => do
    let v ← Scan.sized fun n => readObjectInternal E D (readObject E D stack) (n + 1)
    readViewOf E v

def readHeader : Read Unit := do
  if (← Scan.peek List.head?) = some SerializationTag.version.byte then
    consumeTag
    match ← Scan.attempt (Scan.take (Varint.decodeLoop 32 0 0)) with
    | some version =>
      if version > latestVersion then Scan.fail .exception
      else Scan.modify fun s => {s with version}
    | none => Scan.fail .exception

/-- Data of version 13 that does not read is read again as broken data. -/
def readObjectWrapper (E : Engine) (D : Option ReadDelegate) (stack : Nat) : Read Value := do
  let s ← Scan.get
  if s.version = 13 then
    Scan.orBack (Scan.attempt (readObject E D stack)) do
      Scan.modify fun s => {s with version13BrokenDataMode := true}
      readObject E D stack
  else readObject E D stack

def Cursor.start (data : List UInt8) : Cursor ReaderState Event := {data, state := {}}

/-- `ReadHeader` and `ReadObjectWrapper`, by a new deserializer. -/
def deserialize (E : Engine) (D : Option ReadDelegate) (stack : Nat) (data : List UInt8) :
    Except Failure Value × Cursor ReaderState Event :=
  (do readHeader; readObjectWrapper E D stack : Read Value) (Cursor.start data)

end V8Multithread.Objects
