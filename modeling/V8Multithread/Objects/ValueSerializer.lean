import V8Multithread.Objects.Value

/-! `ValueSerializer`.

An object is numbered when it is met for the first time and then written out; after that a
reference to its number is written. The graph is not changed while it is written: it has no
accessors, and no buffer is transferred. A write that fails gives nothing, whatever the
reason: a value that cannot be cloned, an exception, the end of the stack. -/
namespace V8Multithread.Objects
open Base Varint

inductive SerializationTag where
  | version | padding | verifyObjectCount | theHole | undefined | null | true | false | int32 | uint32
  | double | bigInt | utf8String | oneByteString | twoByteString | objectReference | beginJSObject
  | endJSObject | beginSparseJSArray | endSparseJSArray | beginDenseJSArray | endDenseJSArray | date
  | trueObject | falseObject | numberObject | bigIntObject | stringObject | regExp | beginJSMap
  | endJSMap | beginJSSet | endJSSet | arrayBuffer | immutableArrayBuffer | resizableArrayBuffer
  | arrayBufferTransfer | arrayBufferView | sharedArrayBuffer | sharedObject | wasmModuleTransfer
  | hostObject | wasmMemoryTransfer | error
  deriving DecidableEq, Repr

namespace SerializationTag

def byte : SerializationTag → UInt8
  | version => 0xFF
  | padding => 0
  | verifyObjectCount => 63 -- ?
  | theHole => 45 -- -
  | undefined => 95 -- _
  | null => 48 -- 0
  | SerializationTag.true => 84 -- T
  | SerializationTag.false => 70 -- F
  | int32 => 73 -- I
  | uint32 => 85 -- U
  | double => 78 -- N
  | bigInt => 90 -- Z
  | utf8String => 83 -- S
  | oneByteString => 34 -- "
  | twoByteString => 99 -- c
  | objectReference => 94 -- ^
  | beginJSObject => 111 -- o
  | endJSObject => 123 -- {
  | beginSparseJSArray => 97 -- a
  | endSparseJSArray => 64 -- @
  | beginDenseJSArray => 65 -- A
  | endDenseJSArray => 36 -- $
  | date => 68 -- D
  | trueObject => 121 -- y
  | falseObject => 120 -- x
  | numberObject => 110 -- n
  | bigIntObject => 122 -- z
  | stringObject => 115 -- s
  | regExp => 82 -- R
  | beginJSMap => 59 -- ;
  | endJSMap => 58 -- :
  | beginJSSet => 39 -- '
  | endJSSet => 44 -- ,
  | arrayBuffer => 66 -- B
  | immutableArrayBuffer => 67 -- C
  | resizableArrayBuffer => 126 -- ~
  | arrayBufferTransfer => 116 -- t
  | arrayBufferView => 86 -- V
  | sharedArrayBuffer => 117 -- u
  | sharedObject => 112 -- p
  | wasmModuleTransfer => 119 -- w
  | hostObject => 92 -- \
  | wasmMemoryTransfer => 109 -- m
  | error => 114 -- r

end SerializationTag

def ViewType.tag : ViewType → UInt8
  | .int8Array => 98 -- b
  | .uint8Array => 66 -- B
  | .uint8ClampedArray => 67 -- C
  | .int16Array => 119 -- w
  | .uint16Array => 87 -- W
  | .int32Array => 100 -- d
  | .uint32Array => 68 -- D
  | .float16Array => 104 -- h
  | .float32Array => 102 -- f
  | .float64Array => 70 -- F
  | .bigInt64Array => 113 -- q
  | .bigUint64Array => 81 -- Q
  | .dataView => 63 -- ?

/-- A plain `Error` has no tag. -/
def ErrorType.tag : ErrorType → Option UInt8
  | .error => none
  | .evalError => some 69 -- E
  | .rangeError => some 82 -- R
  | .referenceError => some 70 -- F
  | .syntaxError => some 83 -- S
  | .typeError => some 84 -- T
  | .uriError => some 85 -- U

namespace ErrorTag

def message : UInt8 := 109 -- m
def cause : UInt8 := 99 -- c
def stack : UInt8 := 115 -- s
def «end» : UInt8 := 46 -- .

end ErrorTag

namespace WasmMemoryArrayBufferTag

def fixedLength : UInt8 := 102 -- f
def resizable : UInt8 := 114 -- r

end WasmMemoryArrayBufferTag

def latestVersion : Nat := 16

/-! ### The sending side -/

/-- What the delegate answers. Every object is asked about at most once in a message, so an
answer is a function of the object. -/
structure Delegate where
  /-- `IsHostObject`, if `HasCustomHostObject`. -/
  isHostObject : Option (Receiver → Bool)
  /-- The bytes that `WriteHostObject` writes; there are none of them when it returns nothing
  and throws nothing. -/
  writeHostObject : Receiver → Option (List UInt8)
  getSharedArrayBufferId : Receiver → Option Nat
  /-- Without an id, and without an exception, a module is passed over. -/
  getWasmModuleTransferId : Receiver → Option Nat
  /-- `SharedObjectConveyorHandles::Persist`, if there is a shared space and the conveyor is
  adopted. -/
  persist : Option (Nat → Nat)

structure Isolate where
  heap : List Obj
  internalized : Name → Str
  internalized_units : ∀ n, (internalized n).units = n
  delegate : Option Delegate := none

namespace Isolate

def obj (I : Isolate) : Receiver → Option Obj
  | .own r => I.heap[r]?
  | .shared _ => none

def isHostObject (I : Isolate) (r : Receiver) (field : Option Nat) : Bool :=
  match I.delegate.bind Delegate.isHostObject with
  | some answer => answer r
  | none => field.isSome

end Isolate

/-! ### The wire format -/

structure Writer where
  buffer : List UInt8 := []
  /-- The objects in the order of their ids. -/
  ids : List Receiver := []
  deriving DecidableEq, Repr

def Writer.put (w : Writer) (bytes : List UInt8) : Writer := {w with buffer := w.buffer ++ bytes}

/-- `WriteVarint` of an `uint8_t`, an `uint32_t` and a `size_t`. -/
def varint8 (value : UInt8) : List UInt8 := encode (limit 8) value.toNat

def varint32 (value : Nat) : List UInt8 := encode (limit 32) (value % 2 ^ 32)

def varint64 (value : Nat) : List UInt8 := encode (limit 64) (value % 2 ^ 64)

def zigZag32 (value : Int) : List UInt8 := varint32 (ZigZag.encode value)

def doubleBytes (d : Double) : List UInt8 := littleEndian 8 d.toNat

/-- The sign and the number of bytes of the digits, and the digits. -/
def BigInt.contents (b : BigInt) : List UInt8 :=
  varint32 ((if b.sign then 1 else 0) + 2 * (8 * b.digits.length)) ++ (b.digits.map UInt64.toNat).flatMap (littleEndian 8)

/-- `WriteString` at so many bytes in the buffer. The characters of a two-byte string go to
an even place. -/
def stringBytes (size : Nat) : Str → List UInt8
  | .oneByte chars => SerializationTag.oneByteString.byte :: varint32 chars.length ++ chars
  | .twoByte chars =>
    let length := varint32 (2 * chars.length)
    (if (size + 1 + length.length) % 2 = 1 then [SerializationTag.padding.byte] else []) ++
      SerializationTag.twoByteString.byte :: length ++ (chars.map UInt16.toNat).flatMap (littleEndian 2)

def primitiveBytes (size : Nat) : Value → Option (List UInt8)
  | .undefined => some [SerializationTag.undefined.byte]
  | .null => some [SerializationTag.null.byte]
  | .boolean true => some [SerializationTag.true.byte]
  | .boolean false => some [SerializationTag.false.byte]
  | .smi i => some (SerializationTag.int32.byte :: zigZag32 i)
  | .heapNumber d => some (SerializationTag.double.byte :: doubleBytes d)
  | .bigint b => some (SerializationTag.bigInt.byte :: b.contents)
  | .string s => some (stringBytes size s)
  | .symbol | .object _ => none

/-! ### Objects -/

section
variable (E : Engine) (I : Isolate)

/-! The own enumerable keys with their values: indices as numbers, names as strings. -/

def namedProperties (p : Properties) : List (Value × Value) :=
  p.named.map fun (n, v) => (.string (I.internalized n), v)

def ownProperties (p : Properties) : List (Value × Value) :=
  p.elements.map (fun (i, v) => (E.newNumberFromInt i, v)) ++ namedProperties I p

def writeAll {ε : Type} (write : ε → Writer → Option Writer) : List ε → Writer → Option Writer
  | [], w => some w
  | e :: rest, w => (write e w).bind (writeAll write rest)

/-! What an object holds is written by `write`, and other objects by `writeReceiver`. -/

variable (write : Value → Writer → Option Writer) (writeReceiver : Receiver → Writer → Option Writer)

def writeProperty (property : Value × Value) (w : Writer) : Option Writer :=
  (write property.1 w).bind (write property.2)

def writeProperties : List (Value × Value) → Writer → Option Writer := writeAll (writeProperty write)

/-- An element that is not there is a hole. -/
def writeElement (element : Option Value) (w : Writer) : Option Writer :=
  match element with
  | some v => write v w
  | none => some (w.put [SerializationTag.theHole.byte])

def writeElements : List (Option Value) → Writer → Option Writer := writeAll (writeElement write)

def writeJSObject (p : Properties) (w : Writer) : Option Writer :=
  (writeProperties write (ownProperties E I p) (w.put [SerializationTag.beginJSObject.byte])).map fun w =>
    w.put (SerializationTag.endJSObject.byte :: varint32 (ownProperties E I p).length)

def denseElements (length : Nat) (p : Properties) : List (Option Value) :=
  (List.range length).map fun i => p.elements.lookup i

def writeJSArray (packed : Bool) (length : Nat) (p : Properties) (w : Writer) : Option Writer :=
  if packed then
    ((writeElements write (denseElements length p)
          (w.put (SerializationTag.beginDenseJSArray.byte :: varint32 length))).bind
        (writeProperties write (namedProperties I p))).map fun w =>
      w.put (SerializationTag.endDenseJSArray.byte :: varint32 p.named.length ++ varint32 length)
  else
    (writeProperties write (ownProperties E I p)
        (w.put (SerializationTag.beginSparseJSArray.byte :: varint32 length))).map fun w =>
      w.put (SerializationTag.endSparseJSArray.byte :: varint32 (ownProperties E I p).length ++ varint32 length)

def writeJSPrimitiveWrapper (v : Value) (w : Writer) : Option Writer :=
  match v with
  | .boolean true => some (w.put [SerializationTag.trueObject.byte])
  | .boolean false => some (w.put [SerializationTag.falseObject.byte])
  | .bigint b => some (w.put (SerializationTag.bigIntObject.byte :: b.contents))
  | .string s =>
    let w := w.put [SerializationTag.stringObject.byte]
    some (w.put (stringBytes w.buffer.length s))
  | v => v.toDouble?.map fun d => w.put (SerializationTag.numberObject.byte :: doubleBytes d)

def writeJSRegExp (source : Str) (flags : Nat) (w : Writer) : Writer :=
  let w := w.put [SerializationTag.regExp.byte]
  (w.put (stringBytes w.buffer.length source)).put (varint32 flags)

def writeJSMap (entries : List (Value × Value)) (w : Writer) : Option Writer :=
  (writeProperties write entries (w.put [SerializationTag.beginJSMap.byte])).map fun w =>
    w.put (SerializationTag.endJSMap.byte :: varint32 (2 * entries.length))

def writeJSSet (entries : List Value) (w : Writer) : Option Writer :=
  (writeAll write entries (w.put [SerializationTag.beginJSSet.byte])).map fun w =>
    w.put (SerializationTag.endJSSet.byte :: varint32 entries.length)

def writeJSArrayBuffer (b : ArrayBuffer) (w : Writer) : Option Writer :=
  if b.bytes.length > 2 ^ 32 - 1 then none
  else some <| match b.maxByteLength with
    | some max =>
      w.put (SerializationTag.resizableArrayBuffer.byte :: varint64 b.bytes.length ++ varint64 max ++ b.bytes)
    | none =>
      let tag := if b.immutable then SerializationTag.immutableArrayBuffer else SerializationTag.arrayBuffer
      w.put (tag.byte :: varint64 b.bytes.length ++ b.bytes)

/-- A `WebAssembly.Memory` behind a buffer is written with it. -/
def writeSharedArrayBuffer (r : Receiver) (b : SharedArrayBuffer) (w : Writer) : Option Writer :=
  (I.delegate.bind fun d => d.getSharedArrayBufferId r).bind fun id =>
    let w := w.put (SerializationTag.sharedArrayBuffer.byte :: varint32 id)
    if b.wasm then
      if b.resizable then
        b.memory.bind fun memory => writeReceiver memory (w.put (varint8 WasmMemoryArrayBufferTag.resizable))
      else some (w.put (varint8 WasmMemoryArrayBufferTag.fixedLength ++ varint64 b.byteLength))
    else some w

/-- `IsOutOfBounds`. -/
def View.outOfBounds (v : View) (bufferLength : Nat) : Bool :=
  v.backedByRab && (if v.lengthTracking then decide (v.byteOffset > bufferLength)
    else decide (v.byteOffset + v.byteLength > bufferLength))

def viewFlags (v : View) : Nat := (if v.lengthTracking then 1 else 0) + (if v.backedByRab then 2 else 0)

def writeJSArrayBufferView (v : View) (w : Writer) : Option Writer :=
  match (I.obj v.buffer).map Obj.head with
  | some (.buffer length _ _) =>
    if v.outOfBounds length then none
    else some (w.put (SerializationTag.arrayBufferView.byte :: varint8 v.type.tag ++ varint64 v.byteOffset ++
      varint64 v.byteLength ++ varint32 (viewFlags v)))
  | _ => none

def writeErrorString (tag : UInt8) (s : Option Str) (w : Writer) : Writer :=
  match s with
  | some s =>
    let w := w.put (varint8 tag)
    w.put (stringBytes w.buffer.length s)
  | none => w

def writeJSError (e : ErrorObject) (w : Writer) : Option Writer :=
  let w := w.put (SerializationTag.error.byte :: (e.type.tag.map varint8).getD [])
  let w := writeErrorString ErrorTag.stack e.stack (writeErrorString ErrorTag.message e.message w)
  (match e.cause with
    | some cause => write cause (w.put (varint8 ErrorTag.cause))
    | none => some w).map fun w : Writer => w.put (varint8 ErrorTag.end)

def writeWasmModule (r : Receiver) (w : Writer) : Option Writer :=
  I.delegate.map fun d =>
    match d.getWasmModuleTransferId r with
    | some id => w.put (SerializationTag.wasmModuleTransfer.byte :: varint32 id)
    | none => w

def writeWasmMemory (maximumPages : Int) (memory64 : Bool) (buffer : Option Receiver) (w : Writer) :
    Option Writer :=
  buffer.bind fun buffer =>
    match (I.obj buffer).map Obj.head with
    | some (.buffer _ _ true) =>
      writeReceiver buffer (w.put (SerializationTag.wasmMemoryTransfer.byte :: zigZag32 maximumPages ++
        [if memory64 then 1 else 0]))
    | _ => none

def writeSharedObject (k : Nat) (w : Writer) : Option Writer :=
  (I.delegate.bind Delegate.persist).map fun persist =>
    w.put (SerializationTag.sharedObject.byte :: varint32 (persist k))

/-- The tag is written whatever the delegate does. -/
def writeHostObject (r : Receiver) (w : Writer) : Option Writer :=
  (I.delegate.bind fun d => d.writeHostObject r).map fun payload =>
    w.put (SerializationTag.hostObject.byte :: payload)

/-- What `WriteJSReceiver` does with an object that has just got its id. -/
def writeNewReceiver (r : Receiver) (w : Writer) : Option Writer :=
  match r with
  | .shared k => writeSharedObject I k w
  | .own _ =>
    match I.obj r with
    | none | some .uncloneable => none
    | some (.jsObject field p) =>
      if I.isHostObject r field then writeHostObject I r w else writeJSObject E I write p w
    | some (.jsArray packed length p) => writeJSArray E I write packed length p w
    | some (.date d) => some (w.put (SerializationTag.date.byte :: doubleBytes d))
    | some (.primitiveWrapper v) => writeJSPrimitiveWrapper v w
    | some (.regExp source flags) => some (writeJSRegExp source flags w)
    | some (.map entries) => writeJSMap write entries w
    | some (.set entries) => writeJSSet write entries w
    | some (.arrayBuffer b) => writeJSArrayBuffer b w
    | some (.sharedArrayBuffer b) => writeSharedArrayBuffer I writeReceiver r b w
    | some (.view v) => writeJSArrayBufferView I v w
    | some (.error e) =>
      if I.isHostObject r none then writeHostObject I r w else writeJSError write e w
    | some (.wasmModule _) => writeWasmModule I r w
    | some (.wasmMemory maximumPages memory64 buffer) =>
      writeWasmMemory I writeReceiver maximumPages memory64 buffer w

/-- A view comes after its buffer, and that before the view has an id. -/
def writeObject (v : Value) (w : Writer) : Option Writer :=
  match v with
  | .object r =>
    match I.obj r with
    | some (.view view) =>
      if r ∈ w.ids then writeReceiver r w else (writeReceiver view.buffer w).bind (writeReceiver r)
    | _ => writeReceiver r w
  | v => (primitiveBytes w.buffer.length v).map w.put

end

/-- `WriteJSReceiver`, with room for `stack` of them on the stack. -/
def writeJSReceiver (E : Engine) (I : Isolate) : (stack : Nat) → Receiver → Writer → Option Writer
  | stack, r, w =>
    if r ∈ w.ids then some (w.put (SerializationTag.objectReference.byte :: varint32 (w.ids.idxOf r)))
    else
      let w := {w with ids := w.ids ++ [r]}
      match stack with
      | 0 => none
      | stack + 1 =>
        let rest := writeJSReceiver E I stack
        writeNewReceiver E I (writeObject I rest) rest r w

/-- `WriteHeader`. -/
def headerBytes : List UInt8 := SerializationTag.version.byte :: varint32 latestVersion

/-- `WriteHeader` and `WriteObject`, by a new serializer. -/
def serialize (E : Engine) (I : Isolate) (stack : Nat) (v : Value) : Option Writer :=
  writeObject I (writeJSReceiver E I stack) v {buffer := headerBytes}

end V8Multithread.Objects
