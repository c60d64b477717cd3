import V8Multithread.Objects.ValueDeserializer

/-! Object graphs: what can be reached, when two graphs are the same, and what is true of
every graph that JavaScript can build. -/
namespace V8Multithread.Objects

/-! ### What can be reached -/

def Obj.held : Obj → List Value
  | .jsObject _ p | .jsArray _ _ p => p.elements.map Prod.snd ++ p.named.map Prod.snd
  | .map entries => entries.flatMap fun (k, v) => [k, v]
  | .set entries => entries
  | .sharedArrayBuffer b => (b.memory.map Value.object).toList
  | .view v => [.object v.buffer]
  | .error e => e.cause.toList
  | .wasmMemory _ _ buffer => (buffer.map Value.object).toList
  | _ => []

namespace Isolate

/-- The object is left to the delegate. -/
def host (I : Isolate) (r : Receiver) : Bool :=
  match I.obj r with
  | some (.jsObject field _) => I.isHostObject r field
  | some (.error _) => I.isHostObject r none
  | _ => false

def held (I : Isolate) (r : Receiver) : List Value :=
  if I.host r then [] else ((I.obj r).map Obj.held).getD []

def head (I : Isolate) (r : Receiver) : Head := ((I.obj r).map Obj.head).getD .other

end Isolate

inductive Reachable (I : Isolate) (v : Value) : Receiver → Prop
  | root {r : Receiver} : v = .object r → Reachable I v r
  | step {r x : Receiver} : Reachable I v r → .object x ∈ I.held r → Reachable I v x

/-! ### Isomorphic graphs -/

def Properties.transform (f : Value → Value) (p : Properties) : Properties where
  elements := p.elements.map fun (i, v) => (i, f v)
  named := p.named.map fun (n, v) => (n, f v)

/-- The same object with other values, strings and references in it. How its elements are
kept is forgotten, and the internal field. -/
def Obj.transform (f : Value → Value) (g : Str → Str) (φ : Receiver → Receiver) : Obj → Obj
  | .jsObject _ p => .jsObject none (p.transform f)
  | .jsArray _ length p => .jsArray false length (p.transform f)
  | .date d => .date (canonical d)
  | .primitiveWrapper v => .primitiveWrapper (f v)
  | .regExp source flags => .regExp (g source) flags
  | .map entries => .map (entries.map fun (k, v) => (f k, f v))
  | .set entries => .set (entries.map f)
  | .arrayBuffer b => .arrayBuffer b
  | .sharedArrayBuffer b => .sharedArrayBuffer {b with memory := b.memory.map φ}
  | .view v => .view {v with buffer := φ v.buffer}
  | .error e => .error ⟨e.type, e.message.map g, e.stack.map g, e.cause.map f, e.others.transform f⟩
  | .wasmModule module => .wasmModule module
  | .wasmMemory maximumPages memory64 buffer => .wasmMemory maximumPages memory64 (buffer.map φ)
  | .uncloneable => .uncloneable

theorem Properties.transform_transform (f f' : Value → Value) (p : Properties) :
    (p.transform f).transform f' = p.transform (f' ∘ f) := by
  simp [Properties.transform]

theorem Obj.transform_transform (f f' : Value → Value) (g g' : Str → Str) (φ φ' : Receiver → Receiver) (o : Obj) :
    (o.transform f g φ).transform f' g' φ' = o.transform (f' ∘ f) (g' ∘ g) (φ' ∘ φ) := by
  cases o <;> simp [Obj.transform, Properties.transform_transform, canonical_canonical]

def Str.observe (s : Str) : Str := .twoByte s.units

/-- What a script can tell of a value: a number is a double and all NaNs are one, a string is
its code units, and an object is the one that `φ` says. -/
def Value.observe (φ : Receiver → Receiver) : Value → Value
  | .smi i => .heapNumber (doubleOfInt i)
  | .heapNumber d => .heapNumber (canonical d)
  | .string s => .string s.observe
  | .object r => .object (φ r)
  | v => v

def Obj.observe (φ : Receiver → Receiver) : Obj → Obj := Obj.transform (Value.observe φ) Str.observe φ

/-- A renaming of the objects reached from `v` that keeps them apart and takes everything there
is to see of them over to `heap`. Keys keep their order, and an array its holes. -/
structure Isomorphic (I : Isolate) (v : Value) (heap : List Obj) (v' : Value) (φ : Receiver → Receiver) :
    Prop where
  root : v'.observe id = v.observe φ
  injective : ∀ r x, Reachable I v r → Reachable I v x → φ r = φ x → r = x
  objects : ∀ r, Reachable I v r → ∃ a o o', φ r = .own a ∧ I.obj r = some o ∧ heap[a]? = some o' ∧
    o'.observe id = o.observe φ

/-! ### Graphs that JavaScript can build -/

section
variable (E : Engine)

def Str.Valid (s : Str) : Prop := s.units.length ≤ E.maxStringLength

/-- No leading zeros, and no -0n. -/
def Value.Valid : Value → Prop
  | .smi i => E.isSmi i = true
  | .bigint b => b.digits.getLast? ≠ some 0 ∧ (b.sign = true → b.digits ≠ []) ∧ b.digits.length ≤ E.maxBigIntLength
  | .string s => s.Valid E
  | _ => True

structure Properties.Valid (p : Properties) : Prop where
  sorted : (p.elements.map Prod.fst).Pairwise (· < ·)
  indices : ∀ i ∈ p.elements.map Prod.fst, i < 2 ^ 32 - 1
  nodup : (p.named.map Prod.fst).Nodup
  names : ∀ n ∈ p.named.map Prod.fst, arrayIndex n = none ∧ n.length ≤ E.maxStringLength

structure JSArray.Valid (packed : Bool) (length : Nat) (p : Properties) : Prop where
  properties : p.Valid E
  length_lt : length < 2 ^ 32
  packed_le : packed = true → length ≤ E.maxFixedArrayLength
  elements : ∀ i ∈ p.elements.map Prod.fst, i < length
  names : lengthName ∉ p.named.map Prod.fst

structure ArrayBuffer.Valid (b : ArrayBuffer) : Prop where
  resizable : ∀ max, b.maxByteLength = some max → b.bytes.length ≤ max ∧ max < 2 ^ 64 ∧ b.immutable = false
  allocates : E.allocates b.bytes.length (b.maxByteLength.getD b.bytes.length) = true

structure SharedArrayBuffer.Valid (I : Isolate) (b : SharedArrayBuffer) : Prop where
  byteLength_lt : b.byteLength < 2 ^ 64
  linked : b.memory.isSome = (b.wasm && b.resizable)
  memory : ∀ m, b.memory = some m → I.head m = .wasmMemory

/-- Views that a buffer has shrunk under are out of bounds; the others are in bounds. -/
structure View.Valid (v : View) (length : Nat) (resizable shared : Bool) : Prop where
  byteOffset_lt : v.byteOffset < 2 ^ 64
  byteLength_lt : v.byteLength < 2 ^ 64
  aligned : v.byteOffset % v.type.elementSize = 0 ∧ v.byteLength % v.type.elementSize = 0
  float16 : v.type = .float16Array → E.float16Arrays = true
  flags : validateViewFlags v.lengthTracking v.backedByRab resizable shared = true
  tracking : v.lengthTracking = true → v.byteLength = 0
  inside : v.backedByRab = false → v.byteOffset + v.byteLength ≤ length

structure ErrorObject.Valid (e : ErrorObject) : Prop where
  message : ∀ s ∈ e.message, s.Valid E
  stack : ∀ s ∈ e.stack, s.Valid E

structure ValidKeys (keys : List Value) : Prop where
  nodup : (keys.map Value.mapKey).Nodup
  no_minus_zero : ∀ k ∈ keys, k.normalizeZero = k

def Obj.Valid (I : Isolate) : Obj → Prop
  | .jsObject _ p => p.Valid E
  | .jsArray packed length p => JSArray.Valid E packed length p
  | .date d => E.timeClip (canonical d) = canonical d
  | .primitiveWrapper v => v.Valid E
  | .regExp source flags => source.Valid E ∧ validFlags E flags = true ∧ E.compiles source.units flags = true
  | .map entries => ValidKeys (entries.map Prod.fst)
  | .set entries => ValidKeys entries
  | .arrayBuffer b => b.Valid E
  | .sharedArrayBuffer b => b.Valid I
  | .view v => ∃ length resizable shared, I.head v.buffer = .buffer length resizable shared ∧
      v.Valid E length resizable shared
  | .error e => e.Valid E
  | .wasmMemory maximumPages memory64 _ =>
    maximumPages = -1 ∨ 0 ≤ maximumPages ∧ maximumPages ≤ maxSupportedPages memory64
  | .wasmModule _ | .uncloneable => True

/-- What is reached from `v` is what JavaScript can build. -/
structure ValidGraph (I : Isolate) (v : Value) : Prop where
  root : v.Valid E
  objects : ∀ r o, Reachable I v r → I.obj r = some o → o.Valid E I ∧ ∀ x ∈ o.held, x.Valid E

end

end V8Multithread.Objects
