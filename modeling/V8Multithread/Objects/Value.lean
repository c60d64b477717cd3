import V8Multithread.Base.Bytes

/-! Values and objects, as the serializer and the deserializer see them.

An object of the heap is known by its number there, an object of the shared heap by its
number in that. Names and index keys of an object are kept apart, since that is the order
in which JavaScript lists them: indices ascending, then names as they were defined. -/
namespace V8Multithread.Objects

/-! ### Primitive values -/

/-- UTF-16 code units. -/
abbrev Name := List UInt16

/-- The flat content of a string: one byte a character, or two. -/
inductive Str where
  | oneByte (chars : List UInt8)
  | twoByte (chars : List UInt16)
  deriving DecidableEq, Repr

def Str.units : Str → Name
  | .oneByte chars => chars.map fun c => UInt16.ofNat c.toNat
  | .twoByte chars => chars

/-- The bits of a double. -/
abbrev Double := UInt64

/-- Sign and digits, the least significant first. -/
structure BigInt where
  sign : Bool
  digits : List UInt64
  deriving DecidableEq, Repr

inductive Receiver where
  | own (r : Nat)
  | shared (k : Nat)
  deriving DecidableEq, Repr

inductive Value where
  | undefined
  | null
  | boolean (b : Bool)
  | smi (i : Int)
  | heapNumber (d : Double)
  | bigint (b : BigInt)
  | string (s : Str)
  | symbol
  | object (r : Receiver)
  deriving DecidableEq, Repr

/-! ### Numbers -/

def bitsOfNat (n : Nat) : Nat :=
  if n = 0 then 0 else (1023 + n.log2) * 2 ^ 52 + (n * 2 ^ (52 - n.log2) - 2 ^ 52)

def doubleOfInt (i : Int) : Double :=
  UInt64.ofNat (if i < 0 then 2 ^ 63 + bitsOfNat i.natAbs else bitsOfNat i.natAbs)

/-- Without the fraction, for doubles below 2^53. -/
def truncate (d : Double) : Int :=
  let magnitude : Nat := (2 ^ 52 + d.toNat % 2 ^ 52) / 2 ^ (1075 - d.toNat / 2 ^ 52 % 2 ^ 11)
  if d = 0 then 0 else if d.toNat < 2 ^ 63 then magnitude else -magnitude

/-- The integer that a double is, if it is one below 2^53; -0 is none. -/
def intOfDouble (d : Double) : Option Int :=
  if doubleOfInt (truncate d) = d then some (truncate d) else none

def isNaN (d : Double) : Bool := d.toNat / 2 ^ 52 % 2 ^ 11 == 2047 && d.toNat % 2 ^ 52 != 0

def quietNaN : Double := 0x7FF8000000000000

def minusZero : Double := 0x8000000000000000

/-- All NaNs are one. -/
def canonical (d : Double) : Double := if isNaN d then quietNaN else d

theorem doubleOfInt_of_intOfDouble {d : Double} {i : Int} (h : intOfDouble d = some i) : doubleOfInt i = d := by
  rw [intOfDouble] at h
  split at h
  · next hd =>
    injection h with h
    rw [← h]
    exact hd
  · cases h

theorem canonical_canonical (d : Double) : canonical (canonical d) = canonical d := by
  have hqu : canonical quietNaN = quietNaN := by decide
  by_cases h : isNaN d
  · rw [canonical, canonical, if_pos h]
    exact hqu
  · rw [canonical, canonical, if_neg h, if_neg h]

/-- Exponent and fraction of an integer. -/
theorem bitsOfNat_eq {n : Nat} (hpos : 0 < n) (hn : n < 2 ^ 53) :
    ∃ k m, k ≤ 52 ∧ m < 2 ^ 52 ∧ bitsOfNat n = (1023 + k) * 2 ^ 52 + m ∧ (2 ^ 52 + m) / 2 ^ (52 - k) = n := by
  have hlow : 2 ^ n.log2 ≤ n := Nat.log2_self_le hpos.ne'
  have hh : n < 2 ^ (n.log2 + 1) := Nat.lt_log2_self
  have hk : n.log2 ≤ 52 := by
    have := (Nat.pow_lt_pow_iff_right Nat.one_lt_two).mp (hlow.trans_lt hn)
    omega
  -- the mantissa with its leading bit
  have h52 : 2 ^ n.log2 * 2 ^ (52 - n.log2) = 2 ^ 52 := by rw [← pow_add, Nat.add_sub_cancel' hk]
  have h53 : 2 ^ (n.log2 + 1) * 2 ^ (52 - n.log2) = 2 ^ 53 := by
    rw [← pow_add, show n.log2 + 1 + (52 - n.log2) = 53 by omega]
  have hmin : 2 ^ 52 ≤ n * 2 ^ (52 - n.log2) := h52 ▸ Nat.mul_le_mul_right _ hlow
  have hmax : n * 2 ^ (52 - n.log2) < 2 ^ 53 := h53 ▸ Nat.mul_lt_mul_of_pos_right hh (by positivity)
  refine ⟨n.log2, n * 2 ^ (52 - n.log2) - 2 ^ 52, hk, by omega, by rw [bitsOfNat, if_neg hpos.ne'], ?_⟩
  rw [Nat.add_sub_cancel' hmin, Nat.mul_div_cancel _ (Nat.two_pow_pos _)]

/-- Sign, exponent and fraction of an integer that is not 0. -/
theorem doubleOfInt_eq {i : Int} (hi : i ≠ 0) (hn : i.natAbs < 2 ^ 53) :
    ∃ k m, k ≤ 52 ∧ m < 2 ^ 52 ∧ (2 ^ 52 + m) / 2 ^ (52 - k) = i.natAbs ∧
      (doubleOfInt i).toNat = (if i < 0 then 2 ^ 63 else 0) + (1023 + k) * 2 ^ 52 + m := by
  obtain ⟨k, m, hk, hm, hbi, hdiv⟩ := bitsOfNat_eq (Int.natAbs_pos.mpr hi) hn
  refine ⟨k, m, hk, hm, hdiv, ?_⟩
  rw [doubleOfInt, hbi, UInt64.toNat_ofNat']
  split <;> (rw [Nat.mod_eq_of_lt (by omega)]; omega)

theorem intOfDouble_doubleOfInt {i : Int} (hn : i.natAbs < 2 ^ 53) : intOfDouble (doubleOfInt i) = some i := by
  rcases eq_or_ne i 0 with rfl | hi
  · decide
  · obtain ⟨k, m, hk, hm, hdiv, hnat⟩ := doubleOfInt_eq hi hn
    have hexp : (doubleOfInt i).toNat / 2 ^ 52 % 2 ^ 11 = 1023 + k := by
      rw [hnat]
      split <;> omega
    have hfr : (doubleOfInt i).toNat % 2 ^ 52 = m := by
      rw [hnat]
      split <;> omega
    have hne : doubleOfInt i ≠ 0 := by
      intro h
      rw [h] at hexp
      simp at hexp
      omega
    have hsi : (doubleOfInt i).toNat < 2 ^ 63 ↔ ¬ i < 0 := by
      rw [hnat]
      split <;> omega
    have htr : truncate (doubleOfInt i) = i := by
      simp only [truncate, hexp, hfr, hne, hsi, ↓reduceIte, show 1075 - (1023 + k) = 52 - k by omega, hdiv]
      split <;> omega
    rw [intOfDouble, htr, if_pos rfl]

theorem canonical_doubleOfInt {i : Int} (hn : i.natAbs < 2 ^ 53) : canonical (doubleOfInt i) = doubleOfInt i := by
  rcases eq_or_ne i 0 with rfl | hi
  · decide
  · obtain ⟨k, m, hk, hm, -, hnat⟩ := doubleOfInt_eq hi hn
    have hexp : (doubleOfInt i).toNat / 2 ^ 52 % 2 ^ 11 = 1023 + k := by
      rw [hnat]
      split <;> omega
    have hnan : isNaN (doubleOfInt i) = false := by
      rw [isNaN, hexp, Bool.and_eq_false_iff]
      left
      simp
      omega
    rw [canonical, hnan]
    rfl

/-- What is fixed by the build and by flags, and what the engine decides elsewhere. `p` is a
position in the bytes, so that the answers about maps may change from call to call. -/
structure Engine where
  isSmi : Int → Bool
  maxStringLength : Nat
  maxFixedArrayLength : Nat
  /-- In digits. -/
  maxBigIntLength : Nat
  numberToName : Double → Name
  /-- `DateCache::TryTimeClip`, or NaN. -/
  timeClip : Double → Double
  /-- `--enable-experimental-regexp-engine` and `--js-float16array`. -/
  linearRegExps : Bool
  float16Arrays : Bool
  /-- `JSRegExp::New` accepts the pattern with these flags. -/
  compiles : Name → Nat → Bool
  /-- There is memory for a buffer that may grow to `max`. -/
  allocates : (byteLength max : Nat) → Bool
  utf8 : List UInt8 → Option Str
  /-- The key that is expected next after these keys. -/
  expectedTransition : (p : Nat) → List Name → Option Name
  findTransition : (p : Nat) → List Name → Name → Bool
  fits : (p : Nat) → List Name → Name → Value → Bool
  aligned : Bool
  isSmi_int32 : ∀ i, isSmi i = true → -2 ^ 31 ≤ i ∧ i < 2 ^ 31
  maxStringLength_lt : maxStringLength < 2 ^ 30
  maxBigIntLength_lt : maxBigIntLength < 2 ^ 27

namespace Engine

/-- An engine to compute with: 31-bit Smis, no experimental features, no transitions. -/
def plain : Engine where
  isSmi i := decide (-2 ^ 30 ≤ i ∧ i < 2 ^ 30)
  maxStringLength := 2 ^ 29 - 24
  maxFixedArrayLength := 2 ^ 27 - 3
  maxBigIntLength := 2 ^ 24
  numberToName _ := []
  timeClip d := d
  linearRegExps := false
  float16Arrays := true
  compiles _ _ := true
  allocates _ _ := true
  utf8 bytes := some (.oneByte bytes)
  expectedTransition _ _ := none
  findTransition _ _ _ := false
  fits _ _ _ _ := false
  aligned := true
  isSmi_int32 i h := by
    have := of_decide_eq_true h
    omega
  maxStringLength_lt := by decide
  maxBigIntLength_lt := by decide

def newNumberFromInt (E : Engine) (i : Int) : Value :=
  if E.isSmi i then .smi i else .heapNumber (doubleOfInt i)

def newNumber (E : Engine) (d : Double) : Value :=
  match intOfDouble d with
  | some i => if E.isSmi i then .smi i else .heapNumber d
  | none => .heapNumber d

end Engine

def Value.toDouble? : Value → Option Double
  | .smi i => some (doubleOfInt i)
  | .heapNumber d => some d
  | _ => none

theorem toDouble?_newNumberFromInt (E : Engine) (i : Int) : (E.newNumberFromInt i).toDouble? = some (doubleOfInt i) := by
  rw [Engine.newNumberFromInt]
  split <;> rfl

theorem toDouble?_newNumber (E : Engine) (d : Double) : (E.newNumber d).toDouble? = some d := by
  rw [Engine.newNumber]
  split
  · next i hi =>
    split
    · rw [Value.toDouble?, doubleOfInt_of_intOfDouble hi]
    · rfl
  · rfl

/-! ### Keys and properties -/

inductive PropertyKey where
  | index (i : Nat)
  | name (n : Name)
  deriving DecidableEq, Repr

/-- A decimal numeral, the empty one excepted, with what was read before it. -/
def digitsValue : Nat → Name → Option Nat
  | acc, [] => some acc
  | acc, c :: rest => if 48 ≤ c.toNat ∧ c.toNat ≤ 57 then digitsValue (10 * acc + (c.toNat - 48)) rest else none

def arrayIndex (n : Name) : Option Nat :=
  match n with
  | [] => none
  | [48] => some 0
  | 48 :: _ => none
  | n => (digitsValue 0 n).bind fun i => if i < 2 ^ 32 - 1 then some i else none

/-- `IsValidObjectKey`, and the `PropertyKey` it is then. -/
def Engine.propertyKey (E : Engine) : Value → Option PropertyKey
  | .string s => some <|
    match arrayIndex s.units with
    | some i => .index i
    | none => .name s.units
  | v => v.toDouble?.map fun d =>
    match intOfDouble d with
    | some (.ofNat i) => if i < 2 ^ 32 - 1 then .index i else .name (E.numberToName d)
    | _ => .name (E.numberToName d)

structure Properties where
  elements : List (Nat × Value) := []
  named : List (Name × Value) := []
  deriving DecidableEq, Repr

namespace Properties

def insertElement (i : Nat) (v : Value) : List (Nat × Value) → List (Nat × Value)
  | [] => [(i, v)]
  | (j, w) :: rest => if i < j then (i, v) :: (j, w) :: rest else (j, w) :: insertElement i v rest

def define (p : Properties) (v : Value) : PropertyKey → Option Properties
  | .index i =>
    if i ∈ p.elements.map Prod.fst then none else some {p with elements := insertElement i v p.elements}
  | .name n => if n ∈ p.named.map Prod.fst then none else some {p with named := p.named ++ [(n, v)]}

end Properties

/-! ### Objects -/

inductive ViewType where
  | int8Array | uint8Array | uint8ClampedArray | int16Array | uint16Array | int32Array | uint32Array
  | float16Array | float32Array | float64Array | bigInt64Array | bigUint64Array | dataView
  deriving DecidableEq, Repr

/-- A `DataView` has no element size. -/
def ViewType.elementSize : ViewType → Nat
  | .int8Array | .uint8Array | .uint8ClampedArray | .dataView => 1
  | .int16Array | .uint16Array | .float16Array => 2
  | .int32Array | .uint32Array | .float32Array => 4
  | .float64Array | .bigInt64Array | .bigUint64Array => 8

inductive ErrorType where
  | error | evalError | rangeError | referenceError | syntaxError | typeError | uriError
  deriving DecidableEq, Repr

structure ArrayBuffer where
  bytes : List UInt8
  /-- Of a resizable buffer. -/
  maxByteLength : Option Nat := none
  immutable : Bool := false
  deriving DecidableEq, Repr

/-- `memory` is the `WebAssembly.Memory` that a resizable buffer of one is linked to. -/
structure SharedArrayBuffer where
  store : Nat
  byteLength : Nat
  resizable : Bool := false
  wasm : Bool := false
  memory : Option Receiver := none
  deriving DecidableEq, Repr

structure View where
  type : ViewType
  buffer : Receiver
  byteOffset : Nat
  byteLength : Nat
  lengthTracking : Bool := false
  backedByRab : Bool := false
  deriving DecidableEq, Repr

/-- `others` are the own properties that are not serialized. -/
structure ErrorObject where
  type : ErrorType := .error
  message : Option Str := none
  stack : Option Str := none
  cause : Option Value := none
  others : Properties := {}
  deriving DecidableEq, Repr

inductive Obj where
  /-- `field` is the pointer in the internal field, if there is one. -/
  | jsObject (field : Option Nat) (properties : Properties)
  /-- `packed` if the elements are fast and not holey. -/
  | jsArray (packed : Bool) (length : Nat) (properties : Properties)
  | date (value : Double)
  | primitiveWrapper (value : Value)
  | regExp (source : Str) (flags : Nat)
  | map (entries : List (Value × Value))
  | set (entries : List Value)
  | arrayBuffer (buffer : ArrayBuffer)
  | sharedArrayBuffer (buffer : SharedArrayBuffer)
  | view (view : View)
  | error (error : ErrorObject)
  | wasmModule (module : Nat)
  /-- The buffer comes last when a memory is read. -/
  | wasmMemory (maximumPages : Int) (memory64 : Bool) (buffer : Option Receiver)
  /-- Functions, proxies, weak collections and what else there is. -/
  | uncloneable
  deriving DecidableEq, Repr

def lengthName : Name := [108, 101, 110, 103, 116, 104]

/-- `DefineOwnPropertyIgnoreAttributes`, if there is no such property. -/
def Obj.define (key : PropertyKey) (v : Value) : Obj → Option Obj
  | .jsObject field p => (p.define v key).map (.jsObject field)
  | .jsArray packed length p =>
    if key = .name lengthName then none
    else (p.define v key).map (.jsArray packed (match key with | .index i => max length (i + 1) | .name _ => length))
  | _ => none

/-- What a view or a memory needs to know of an object it is made from. -/
inductive Head where
  | buffer (byteLength : Nat) (resizable shared : Bool)
  | wasmMemory
  | other
  deriving DecidableEq, Repr

def Obj.head : Obj → Head
  | .arrayBuffer b => .buffer b.bytes.length b.maxByteLength.isSome false
  | .sharedArrayBuffer b => .buffer b.byteLength b.resizable true
  | .wasmMemory .. => .wasmMemory
  | _ => .other

/-! ### Maps and sets -/

/-- What is compared by `SameValueZero`. -/
def Value.mapKey : Value → Value
  | .string s => .string (.twoByte s.units)
  | .smi i => .heapNumber (doubleOfInt i)
  | .heapNumber d => .heapNumber (if d = minusZero then 0 else canonical d)
  | v => v

def Value.normalizeZero (v : Value) : Value := if v = .heapNumber minusZero then .smi 0 else v

/-- `Map.prototype.set`. -/
def mapSet (key value : Value) (entries : List (Value × Value)) : List (Value × Value) :=
  if entries.any fun entry => entry.1.mapKey = key.mapKey then
    entries.map fun entry => if entry.1.mapKey = key.mapKey then (entry.1, value) else entry
  else entries ++ [(key.normalizeZero, value)]

/-- `Set.prototype.add`. -/
def setAdd (value : Value) (entries : List Value) : List Value :=
  if entries.any fun entry => entry.mapKey = value.mapKey then entries
  else entries ++ [value.normalizeZero]

end V8Multithread.Objects
