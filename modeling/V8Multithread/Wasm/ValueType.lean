import Mathlib

/-! WebAssembly value types.

A value type is a bit field in the source; here it is what the bits stand for. Indexed types carry
their sharedness and kind, which are those of the type's definition. -/
namespace V8Multithread.Wasm

inductive NumericKind where
  | i32 | i64 | f32 | f64 | s128 | i8 | i16 | f16
  deriving DecidableEq, Repr

inductive GenericKind where
  | void | top | bottom | externString
  | noCont | noExn | noExtern | noFunc | noWaitqueue | none
  | func | any | externRef | exn | cont | waitqueue
  | eq | i31 | struct | array | string | stringViewWtf8 | stringViewWtf16 | stringViewIter
  deriving DecidableEq, Repr

/-- `RefTypeKind`, of the types that have an index. -/
inductive RefTypeKind where
  | function | struct | array | cont
  deriving DecidableEq, Repr

/-- `FOREACH_GENERIC_TYPE`. -/
def genericTypes : List GenericKind := [ .void, .top, .bottom, .externString,
  .noCont, .noExn, .noExtern, .noFunc, .noWaitqueue, .none,
  .func, .any, .externRef, .exn, .cont, .waitqueue,
  .eq, .i31, .struct, .array, .string, .stringViewWtf8, .stringViewWtf16, .stringViewIter]

theorem mem_genericTypes (kind : GenericKind) : kind ∈ genericTypes := by cases kind <;> decide

/-- `FOREACH_NONE_TYPE`. -/
def noneTypes : List GenericKind := [.noCont, .noExn, .noExtern, .noFunc, .noWaitqueue, .none]

def isNullKind (kind : GenericKind) : Bool := noneTypes.contains kind

/-- `TypeKind::kSentinel`. -/
def GenericKind.isSentinel (kind : GenericKind) : Bool := kind = .void || kind = .top || kind = .bottom

def GenericKind.isStringView (kind : GenericKind) : Bool :=
  kind = .stringViewWtf8 || kind = .stringViewWtf16 || kind = .stringViewIter

inductive HeapType where
  | generic (kind : GenericKind) (isShared : Bool)
  | index (refIndex : Nat) (isExact isShared : Bool) (kind : RefTypeKind)
  deriving DecidableEq, Repr

namespace HeapType

def isShared : HeapType → Bool
  | generic _ isShared => isShared
  | index _ _ isShared _ => isShared

def isExact : HeapType → Bool
  | generic _ _ => false
  | index _ isExact _ _ => isExact

def hasIndex : HeapType → Bool
  | generic _ _ => false
  | index _ _ _ _ => true

def isSentinel : HeapType → Bool
  | generic kind _ => kind.isSentinel
  | index _ _ _ _ => false

def isAbstractRef : HeapType → Bool
  | generic kind _ => !kind.isSentinel
  | index _ _ _ _ => false

def isBottom : HeapType → Bool
  | generic kind _ => kind = .bottom
  | index _ _ _ _ => false

def isTop : HeapType → Bool
  | generic kind _ => kind = .top
  | index _ _ _ _ => false

def isNoneType : HeapType → Bool
  | generic kind _ => !kind.isSentinel && isNullKind kind
  | index _ _ _ _ => false

/-- `AsExactIfIndexed`; `AsExact` is only called on indexed types, or to clear the bit. -/
def asExact (isExact : Bool) : HeapType → HeapType
  | generic kind isShared => generic kind isShared
  | index refIndex _ isShared kind => index refIndex isExact isShared kind

end HeapType

inductive ValueType where
  | numeric (kind : NumericKind)
  | heap (heapType : HeapType) (nullability : Bool)
  deriving DecidableEq, Repr

def kWasmTop : ValueType := .heap (.generic .top false) false
def kWasmBottom : ValueType := .heap (.generic .bottom false) false

namespace ValueType

def isNumeric : ValueType → Bool
  | numeric _ => true
  | heap _ _ => false

def isRef : ValueType → Bool
  | numeric _ => false
  | heap heapType _ => !heapType.isSentinel

def isNullable : ValueType → Bool
  | numeric _ => false
  | heap heapType nullability => !heapType.isSentinel && nullability

def isTop : ValueType → Bool
  | numeric _ => false
  | heap heapType _ => heapType.isTop

def isBottom : ValueType → Bool
  | numeric _ => false
  | heap heapType _ => heapType.isBottom

end ValueType

end V8Multithread.Wasm
