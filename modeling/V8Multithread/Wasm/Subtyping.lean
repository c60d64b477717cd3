import V8Multithread.Base.Ancestry
import V8Multithread.Wasm.ValueType

/-! `wasm-subtyping.cc`: the subtype test, and the union and the intersection of value types.

Abstract types are compared by a table, indexed types by going up the declared supertypes and
comparing canonical indices. -/
namespace V8Multithread.Wasm
open Base.Ancestry

/-! ### Abstract types -/

/-- `FOREACH_SUBTYPING`: subtype, supertype. -/
def subtypings : List (GenericKind × GenericKind) := [
  (.eq, .any), (.struct, .eq), (.none, .struct), (.array, .eq), (.none, .array), (.i31, .eq), (.none, .i31),
  (.string, .any), (.none, .string),
  (.noFunc, .func),
  (.externString, .externRef), (.noExtern, .externString),
  (.noExn, .exn),
  (.noCont, .cont),
  (.noWaitqueue, .waitqueue)]

def notInSubtypeRelation (type : GenericKind) : Bool :=
  !subtypings.any fun (sub, super) => type = sub || type = super

/-- The relation has no cycle, so that its paths are no longer than itself. -/
def computeIsSubtype : (fuel : Nat) → (sub super : GenericKind) → Bool
  | 0, _, _ => false
  | fuel + 1, sub, super =>
    sub = super || subtypings.any fun (a, b) => sub = a && (super = b || computeIsSubtype fuel b super)

def subtypeLookup (sub super : GenericKind) : Bool :=
  if sub = .bottom then true
  else if super = .top then true
  else if notInSubtypeRelation sub then sub = super
  else if notInSubtypeRelation super then false
  else computeIsSubtype subtypings.length sub super

def computeCommonAncestor : (fuel : Nat) → (t1 t2 : GenericKind) → GenericKind
  | 0, _, _ => .top
  | fuel + 1, t1, t2 =>
    if computeIsSubtype subtypings.length t1 t2 then t2
    else if computeIsSubtype subtypings.length t2 t1 then t1
    else match subtypings.find? fun (a, _) => t1 = a with
      | some (_, b) => computeCommonAncestor fuel b t2
      | none => .top

def commonAncestorLookup (t1 t2 : GenericKind) : GenericKind :=
  if t1 = .bottom then t2
  else if t2 = .bottom then t1
  else if t1 = .top then t1
  else if t2 = .top then t2
  else if notInSubtypeRelation t1 then if t2 = t1 then t1 else .top
  else if notInSubtypeRelation t2 then .top
  else computeCommonAncestor subtypings.length t1 t2

def RefTypeKind.upcast : RefTypeKind → GenericKind
  | struct => .struct
  | array => .array
  | function => .func
  | cont => .cont

def upcastToStandardType : HeapType → GenericKind
  | .generic kind _ => kind
  | .index _ _ _ kind => kind.upcast

/-! ### Modules -/

inductive CompositeType where
  | function (parameters returns : List ValueType)
  | struct (fields : List (ValueType × Bool))
  | array (elementType : ValueType) (mutability : Bool)
  | cont (contfunTypeIndex : Nat)
  deriving DecidableEq, Repr

structure TypeDefinition where
  type : CompositeType
  supertype : Option Nat := none
  descriptor : Option Nat := none
  describes : Option Nat := none
  isFinal : Bool := false
  isShared : Bool := false
  deriving DecidableEq, Repr

def TypeDefinition.kind (d : TypeDefinition) : RefTypeKind :=
  match d.type with
  | .function _ _ => .function
  | .struct _ => .struct
  | .array _ _ => .array
  | .cont _ => .cont

/-- A supertype comes earlier: the decoder checks that. -/
structure WasmModule where
  types : List TypeDefinition
  isorecursiveCanonicalTypeIds : List Nat
  supertype_lt : ∀ (i : Nat) (definition : TypeDefinition) (s : Nat), types[i]? = some definition →
    definition.supertype = some s → s < i

namespace WasmModule
variable (m : WasmModule)

def type (index : Nat) : TypeDefinition := m.types.getD index ⟨.function [] [], none, none, none, false, false⟩

def canonicalTypeId (index : Nat) : Nat := m.isorecursiveCanonicalTypeIds.getD index 0

def supertype (index : Nat) : Option Nat := (m.type index).supertype

def heapType (index : Nat) : HeapType := .index index false (m.type index).isShared (m.type index).kind

theorem lt_of_supertype {index s : Nat} (h : m.supertype index = some s) : s < index := by
  rw [supertype, type, List.getD_eq_getElem?_getD] at h
  cases hget : m.types[index]? with
  | none =>
    rw [hget] at h
    cases h
  | some definition =>
    rw [hget] at h
    exact m.supertype_lt index definition s hget h

/-- `subtyping_depth`, as the decoder sets it. -/
def getSubtypingDepth (index : Nat) : Nat :=
  match _h : m.supertype index with
  | none => 0
  | some super => getSubtypingDepth super + 1
termination_by index
decreasing_by exact m.lt_of_supertype _h

end WasmModule

section
variable (m : WasmModule)

def equivalentIndices (index1 index2 : Nat) : Bool :=
  index1 = index2 || m.canonicalTypeId index1 = m.canonicalTypeId index2

/-! ### The subtype test -/

def isGenericSubtypeOfIndexedTypes : HeapType → Bool
  | .generic kind _ => isNullKind kind || kind = .bottom
  | .index _ _ _ _ => false

/-- `IsSubtypeOf_CommonImpl`: no answer if both types are indexed. -/
def isSubtypeOfCommonImpl (subtype supertype : HeapType) : Option Bool :=
  if subtype.isBottom then some true
  else if subtype.isShared ≠ supertype.isShared then some false
  else if supertype.hasIndex && subtype.hasIndex then
    if supertype.isExact && !subtype.isExact then some false else none
  else if supertype.hasIndex && !isGenericSubtypeOfIndexedTypes subtype then some false
  else some (subtypeLookup (upcastToStandardType subtype) (upcastToStandardType supertype))

/-- The loop over the declared supertypes. -/
def isIndexSubtype (subIndex superCanon : Nat) : Bool :=
  if m.canonicalTypeId subIndex = superCanon then true
  else
    match _h : m.supertype subIndex with
    | none => false
    | some subIndex => isIndexSubtype subIndex superCanon
termination_by subIndex
decreasing_by exact m.lt_of_supertype _h

/-- `IsSubtypeOfImpl` of heap types. -/
def isHeapSubtypeOfImpl (subtype supertype : HeapType) : Bool :=
  match isSubtypeOfCommonImpl subtype supertype, subtype, supertype with
  | some result, _, _ => result
  | none, .index subIndex _ _ _, .index superIndex isExact _ _ =>
    if isExact then m.canonicalTypeId subIndex = m.canonicalTypeId superIndex
    else isIndexSubtype m subIndex (m.canonicalTypeId superIndex)
  | none, _, _ => false

def isHeapSubtypeOf (subtype supertype : HeapType) : Bool :=
  subtype = supertype || isHeapSubtypeOfImpl m subtype supertype

/-- `IsSubtypeOfImpl` of value types. -/
def isSubtypeOfImpl (subtype supertype : ValueType) : Bool :=
  if supertype.isTop then true
  else match subtype, supertype with
    | .numeric _, _ => subtype = supertype
    | .heap _ _, .numeric _ => subtype.isBottom
    | .heap subHeap _, .heap superHeap _ =>
      if subtype.isNullable && !supertype.isNullable then false
      else if subHeap = superHeap then true
      else isHeapSubtypeOfImpl m subHeap superHeap

def isSubtypeOf (subtype supertype : ValueType) : Bool :=
  subtype = supertype || isSubtypeOfImpl m subtype supertype

/-- `EquivalentTypes`. -/
def equivalentTypes (type1 type2 : ValueType) : Bool :=
  type1 = type2 ||
    match type1, type2 with
    | .heap (.index index1 isExact1 _ _) nullability1, .heap (.index index2 isExact2 _ _) nullability2 =>
      nullability1 = nullability2 && isExact1 = isExact2 && equivalentIndices m index1 index2
    | _, _ => false

/-! ### Declared supertypes -/

/-- A field against the field of the supertype at its place. -/
def validField : (sub super : ValueType × Bool) → Bool
  | (subType, subMut), (superType, superMut) =>
    subMut = superMut && if subMut then equivalentTypes m subType superType else isSubtypeOf m subType superType

def validDescriptors (sub super : TypeDefinition) : Bool :=
  (match sub.descriptor, super.descriptor with
    | some subDescriptor, some superDescriptor => m.supertype subDescriptor = some superDescriptor
    | some _, none => true
    | none, superDescriptor => superDescriptor.isNone) &&
  (match sub.describes, super.describes with
    | some subDescribes, some superDescribes => m.supertype subDescribes = some superDescribes
    | some _, none => false
    | none, superDescribes => superDescribes.isNone)

def validSubtypeDefinition (subtypeIndex supertypeIndex : Nat) : Bool :=
  let sub := m.type subtypeIndex
  let super := m.type supertypeIndex
  sub.kind = super.kind && !super.isFinal && sub.isShared = super.isShared &&
    match sub.type, super.type with
    | .function subParameters subReturns, .function superParameters superReturns =>
      subParameters.length = superParameters.length && subReturns.length = superReturns.length &&
        (superParameters.zip subParameters).all (fun (p, q) => isSubtypeOf m p q) &&
        (subReturns.zip superReturns).all fun (p, q) => isSubtypeOf m p q
    | .struct subFields, .struct superFields =>
      superFields.length ≤ subFields.length && (subFields.zip superFields).all (fun (p, q) => validField m p q) &&
        validDescriptors m sub super
    | .array subElement subMut, .array superElement superMut =>
      (subMut && superMut && equivalentTypes m subElement superElement) ||
        (!subMut && !superMut && isSubtypeOf m subElement superElement)
    | .cont subFunction, .cont superFunction => isHeapSubtypeOf m (m.heapType subFunction) (m.heapType superFunction)
    | _, _ => false

/-! ### Union and intersection -/

/-- `while (depth1 > depth2)`, taking `steps` steps. -/
def raise : (steps : Nat) → (typeIndex : Option Nat) → Option Nat
  | 0, typeIndex => typeIndex
  | steps + 1, typeIndex => raise steps (typeIndex.bind m.supertype)

/-- The loop that goes up on both sides. No supertype is `none`. -/
def ascend : (typeIndex1 typeIndex2 : Option Nat) → Option Nat
  | some typeIndex1, some typeIndex2 =>
    if equivalentIndices m typeIndex1 typeIndex2 then some typeIndex1
    else
      match _h : m.supertype typeIndex1 with
      | none => none
      | some super1 => ascend (some super1) (m.supertype typeIndex2)
  | _, _ => none
termination_by typeIndex1 => typeIndex1.getD 0
decreasing_by exact m.lt_of_supertype _h

def commonAncestor (type1 type2 : HeapType) : HeapType :=
  match type1, type2 with
  | .index index1 _ shared1 kind1, .index index2 _ shared2 _ =>
    if shared1 ≠ shared2 then .generic .top false
    else
      let depth1 := m.getSubtypingDepth index1
      let depth2 := m.getSubtypingDepth index2
      match ascend m (raise m (depth1 - depth2) (some index1)) (raise m (depth2 - depth1) (some index2)) with
      | some typeIndex => .index typeIndex false shared1 kind1
      | none => .generic (commonAncestorLookup (upcastToStandardType type1) (upcastToStandardType type2)) shared1
  | _, _ => .generic .bottom false

def commonAncestorWithAbstract (heap1 heap2 : HeapType) : HeapType :=
  if heap1.isShared ≠ heap2.isShared then .generic .top false
  else if isSubtypeOfCommonImpl heap1 heap2 = some true then heap2
  else .generic (commonAncestorLookup (upcastToStandardType heap1) (upcastToStandardType heap2)) heap1.isShared

def unionExactness (type1 type2 : HeapType) : Bool :=
  if type1.isExact then
    match type1, type2 with
    | .index index1 _ _ _, .index index2 true _ _ => equivalentIndices m index1 index2
    | _, _ => type2.isNoneType
  else if type2.isExact then type1.isNoneType
  else false

def union (type1 type2 : ValueType) : ValueType :=
  if type1 = kWasmTop ∨ type2 = kWasmTop then kWasmTop
  else if type1 = kWasmBottom then type2
  else if type2 = kWasmBottom then type1
  else if !type1.isRef || !type2.isRef then if type1 = type2 then type1 else kWasmTop
  else
    match type1, type2 with
    | .heap heap1 nullable1, .heap heap2 nullable2 =>
      let nullability := nullable1 || nullable2
      let exactness := unionExactness m heap1 heap2
      if heap1 = heap2 then .heap (heap1.asExact exactness) nullability
      else
        let resultType :=
          if heap1.isAbstractRef then commonAncestorWithAbstract heap1 heap2
          else if heap2.isAbstractRef then commonAncestorWithAbstract heap2 heap1
          else commonAncestor m heap1 heap2
        if resultType.isTop then kWasmTop else .heap (resultType.asExact exactness) nullability
    | _, _ => kWasmTop

def nullSentinelImpl (type : HeapType) : HeapType :=
  match noneTypes.find? fun candidate => subtypeLookup candidate (upcastToStandardType type) with
  | some candidate => .generic candidate type.isShared
  | none => type

def intersection (type1 type2 : ValueType) : ValueType :=
  if type1 = kWasmTop then type2
  else if type2 = kWasmTop then type1
  else if !type1.isRef || !type2.isRef then if type1 = type2 then type1 else kWasmBottom
  else
    match type1, type2 with
    | .heap heap1 nullable1, .heap heap2 nullable2 =>
      let nullability := nullable1 && nullable2
      if !nullability && (heap1.isNoneType || heap2.isNoneType) then kWasmBottom
      else if isHeapSubtypeOf m heap1 heap2 then .heap heap1 nullability
      else if isHeapSubtypeOf m heap2 heap1 then .heap heap2 nullability
      else if !nullability then kWasmBottom
      else if nullSentinelImpl heap1 = nullSentinelImpl heap2 then .heap (nullSentinelImpl heap1) true
      else kWasmBottom
    | _, _ => kWasmBottom

end

end V8Multithread.Wasm
