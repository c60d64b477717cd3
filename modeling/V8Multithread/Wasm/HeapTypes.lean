import V8Multithread.Wasm.Subtyping

/-! The order of the heap types of a module.

`heap_le_generic`, `generic_le_index` and `index_le_index` say when a heap type is a subtype of
another: abstract types by `Under`, indexed types by going up the declared supertypes. -/
namespace V8Multithread.Wasm
open Base.Ancestry

/-! ### Abstract types -/

/-- The types above an abstract type. -/
def supers : GenericKind → List GenericKind
  | .none => [.none, .struct, .array, .i31, .string, .eq, .any]
  | .struct => [.struct, .eq, .any]
  | .array => [.array, .eq, .any]
  | .i31 => [.i31, .eq, .any]
  | .string => [.string, .any]
  | .eq => [.eq, .any]
  | .noFunc => [.noFunc, .func]
  | .noExtern => [.noExtern, .externString, .externRef]
  | .externString => [.externString, .externRef]
  | .noExn => [.noExn, .exn]
  | .noCont => [.noCont, .cont]
  | .noWaitqueue => [.noWaitqueue, .waitqueue]
  | kind => [kind]

/-- References that are not string views. -/
def GenericKind.Plain (kind : GenericKind) : Prop := kind.isSentinel = false ∧ kind.isStringView = false

instance (kind : GenericKind) : Decidable kind.Plain := inferInstanceAs (Decidable (_ ∧ _))

def Under (sub super : GenericKind) : Prop := super ∈ supers sub

instance (sub super : GenericKind) : Decidable (Under sub super) := inferInstanceAs (Decidable (_ ∈ _))

theorem subtypeLookup_iff {sub super : GenericKind} (hsub : sub.Plain) (hsu : super.Plain) :
    subtypeLookup sub super ↔ Under sub super := by
  have hall : ∀ sub ∈ genericTypes, ∀ super ∈ genericTypes, sub.Plain → super.Plain →
      (subtypeLookup sub super = true ↔ Under sub super) := by decide +kernel
  exact hall sub (mem_genericTypes sub) super (mem_genericTypes super) hsub hsu

theorem Under.refl (kind : GenericKind) : Under kind kind := by cases kind <;> decide

theorem Under.trans {a b c : GenericKind} (hab : Under a b) (hbc : Under b c) : Under a c := by
  have hall : ∀ a ∈ genericTypes, ∀ b ∈ supers a, ∀ c ∈ supers b, c ∈ supers a := by decide +kernel
  exact hall a (mem_genericTypes a) b hab c hbc

/-- Above a type that is no null type, the types are a chain. -/
theorem Under.comparable {a b c : GenericKind} (hnull : isNullKind a = false) (hab : Under a b) (hac : Under a c) :
    Under b c ∨ Under c b := by
  have hall : ∀ a ∈ genericTypes, isNullKind a = false → ∀ b ∈ supers a, ∀ c ∈ supers a, Under b c ∨ Under c b := by
    decide +kernel
  exact hall a (mem_genericTypes a) hnull b hab c hac

/-- Nothing else is below a null type. -/
theorem Under.eq_of_null {a b : GenericKind} (hnull : isNullKind b) (hab : Under a b) : a = b := by
  have hall : ∀ a ∈ genericTypes, ∀ b ∈ supers a, isNullKind b = true → a = b := by decide +kernel
  exact hall a (mem_genericTypes a) b hab hnull

theorem commonAncestorLookup_spec {a b : GenericKind} (ha : a.Plain) (hb : b.Plain) :
    let c := commonAncestorLookup a b
    (c = .top ∨ c.Plain ∧ Under a c ∧ Under b c) ∧ ∀ d, Under a d → Under b d → c ≠ .top ∧ Under c d := by
  have hall : ∀ a ∈ genericTypes, ∀ b ∈ genericTypes, a.Plain → b.Plain →
      (commonAncestorLookup a b = .top ∨ (commonAncestorLookup a b).Plain ∧ Under a (commonAncestorLookup a b) ∧
        Under b (commonAncestorLookup a b)) ∧
      ∀ d ∈ supers a, Under b d → commonAncestorLookup a b ≠ .top ∧ Under (commonAncestorLookup a b) d := by
    decide +kernel
  exact hall a (mem_genericTypes a) b (mem_genericTypes b) ha hb

variable {kind : GenericKind} {i : Nat} {h : HeapType} {isShared : Bool}

/-- The null type that is found is the only one below. -/
theorem find_noneTypes (h : kind.Plain) :
    ∃ null, noneTypes.find? (fun candidate => subtypeLookup candidate kind) = some null ∧ null.Plain ∧
      isNullKind null ∧ Under null kind ∧ ∀ other, isNullKind other → Under other kind → other = null := by
  have hall : ∀ kind ∈ genericTypes, kind.Plain → ∃ null ∈ genericTypes,
      noneTypes.find? (fun candidate => subtypeLookup candidate kind) = some null ∧ null.Plain ∧
        isNullKind null = true ∧ Under null kind ∧
        ∀ other ∈ genericTypes, isNullKind other = true → Under other kind → other = null := by decide +kernel
  obtain ⟨null, -, hfi, hp, hnull, hun, hu⟩ := hall kind (mem_genericTypes kind) h
  exact ⟨null, hfi, hp, hnull, hun, fun other => hu other (mem_genericTypes other)⟩

theorem RefTypeKind.upcast_plain (kind : RefTypeKind) : kind.upcast.Plain ∧ isNullKind kind.upcast = false := by
  cases kind <;> decide

/-! ### Modules -/

/-- Declared supertypes are valid, and types of one canonical index are equivalent. -/
structure WasmModule.Sound (m : WasmModule) : Prop where
  valid : ∀ i < m.types.length, ∀ s, m.supertype i = some s → validSubtypeDefinition m i s = true
  canonical : ∀ i < m.types.length, ∀ j < m.types.length, m.canonicalTypeId i = m.canonicalTypeId j →
    (m.type i).kind = (m.type j).kind ∧ (m.type i).isShared = (m.type j).isShared ∧
      (m.supertype i).map m.canonicalTypeId = (m.supertype j).map m.canonicalTypeId

variable {m : WasmModule}

theorem getSubtypingDepth_none (h : m.supertype i = none) : m.getSubtypingDepth i = 0 := by
  rw [WasmModule.getSubtypingDepth]
  split <;> simp_all

theorem getSubtypingDepth_some {s : Nat} (h : m.supertype i = some s) :
    m.getSubtypingDepth i = m.getSubtypingDepth s + 1 := by
  rw [WasmModule.getSubtypingDepth]
  split <;> simp_all

/-- The declared supertypes, compared by canonical index. -/
def WasmModule.Sound.forest (hm : m.Sound) : Forest Nat Nat where
  parent := m.supertype
  key := m.canonicalTypeId
  depth := m.getSubtypingDepth
  good i := i < m.types.length
  good_parent _ _ ha hparent := (m.lt_of_supertype hparent).trans ha
  key_parent a b ha hb hkey := (hm.canonical a ha b hb hkey).2.2
  depth_root _ _ h := getSubtypingDepth_none h
  depth_parent _ _ _ h := getSubtypingDepth_some h

section
variable (hm : m.Sound)
include hm

/-- Above a type there are only types of its kind and sharedness. -/
theorem kind_of_below {j : Nat} (hi : i < m.types.length) (hj : j < m.types.length) (h : hm.forest.Below i j) :
    (m.type i).kind = (m.type j).kind ∧ (m.type i).isShared = (m.type j).isShared := by
  induction h with
  | here h =>
    obtain ⟨hki, hsh, -⟩ := hm.canonical _ hi _ hj h
    exact ⟨hki, hsh⟩
  | @up a a' b hparent _ ih =>
    obtain ⟨hki, hsh⟩ := ih ((m.lt_of_supertype hparent).trans hi) hj
    have hva := hm.valid a hi a' hparent
    rw [validSubtypeDefinition] at hva
    simp only [Bool.and_eq_true, decide_eq_true_eq] at hva
    exact ⟨hva.1.1.1.trans hki, hva.1.2.trans hsh⟩

theorem isIndexSubtype_iff (i j : Nat) : isIndexSubtype m i (m.canonicalTypeId j) ↔ hm.forest.Below i j := by
  induction i using Nat.strong_induction_on with
  | _ i ih =>
    rw [isIndexSubtype]
    split
    · next hkey => exact iff_of_true rfl (.here hkey)
    next hkey =>
    split
    · next hparent =>
      refine iff_of_false (by simp) fun h => ?_
      cases h with
      | here h => exact hkey h
      | up h => cases hparent.symm.trans h
    · next s hparent =>
      rw [ih s (m.lt_of_supertype hparent)]
      constructor
      · exact .up hparent
      · intro h
        cases h with
        | here h => exact absurd h hkey
        | up h h' =>
          obtain rfl := Option.some.inj (hparent.symm.trans h)
          exact h'

end

/-! ### Heap types -/

/-- A heap type of the module: the bits of an indexed type are those of its definition. -/
def HeapType.Of (m : WasmModule) : HeapType → Prop
  | .generic kind _ => kind.Plain
  | .index i _ isShared kind => i < m.types.length ∧ isShared = (m.type i).isShared ∧ kind = (m.type i).kind

theorem HeapType.Of.plain (hof : h.Of m) : (upcastToStandardType h).Plain := by
  cases h with
  | generic => exact hof
  | index i isExact isShared kind => exact kind.upcast_plain.1

theorem HeapType.Of.not_bottom (hof : h.Of m) : h.isBottom = false := by
  cases h with
  | generic =>
    rw [HeapType.isBottom, decide_eq_false_iff_not]
    rintro rfl
    exact absurd hof.1 (by decide)
  | index => rfl

theorem isHeapSubtypeOf_of_common {a b : HeapType} {result : Bool} (h : isSubtypeOfCommonImpl a b = some result) :
    isHeapSubtypeOf m a b ↔ a = b ∨ result := by
  rw [isHeapSubtypeOf, Bool.or_eq_true, decide_eq_true_eq, isHeapSubtypeOfImpl.eq_def, h]

theorem heap_le_generic (hof : h.Of m) (hki : kind.Plain) :
    isHeapSubtypeOf m h (.generic kind isShared) ↔ h.isShared = isShared ∧ Under (upcastToStandardType h) kind := by
  have hco : isSubtypeOfCommonImpl h (.generic kind isShared) =
      if h.isShared ≠ isShared then some false else some (subtypeLookup (upcastToStandardType h) kind) := by
    rw [isSubtypeOfCommonImpl, hof.not_bottom]
    rfl
  by_cases heq : h.isShared = isShared
  · rw [if_neg (not_not.mpr heq)] at hco
    rw [isHeapSubtypeOf_of_common hco, subtypeLookup_iff hof.plain hki]
    constructor
    · rintro (rfl | hu)
      · exact ⟨heq, .refl _⟩
      · exact ⟨heq, hu⟩
    · exact fun h => .inr h.2
  · rw [if_pos heq] at hco
    rw [isHeapSubtypeOf_of_common hco]
    refine iff_of_false ?_ fun h => heq h.1
    rintro (rfl | h)
    · exact heq rfl
    · cases h

theorem generic_le_index (hki : kind.Plain) {isExact isShared' : Bool} {refKind : RefTypeKind} :
    isHeapSubtypeOf m (.generic kind isShared) (.index i isExact isShared' refKind) ↔
      isShared = isShared' ∧ isNullKind kind ∧ Under kind refKind.upcast := by
  have hbo := HeapType.Of.not_bottom (m := m) (h := .generic kind isShared) hki
  have hne : kind ≠ .bottom := of_decide_eq_false hbo
  have hco : isSubtypeOfCommonImpl (.generic kind isShared) (.index i isExact isShared' refKind) =
      if isShared ≠ isShared' then some false
      else if isNullKind kind = true then some (subtypeLookup kind refKind.upcast) else some false := by
    rw [isSubtypeOfCommonImpl, hbo]
    simp only [HeapType.isShared, HeapType.hasIndex, isGenericSubtypeOfIndexedTypes, hne, decide_false, Bool.or_false,
      upcastToStandardType]
    cases isNullKind kind <;> rfl
  by_cases heq : isShared = isShared'
  · rw [if_neg (not_not.mpr heq)] at hco
    by_cases hnull : isNullKind kind = true
    · rw [if_pos hnull] at hco
      rw [isHeapSubtypeOf_of_common hco, subtypeLookup_iff hki refKind.upcast_plain.1]
      simp [heq, hnull]
    · rw [if_neg hnull] at hco
      rw [isHeapSubtypeOf_of_common hco]
      simp [hnull]
  · rw [if_pos heq] at hco
    rw [isHeapSubtypeOf_of_common hco]
    simp [heq]

theorem index_le_index (hm : m.Sound) {j : Nat} {exact₁ exact₂ shared₁ shared₂ : Bool} {kind₁ kind₂ : RefTypeKind}
    (hi : HeapType.Of m (.index i exact₁ shared₁ kind₁)) (hj : HeapType.Of m (.index j exact₂ shared₂ kind₂)) :
    isHeapSubtypeOf m (.index i exact₁ shared₁ kind₁) (.index j exact₂ shared₂ kind₂) ↔
      if exact₂ = true then exact₁ ∧ m.canonicalTypeId i = m.canonicalTypeId j else hm.forest.Below i j := by
  obtain ⟨hilt, rfl, rfl⟩ := hi
  obtain ⟨hjlt, rfl, rfl⟩ := hj
  -- types that are related have the same sharedness
  have hsha : hm.forest.Below i j → (m.type i).isShared = (m.type j).isShared := fun h => (kind_of_below hm hilt hjlt h).2
  by_cases hsh : (m.type i).isShared = (m.type j).isShared
  · have hco : isSubtypeOfCommonImpl (.index i exact₁ (m.type i).isShared (m.type i).kind)
        (.index j exact₂ (m.type j).isShared (m.type j).kind) = if exact₂ && !exact₁ then some false else none := by
      rw [isSubtypeOfCommonImpl]
      exact if_neg (not_not.mpr hsh)
    by_cases hex : (exact₂ && !exact₁) = true
    · rw [if_pos hex] at hco
      rw [isHeapSubtypeOf_of_common hco]
      rw [Bool.and_eq_true, Bool.not_eq_true'] at hex
      rw [if_pos hex.1]
      refine iff_of_false ?_ fun h => by cases hex.2.symm.trans h.1
      rintro (h | h)
      · rw [HeapType.index.injEq] at h
        cases hex.2.symm.trans (h.2.1.trans hex.1)
      · cases h
    · rw [if_neg hex] at hco
      rw [isHeapSubtypeOf, Bool.or_eq_true, decide_eq_true_eq, isHeapSubtypeOfImpl.eq_def, hco]
      cases exact₂ with
      | true =>
        obtain rfl : exact₁ = true := by simpa using hex
        simp only [if_true, decide_eq_true_eq, true_and]
        refine or_iff_right_of_imp fun h => ?_
        cases h
        rfl
      | false =>
        simp only [Bool.false_eq_true, if_false, isIndexSubtype_iff hm]
        refine or_iff_right_of_imp fun h => ?_
        cases h
        exact .refl _ _
  · have hco : isSubtypeOfCommonImpl (.index i exact₁ (m.type i).isShared (m.type i).kind)
        (.index j exact₂ (m.type j).isShared (m.type j).kind) = some false := by
      exact if_pos hsh
    rw [isHeapSubtypeOf_of_common hco]
    refine iff_of_false ?_ ?_
    · rintro (h | h)
      · cases h
        exact hsh rfl
      · cases h
    · split
      · exact fun h => hsh (hsha (.here h.2))
      · exact fun h => hsh (hsha h)

theorem isHeapSubtypeOf_refl (a : HeapType) : isHeapSubtypeOf m a a := by
  rw [isHeapSubtypeOf, decide_eq_true rfl, Bool.true_or]

section
variable (hm : m.Sound) {a b c : HeapType}
include hm

/-- A subtype has the sharedness of its supertype, and is below it in the table. -/
theorem under_of_le (ha : a.Of m) (hb : b.Of m) (h : isHeapSubtypeOf m a b) :
    a.isShared = b.isShared ∧ Under (upcastToStandardType a) (upcastToStandardType b) := by
  cases b with
  | generic => exact (heap_le_generic ha hb).mp h
  | index j =>
    cases a with
    | generic =>
      obtain ⟨hsh, -, hu⟩ := (generic_le_index ha).mp h
      exact ⟨hsh, hu⟩
    | index i =>
      rw [index_le_index hm ha hb] at h
      have hbe : hm.forest.Below i j := by
        split at h
        · exact .here h.2
        · exact h
      obtain ⟨hki, hsh⟩ := kind_of_below hm ha.1 hb.1 hbe
      refine ⟨ha.2.1.trans (hsh.trans hb.2.1.symm), ?_⟩
      rw [upcastToStandardType, upcastToStandardType, ha.2.2, hb.2.2, hki]
      exact .refl _

theorem isHeapSubtypeOf_trans (ha : a.Of m) (hb : b.Of m) (hc : c.Of m) (hab : isHeapSubtypeOf m a b)
    (hbc : isHeapSubtypeOf m b c) : isHeapSubtypeOf m a c := by
  obtain ⟨hsh, hu⟩ := under_of_le hm ha hb hab
  obtain ⟨hs', hu'⟩ := under_of_le hm hb hc hbc
  cases c with
  | generic => exact (heap_le_generic ha hc).mpr ⟨hsh.trans hs', hu.trans hu'⟩
  | index k isExact =>
    cases b with
    | generic kind' isShared' =>
      -- only a null type is below an indexed type, and only itself below a null type
      obtain ⟨-, hnull, -⟩ := (generic_le_index hb).mp hbc
      have heq := hu.eq_of_null hnull
      cases a with
      | generic kind'' isShared'' =>
        obtain rfl : kind'' = kind' := heq
        obtain rfl : isShared'' = isShared' := hsh
        exact hbc
      | index i isExact'' isShared'' kind'' =>
        have hnot := kind''.upcast_plain.2
        rw [show kind''.upcast = kind' from heq, hnull] at hnot
        cases hnot
    | index =>
      cases a with
      | generic =>
        obtain ⟨-, hnull, -⟩ := (generic_le_index ha).mp hab
        exact (generic_le_index ha).mpr ⟨hsh.trans hs', hnull, hu.trans hu'⟩
      | index =>
        rw [index_le_index hm ha hb] at hab
        rw [index_le_index hm hb hc] at hbc
        rw [index_le_index hm ha hc]
        by_cases hex : isExact = true
        · rw [if_pos hex] at hbc ⊢
          rw [if_pos hbc.1] at hab
          exact ⟨hab.1, hab.2.trans hbc.2⟩
        · rw [if_neg hex] at hbc ⊢
          split at hab
          · exact .congr_left ha.1 hb.1 hab.2 hbc
          · exact .trans ha.1 hb.1 hab hbc

/-- Only null types and indexed types of its kind are below an indexed type. -/
theorem exists_index_of_le {j : Nat} {isExact : Bool} {kind : RefTypeKind} (ha : a.Of m)
    (hb : HeapType.Of m (.index j isExact isShared kind))
    (h : isHeapSubtypeOf m a (.index j isExact isShared kind))
    (hnull : isNullKind (upcastToStandardType a) = false) :
    ∃ i isExact', a = .index i isExact' isShared kind ∧ hm.forest.Below i j := by
  cases a with
  | generic =>
    obtain ⟨-, hn', -⟩ := (generic_le_index ha).mp h
    cases hnull.symm.trans hn'
  | index i isExact' isShared' kind' =>
    rw [index_le_index hm ha hb] at h
    have hbe : hm.forest.Below i j := by
      split at h
      · exact .here h.2
      · exact h
    obtain ⟨hki, hsh⟩ := kind_of_below hm ha.1 hb.1 hbe
    obtain rfl : isShared' = isShared := ha.2.1.trans (hsh.trans hb.2.1.symm)
    obtain rfl : kind' = kind := ha.2.2.trans (hki.trans hb.2.2.symm)
    exact ⟨i, isExact', rfl, hbe⟩

/-- Types with a common subtype that is no null type are related. -/
theorem related_of_le (ha : a.Of m) (hb : b.Of m) (hc : c.Of m) (hca : isHeapSubtypeOf m c a)
    (hcb : isHeapSubtypeOf m c b) (hnull : isNullKind (upcastToStandardType c) = false) :
    isHeapSubtypeOf m a b ∨ isHeapSubtypeOf m b a := by
  obtain ⟨hsh, hu⟩ := under_of_le hm hc ha hca
  obtain ⟨hsha, hun⟩ := under_of_le hm hc hb hcb
  cases a with
  | generic =>
    cases b with
    | generic =>
      refine (hu.comparable hnull hun).imp (fun h => ?_) fun h => ?_
      · exact (heap_le_generic ha hb).mpr ⟨hsh.symm.trans hsha, h⟩
      · exact (heap_le_generic hb ha).mpr ⟨hsha.symm.trans hsh, h⟩
    | index =>
      obtain ⟨k, exactc, rfl, -⟩ := exists_index_of_le hm hc hb hcb hnull
      exact .inr ((heap_le_generic hb ha).mpr ⟨hsh, hu⟩)
  | index i exacta =>
    obtain ⟨k, exactc, rfl, hbe⟩ := exists_index_of_le hm hc ha hca hnull
    cases b with
    | generic => exact .inl ((heap_le_generic ha hb).mpr ⟨hsha, hun⟩)
    | index j exactb =>
      rw [index_le_index hm hc ha] at hca
      rw [index_le_index hm hc hb] at hcb
      rw [index_le_index hm ha hb, index_le_index hm hb ha]
      by_cases hexa : exacta = true
      · left
        rw [if_pos hexa] at hca
        by_cases hex : exactb = true
        · rw [if_pos hex] at hcb ⊢
          exact ⟨hexa, hca.2.symm.trans hcb.2⟩
        · rw [if_neg hex] at hcb ⊢
          exact .congr_left ha.1 hc.1 hca.2.symm hcb
      · rw [if_neg hexa] at hca ⊢
        by_cases hex : exactb = true
        · rw [if_pos hex] at hcb
          exact .inr (.congr_left hb.1 hc.1 hcb.2.symm hca)
        · rw [if_neg hex] at hcb ⊢
          exact Forest.Below.comparable hc.1 ha.1 hb.1 hca hcb

end

end V8Multithread.Wasm
