import V8Multithread.Wasm.HeapUnion

/-! The value types of a module are a lattice.

To the order of the heap types, value types add the numeric types, nullability, a top and a
bottom. -/
namespace V8Multithread.Wasm
open Bool

variable {m : WasmModule} {a b : HeapType}

/-! ### The null types -/

theorem isNoneType_iff (ha : a.Of m) : a.isNoneType ↔ isNullKind (upcastToStandardType a) := by
  cases a with
  | generic =>
    rw [HeapType.isNoneType, ha.1]
    rfl
  | index i isExact isShared kind =>
    rw [upcastToStandardType, kind.upcast_plain.2]
    exact Iff.rfl

theorem nullSentinelImpl_spec (ha : a.Of m) :
    (nullSentinelImpl a).Of m ∧ (nullSentinelImpl a).isNoneType ∧ isHeapSubtypeOf m (nullSentinelImpl a) a ∧
      ∀ c, c.Of m → c.isNoneType → isHeapSubtypeOf m c a → c = nullSentinelImpl a := by
  obtain ⟨null, hfi, hp, hnull, hu, hun⟩ := find_noneTypes ha.plain
  have hse : nullSentinelImpl a = .generic null a.isShared := by rw [nullSentinelImpl, hfi]
  have hof : HeapType.Of m (.generic null a.isShared) := hp
  rw [hse]
  refine ⟨hof, (isNoneType_iff hof).mpr hnull, ?_, ?_⟩
  · cases a with
    | generic => exact (heap_le_generic hof ha).mpr ⟨rfl, hu⟩
    | index => exact (generic_le_index hp).mpr ⟨rfl, hnull, hu⟩
  · intro c hc hcn hle
    cases c with
    | generic kind isShared =>
      rw [isNoneType_iff hc] at hcn
      have hbo : isShared = a.isShared ∧ Under kind (upcastToStandardType a) := by
        cases a with
        | generic => exact (heap_le_generic hc ha).mp hle
        | index =>
          obtain ⟨hsh, -, hu⟩ := (generic_le_index hc).mp hle
          exact ⟨hsh, hu⟩
      rw [hbo.1, hun kind hcn hbo.2]
    | index => cases hcn

/-! ### Value types -/

/-- A value type of the module, or the top or the bottom. -/
inductive ValueType.Of (m : WasmModule) : ValueType → Prop
  | top : Of m kWasmTop
  | bottom : Of m kWasmBottom
  | numeric (kind : NumericKind) : Of m (.numeric kind)
  | ref {h : HeapType} {nullability : Bool} (hof : h.Of m) (hnull : h.isNoneType = true → nullability = true) :
      Of m (.heap h nullability)

theorem HeapType.Of.not_sentinel (ha : a.Of m) : a.isSentinel = false := by
  cases a with
  | generic => exact ha.1
  | index => rfl

theorem ref_le_ref (ha : a.Of m) (hb : b.Of m) {nullable₁ nullable₂ : Bool} :
    isSubtypeOf m (.heap a nullable₁) (.heap b nullable₂) ↔ (nullable₁ → nullable₂) ∧ isHeapSubtypeOf m a b := by
  rw [isSubtypeOf, or_eq_true, decide_eq_true_eq, isSubtypeOfImpl, ValueType.isTop, hb.not_top, if_neg Bool.false_ne_true]
  simp only [ValueType.isNullable, ha.not_sentinel, hb.not_sentinel, Bool.not_false, Bool.true_and]
  rw [isHeapSubtypeOf]
  by_cases heq : a = b
  · subst heq
    cases nullable₁ <;> cases nullable₂ <;> simp
  · cases nullable₁ <;> cases nullable₂ <;> simp [heq]

theorem isSubtypeOf_refl (a : ValueType) : isSubtypeOf m a a := by
  rw [isSubtypeOf, decide_eq_true rfl, Bool.true_or]

theorem le_top (a : ValueType) : isSubtypeOf m a kWasmTop := by
  rw [isSubtypeOf, isSubtypeOfImpl.eq_def, if_pos (by rfl), Bool.or_true]

/-- What the subtype test of heap types says of the sentinels. -/
theorem isHeapSubtypeOfImpl_sentinel (ha : a.Of m) :
    isHeapSubtypeOfImpl m (.generic .bottom false) a ∧ isHeapSubtypeOfImpl m (.generic .top false) a = false ∧
      isHeapSubtypeOfImpl m a (.generic .bottom false) = false := by
  have htop : ∀ kind ∈ genericTypes, kind.Plain → subtypeLookup .top kind = false := by decide +kernel
  have hbo : ∀ kind ∈ genericTypes, kind.Plain → subtypeLookup kind .bottom = false := by decide +kernel
  refine ⟨?_, ?_, ?_⟩
  · rw [isHeapSubtypeOfImpl.eq_def]
    rfl
  · have hco : isSubtypeOfCommonImpl (.generic .top false) a = some false := by
      cases a with
      | generic kind isShared =>
        have hl := htop kind (mem_genericTypes kind) ha
        cases isShared
        · exact congrArg some hl
        · rfl
      | index i isExact isShared => cases isShared <;> rfl
    rw [isHeapSubtypeOfImpl.eq_def, hco]
  · have hco : isSubtypeOfCommonImpl a (.generic .bottom false) = some false := by
      have hl := hbo _ (mem_genericTypes _) ha.plain
      rw [isSubtypeOfCommonImpl, ha.not_bottom, if_neg Bool.false_ne_true]
      split
      · rfl
      · exact congrArg some hl
    rw [isHeapSubtypeOfImpl.eq_def, hco]

theorem heap_le_iff {heap₁ heap₂ : HeapType} {nullable₁ nullable₂ : Bool} (htop : heap₂.isTop = false) (hne : heap₁ ≠ heap₂) :
    isSubtypeOf m (.heap heap₁ nullable₁) (.heap heap₂ nullable₂) ↔
      ((ValueType.heap heap₁ nullable₁).isNullable → (ValueType.heap heap₂ nullable₂).isNullable) ∧
        isHeapSubtypeOfImpl m heap₁ heap₂ := by
  rw [isSubtypeOf, or_eq_true, decide_eq_true_eq, isSubtypeOfImpl, ValueType.isTop, htop, if_neg Bool.false_ne_true,
    if_neg hne, ValueType.heap.injEq]
  cases (ValueType.heap heap₁ nullable₁).isNullable <;> cases (ValueType.heap heap₂ nullable₂).isNullable <;> simp [hne]

section
variable {a b c : ValueType}

theorem bottom_le (ha : a.Of m) : isSubtypeOf m kWasmBottom a := by
  cases ha with
  | top => exact le_top _
  | bottom => exact isSubtypeOf_refl _
  | numeric => rfl
  | ref hof =>
    refine (heap_le_iff hof.not_top ?_).mpr ⟨(fun h => by cases h), (isHeapSubtypeOfImpl_sentinel hof).1⟩
    rintro rfl
    exact absurd hof.1 (by decide)

theorem ValueType.Of.nullable {h : HeapType} {nullability : Bool} (hof : (ValueType.heap h nullability).Of m)
    (hno : h.isNoneType) : nullability := by
  generalize heq : ValueType.heap h nullability = a at hof
  cases hof with
  | top | bottom =>
    cases heq
    cases hno
  | numeric => cases heq
  | ref hof hnull =>
    cases heq
    exact hnull hno

theorem HeapType.Of.ref_ne {h : HeapType} (hof : h.Of m) (nullability : Bool) :
    ValueType.heap h nullability ≠ kWasmTop ∧ ValueType.heap h nullability ≠ kWasmBottom :=
  ⟨fun heq => Bool.false_ne_true (hof.not_top.symm.trans (congrArg ValueType.isTop heq)),
    fun heq => Bool.false_ne_true (hof.not_bottom.symm.trans (congrArg ValueType.isBottom heq))⟩

/-- Reference types, the first one a subtype of the second. -/
def RefLe (m : WasmModule) (a b : ValueType) : Prop :=
  ∃ heap₁ nullable₁ heap₂ nullable₂, a = .heap heap₁ nullable₁ ∧ b = .heap heap₂ nullable₂ ∧ heap₁.Of m ∧ heap₂.Of m ∧
    (nullable₁ = true → nullable₂ = true) ∧ isHeapSubtypeOf m heap₁ heap₂ = true

/-- The shapes of a type and a supertype. -/
theorem le_cases (ha : a.Of m) (hb : b.Of m) (h : isSubtypeOf m a b) :
    b = kWasmTop ∨ a = kWasmBottom ∨ (∃ kind, a = .numeric kind ∧ b = .numeric kind) ∨ RefLe m a b := by
  cases hb with
  | top => exact .inl rfl
  | bottom =>
    cases ha with
    | top | numeric => cases h
    | bottom => exact .inr (.inl rfl)
    | ref hof =>
      have hle := (heap_le_iff rfl fun heq => (hof.ref_ne false).2 (congrArg (ValueType.heap · false) heq)).mp h
      cases hle.2.symm.trans (isHeapSubtypeOfImpl_sentinel hof).2.2
  | numeric kind =>
    cases ha with
    | top => cases h
    | bottom => exact .inr (.inl rfl)
    | numeric kind' =>
      have heq : kind' = kind := by simpa [isSubtypeOf, isSubtypeOfImpl, ValueType.isTop] using h
      exact .inr (.inr (.inl ⟨kind, congrArg _ heq, rfl⟩))
    | ref hof => simp [isSubtypeOf, isSubtypeOfImpl, ValueType.isTop, ValueType.isBottom, hof.not_bottom] at h
  | ref hofb =>
    cases ha with
    | top =>
      have hle := (heap_le_iff hofb.not_top fun heq => (hofb.ref_ne false).1 (congrArg (ValueType.heap · false) heq.symm)).mp h
      cases hle.2.symm.trans (isHeapSubtypeOfImpl_sentinel hofb).2.1
    | bottom => exact .inr (.inl rfl)
    | numeric => simp [isSubtypeOf, isSubtypeOfImpl, ValueType.isTop, hofb.not_top] at h
    | ref hofa => exact .inr (.inr (.inr ⟨_, _, _, _, rfl, rfl, hofa, hofb, (ref_le_ref hofa hofb).mp h⟩))

theorem top_le (ha : a.Of m) (h : isSubtypeOf m kWasmTop a) : a = kWasmTop := by
  rcases le_cases .top ha h with heq | heq | ⟨kind, heq, -⟩ | ⟨heap, nullable, -, -, heq, -, hof, -⟩
  · exact heq
  · cases heq
  · cases heq
  · exact absurd heq.symm (hof.ref_ne nullable).1

/-- The supertypes of a reference type. -/
theorem ref_le {heap : HeapType} {nullable : Bool} (hof : heap.Of m) (ha : (ValueType.heap heap nullable).Of m) (hb : b.Of m)
    (h : isSubtypeOf m (.heap heap nullable) b) :
    b = kWasmTop ∨ ∃ heap₂ nullable₂, b = .heap heap₂ nullable₂ ∧ heap₂.Of m ∧ (nullable → nullable₂) ∧
      isHeapSubtypeOf m heap heap₂ := by
  rcases le_cases ha hb h with heq | heq | ⟨kind, heq, -⟩ | ⟨heap₁, nullable₁, heap₂, nullable₂, heq, hb, -, hof₂, hle⟩
  · exact .inl heq
  · exact absurd heq (hof.ref_ne nullable).2
  · cases heq
  · cases heq
    exact .inr ⟨heap₂, nullable₂, hb, hof₂, hle⟩

/-- The subtypes of a reference type. -/
theorem le_ref {heap : HeapType} {nullable : Bool} (hof : heap.Of m) (hb : (ValueType.heap heap nullable).Of m) (ha : a.Of m)
    (h : isSubtypeOf m a (.heap heap nullable)) :
    a = kWasmBottom ∨ ∃ heap₁ nullable₁, a = .heap heap₁ nullable₁ ∧ heap₁.Of m ∧ (nullable₁ → nullable) ∧
      isHeapSubtypeOf m heap₁ heap := by
  rcases le_cases ha hb h with heq | heq | ⟨kind, -, heq⟩ | ⟨heap₁, nullable₁, heap₂, nullable₂, ha, heq, hof₁, -, hle⟩
  · exact absurd heq (hof.ref_ne nullable).1
  · exact .inl heq
  · cases heq
  · cases heq
    exact .inr ⟨heap₁, nullable₁, ha, hof₁, hle⟩

theorem isSubtypeOf_trans (hm : m.Sound) (ha : a.Of m) (hb : b.Of m) (hc : c.Of m) (hab : isSubtypeOf m a b)
    (hbc : isSubtypeOf m b c) : isSubtypeOf m a c := by
  rcases le_cases ha hb hab with rfl | rfl | ⟨kind, rfl, rfl⟩ | ⟨heap₁, nullable₁, heap₂, nullable₂, rfl, rfl, hof₁, hof₂, hnull, hle⟩
  · rw [top_le hc hbc]
    exact le_top a
  · exact bottom_le hc
  · exact hbc
  · rcases ref_le hof₂ hb hc hbc with rfl | ⟨heap₃, nullable₃, rfl, hof₃, hn', hle'⟩
    · exact le_top _
    · exact (ref_le_ref hof₁ hof₃).mpr ⟨fun h => hn' (hnull h), isHeapSubtypeOf_trans hm hof₁ hof₂ hof₃ hle hle'⟩

end

/-! ### The lattice -/

/-- `result` is the least of the common supertypes. -/
structure IsUnion (m : WasmModule) (a b result : ValueType) : Prop where
  of : result.Of m
  left : isSubtypeOf m a result = true
  right : isSubtypeOf m b result = true
  least : ∀ c, c.Of m → isSubtypeOf m a c = true → isSubtypeOf m b c = true → isSubtypeOf m result c = true

/-- `result` is the greatest of the common subtypes. -/
structure IsIntersection (m : WasmModule) (a b result : ValueType) : Prop where
  of : result.Of m
  left : isSubtypeOf m result a = true
  right : isSubtypeOf m result b = true
  greatest : ∀ c, c.Of m → isSubtypeOf m c a = true → isSubtypeOf m c b = true → isSubtypeOf m c result = true

section
variable {a b : ValueType}

theorem IsUnion.of_le (hb : b.Of m) (h : isSubtypeOf m a b) : IsUnion m a b b :=
  ⟨hb, h, isSubtypeOf_refl b, fun _ _ _ h => h⟩

theorem IsUnion.symm {result : ValueType} (h : IsUnion m a b result) : IsUnion m b a result :=
  ⟨h.of, h.right, h.left, fun c hc hb ha => h.least c hc ha hb⟩

/-- Types below the top only. -/
theorem IsUnion.top (h : ∀ c, c.Of m → isSubtypeOf m a c → isSubtypeOf m b c → c = kWasmTop) : IsUnion m a b kWasmTop where
  of := .top
  left := le_top a
  right := le_top b
  least c hc ha hb := by
    rw [h c hc ha hb]
    exact le_top _

theorem IsIntersection.of_le (ha : a.Of m) (h : isSubtypeOf m a b) : IsIntersection m a b a :=
  ⟨ha, isSubtypeOf_refl a, h, fun _ _ h _ => h⟩

theorem IsIntersection.symm {result : ValueType} (h : IsIntersection m a b result) : IsIntersection m b a result :=
  ⟨h.of, h.right, h.left, fun c hc hb ha => h.greatest c hc ha hb⟩

/-- Types above the bottom only. -/
theorem IsIntersection.bottom (ha : a.Of m) (hb : b.Of m)
    (h : ∀ c, c.Of m → isSubtypeOf m c a → isSubtypeOf m c b → c = kWasmBottom) :
    IsIntersection m a b kWasmBottom where
  of := .bottom
  left := bottom_le ha
  right := bottom_le hb
  greatest c hc hca hcb := by
    rw [h c hc hca hcb]
    exact isSubtypeOf_refl _

end

/-! ### Union -/

theorem isNoneType_of_le (hm : m.Sound) (ha : a.Of m) (hb : b.Of m) (h : isHeapSubtypeOf m a b)
    (hno : b.isNoneType) : a.isNoneType := by
  rw [isNoneType_iff hb] at hno
  rw [isNoneType_iff ha, (under_of_le hm ha hb h).2.eq_of_null hno]
  exact hno

theorem union_ref (hm : m.Sound) (ha : a.Of m) (hb : b.Of m) (nullable₁ nullable₂ : Bool) :
    ∃ result, IsHeapUnion m a b result ∧
      union m (.heap a nullable₁) (.heap b nullable₂) = result.elim kWasmTop (.heap · (nullable₁ || nullable₂)) := by
  have hu : union m (.heap a nullable₁) (.heap b nullable₂) =
      if a = b then .heap (a.asExact (unionExactness m a b)) (nullable₁ || nullable₂)
      else (heapUnion m a b).elim kWasmTop (.heap · (nullable₁ || nullable₂)) := by
    rw [union, if_neg (by simp [ha.ref_ne, hb.ref_ne]), if_neg (ha.ref_ne _).2, if_neg (hb.ref_ne _).2, if_neg (by
      simp [ValueType.isRef, ha.not_sentinel, hb.not_sentinel])]
    rw [heapUnion, apply_ite (Option.elim · kWasmTop (ValueType.heap · (nullable₁ || nullable₂)))]
    rfl
  rw [hu]
  by_cases heq : a = b
  · subst heq
    have hex : unionExactness m a a = a.isExact := by
      cases a with
      | generic => rfl
      | index =>
        rw [Bool.eq_iff_iff, unionExactness_index]
        simp [HeapType.isExact]
    refine ⟨some a, .of_le ha (isHeapSubtypeOf_refl a), ?_⟩
    rw [if_pos rfl, hex, HeapType.asExact_isExact]
    rfl
  · exact ⟨heapUnion m a b, heapUnion_spec hm ha hb heq, if_neg heq⟩

theorem union_ref_spec (hm : m.Sound) {nullable₁ nullable₂ : Bool} (hofa : a.Of m) (hofb : b.Of m)
    (ha : (ValueType.heap a nullable₁).Of m) :
    IsUnion m (.heap a nullable₁) (.heap b nullable₂) (union m (.heap a nullable₁) (.heap b nullable₂)) := by
  obtain ⟨result, hre, hu⟩ := union_ref hm hofa hofb nullable₁ nullable₂
  -- A common supertype other than the top is one of the heap types.
  have hco : ∀ c, c.Of m → isSubtypeOf m (.heap a nullable₁) c = true → isSubtypeOf m (.heap b nullable₂) c = true →
      c = kWasmTop ∨ ∃ heap nullable d, c = .heap heap nullable ∧ heap.Of m ∧ (nullable₁ || nullable₂ → nullable = true) ∧
        result = some d ∧ isHeapSubtypeOf m d heap = true := by
    intro c hc hac hbc
    rcases ref_le hofa ha hc hac with rfl | ⟨heap, nullable, rfl, hofc, hnu, hlea⟩
    · exact .inl rfl
    rw [ref_le_ref hofb hofc] at hbc
    obtain ⟨d, hd, hle⟩ := hre.least heap hofc hlea hbc.2
    refine .inr ⟨heap, nullable, d, rfl, hofc, fun h => ?_, hd, hle⟩
    exact (or_eq_true _ _ ▸ h).elim hnu hbc.1
  rw [hu]
  cases result with
  | none =>
    refine IsUnion.top fun c hc hac hbc => ?_
    rcases hco c hc hac hbc with rfl | ⟨_, _, _, _, _, _, hno, _⟩
    · rfl
    · cases hno
  | some d =>
    obtain ⟨hofd, hlea, hleb⟩ := hre.upper d rfl
    refine ⟨.ref hofd fun hno => ?_, ?_, ?_, fun c hc hac hbc => ?_⟩
    · rw [ha.nullable (isNoneType_of_le hm hofa hofd hlea hno), Bool.true_or]
    · exact (ref_le_ref hofa hofd).mpr ⟨fun h => by rw [h, Bool.true_or], hlea⟩
    · exact (ref_le_ref hofb hofd).mpr ⟨fun h => by rw [h, Bool.or_true], hleb⟩
    · rcases hco c hc hac hbc with rfl | ⟨heap, nullable, d', rfl, hofc, hnull, hd, hle⟩
      · exact le_top _
      · cases hd
        exact (ref_le_ref hofd hofc).mpr ⟨hnull, hle⟩

/-- The top only is above a number type and another type. -/
theorem IsUnion.of_numeric {kind : NumericKind} {b : ValueType} (hb : b.Of m) (hbo : b ≠ kWasmBottom)
    (hne : b ≠ .numeric kind) : IsUnion m (.numeric kind) b kWasmTop := by
  refine .top fun c hc hac hbc => ?_
  rcases le_cases (.numeric kind) hc hac with rfl | heq | ⟨kind', heq, rfl⟩ | ⟨_, _, _, _, heq, _⟩
  · rfl
  · cases heq
  · cases heq
    rcases le_cases hb hc hbc with heq | heq | ⟨kind', rfl, heq⟩ | ⟨_, _, _, _, _, heq, _⟩
    · cases heq
    · exact absurd heq hbo
    · exact absurd heq.symm hne
    · cases heq
  · cases heq

theorem union_spec (hm : m.Sound) {a b : ValueType} (ha : a.Of m) (hb : b.Of m) : IsUnion m a b (union m a b) := by
  by_cases htop : a = kWasmTop ∨ b = kWasmTop
  · rw [union.eq_def, if_pos htop]
    rcases htop with rfl | rfl
    · exact (IsUnion.of_le .top (le_top b)).symm
    · exact .of_le .top (le_top a)
  by_cases hba : a = kWasmBottom
  · rw [union.eq_def, if_neg htop, if_pos hba, hba]
    exact .of_le hb (bottom_le hb)
  by_cases hbb : b = kWasmBottom
  · rw [union.eq_def, if_neg htop, if_neg hba, if_pos hbb, hbb]
    exact (IsUnion.of_le ha (bottom_le ha)).symm
  have hnu : (!a.isRef || !b.isRef) = true → union m a b = if a = b then a else kWasmTop := by
    intro h
    rw [union.eq_def, if_neg htop, if_neg hba, if_neg hbb, if_pos h]
  by_cases heq : a = b ∧ (!a.isRef || !b.isRef) = true
  · rw [hnu heq.2, if_pos heq.1, ← heq.1]
    exact .of_le ha (isSubtypeOf_refl a)
  cases ha with
  | top => exact absurd (.inl rfl) htop
  | bottom => exact absurd rfl hba
  | numeric =>
    rw [hnu rfl, if_neg fun h => heq ⟨h, rfl⟩]
    exact .of_numeric hb hbb fun h => heq ⟨h.symm, rfl⟩
  | ref hofa hnul =>
    cases hb with
    | top => exact absurd (.inr rfl) htop
    | bottom => exact absurd rfl hbb
    | numeric =>
      rw [hnu (Bool.or_true _), if_neg (by simp)]
      exact (IsUnion.of_numeric (.ref hofa hnul) hba (by simp)).symm
    | ref hofb => exact union_ref_spec hm hofa hofb (.ref hofa hnul)

/-! ### Intersection -/

/-- The bottom only is below a number type and another type. -/
theorem IsIntersection.of_numeric {kind : NumericKind} {b : ValueType} (hb : b.Of m) (htop : b ≠ kWasmTop)
    (hne : b ≠ .numeric kind) : IsIntersection m (.numeric kind) b kWasmBottom := by
  refine .bottom (.numeric kind) hb fun c hc hca hcb => ?_
  rcases le_cases hc (.numeric kind) hca with heq | rfl | ⟨kind', rfl, heq⟩ | ⟨_, _, _, _, _, heq, _⟩
  · cases heq
  · rfl
  · cases heq
    rcases le_cases hc hb hcb with heq | heq | ⟨kind', heq, rfl⟩ | ⟨_, _, _, _, heq, _⟩
    · exact absurd heq htop
    · cases heq
    · exact absurd heq.symm hne
    · cases heq
  · cases heq

/-- A reference type below two others, of which both admit null if `nullability`. -/
structure CommonRef (m : WasmModule) (a b : HeapType) (nullability : Bool) (heap : HeapType) (nullable : Bool) : Prop where
  of : heap.Of m
  none : heap.isNoneType = true → nullable = true
  null : nullable = true → nullability = true
  left : isHeapSubtypeOf m heap a = true
  right : isHeapSubtypeOf m heap b = true

section
variable {nullable₁ nullable₂ : Bool} (hofa : a.Of m) (hofb : b.Of m)
include hofa hofb

section
variable (ha : (ValueType.heap a nullable₁).Of m)
include ha

theorem exists_commonRef {c : ValueType} (hc : c.Of m) (hca : isSubtypeOf m c (.heap a nullable₁))
    (hcb : isSubtypeOf m c (.heap b nullable₂)) :
    c = kWasmBottom ∨ ∃ heap nullable, c = .heap heap nullable ∧ CommonRef m a b (nullable₁ && nullable₂) heap nullable := by
  rcases le_ref hofa ha hc hca with rfl | ⟨heap, nullable, rfl, hofc, hnu, hlea⟩
  · exact .inl rfl
  rw [ref_le_ref hofc hofb] at hcb
  refine .inr ⟨heap, nullable, rfl, hofc, hc.nullable, fun h => ?_, hlea, hcb.2⟩
  rw [hnu h, hcb.1 h]
  rfl

theorem IsIntersection.of_no_commonRef (hb : (ValueType.heap b nullable₂).Of m)
    (h : ∀ heap nullable, ¬CommonRef m a b (nullable₁ && nullable₂) heap nullable) :
    IsIntersection m (.heap a nullable₁) (.heap b nullable₂) kWasmBottom := by
  refine .bottom ha hb fun c hc hca hcb => ?_
  rcases exists_commonRef hofa hofb ha hc hca hcb with heq | ⟨heap, nullable, -, hco⟩
  · exact heq
  · exact absurd hco (h heap nullable)

theorem IsIntersection.of_commonRef {d : HeapType}
    (hd : CommonRef m a b (nullable₁ && nullable₂) d (nullable₁ && nullable₂))
    (h : ∀ heap nullable, CommonRef m a b (nullable₁ && nullable₂) heap nullable → isHeapSubtypeOf m heap d) :
    IsIntersection m (.heap a nullable₁) (.heap b nullable₂) (.heap d (nullable₁ && nullable₂)) where
  of := .ref hd.of hd.none
  left := (ref_le_ref hd.of hofa).mpr ⟨fun h => (and_eq_true _ _ ▸ h).1, hd.left⟩
  right := (ref_le_ref hd.of hofb).mpr ⟨fun h => (and_eq_true _ _ ▸ h).2, hd.right⟩
  greatest c hc hca hcb := by
    rcases exists_commonRef hofa hofb ha hc hca hcb with rfl | ⟨heap, nullable, rfl, hco⟩
    · exact bottom_le (.ref hd.of hd.none)
    · exact (ref_le_ref hco.of hd.of).mpr ⟨hco.null, h heap nullable hco⟩

end

/-- Unrelated heap types have no common subtype but a null type. -/
theorem CommonRef.isNoneType (hm : m.Sound) {nullability nullable : Bool} {heap : HeapType}
    (h : CommonRef m a b nullability heap nullable)
    (hre : ¬(isHeapSubtypeOf m a b ∨ isHeapSubtypeOf m b a)) : heap.isNoneType := by
  by_contra hno
  rw [isNoneType_iff h.of, not_eq_true] at hno
  exact hre (related_of_le hm hofa hofb h.of h.left h.right hno)

theorem intersection_ref_spec (hm : m.Sound) (ha : (ValueType.heap a nullable₁).Of m)
    (hb : (ValueType.heap b nullable₂).Of m) :
    IsIntersection m (.heap a nullable₁) (.heap b nullable₂) (intersection m (.heap a nullable₁) (.heap b nullable₂)) := by
  rw [intersection, if_neg (hofa.ref_ne _).1, if_neg (hofb.ref_ne _).1, if_neg (by
    simp [ValueType.isRef, hofa.not_sentinel, hofb.not_sentinel])]
  dsimp only
  split
  · next hnull =>
    refine .of_no_commonRef hofa hofb ha hb fun heap nullable h => ?_
    rw [and_eq_true, or_eq_true] at hnull
    have hnone : heap.isNoneType = true := hnull.2.elim (isNoneType_of_le hm h.of hofa h.left)
      (isNoneType_of_le hm h.of hofb h.right)
    rw [h.null (h.none hnone)] at hnull
    cases hnull.1
  next hnull =>
  have hnu : (a.isNoneType || b.isNoneType) = true → (nullable₁ && nullable₂) = true := by
    intro h
    by_contra hn
    rw [not_eq_true] at hn
    exact hnull (by rw [hn, h]; rfl)
  split
  · next hab => 
    refine .of_commonRef hofa hofb ha ⟨hofa, fun h => hnu (by rw [h, Bool.true_or]), id, isHeapSubtypeOf_refl a, hab⟩ ?_
    exact fun heap nullable h => h.left
  next hab =>
  split
  · next hba =>
    refine .of_commonRef hofa hofb ha ⟨hofb, fun h => hnu (by rw [h, Bool.or_true]), id, hba, isHeapSubtypeOf_refl b⟩ ?_
    exact fun heap nullable h => h.right
  next hba =>
  have hre := not_or.mpr ⟨hab, hba⟩
  split
  · next hn =>
    refine .of_no_commonRef hofa hofb ha hb fun heap nullable h => ?_
    rw [h.null (h.none (h.isNoneType hofa hofb hm hre))] at hn
    cases hn
  next hn =>
  obtain ⟨ho, hno, hlea, hu⟩ := nullSentinelImpl_spec hofa
  obtain ⟨hofn, hnon, hleb, hun⟩ := nullSentinelImpl_spec hofb
  have hbo : (nullable₁ && nullable₂) = true := by simpa using hn
  split
  · next heq =>
    rw [← hbo]
    refine .of_commonRef hofa hofb ha ⟨ho, fun _ => hbo, id, hlea, heq ▸ hleb⟩ fun heap nullable h => ?_
    rw [hu heap h.of (h.isNoneType hofa hofb hm hre) h.left]
    exact isHeapSubtypeOf_refl _
  · next hne =>
    refine .of_no_commonRef hofa hofb ha hb fun heap nullable h => hne ?_
    have hnone := h.isNoneType hofa hofb hm hre
    exact (hu heap h.of hnone h.left).symm.trans (hun heap h.of hnone h.right)

end

theorem intersection_spec (hm : m.Sound) {a b : ValueType} (ha : a.Of m) (hb : b.Of m) :
    IsIntersection m a b (intersection m a b) := by
  by_cases hta : a = kWasmTop
  · rw [intersection.eq_def, if_pos hta, hta]
    exact (IsIntersection.of_le hb (le_top b)).symm
  by_cases htb : b = kWasmTop
  · rw [intersection.eq_def, if_neg hta, if_pos htb, htb]
    exact .of_le ha (le_top a)
  have hnu : (!a.isRef || !b.isRef) = true → intersection m a b = if a = b then a else kWasmBottom := by
    intro h
    rw [intersection.eq_def, if_neg hta, if_neg htb, if_pos h]
  by_cases heq : a = b ∧ (!a.isRef || !b.isRef) = true
  · rw [hnu heq.2, if_pos heq.1, ← heq.1]
    exact .of_le ha (isSubtypeOf_refl a)
  cases ha with
  | top => exact absurd rfl hta
  | bottom =>
    rw [hnu rfl, if_neg fun h => heq ⟨h, rfl⟩]
    exact .of_le .bottom (bottom_le hb)
  | numeric =>
    rw [hnu rfl, if_neg fun h => heq ⟨h, rfl⟩]
    exact .of_numeric hb htb fun h => heq ⟨h.symm, rfl⟩
  | ref hofa hnul =>
    cases hb with
    | top => exact absurd rfl htb
    | bottom =>
      rw [hnu (Bool.or_true _), if_neg (hofa.ref_ne _).2]
      exact (IsIntersection.of_le .bottom (bottom_le (.ref hofa hnul))).symm
    | numeric =>
      rw [hnu (Bool.or_true _), if_neg (by simp)]
      exact (IsIntersection.of_numeric (.ref hofa hnul) hta (by simp)).symm
    | ref hofb hnullb => exact intersection_ref_spec hofa hofb hm (.ref hofa hnul) (.ref hofb hnullb)

/-- Subtyping makes the value types of a module a lattice, with `union` and `intersection` as its
operations. -/
theorem subtyping_lattice (m : WasmModule) (hm : m.Sound) : (∀ a, a.Of m → isSubtypeOf m a a = true) ∧
    (∀ a b c, a.Of m → b.Of m → c.Of m → isSubtypeOf m a b = true → isSubtypeOf m b c = true → isSubtypeOf m a c = true) ∧
    ∀ a b, a.Of m → b.Of m → IsUnion m a b (union m a b) ∧ IsIntersection m a b (intersection m a b) :=
  ⟨fun a _ => isSubtypeOf_refl a, fun _ _ _ ha hb hc => isSubtypeOf_trans hm ha hb hc,
    fun _ _ ha hb => ⟨union_spec hm ha hb, intersection_spec hm ha hb⟩⟩

def shapes : WasmModule where
  types := [⟨.struct [(.numeric .i32, false)], none, none, none, false, false⟩,
    ⟨.struct [(.numeric .i32, false), (.numeric .f64, true)], some 0, none, none, false, false⟩,
    ⟨.struct [(.numeric .i32, false), (.numeric .i64, true)], some 0, none, none, true, false⟩]
  isorecursiveCanonicalTypeIds := [0, 1, 2]
  supertype_lt := by
    rintro (_ | _ | _ | i) definition s hget hs
    · cases hget
      cases hs
    · cases hget
      cases hs
      decide
    · cases hget
      cases hs
      decide
    · cases hget

theorem shapes_sound : shapes.Sound where
  valid := by
    intro i hi s hs
    have hlt := shapes.lt_of_supertype hs
    have hi : i < 3 := hi
    interval_cases i <;> interval_cases s <;> first | decide | cases hs
  canonical := by
    intro i hi j hj heq
    have hi : i < 3 := hi
    have hj : j < 3 := hj
    interval_cases i <;> interval_cases j <;> first | decide | cases heq

theorem union_shapes :
    union shapes (.heap (.index 1 true false .struct) true) (.heap (.index 2 false false .struct) false) =
        .heap (.index 0 false false .struct) true ∧
      IsUnion shapes (.heap (.index 1 true false .struct) true) (.heap (.index 2 false false .struct) false)
        (union shapes (.heap (.index 1 true false .struct) true) (.heap (.index 2 false false .struct) false)) := by
  refine ⟨?_, (subtyping_lattice shapes shapes_sound).2.2 _ _ ?_ ?_ |>.1⟩
  · decide +kernel
  · exact .ref ⟨by decide, rfl, rfl⟩ (by simp)
  · exact .ref ⟨by decide, rfl, rfl⟩ fun h => by cases h

end V8Multithread.Wasm
