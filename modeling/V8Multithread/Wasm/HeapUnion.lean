import V8Multithread.Wasm.HeapTypes

/-! The least common supertype of two heap types, if they have a common supertype. -/
namespace V8Multithread.Wasm
open Base.Ancestry HeapType

variable {m : WasmModule}

/-! ### The least common supertype -/

/-- A heap type, or none, that is the least above two. -/
structure IsHeapUnion (m : WasmModule) (a b : HeapType) (result : Option HeapType) : Prop where
  upper : ∀ c, result = some c → c.Of m ∧ isHeapSubtypeOf m a c = true ∧ isHeapSubtypeOf m b c = true
  least : ∀ c, c.Of m → isHeapSubtypeOf m a c = true → isHeapSubtypeOf m b c = true →
    ∃ d, result = some d ∧ isHeapSubtypeOf m d c = true

theorem IsHeapUnion.symm {a b : HeapType} {result : Option HeapType} (h : IsHeapUnion m a b result) :
    IsHeapUnion m b a result where
  upper c hc := ⟨(h.upper c hc).1, (h.upper c hc).2.2, (h.upper c hc).2.1⟩
  least c hc hbc hac := h.least c hc hac hbc

variable {a b : HeapType}

theorem IsHeapUnion.of_le (hb : b.Of m) (hab : isHeapSubtypeOf m a b) : IsHeapUnion m a b (some b) where
  upper c hc := by
    cases hc
    exact ⟨hb, hab, isHeapSubtypeOf_refl b⟩
  least c _ _ hbc := ⟨b, rfl, hbc⟩

/-- Types of different sharedness have nothing above them. -/
theorem IsHeapUnion.of_shared (hm : m.Sound) (ha : a.Of m) (hb : b.Of m) (hsh : a.isShared ≠ b.isShared) :
    IsHeapUnion m a b none where
  upper _ hc := nomatch hc
  least _ hc hac hbc :=
    absurd ((under_of_le hm ha hc hac).1.trans (under_of_le hm hb hc hbc).1.symm) hsh

/-- Types that have only abstract types above both. -/
theorem IsHeapUnion.of_generic (ha : a.Of m) (hb : b.Of m) (hsh : a.isShared = b.isShared)
    (hin : ∀ c, c.Of m → isHeapSubtypeOf m a c → isHeapSubtypeOf m b c → c.hasIndex = false) :
    let kind := commonAncestorLookup (upcastToStandardType a) (upcastToStandardType b)
    IsHeapUnion m a b (if kind = .top then none else some (.generic kind a.isShared)) := by
  intro kind
  obtain ⟨hki, hl⟩ := commonAncestorLookup_spec ha.plain hb.plain
  constructor
  · intro c hc
    split at hc
    · cases hc
    next htop =>
    cases hc
    obtain ⟨hp, hu, hun⟩ := hki.resolve_left htop
    exact ⟨hp, (heap_le_generic ha hp).mpr ⟨rfl, hu⟩, (heap_le_generic hb hp).mpr ⟨hsh.symm, hun⟩⟩
  · intro c hc hac hbc
    cases c with
    | generic kindc =>
      obtain ⟨hsha, hu⟩ := (heap_le_generic ha hc).mp hac
      obtain ⟨-, hun⟩ := (heap_le_generic hb hc).mp hbc
      obtain ⟨htop, hund⟩ := hl kindc hu hun
      obtain ⟨hp, -, -⟩ := hki.resolve_left htop
      refine ⟨.generic kind a.isShared, if_neg htop, ?_⟩
      exact (heap_le_generic (h := .generic kind a.isShared) hp hc).mpr ⟨hsha, hund⟩
    | index => cases hin _ hc hac hbc

/-! The two loops over the declared supertypes. -/

variable {i j : Nat} {kind : GenericKind}

theorem equivalentIndices_iff : equivalentIndices m i j ↔ m.canonicalTypeId i = m.canonicalTypeId j := by
  rw [equivalentIndices, Bool.or_eq_true, decide_eq_true_eq, decide_eq_true_eq]
  exact or_iff_right_of_imp (congrArg _)

section
variable (hm : m.Sound)
include hm

/-- Going up to a depth leaves out no ancestor of that depth or less. -/
theorem raise_spec {d steps i : Nat} (hi : i < m.types.length) (hde : m.getSubtypingDepth i = d + steps) :
    ∃ i', raise m steps (some i) = some i' ∧ i' < m.types.length ∧ m.getSubtypingDepth i' = d ∧
      (∀ c, hm.forest.Below i' c → hm.forest.Below i c) ∧
      ∀ c < m.types.length, m.getSubtypingDepth c ≤ d → hm.forest.Below i c → hm.forest.Below i' c := by
  induction steps generalizing i with
  | zero => exact ⟨i, rfl, hi, hde, fun _ h => h, fun _ _ _ h => h⟩
  | succ steps ih =>
    cases hsu : m.supertype i with
    | none => exact absurd (getSubtypingDepth_none hsu) (by omega)
    | some s =>
      have hdep := getSubtypingDepth_some hsu
      obtain ⟨i', hra, hi', hd', hup, hdo⟩ := ih ((m.lt_of_supertype hsu).trans hi) (i := s) (by omega)
      refine ⟨i', ?_, hi', hd', fun c h => .up hsu (hup c h), fun c hc hle h => hdo c hc hle ?_⟩
      · rw [raise, Option.bind_some, hsu, hra]
      · obtain ⟨s', hs', h'⟩ := h.of_depth_lt hi hc (show m.getSubtypingDepth c < m.getSubtypingDepth i by omega)
        obtain rfl := Option.some.inj (hsu.symm.trans hs')
        exact h'

/-- What the index of the common ancestor has to be. -/
def IsCommonIndex (hm : m.Sound) (i j : Nat) : Option Nat → Prop
  | some k => k < m.types.length ∧ hm.forest.IsLeastAbove i j k
  | none => ∀ c < m.types.length, hm.forest.Below i c → ¬ hm.forest.Below j c

theorem ascend_spec (hi : i < m.types.length) (hj : j < m.types.length)
    (hde : m.getSubtypingDepth i = m.getSubtypingDepth j) : IsCommonIndex hm i j (ascend m (some i) (some j)) := by
  induction i using Nat.strong_induction_on generalizing j with
  | _ i ih =>
    rw [ascend]
    split
    · next hkey =>
      rw [equivalentIndices_iff] at hkey
      exact ⟨hi, .refl _ _, .here hkey.symm, fun _ _ h _ => h⟩
    next hkey =>
    rw [equivalentIndices_iff] at hkey
    have hp := fun c hc => Forest.Below.parents (F := hm.forest) (c := c) hi hj hc hde hkey
    split
    · next hsu =>
      intro c hc hic hjc
      obtain ⟨i', -, hi', -⟩ := hp c hc hic hjc
      cases hsu.symm.trans hi'
    · next s hsu =>
      have hdep := getSubtypingDepth_some hsu
      cases hs' : m.supertype j with
      | none => exact absurd (getSubtypingDepth_none hs') (by omega)
      | some s' =>
        have hd' := getSubtypingDepth_some hs'
        have hsp := ih s (m.lt_of_supertype hsu) ((m.lt_of_supertype hsu).trans hi)
          ((m.lt_of_supertype hs').trans hj) (by omega)
        -- a common ancestor of both is one of their supertypes
        have hco : ∀ c < m.types.length, hm.forest.Below i c → hm.forest.Below j c →
            hm.forest.Below s c ∧ hm.forest.Below s' c := by
          intro c hc hic hjc
          obtain ⟨i', j', hi', hj', hic', hjc'⟩ := hp c hc hic hjc
          obtain rfl := Option.some.inj (hsu.symm.trans hi')
          obtain rfl := Option.some.inj (hs'.symm.trans hj')
          exact ⟨hic', hjc'⟩
        cases hasc : ascend m (some s) (some s') with
        | none =>
          rw [hasc] at hsp
          intro c hc hic hjc
          obtain ⟨hsc, hsc'⟩ := hco c hc hic hjc
          exact hsp c hc hsc hsc'
        | some =>
          rw [hasc] at hsp
          refine ⟨hsp.1, .up hsu hsp.2.left, .up hs' hsp.2.right, fun c hc hic hjc => ?_⟩
          obtain ⟨hsc, hsc'⟩ := hco c hc hic hjc
          exact hsp.2.least c hc hsc hsc'

theorem commonIndex_spec (hi : i < m.types.length) (hj : j < m.types.length) :
    IsCommonIndex hm i j (ascend m (raise m (m.getSubtypingDepth i - m.getSubtypingDepth j) (some i))
      (raise m (m.getSubtypingDepth j - m.getSubtypingDepth i) (some j))) := by
  let d := min (m.getSubtypingDepth i) (m.getSubtypingDepth j)
  obtain ⟨i', hra, hi', hde, hup, hdo⟩ := (@raise_spec _ hm d
    (m.getSubtypingDepth i - m.getSubtypingDepth j)) hi (by omega)
  obtain ⟨j', hra', hj', hd', hup', hdo'⟩ := (@raise_spec _ hm d
    (m.getSubtypingDepth j - m.getSubtypingDepth i)) hj (by omega)
  have hsp := ascend_spec hm hi' hj' (hde.trans hd'.symm)
  have hco : ∀ c < m.types.length, hm.forest.Below i c → hm.forest.Below j c →
      hm.forest.Below i' c ∧ hm.forest.Below j' c := by
    intro c hc hic hjc
    have hle : m.getSubtypingDepth c ≤ m.getSubtypingDepth i := hic.depth_le hi hc
    have hle' : m.getSubtypingDepth c ≤ m.getSubtypingDepth j := hjc.depth_le hj hc
    exact ⟨hdo c hc (by omega) hic, hdo' c hc (by omega) hjc⟩
  rw [hra, hra']
  cases hasc : ascend m (some i') (some j') with
  | none =>
    rw [hasc] at hsp
    intro c hc hic hjc
    obtain ⟨hic', hjc'⟩ := hco c hc hic hjc
    exact hsp c hc hic' hjc'
  | some k =>
    rw [hasc] at hsp
    refine ⟨hsp.1, hup k hsp.2.left, hup' k hsp.2.right, fun c hc hic hjc => ?_⟩
    obtain ⟨hic', hjc'⟩ := hco c hc hic hjc
    exact hsp.2.least c hc hic' hjc'

end

/-! The three cases of the union. -/

theorem HeapType.Of.not_top {a : HeapType} (ha : a.Of m) : a.isTop = false := by
  cases a with
  | generic =>
    rw [isTop, decide_eq_false_iff_not]
    rintro rfl
    exact absurd ha.1 (by decide)
  | index => rfl

theorem HeapType.asExact_isExact (a : HeapType) : a.asExact a.isExact = a := by cases a <;> rfl

/-- The result of the table, as a type or the top. -/
theorem generic_result {isShared : Bool} (exactness : Bool) :
    (if (HeapType.generic kind isShared).isTop = true then none else some ((HeapType.generic kind isShared).asExact exactness)) =
      if kind = .top then none else some (HeapType.generic kind isShared) := by
  rw [isTop, asExact]
  simp only [decide_eq_true_eq]

/-- Null types below the same type are the same. -/
theorem Under.null_unique {a b : GenericKind} (hki : kind.Plain) (ha : isNullKind a)
    (hb : isNullKind b) (hak : Under a kind) (hbk : Under b kind) : a = b := by
  obtain ⟨null, -, -, -, -, hu⟩ := find_noneTypes hki
  exact (hu a ha hak).trans (hu b hb hbk).symm

theorem unionExactness_index {exact₁ exact₂ shared₁ shared₂ : Bool} {kind₁ kind₂ : RefTypeKind} :
    unionExactness m (.index i exact₁ shared₁ kind₁) (.index j exact₂ shared₂ kind₂) ↔
      exact₁ ∧ exact₂ ∧ m.canonicalTypeId i = m.canonicalTypeId j := by
  rw [← equivalentIndices_iff]
  cases exact₁ <;> cases exact₂ <;> simp [unionExactness, HeapType.isExact, isNoneType]

section
variable (hm : m.Sound)
include hm

theorem commonAncestorWithAbstract_spec {isShared : Bool} (ha : kind.Plain) (hb : b.Of m)
    (hne : HeapType.generic kind isShared ≠ b) (exactness : Bool)
    (hex : isNullKind kind → exactness = b.isExact) :
    let resultType := commonAncestorWithAbstract (.generic kind isShared) b
    IsHeapUnion m (.generic kind isShared) b (if resultType.isTop then none else some (resultType.asExact exactness)) := by
  have hof : HeapType.Of m (.generic kind isShared) := ha
  intro resultType
  by_cases hsh : isShared = b.isShared
  swap
  · have hre : resultType = .generic .top false := if_pos hsh
    rw [hre]
    exact .of_shared hm hof hb hsh
  obtain ⟨result, hco⟩ : ∃ result, isSubtypeOfCommonImpl (.generic kind isShared) b = some result := by
    rw [← Option.isSome_iff_exists, isSubtypeOfCommonImpl, show (HeapType.generic kind isShared).hasIndex = false from rfl,
      Bool.and_false, if_neg Bool.false_ne_true]
    split_ifs <;> rfl
  have hle : isHeapSubtypeOf m (.generic kind isShared) b = true ↔ result = true := by
    rw [isHeapSubtypeOf_of_common hco]
    exact or_iff_right hne
  have hre : resultType = if result = true then b
      else .generic (commonAncestorLookup kind (upcastToStandardType b)) isShared := by
    show commonAncestorWithAbstract _ _ = _
    rw [commonAncestorWithAbstract, hco]
    refine (if_neg (not_not.mpr hsh)).trans ?_
    simp only [Option.some.injEq]
    rfl
  rw [hre]
  split
  · next hsub =>
    -- below the other type, which is only exact if this one is a null type
    have heq : b.asExact exactness = b := by
      cases b with
      | generic => rfl
      | index =>
        obtain ⟨-, hnull, -⟩ := (generic_le_index ha).mp (hle.mpr hsub)
        rw [hex hnull]
        exact asExact_isExact _
    rw [hb.not_top, if_neg Bool.false_ne_true, heq]
    exact .of_le hb (hle.mpr hsub)
  · next hsub =>
    rw [generic_result]
    refine IsHeapUnion.of_generic hof hb hsh fun c hc hac hbc => ?_
    cases c with
    | generic => rfl
    | index k exactc sharec kindc =>
      obtain ⟨-, hnull, hu⟩ := (generic_le_index ha).mp hac
      cases b with
      | generic kindb shareb =>
        obtain ⟨-, hnu, hun⟩ := (generic_le_index hb).mp hbc
        refine absurd ?_ hne
        rw [hu.null_unique kindc.upcast_plain.1 hnull hnu hun, show isShared = shareb from hsh]
      | index j exactb shareb kindb =>
        obtain ⟨_, _, heq, -⟩ := exists_index_of_le hm hb hc hbc kindb.upcast_plain.2
        cases heq
        exact absurd (hle.mp ((generic_le_index ha).mpr ⟨hsh, hnull, hu⟩)) hsub

theorem commonAncestor_spec {exact₁ exact₂ shared₁ shared₂ : Bool} {kind₁ kind₂ : RefTypeKind}
    (ha : HeapType.Of m (.index i exact₁ shared₁ kind₁)) (hb : HeapType.Of m (.index j exact₂ shared₂ kind₂)) :
    let a := HeapType.index i exact₁ shared₁ kind₁
    let b := HeapType.index j exact₂ shared₂ kind₂
    let resultType := commonAncestor m a b
    IsHeapUnion m a b (if resultType.isTop then none else some (resultType.asExact (unionExactness m a b))) := by
  intro a b resultType
  by_cases hsh : shared₁ = shared₂
  swap
  · have hre : resultType = .generic .top false := if_pos hsh
    rw [hre]
    exact .of_shared hm ha hb hsh
  have hsp := commonIndex_spec hm ha.1 hb.1
  have hre : resultType = _ := if_neg (not_not.mpr hsh)
  -- an indexed type above both is one above both indices
  have hbe : ∀ k exactc sharec kindc, HeapType.Of m (.index k exactc sharec kindc) →
      isHeapSubtypeOf m a (.index k exactc sharec kindc) = true → isHeapSubtypeOf m b (.index k exactc sharec kindc) = true →
      hm.forest.Below i k ∧ hm.forest.Below j k := by
    intro k exactc sharec kindc hc hac hbc
    rw [index_le_index hm ha hc] at hac
    rw [index_le_index hm hb hc] at hbc
    split at hac
    · next h =>
      rw [if_pos h] at hbc
      exact ⟨.here hac.2, .here hbc.2⟩
    · next h =>
      rw [if_neg h] at hbc
      exact ⟨hac, hbc⟩
  cases hin : ascend m (raise m (m.getSubtypingDepth i - m.getSubtypingDepth j) (some i))
      (raise m (m.getSubtypingDepth j - m.getSubtypingDepth i) (some j)) with
  | none =>
    rw [hin] at hsp
    rw [hin] at hre
    rw [hre, generic_result]
    refine IsHeapUnion.of_generic ha hb hsh fun c hc hac hbc => ?_
    cases c with
    | generic => rfl
    | index k exactc sharec kindc =>
      obtain ⟨hik, hjk⟩ := hbe k exactc sharec kindc hc hac hbc
      exact absurd hjk (hsp k hc.1 hik)
  | some k =>
    rw [hin] at hsp
    rw [hin] at hre
    obtain ⟨hk, hl⟩ := hsp
    obtain ⟨hkin, hsha⟩ := kind_of_below hm ha.1 hk hl.left
    have hof : ∀ isExact, HeapType.Of m (.index k isExact shared₁ kind₁) :=
      fun isExact => ⟨hk, ha.2.1.trans hsha, ha.2.2.trans hkin⟩
    rw [hre]
    show IsHeapUnion m a b (some (.index k (unionExactness m a b) shared₁ kind₁))
    by_cases hex : unionExactness m a b = true
    · -- both are the same exact type
      rw [hex]
      obtain ⟨he₁, he₂, hkey⟩ := unionExactness_index.mp hex
      have hki : m.canonicalTypeId i = m.canonicalTypeId k := by
        have hba := hl.least i ha.1 (.refl _ _) (.here hkey.symm)
        exact hl.left.key_eq ha.1 hk (le_antisymm (hl.left.depth_le ha.1 hk) (hba.depth_le hk ha.1))
      constructor
      · intro c hc
        cases hc
        refine ⟨hof true, ?_, ?_⟩
        · rw [index_le_index hm ha (hof true), if_pos rfl]
          exact ⟨he₁, hki⟩
        · rw [index_le_index hm hb (hof true), if_pos rfl]
          exact ⟨he₂, hkey.symm.trans hki⟩
      · intro c hc hac _
        refine ⟨_, rfl, isHeapSubtypeOf_trans hm (hof true) ha hc ?_ hac⟩
        rw [index_le_index hm (hof true) ha, if_pos he₁]
        exact ⟨rfl, hki.symm⟩
    · rw [Bool.not_eq_true] at hex
      rw [hex]
      constructor
      · intro c hc
        cases hc
        refine ⟨hof false, ?_, ?_⟩
        · rw [index_le_index hm ha (hof false), if_neg Bool.false_ne_true]
          exact hl.left
        · rw [index_le_index hm hb (hof false), if_neg Bool.false_ne_true]
          exact hl.right
      · intro c hc hac hbc
        refine ⟨_, rfl, ?_⟩
        cases c with
        | generic => exact (heap_le_generic (hof false) hc).mpr ((heap_le_generic ha hc).mp hac)
        | index c exactc sharec kindc =>
          obtain ⟨hic, hjc⟩ := hbe c exactc sharec kindc hc hac hbc
          rw [index_le_index hm ha hc] at hac
          rw [index_le_index hm hb hc] at hbc
          rw [index_le_index hm (hof false) hc]
          split
          · next h =>
            rw [if_pos h] at hac hbc
            have hsa : unionExactness m a b = true := unionExactness_index.mpr ⟨hac.1, hbc.1, hac.2.trans hbc.2.symm⟩
            cases hex.symm.trans hsa
          · exact hl.least c hc.1 hic hjc

end

/-- The heap type of the union; nothing stands for the top. -/
def heapUnion (m : WasmModule) (a b : HeapType) : Option HeapType :=
  let resultType :=
    if a.isAbstractRef then commonAncestorWithAbstract a b
    else if b.isAbstractRef then commonAncestorWithAbstract b a
    else commonAncestor m a b
  if resultType.isTop then none else some (resultType.asExact (unionExactness m a b))

/-- An abstract type leaves the other one exact only if it is a null type. -/
theorem unionExactness_generic (kind : GenericKind) (isShared : Bool) (b : HeapType) :
    unionExactness m (.generic kind isShared) b = (b.isExact && (HeapType.generic kind isShared).isNoneType) ∧
      unionExactness m b (.generic kind isShared) = (b.isExact && (HeapType.generic kind isShared).isNoneType) := by
  cases b with
  | generic => exact ⟨rfl, rfl⟩
  | index j isExact => cases isExact <;> exact ⟨rfl, rfl⟩

theorem heapUnion_spec (hm : m.Sound) (ha : a.Of m) (hb : b.Of m) (hne : a ≠ b) : IsHeapUnion m a b (heapUnion m a b) := by
  have hab : ∀ {kind isShared}, HeapType.Of m (.generic kind isShared) →
      (HeapType.generic kind isShared).isAbstractRef = true := by
    intro kind isShared h
    rw [isAbstractRef, h.1]
    rfl
  have hin : ∀ i isExact isShared kind, (HeapType.index i isExact isShared kind).isAbstractRef = false :=
    fun _ _ _ _ => rfl
  have hno : ∀ {kind isShared}, HeapType.Of m (.generic kind isShared) → isNullKind kind = true →
      (HeapType.generic kind isShared).isNoneType = true := by
    intro kind isShared h hnull
    rw [isNoneType, h.1, hnull]
    rfl
  rw [heapUnion]
  cases a with
  | generic kind isShared =>
    rw [if_pos (hab ha)]
    refine commonAncestorWithAbstract_spec hm ha hb hne _ fun hnull => ?_
    rw [(unionExactness_generic kind isShared b).1, hno ha hnull, Bool.and_true]
  | index =>
    cases b with
    | generic kind' isShared' =>
      simp only [hin, hab hb, Bool.false_eq_true, if_false, if_true]
      refine (commonAncestorWithAbstract_spec hm hb ha hne.symm _ fun hnull => ?_).symm
      rw [(unionExactness_generic kind' isShared' _).2, hno hb hnull, Bool.and_true]
    | index =>
      simp only [hin, Bool.false_eq_true, if_false]
      exact commonAncestor_spec hm ha hb

end V8Multithread.Wasm
