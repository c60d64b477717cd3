import V8Multithread.Objects.Graph

/-! The image of a graph: what the deserializer makes of each object.

The image of an object is the object itself, except for how its numbers, strings and elements
are kept, for its references, which are renamed, and for the properties of an error that are
not written. An object is read property by property and entry by entry; the second half is
about putting the image together that way. -/
namespace V8Multithread.Objects
open List Option Engine Value Properties

/-! ### Images -/

/-- There is one empty string. -/
def Str.image : Str → Str
  | .twoByte [] => .oneByte []
  | s => s

def Value.image (E : Engine) (φ : Receiver → Receiver) : Value → Value
  | .heapNumber d => E.newNumber (canonical d)
  | .string s => .string s.image
  | .object r => .object (φ r)
  | v => v

def Obj.cloned : Obj → Obj
  | .error e => .error {e with others := {}}
  | o => o

def Obj.image (E : Engine) (φ : Receiver → Receiver) (o : Obj) : Obj :=
  o.cloned.transform (Value.image E φ) Str.image φ

theorem Str.units_image (s : Str) : s.image.units = s.units := by
  rcases s with chars | (- | ⟨c, chars⟩) <;> rfl

theorem Value.observe_image (E : Engine) (φ : Receiver → Receiver) (v : Value) :
    (v.image E φ).observe id = v.observe φ := by
  cases v with
  | heapNumber d =>
    show (E.newNumber (canonical d)).observe id = .heapNumber (canonical d)
    rw [newNumber]
    split
    · next i hi =>
      split
      · rw [Value.observe, doubleOfInt_of_intOfDouble hi]
      · rw [Value.observe, canonical_canonical]
    · rw [Value.observe, canonical_canonical]
  | string s => rw [Value.image, Value.observe, Value.observe, Str.observe, Str.units_image, Str.observe]
  | _ => rfl

theorem Obj.observe_image (E : Engine) (φ : Receiver → Receiver) (o : Obj) :
    (o.image E φ).observe id = o.cloned.observe φ := by
  have hva : Value.observe id ∘ Value.image E φ = Value.observe φ := by
    funext v
    exact v.observe_image E φ
  have hstr : Str.observe ∘ Str.image = Str.observe := by
    funext s
    rw [Function.comp_apply, Str.observe, Str.units_image, Str.observe]
  rw [Obj.observe, Obj.image, Obj.transform_transform, hva, hstr, Function.id_comp, Obj.observe]

theorem Obj.head_image (E : Engine) (φ : Receiver → Receiver) (o : Obj) : (o.image E φ).head = o.head := by
  cases o <;> rfl

/-! ### The numbering as a renaming -/

/-- The object with the n-th id becomes the n-th object. -/
def place (ids : List Receiver) : Receiver → Receiver
  | .own r => .own (ids.idxOf (.own r))
  | .shared k => .shared k

theorem place_injective {ids : List Receiver} {r x : Receiver} (hr : r ∈ ids) (h : place ids r = place ids x) : r = x := by
  cases r with
  | own r =>
    cases x with
    | own x =>
      injection h with h
      exact (idxOf_inj hr).mp h
    | shared k => cases h
  | shared k =>
    cases x with
    | own x => cases h
    | shared j => exact h

/-- Later ids do not change earlier ones. -/
theorem idxOf_final {ids final : List Receiver} {r : Receiver} (h : ids <+: final) (hr : r ∈ ids) :
    final.idxOf r = ids.idxOf r := by
  obtain ⟨rest, rfl⟩ := h
  exact idxOf_append_of_mem hr

/-! ### Keys -/

theorem canonical_eq_minus_zero {d : Double} (h : canonical d = minusZero) : d = minusZero := by
  rw [canonical] at h
  split at h
  · exact absurd h (by decide)
  · exact h

theorem Engine.propertyKey_of_toDouble? (E : Engine) {v : Value} {i : Nat}
    (h : v.toDouble? = some (doubleOfInt i)) (hi : i < 2 ^ 32 - 1) : E.propertyKey v = some (.index i) := by
  have hint : intOfDouble (doubleOfInt i) = some (Int.ofNat i) := intOfDouble_doubleOfInt (by omega)
  cases v with
  | smi | heapNumber => simp only [propertyKey, h, map_some, hint, if_pos hi]
  | _ => cases h

theorem toDouble?_image (E : Engine) (φ : Receiver → Receiver) {v : Value} {d : Double} (h : v.toDouble? = some d)
    (hd : canonical d = d) : (v.image E φ).toDouble? = some d := by
  cases v with
  | smi i => exact h
  | heapNumber e =>
    injection h with h
    rw [Value.image, toDouble?_newNumber, h, hd]
  | _ => cases h

theorem propertyKey_index (E : Engine) (φ : Receiver → Receiver) {i : Nat} (hi : i < 2 ^ 32 - 1) :
    E.propertyKey ((E.newNumberFromInt i).image E φ) = some (.index i) := by
  refine E.propertyKey_of_toDouble? (toDouble?_image E φ (toDouble?_newNumberFromInt E i) ?_) hi
  exact canonical_doubleOfInt (by omega)

theorem propertyKey_name (E : Engine) (φ : Receiver → Receiver) {s : Str} (hs : arrayIndex s.units = none) :
    E.propertyKey ((Value.string s).image E φ) = some (.name s.units) := by
  rw [Value.image, propertyKey, Str.units_image, hs]

def Value.rename (φ : Receiver → Receiver) : Value → Value
  | .object r => .object (φ r)
  | v => v

theorem mapKey_image (E : Engine) (φ : Receiver → Receiver) (v : Value) : (v.image E φ).mapKey = v.mapKey.rename φ := by
  cases v with
  | heapNumber d =>
    have hmi : d ≠ minusZero → canonical d ≠ minusZero := fun h hd => h (canonical_eq_minus_zero hd)
    show (E.newNumber (canonical d)).mapKey = .heapNumber (if d = minusZero then 0 else canonical d)
    by_cases hd : d = minusZero
    · have hca : canonical minusZero = minusZero := by decide
      have hint : intOfDouble minusZero = none := by decide +kernel
      subst hd
      rw [hca, newNumber, hint, if_pos rfl]
      rfl
    · rw [if_neg hd, newNumber]
      split
      · next i hi =>
        split
        · rw [mapKey, doubleOfInt_of_intOfDouble hi]
        · rw [mapKey, if_neg (hmi hd), canonical_canonical]
      · rw [mapKey, if_neg (hmi hd), canonical_canonical]
  | string s =>
    show Value.string (.twoByte s.image.units) = .string (.twoByte s.units)
    rw [Str.units_image]
  | _ => rfl

theorem normalizeZero_image (E : Engine) (φ : Receiver → Receiver) {v : Value} (h : v.normalizeZero = v) :
    (v.image E φ).normalizeZero = v.image E φ := by
  rw [normalizeZero, if_neg]
  intro him
  cases v with
  | heapNumber d =>
    have hd : some (canonical d) = some minusZero := by
      rw [← toDouble?_newNumber E (canonical d)]
      exact congrArg toDouble? him
    injection hd with hd
    rw [canonical_eq_minus_zero hd] at h
    cases h
  | _ => cases him

/-- Two different keys stay different if their objects do. -/
theorem rename_injective {φ : Receiver → Receiver} {v u : Value}
    (hφ : ∀ r x, v = .object r → u = .object x → φ r = φ x → r = x)
    (h : v.mapKey.rename φ = u.mapKey.rename φ) : v.mapKey = u.mapKey := by
  cases v <;> cases u <;> first | exact h | cases h | skip
  next r x =>
    have heq : φ r = φ x := by
      injection h
    rw [hφ r x rfl rfl heq]

/-! ### Properties -/

namespace Properties

theorem insertElement_append (i : Nat) (v : Value) (elements : List (Nat × Value))
    (h : ∀ j ∈ elements.map Prod.fst, j < i) : insertElement i v elements = elements ++ [(i, v)] := by
  induction elements with
  | nil => rfl
  | cons e rest ih =>
    have hlt : e.1 < i := h e.1 (by simp)
    rw [insertElement, if_neg (by omega), ih fun j hj => h j (by simp at hj ⊢; exact .inr hj), cons_append]

end Properties

def addProperty (E : Engine) (φ : Receiver → Receiver) (o : Obj) (property : Value × Value) : Option Obj :=
  (E.propertyKey (property.1.image E φ)).bind fun key => o.define key (property.2.image E φ)

/-- A way to make an object from its properties that lets new ones be defined, if their keys
are `Allowed`. -/
def Extensible (Allowed : PropertyKey → Prop) (make : Properties → Obj) : Prop :=
  ∀ p key v p', Allowed key → p.define v key = some p' → (make p).define key v = some (make p')

theorem extensible_jsObject : Extensible (fun _ => True) (Obj.jsObject none) := by
  intro p key v p' _ h
  rw [Obj.define, h]
  rfl

theorem extensible_jsArray (length : Nat) :
    Extensible (fun | .index i => i < length | .name n => n ≠ lengthName) (Obj.jsArray false length) := by
  intro p key v p' hkey h
  cases key with
  | index i =>
    have hl : max length (i + 1) = length := max_eq_left hkey
    rw [Obj.define, if_neg (by simp), h]
    simp only [map_some, hl]
  | name n =>
    rw [Obj.define, if_neg (fun heq => hkey (by injection heq)), h]
    rfl

section
variable {E : Engine} {I : Isolate} {φ : Receiver → Receiver} {Allowed : PropertyKey → Prop}
  {make : Properties → Obj}

/-- A loop that takes what was made of each part of a list to what is made of the part with one more. -/
theorem foldlM_steps {α σ : Type} {f : σ → α → Option σ} (g : List α → σ) (l : List α)
    (hst : ∀ done x rest, l = done ++ x :: rest → f (g done) x = some (g (done ++ [x]))) :
    l.foldlM f (g []) = some (g l) := by
  induction l using List.reverseRecOn with
  | nil => rfl
  | append_singleton l x ih =>
    rw [foldlM_append, ih fun done y rest heq => hst done y (rest ++ [x]) (by simp [heq])]
    simp [hst l x [] rfl]

/-- Elements come in the order of their indices. -/
theorem addProperty_elements (hma : Extensible Allowed make) (elements : List (Nat × Value))
    (hso : (elements.map Prod.fst).Pairwise (· < ·)) (hlt : ∀ i ∈ elements.map Prod.fst, i < 2 ^ 32 - 1)
    (hal : ∀ i ∈ elements.map Prod.fst, Allowed (.index i)) :
    (elements.map fun (i, v) => (E.newNumberFromInt i, v)).foldlM (addProperty E φ) (make {}) =
      some (make (transform (Value.image E φ) {elements := elements})) := by
  rw [foldlM_map]
  refine foldlM_steps (fun done => make (transform (Value.image E φ) {elements := done})) elements
    fun done e rest heq => ?_
  have he : e.1 ∈ elements.map Prod.fst := by simp [heq]
  have hsa : (done.map fun x => (x.1, x.2.image E φ)).map Prod.fst = done.map Prod.fst := by simp
  have hbefore : ∀ j ∈ done.map Prod.fst, j < e.1 := by
    intro j hj
    rw [heq, map_append] at hso
    exact (pairwise_append.mp hso).2.2 j hj e.1 (by simp)
  rw [addProperty, propertyKey_index E φ (hlt _ he), bind_some]
  refine hma _ _ _ _ (hal _ he) ?_
  simp only [define, transform, hsa]
  rw [if_neg fun hmem => lt_irrefl _ (hbefore _ hmem),
    Properties.insertElement_append _ _ _ (by rw [hsa]; exact hbefore), map_append]
  rfl

/-- Names come in the order in which they were defined. -/
theorem addProperty_named (hma : Extensible Allowed make) (elements : List (Nat × Value)) (named : List (Name × Value))
    (hno : (named.map Prod.fst).Nodup) (hna : ∀ n ∈ named.map Prod.fst, arrayIndex n = none)
    (hal : ∀ n ∈ named.map Prod.fst, Allowed (.name n)) :
    (named.map fun (n, v) => (Value.string (I.internalized n), v)).foldlM (addProperty E φ)
        (make (transform (Value.image E φ) ⟨elements, []⟩)) =
      some (make (transform (Value.image E φ) ⟨elements, named⟩)) := by
  rw [foldlM_map]
  refine foldlM_steps (fun done => make (transform (Value.image E φ) ⟨elements, done⟩)) named
    fun done e rest heq => ?_
  have he : e.1 ∈ named.map Prod.fst := by simp [heq]
  have hsa : (done.map fun x => (x.1, x.2.image E φ)).map Prod.fst = done.map Prod.fst := by simp
  have hnew : e.1 ∉ done.map Prod.fst := by
    intro hmem
    rw [heq, map_append] at hno
    exact (nodup_append.mp hno).2.2 e.1 hmem e.1 (by simp) rfl
  have hnam : arrayIndex (I.internalized e.1).units = none := by
    rw [I.internalized_units]
    exact hna _ he
  rw [addProperty, propertyKey_name E φ hnam, I.internalized_units, bind_some]
  refine hma _ _ _ _ (hal _ he) ?_
  simp only [define, transform, hsa]
  rw [if_neg hnew, map_append]
  rfl

theorem addProperty_own (hma : Extensible Allowed make) {p : Properties} (hp : p.Valid E)
    (hel : ∀ i ∈ p.elements.map Prod.fst, Allowed (.index i))
    (hna : ∀ n ∈ p.named.map Prod.fst, Allowed (.name n)) :
    (ownProperties E I p).foldlM (addProperty E φ) (make {}) = some (make (p.transform (Value.image E φ))) := by
  rw [ownProperties, foldlM_append, addProperty_elements hma p.elements hp.sorted hp.indices hel]
  exact addProperty_named hma p.elements p.named hp.nodup (fun n hn => (hp.names n hn).1) hna

end

/-! ### Elements of a dense array -/

def present : Nat → List (Option Value) → List (Nat × Value)
  | _, [] => []
  | i, some v :: rest => (i, v) :: present (i + 1) rest
  | i, none :: rest => present (i + 1) rest

theorem present_lookup (n i : Nat) (elements : List (Nat × Value)) (hso : (elements.map Prod.fst).Pairwise (· < ·))
    (hra : ∀ j ∈ elements.map Prod.fst, i ≤ j ∧ j < i + n) :
    present i ((List.range' i n).map fun j => elements.lookup j) = elements := by
  induction n generalizing i elements with
  | zero =>
    rcases elements with - | ⟨e, rest⟩
    · rfl
    · have := hra e.1 (by simp)
      omega
  | succ n ih =>
    rw [range'_succ, map_cons]
    by_cases hfi : ∃ v rest, elements = (i, v) :: rest
    · obtain ⟨v, rest, rfl⟩ := hfi
      rw [map_cons, pairwise_cons] at hso
      have hla : (List.range' (i + 1) n).map (fun j => ((i, v) :: rest).lookup j) =
          (List.range' (i + 1) n).map fun j => rest.lookup j := by
        apply map_congr_left
        intro j hj
        have hne : (j == i) = false := by
          rw [mem_range'_1] at hj
          simp
          omega
        rw [lookup_cons, hne]
      rw [lookup_cons_self, present, hla, ih (i + 1) rest hso.2]
      intro j hj
      have hgt := hso.1 j hj
      have hlt := hra j (by simp at hj ⊢; exact .inr hj)
      omega
    · have hnot : i ∉ elements.map Prod.fst := by
        intro hmem
        rcases elements with - | ⟨⟨j, v⟩, rest⟩
        · cases hmem
        · rw [map_cons, pairwise_cons] at hso
          rcases mem_cons.mp hmem with heq | hrest
          · exact hfi ⟨v, rest, by rw [heq]⟩
          · have hlt := hso.1 i hrest
            have hge := hra j (by simp)
            omega
      have hl : elements.lookup i = none := by
        rw [lookup_eq_none_iff]
        intro e he
        simp
        rintro rfl
        exact hnot (mem_map_of_mem he)
      rw [hl, present]
      refine ih (i + 1) elements hso fun j hj => ?_
      have hra := hra j hj
      have hne : j ≠ i := fun heq => hnot (heq ▸ hj)
      omega

theorem present_denseElements {length : Nat} {p : Properties} (hso : (p.elements.map Prod.fst).Pairwise (· < ·))
    (hlt : ∀ i ∈ p.elements.map Prod.fst, i < length) : present 0 (denseElements length p) = p.elements := by
  rw [denseElements, range_eq_range']
  exact present_lookup length 0 p.elements hso fun j hj => ⟨Nat.zero_le _, by rw [Nat.zero_add]; exact hlt j hj⟩

/-! ### Maps and sets -/

section
variable {E : Engine} {φ : Receiver → Receiver}

/-- The keys of images are as different as the keys. -/
theorem ValidKeys.image {keys : List Value} (h : ValidKeys keys)
    (hφ : ∀ r x, .object r ∈ keys → .object x ∈ keys → φ r = φ x → r = x) :
    ((keys.map (Value.image E φ)).map mapKey).Nodup := by
  have hmap : (keys.map (Value.image E φ)).map mapKey = keys.map fun k => k.mapKey.rename φ := by
    rw [List.map_map]
    exact map_congr_left fun k _ => mapKey_image E φ k
  rw [hmap]
  refine (nodup_map_iff_inj_on h.nodup.of_map).mpr fun k hk u hu heq => ?_
  have hke := rename_injective (fun r x hr hx => hφ r x (hr ▸ hk) (hx ▸ hu)) heq
  exact inj_on_of_nodup_map h.nodup hk hu hke

theorem mapSet_new {entries : List (Value × Value)} {key value : Value}
    (h : key.mapKey ∉ (entries.map Prod.fst).map mapKey) (hzero : key.normalizeZero = key) :
    mapSet key value entries = entries ++ [(key, value)] := by
  rw [mapSet, if_neg, hzero]
  intro hany
  obtain ⟨e, he, hkey⟩ := List.any_eq_true.mp hany
  exact h (by rw [← of_decide_eq_true hkey]; exact mem_map_of_mem (mem_map_of_mem he))

theorem foldlM_mapSet (entries : List (Value × Value))
    (hno : ((entries.map Prod.fst).map fun k => (k.image E φ).mapKey).Nodup)
    (hzero : ∀ e ∈ entries, e.1.normalizeZero = e.1) :
    entries.foldlM (fun o e => Obj.mapSet (e.1.image E φ) (e.2.image E φ) o) (.map []) =
      some (.map (entries.map fun (k, v) => (k.image E φ, v.image E φ))) := by
  refine foldlM_steps (fun done => Obj.map (done.map fun (k, v) => (k.image E φ, v.image E φ))) entries fun done e rest heq => ?_
  have hnew : (e.1.image E φ).mapKey ∉ ((done.map fun (k, v) => (k.image E φ, v.image E φ)).map Prod.fst).map mapKey := by
    intro hmem
    rw [heq, map_append, map_append] at hno
    exact (nodup_append.mp hno).2.2 _ (by simpa using hmem) _ (by simp) rfl
  rw [Obj.mapSet, mapSet_new hnew (normalizeZero_image E φ (hzero e (by simp [heq]))), map_append]
  rfl

theorem setAdd_new {entries : List Value} {value : Value} (h : value.mapKey ∉ entries.map mapKey)
    (hzero : value.normalizeZero = value) : setAdd value entries = entries ++ [value] := by
  rw [setAdd, if_neg, hzero]
  intro hany
  obtain ⟨e, he, hkey⟩ := List.any_eq_true.mp hany
  exact h (by rw [← of_decide_eq_true hkey]; exact mem_map_of_mem he)

theorem foldlM_setAdd (entries : List Value) (hno : (entries.map fun k => (k.image E φ).mapKey).Nodup)
    (hzero : ∀ v ∈ entries, v.normalizeZero = v) :
    entries.foldlM (fun o v => Obj.setAdd (v.image E φ) o) (.set []) = some (.set (entries.map (Value.image E φ))) := by
  refine foldlM_steps (fun done => Obj.set (done.map (Value.image E φ))) entries fun done v rest heq => ?_
  have hnew : (v.image E φ).mapKey ∉ (done.map (Value.image E φ)).map mapKey := by
    intro hmem
    rw [heq, map_append] at hno
    rw [List.map_map] at hmem
    exact (nodup_append.mp hno).2.2 _ hmem _ (by simp) rfl
  rw [Obj.setAdd, setAdd_new hnew (normalizeZero_image E φ (hzero v (by simp [heq]))), map_append]
  rfl

end

end V8Multithread.Objects
