import V8Multithread.Strings.SearchTables

/-! Whatever strategy is at work, a search finds the first occurrence of the pattern. -/
namespace V8Multithread.Strings.StringSearch
open Nat List Option Base.Matching

/-! ### The first character -/

theorem length_toBytes (size : CharSize) (c : Nat) : (toBytes size c).length = size.sizeof := by cases size <;> rfl

theorem drop_flatMap_toBytes (size : CharSize) (chars : List Nat) (pos : Nat) :
    (chars.flatMap (toBytes size)).drop (pos * size.sizeof) = (chars.drop pos).flatMap (toBytes size) := by
  induction pos generalizing chars with
  | zero => rw [zero_mul, drop_zero, drop_zero]
  | succ pos ih =>
    cases chars with
    | nil => rw [drop_nil, flatMap_nil, drop_nil]
    | cons c chars =>
      rw [flatMap_cons, drop_succ_cons, ← ih, succ_mul, add_comm, ← List.drop_drop,
        drop_left' (length_toBytes size c)]

theorem take_flatMap_toBytes (size : CharSize) (chars : List Nat) (count : Nat) :
    (chars.flatMap (toBytes size)).take (count * size.sizeof) = (chars.take count).flatMap (toBytes size) := by
  induction count generalizing chars with
  | zero => rw [zero_mul, take_zero, take_zero, flatMap_nil]
  | succ count ih =>
    cases chars with
    | nil => rw [take_nil, flatMap_nil, take_nil]
    | cons c chars =>
      rw [flatMap_cons, take_succ_cons, flatMap_cons, ← ih, succ_mul, add_comm, take_append,
        take_of_length_le (by rw [length_toBytes]; omega), length_toBytes, Nat.add_sub_cancel_left]

/-- The character of the first byte with a value is the first character that has such a byte. -/
theorem memchr_flatMap (size : CharSize) (chars : List Nat) (byte : Nat) :
    (memchr (chars.flatMap (toBytes size)) byte).map (· / size.sizeof) = chars.findIdx? fun c => byte ∈ toBytes size c := by
  induction chars with
  | nil => rfl
  | cons c chars ih =>
    have hpos : 0 < size.sizeof := by cases size <;> decide
    rw [findIdx?_cons, ← ih, memchr, flatMap_cons, findIdx?_append, length_toBytes]
    by_cases hmem : byte ∈ toBytes size c
    · obtain ⟨k, hk, hget⟩ := getElem_of_mem hmem
      cases hfi : (toBytes size c).findIdx? (· = byte) with
      | none => exact absurd (findIdx?_eq_none_iff.mp hfi byte hmem) (by simp)
      | some k =>
        obtain ⟨hlt, -⟩ := findIdx?_eq_some_iff_getElem.mp hfi
        rw [length_toBytes] at hlt
        simp [hmem, div_eq_of_lt hlt]
    · have hfi : (toBytes size c).findIdx? (· = byte) = none := by
        refine findIdx?_eq_none_iff.mpr fun x hx => ?_
        rw [decide_eq_false_iff_not]
        rintro rfl
        exact hmem hx
      rw [hfi, none_or, if_neg (by simpa using hmem), Option.map_map, Option.map_map, memchr]
      congr 1
      funext k
      exact add_div_right k hpos

section
variable {patternSize subjectSize : CharSize} {pattern : CharVector patternSize} {subject : CharVector subjectSize}

/-- One call of `memchr`. -/
theorem memchr_spec {byte pos maxN : Nat} (hma : maxN ≤ subject.length) :
    FirstIn (fun i => byte ∈ toBytes subjectSize (subject.get i)) pos maxN
      ((memchr ((subject.bytes.drop (pos * subjectSize.sizeof)).take ((maxN - pos) * subjectSize.sizeof)) byte).map
        fun offset => pos + offset / subjectSize.sizeof) := by
  rw [CharVector.bytes, drop_flatMap_toBytes, take_flatMap_toBytes]
  have h := memchr_flatMap subjectSize ((subject.chars.drop pos).take (maxN - pos)) byte
  have hget : ∀ k < maxN - pos, ((subject.chars.drop pos).take (maxN - pos))[k]? = some (subject.get (pos + k)) := by
    intro k hk
    have hlt : pos + k < subject.chars.length := by rw [CharVector.length] at hma; omega
    rw [getElem?_take_of_lt hk, getElem?_drop, CharVector.get, getD_eq_getElem _ _ hlt,
      getElem?_eq_getElem hlt]
  have hl : ((subject.chars.drop pos).take (maxN - pos)).length = maxN - pos := by
    rw [CharVector.length] at hma
    rw [length_take, length_drop]
    omega
  generalize (subject.chars.drop pos).take (maxN - pos) = chars at h hget hl
  cases hre : memchr (chars.flatMap (toBytes subjectSize)) byte with
  | none => 
    rw [hre] at h
    intro i hi hlt hmem
    have hno := findIdx?_eq_none_iff.mp h.symm _ (mem_of_getElem? (hget (i - pos) (by omega)))
    rw [Nat.add_sub_cancel' hi, decide_eq_false_iff_not] at hno
    exact hno hmem
  | some offset =>
    rw [hre, map_some] at h
    rw [map_some]
    obtain ⟨hlt, hmem, hbefore⟩ := findIdx?_eq_some_iff_getElem.mp h.symm
    have hch : ∀ k (hk : k < chars.length), chars[k] = subject.get (pos + k) := fun k hk =>
      Option.some.inj ((getElem?_eq_getElem hk).symm.trans (hget k (hl ▸ hk)))
    rw [hch, decide_eq_true_eq] at hmem
    refine ⟨Nat.le_add_right .., add_lt_of_lt_sub' (hl ▸ hlt), hmem, fun k hk hlt' hmem' => ?_⟩
    have hnot := hbefore (k - pos) (by omega)
    rw [hch, Nat.add_sub_cancel' hk, decide_eq_true_eq] at hnot
    exact hnot hmem'

theorem findByte_spec {byte char maxN : Nat} (hma : maxN ≤ subject.length) (hby : byte ∈ toBytes subjectSize char) (pos : Nat) :
    FirstIn (fun i => subject.get i = char) pos maxN (findByte subject byte char maxN pos) := by
  induction h : maxN - pos using Nat.strong_induction_on generalizing pos with
  | _ left ih =>
    have hch : ∀ i, subject.get i = char → byte ∈ toBytes subjectSize (subject.get i) := by
      intro i heq
      rw [heq]
      exact hby
    have hme := (@memchr_spec _ subject byte pos) hma
    rw [findByte]
    split
    · next hno =>
      rw [hno] at hme
      exact fun i hi hlt heq => hme i hi hlt (hch i heq)
    · next offset hso =>
      rw [hso, map_some] at hme
      generalize offset / subjectSize.sizeof = k at hme ⊢
      obtain ⟨hle, hlt, hmem, hbefore⟩ := hme
      have hcl : ∀ i, pos ≤ i → i < pos + k → subject.get i ≠ char :=
        fun i hi hlt heq => hbefore i hi hlt (hch i heq)
      dsimp only
      split
      · next heq => exact ⟨hle, hlt, heq, hcl⟩
      · next hne =>
        have hc' : ∀ i, pos ≤ i → i < pos + k + 1 → subject.get i ≠ char := by
          intro i hi hlt
          by_cases heq : i = pos + k
          · exact heq ▸ hne
          · exact hcl i hi (by omega)
        split
        · exact (ih _ (by omega) _ rfl).advance (by omega) hc'
        · exact fun i hi hlt => hc' i hi (by omega)

theorem highestValueByte_mem {c : Nat} (hpattern : c < patternSize.limit) (hsu : c < subjectSize.limit) :
    getHighestValueByte patternSize c ∈ toBytes subjectSize c := by
  have hlow : c &&& 0xFF = c % 2 ^ 8 := and_two_pow_sub_one_eq_mod c 8
  have hh : c >>> 8 = c / 2 ^ 8 := shiftRight_eq_div_pow c 8
  cases patternSize with
  | one =>
    have hmod : c % 2 ^ 8 = c := mod_eq_of_lt hpattern
    cases subjectSize with
    | one => exact mem_singleton_self c
    | two => exact mem_cons.mpr (.inl hmod.symm)
  | two =>
    rw [getHighestValueByte, hlow, hh]
    cases subjectSize with
    | one =>
      have hlt : c < 2 ^ 8 := hsu
      rw [div_eq_of_lt hlt, mod_eq_of_lt hlt, max_eq_left (zero_le c)]
      exact mem_singleton_self c
    | two =>
      rcases le_total (c % 2 ^ 8) (c / 2 ^ 8) with h | h
      · rw [max_eq_right h]
        exact mem_cons_of_mem _ (mem_singleton_self _)
      · rw [max_eq_left h]
        exact mem_cons_self

theorem findFirstCharacter_spec (hpattern : 0 < pattern.length) (hfits : pattern.get 0 < subjectSize.limit) (index : Nat) :
    FirstIn (fun i => subject.get i = pattern.get 0) index (subject.length + 1 - pattern.length)
      (findFirstCharacter pattern subject index) := by
  rw [findFirstCharacter]
  split
  · next hzero =>
    rw [hzero.2]
    cases hfi : (List.range' index (subject.length + 1 - pattern.length - index)).find? fun i => subject.get i = 0 with
    | none =>
      intro i hi hlt heq
      have := find?_eq_none.mp hfi i (mem_range'_1.mpr (by omega))
      exact this (decide_eq_true heq)
    | some i =>
      obtain ⟨heq, hmem, hbefore⟩ := find?_range'_eq_some.mp hfi
      obtain ⟨hi, hlt⟩ := mem_range'_1.mp hmem
      refine ⟨hi, by omega, of_decide_eq_true heq, fun k hk hki heq => ?_⟩
      simpa [heq] using hbefore k hk hki
  · rw [mod_eq_of_lt hfits]
    exact findByte_spec (by omega) (highestValueByte_mem (get_lt pattern 0) hfits) index

/-! ### Short patterns -/

variable (pattern subject) in
abbrev OccursAt (i : Nat) : Prop := Occurs pattern.get pattern.length subject.get i

variable (pattern subject) in
abbrev Finds (index : Nat) (result : Option Nat) : Prop :=
  FirstIn (OccursAt pattern subject) index (subject.length + 1 - pattern.length) result

theorem charCompare_iff (i : Nat) :
    charCompare pattern subject 1 (i + 1) (pattern.length - 1) ↔
      ∀ k, 0 < k → k < pattern.length → pattern.get k = subject.get (i + k) := by
  rw [charCompare, List.all_eq_true]
  constructor
  · intro h k hpos hk
    obtain ⟨k, rfl⟩ : ∃ k', k = k' + 1 := ⟨k - 1, by omega⟩
    have := h k (mem_range.mpr (by omega))
    rwa [decide_eq_true_eq, add_comm 1 k, add_right_comm i 1 k] at this
  · intro h k hk
    have := h (k + 1) (by omega) (by have := mem_range.mp hk; omega)
    rwa [decide_eq_true_eq, add_comm 1 k, add_right_comm i 1 k]

/-- Where the first character is, the others decide. -/
theorem occursAt_iff {i : Nat} (h : subject.get i = pattern.get 0) :
    OccursAt pattern subject i ↔ ∀ k, 0 < k → k < pattern.length → pattern.get k = subject.get (i + k) := by
  constructor
  · exact fun ho k _ hk => ho k hk
  · intro hrest k hk
    cases k with
    | zero => exact h.symm
    | succ k => exact hrest (k + 1) (by omega) hk

theorem not_occursAt_of_ne (hpattern : 0 < pattern.length) {i : Nat} (h : subject.get i ≠ pattern.get 0) :
    ¬OccursAt pattern subject i := fun ho => h (ho 0 hpattern).symm

section
variable (hpattern : 0 < pattern.length) (hfits : pattern.get 0 < subjectSize.limit)
include hpattern hfits

theorem singleCharSearch_spec (hone : pattern.length = 1) (index : Nat) :
    Finds pattern subject index (singleCharSearch pattern subject index) := by
  have ho : OccursAt pattern subject = fun i => subject.get i = pattern.get 0 := by
    funext i
    refine propext ⟨fun h => (h 0 hpattern).symm, fun h => (occursAt_iff h).mpr fun k hpos hk => ?_⟩
    omega
  rw [singleCharSearch, if_neg, Finds, ho]
  · exact findFirstCharacter_spec hpattern hfits index
  · rintro ⟨hsize, hex⟩
    cases patternSize <;> cases subjectSize <;> simp_all [CharSize.sizeof, exceedsOneByte, CharSize.limit, kMaxOneByteCharCodeU]
    omega

theorem linearLoop_spec : ∀ fuel i, 0 < fuel → subject.length + 1 < i + fuel →
    ∃ result, linearLoop pattern subject fuel i = some result ∧ Finds pattern subject i result := by
  intro fuel
  induction fuel with
  | zero => exact fun _ h => absurd h (lt_irrefl 0)
  | succ fuel ih =>
    intro i _ hfu
    rw [linearLoop]
    split
    · next hi =>
      have hfi := (@findFirstCharacter_spec _ _ _ subject) hpattern hfits i
      split
      · next hno =>
        rw [hno] at hfi
        exact ⟨none, rfl, fun k hk hlt => not_occursAt_of_ne hpattern (hfi k hk hlt)⟩
      · next j hso =>
        rw [hso] at hfi
        obtain ⟨hle, hlt, hch, hbefore⟩ := hfi
        have hcl : ∀ k, i ≤ k → k < j → ¬OccursAt pattern subject k :=
          fun k hk hlt => not_occursAt_of_ne hpattern (hbefore k hk hlt)
        split
        · next hco =>
          exact ⟨some j, rfl, hle, hlt, (occursAt_iff hch).mpr ((charCompare_iff j).mp hco), hcl⟩
        · next hco =>
          obtain ⟨result, hloop, hfin⟩ := ih (j + 1) (by omega) (by omega)
          refine ⟨result, hloop, (hfin.advance (le_succ j) fun k hk hlt => ?_).advance hle hcl⟩
          obtain rfl : k = j := by omega
          rwa [occursAt_iff hch, ← charCompare_iff]
    · exact ⟨none, rfl, .of_le (by omega)⟩

/-! ### The initial strategy -/

omit hpattern hfits in
theorem matchForward_spec (i : Nat) : ∀ left j, j ≤ matchForward pattern subject i left j ∧
    matchForward pattern subject i left j ≤ j + left ∧
    (∀ k, j ≤ k → k < matchForward pattern subject i left j → pattern.get k = subject.get (i + k)) ∧
    (matchForward pattern subject i left j < j + left →
      pattern.get (matchForward pattern subject i left j) ≠ subject.get (i + matchForward pattern subject i left j)) := by
  intro left
  induction left with
  | zero => exact fun j => ⟨le_rfl, le_rfl, fun k hk hlt => by rw [matchForward] at hlt; omega, fun hlt => by rw [matchForward] at hlt; omega⟩
  | succ left ih =>
    intro j
    rw [matchForward]
    split
    · next hne => exact ⟨le_rfl, Nat.le_add_right .., fun k hk hlt => by omega, fun _ => hne⟩
    · next heq =>
      obtain ⟨hge, hle, hma, hst⟩ := ih (j + 1)
      refine ⟨by omega, by omega, fun k hk hlt => ?_, fun hlt => hst (by omega)⟩
      by_cases hkj : k = j
      · rw [hkj]
        exact not_not.mp heq
      · exact hma k (by omega) hlt

variable (pattern subject) in
omit hpattern hfits in
/-- What a loop may return that began at `index`. -/
def Yields (index : Nat) : Outcome → Prop
  | .result result => Finds pattern subject index result
  | .bailout next => index ≤ next ∧ Clear pattern.get pattern.length subject.get index next

omit hpattern hfits in
theorem Yields.advance {index next : Nat} {outcome : Outcome} (hle : index ≤ next)
    (hcl : Clear pattern.get pattern.length subject.get index next) (h : Yields pattern subject next outcome) :
    Yields pattern subject index outcome := by
  cases outcome with
  | result result => exact FirstIn.advance hle hcl h
  | bailout next' => exact ⟨hle.trans h.1, hcl.trans h.2⟩

theorem initialLoop_spec : ∀ fuel i badness, 0 < fuel → subject.length + 1 < i + fuel →
    ∃ outcome, initialLoop pattern subject fuel i badness = some outcome ∧ Yields pattern subject i outcome := by
  intro fuel
  induction fuel with
  | zero => exact fun _ _ h => absurd h (lt_irrefl 0)
  | succ fuel ih =>
    intro i badness _ hfu
    rw [initialLoop]
    split
    swap
    · exact ⟨_, rfl, FirstIn.of_le (by omega)⟩
    next hi =>
    dsimp only
    split
    swap
    · exact ⟨_, rfl, le_rfl, .of_le le_rfl⟩
    have hfi := (@findFirstCharacter_spec _ _ _ subject) hpattern hfits i
    split
    · next hno =>
      rw [hno] at hfi
      exact ⟨_, rfl, fun k hk hlt => not_occursAt_of_ne hpattern (hfi k hk hlt)⟩
    · next j hso =>
      rw [hso] at hfi
      obtain ⟨hle, hlt, hch, hbefore⟩ := hfi
      have hcl : Clear pattern.get pattern.length subject.get i j :=
        fun k hk hlt => not_occursAt_of_ne hpattern (hbefore k hk hlt)
      obtain ⟨hge, hle', hma, hst⟩ := (@matchForward_spec _ _ pattern subject) j (pattern.length - 1) 1
      split
      · next hall =>
        rw [hall] at hma
        exact ⟨_, rfl, hle, hlt, (occursAt_iff hch).mpr hma, hcl⟩
      · next hall =>
        obtain ⟨outcome, hloop, hy⟩ := ih (j + 1) (badness + 1 + matchForward pattern subject j (pattern.length - 1) 1)
          (by omega) (by omega)
        refine ⟨outcome, hloop, hy.advance (by omega) (hcl.trans ?_)⟩
        exact .of_ne (by omega) (hst (by omega))

end

/-! ### Boyer-Moore-Horspool and Boyer-Moore -/

theorem matchBackward_spec (index j : Nat) :
    (matchBackward pattern subject index j = 0 → ∀ k < j, pattern.get k = subject.get (index + k)) ∧
      ∀ j', matchBackward pattern subject index j = j' + 1 → j' < j ∧ pattern.get j' ≠ subject.get (index + j') ∧
        ∀ k, j' < k → k < j → pattern.get k = subject.get (index + k) := by
  induction j with
  | zero => exact ⟨fun _ k hk => absurd hk (Nat.not_lt_zero k), fun j' h => nomatch h⟩
  | succ j ih =>
    rw [matchBackward]
    split
    · next heq =>
      have hl : ∀ k, k < j + 1 → (k < j → pattern.get k = subject.get (index + k)) → pattern.get k = subject.get (index + k) := by
        intro k hk h
        by_cases hkj : k = j
        · rw [hkj, heq]
        · exact h (by omega)
      refine ⟨fun h k hk => hl k hk (ih.1 h k), fun j' h => ?_⟩
      obtain ⟨hlt, hne, hma⟩ := ih.2 j' h
      exact ⟨by omega, hne, fun k hk hlt => hl k hlt (hma k hk)⟩
    · next hne =>
      refine ⟨nofun, fun j' h => ?_⟩
      obtain rfl := Nat.succ.inj h
      exact ⟨lt_succ_self j, hne, fun k hk hlt => by omega⟩

section
variable {badChar : Nat → Int} (hpattern : 0 < pattern.length) (hbad : BadChars pattern subjectSize badChar)
include hpattern hbad

/-- The shift for a character of the subject opposite the last one of the pattern. -/
theorem clear_of_lastChar_ne {index : Nat} (hne : lastChar pattern ≠ subject.get (index + (pattern.length - 1))) :
    let shift : Int := (pattern.length - 1 : Nat) - charOccurrence patternSize subjectSize badChar (subject.get (index + (pattern.length - 1)))
    index < (index + shift).toNat ∧ Clear pattern.get pattern.length subject.get index (index + shift).toNat := by
  obtain ⟨hge, hlt, ho⟩ := hbad _ (get_lt subject (index + (pattern.length - 1)))
  refine ⟨by omega, (Clear.of_ne (by omega) hne).trans (.of_char (by omega) hge fun k hk hlt' => ?_)⟩
  exact ho k hlt' (by omega)

/-- The shift for the last character of the pattern, where it matches. -/
theorem clear_of_lastChar_eq {index j : Nat} (heq : lastChar pattern = subject.get (index + (pattern.length - 1)))
    (hj : j < pattern.length) (hne : pattern.get j ≠ subject.get (index + j)) :
    index < (index + lastCharShift pattern subjectSize badChar).toNat ∧
      Clear pattern.get pattern.length subject.get index (index + lastCharShift pattern subjectSize badChar).toNat := by
  have hl : lastChar pattern % subjectSize.limit = subject.get (index + (pattern.length - 1)) := by
    rw [heq, mod_eq_of_lt (get_lt subject _)]
  obtain ⟨hge, hlt, ho⟩ := hbad _ (get_lt subject (index + (pattern.length - 1)))
  have hshift : lastCharShift pattern subjectSize badChar =
      (pattern.length - 1 : Nat) - charOccurrence patternSize subjectSize badChar (subject.get (index + (pattern.length - 1))) := by
    rw [lastCharShift, hl]
    omega
  rw [hshift]
  refine ⟨by omega, (Clear.of_ne hj hne).trans (.of_char (by omega) hge fun k hk hlt' => ?_)⟩
  exact ho k hlt' (by omega)

theorem horspoolLoop_spec {tables : Tables} (hta : tables.badChar = badChar) : ∀ fuel index badness, 0 < fuel →
    subject.length + 1 < index + fuel →
      ∃ outcome, horspoolLoop pattern subject tables fuel index badness = some outcome ∧ Yields pattern subject index outcome := by
  intro fuel
  induction fuel with
  | zero => exact fun _ _ h => absurd h (lt_irrefl 0)
  | succ fuel ih =>
    intro index badness _ hfu
    rw [horspoolLoop, hta]
    split
    swap
    · exact ⟨_, rfl, FirstIn.of_le (by omega)⟩
    next hin =>
    have hnext : ∀ next badness, index < next → Clear pattern.get pattern.length subject.get index next →
        ∃ outcome, horspoolLoop pattern subject tables fuel next badness = some outcome ∧ Yields pattern subject index outcome := by
      intro next badness hlt hcl
      obtain ⟨outcome, hloop, hy⟩ := ih next badness (by omega) (by omega)
      exact ⟨outcome, hloop, hy.advance hlt.le hcl⟩
    dsimp only
    split
    · next hne =>
      obtain ⟨hlt, hcl⟩ := clear_of_lastChar_ne hpattern hbad hne
      exact hnext _ _ hlt hcl
    next heq =>
    rw [not_not] at heq
    obtain ⟨hall, hst⟩ := (@matchBackward_spec _ _ pattern subject) index (pattern.length - 1)
    split
    · next hzero =>
      refine ⟨_, rfl, le_rfl, by omega, fun k hk => ?_, fun k hk hlt => by omega⟩
      by_cases hl : k = pattern.length - 1
      · rw [hl]
        exact heq
      · exact hall hzero k (by omega)
    · next j hsu =>
      obtain ⟨hj, hne, -⟩ := hst j hsu
      obtain ⟨hlt, hcl⟩ := clear_of_lastChar_eq hpattern hbad heq (by omega) hne
      split
      · exact ⟨_, rfl, hlt.le, hcl⟩
      · exact hnext _ _ hlt hcl

theorem boyerMooreLoop_spec {tables : Tables} (hta : tables.badChar = badChar)
    (hg : GoodSuffixes pattern.get (start pattern) pattern.length tables.goodSuffixShift) : ∀ fuel index, 0 < fuel →
    subject.length + 1 < index + fuel →
      ∃ result, boyerMooreLoop pattern subject tables fuel index = some result ∧ Finds pattern subject index result := by
  intro fuel
  induction fuel with
  | zero => exact fun _ h => absurd h (lt_irrefl 0)
  | succ fuel ih =>
    intro index _ hfu
    rw [boyerMooreLoop, hta]
    split
    swap
    · exact ⟨_, rfl, FirstIn.of_le (by omega)⟩
    next hin =>
    -- Wherever the loop goes on, nothing before is an occurrence.
    have hnext : ∀ next, index < next → Clear pattern.get pattern.length subject.get index next →
        ∃ result, boyerMooreLoop pattern subject tables fuel next = some result ∧ Finds pattern subject index result := by
      intro next hlt hcl
      obtain ⟨result, hloop, hfi⟩ := ih next (by omega) (by omega)
      exact ⟨result, hloop, hfi.advance hlt.le hcl⟩
    dsimp only
    split
    · next hne =>
      obtain ⟨hlt, hcl⟩ := clear_of_lastChar_ne hpattern hbad hne
      exact hnext _ hlt hcl
    next heq =>
    rw [not_not] at heq
    obtain ⟨hall, hsto⟩ := (@matchBackward_spec _ _ pattern subject) index pattern.length
    split
    · next hzero => exact ⟨_, rfl, le_rfl, by omega, hall hzero, fun k hk hlt => by omega⟩
    next j hsu =>
    obtain ⟨hj, hne, hma⟩ := hsto j hsu
    split
    · obtain ⟨hlt, hcl⟩ := clear_of_lastChar_eq hpattern hbad heq hj hne
      exact hnext _ hlt hcl
    · next hst =>
      have hl : j ≠ pattern.length - 1 := by
        rintro rfl
        exact hne heq
      obtain ⟨hpos, hshift⟩ := hg (j + 1) (by omega) (by omega)
      obtain ⟨hge, -, ho⟩ := hbad _ (get_lt subject (index + j))
      split
      · refine hnext _ (by omega) ((Clear.of_ne hj hne).trans ?_)
        rw [← cast_add, Int.toNat_natCast]
        exact .of_overlap hj hma hne hshift
      · refine hnext _ (by omega) ((Clear.of_ne hj hne).trans (.of_char hj hge fun k hk hlt => ?_))
        exact ho k hlt (by omega)

end

end

/-! ### Search objects -/

namespace Searcher

variable {patternSize subjectSize : CharSize}

/-- What a strategy relies on: the characters of the pattern, and the tables it uses. -/
def Ready (s : Searcher patternSize subjectSize) : Prop :=
  0 < s.pattern.length ∧
    match s.strategy with
    | .failSearch => ∃ k < s.pattern.length, subjectSize.limit ≤ s.pattern.get k
    | .singleCharSearch => s.pattern.length = 1 ∧ s.pattern.get 0 < subjectSize.limit
    | .linearSearch | .initialSearch => s.pattern.get 0 < subjectSize.limit
    | .boyerMooreHorspoolSearch => BadChars s.pattern subjectSize s.tables.badChar
    | .boyerMooreSearch => BadChars s.pattern subjectSize s.tables.badChar ∧
        GoodSuffixes s.pattern.get (start s.pattern) s.pattern.length s.tables.goodSuffixShift

/-- A search ends, finds what it is to find, and leaves the object ready for the next one. -/
def Searches (s : Searcher patternSize subjectSize) (subject : CharVector subjectSize) (index : Nat)
    (outcome : Option (Searcher patternSize subjectSize × Option Nat)) : Prop :=
  ∃ s' result, outcome = some (s', result) ∧ s'.pattern = s.pattern ∧ s'.Ready ∧ Finds s.pattern subject index result

variable {s : Searcher patternSize subjectSize} {subject : CharVector subjectSize} {index : Nat}

theorem boyerMooreSearch_spec (hre : s.Ready) (hst : s.strategy = .boyerMooreSearch) :
    s.Searches subject index (s.boyerMooreSearch subject index) := by
  have h := hre.2
  rw [hst] at h
  obtain ⟨result, hloop, hfi⟩ := (@boyerMooreLoop_spec _ _ _ subject) hre.1 h.1 rfl h.2 (subject.length + 2) index
    (by omega) (by omega)
  refine ⟨s, result, ?_, rfl, hre, hfi⟩
  rw [boyerMooreSearch, hloop]
  rfl

theorem boyerMooreHorspoolSearch_spec (hre : s.Ready) (hst : s.strategy = .boyerMooreHorspoolSearch) :
    s.Searches subject index (s.boyerMooreHorspoolSearch subject index) := by
  have hbad := hre.2
  rw [hst] at hbad
  obtain ⟨outcome, hloop, hy⟩ := (@horspoolLoop_spec _ _ _ subject) hre.1 hbad rfl (subject.length + 2) index
    (-s.pattern.length) (by omega) (by omega)
  rw [boyerMooreHorspoolSearch, hloop]
  cases outcome with
  | result result => exact ⟨s, result, rfl, rfl, hre, hy⟩
  | bailout next =>
    obtain ⟨tables, hp, hsa, hg⟩ := populateBoyerMooreTable_spec s.pattern hre.1 s.tables
    have hre' : Ready { s with strategy := .boyerMooreSearch, tables } := ⟨hre.1, hsa.symm ▸ hbad, hg⟩
    obtain ⟨s', result, hse, hpattern, hr'', hfi⟩ := (@boyerMooreSearch_spec _ _ _ subject next) hre' rfl
    refine ⟨s', result, ?_, hpattern, hr'', hfi.advance hy.1 hy.2⟩
    dsimp only [bind_eq_bind, bind_some]
    rw [hp]
    exact hse

theorem initialSearch_spec (hre : s.Ready) (hst : s.strategy = .initialSearch) :
    s.Searches subject index (s.initialSearch subject index) := by
  have hfits := hre.2
  rw [hst] at hfits
  obtain ⟨outcome, hloop, hy⟩ := (@initialLoop_spec _ _ _ subject) hre.1 hfits (subject.length + 2) index
    (-10 - 4 * s.pattern.length) (by omega) (by omega)
  rw [initialSearch, hloop]
  cases outcome with
  | result result => exact ⟨s, result, rfl, rfl, hre, hy⟩
  | bailout next =>
    have hbad : BadChars s.pattern subjectSize (populateBoyerMooreHorspoolTable s.pattern s.tables.badChar) :=
      populateBoyerMooreHorspoolTable_spec s.pattern hre.1 s.tables.badChar
    have hre' : Ready ({ s with
        strategy := .boyerMooreHorspoolSearch
        tables := { s.tables with badChar := populateBoyerMooreHorspoolTable s.pattern s.tables.badChar } } :
          Searcher patternSize subjectSize) := by
      refine ⟨hre.1, ?_⟩
      dsimp only
      exact hbad
    obtain ⟨s', result, hse, hpattern, hr'', hfi⟩ :=
      (@boyerMooreHorspoolSearch_spec _ _ _ subject next) hre' rfl
    exact ⟨s', result, hse, hpattern, hr'', hfi.advance hy.1 hy.2⟩

theorem search_spec (hre : s.Ready) : s.Searches subject index (s.search subject index) := by
  have hpattern := hre.1
  have h := hre.2
  rw [search]
  cases hst : s.strategy with
  | failSearch =>
    rw [hst] at h
    obtain ⟨k, hk, hl⟩ := h
    refine ⟨s, none, rfl, rfl, hre, fun i _ _ ho => ?_⟩
    have := get_lt subject (i + k)
    rw [← ho k hk] at this
    omega
  | singleCharSearch =>
    rw [hst] at h
    exact ⟨s, _, rfl, rfl, hre, singleCharSearch_spec hpattern h.2 h.1 index⟩
  | linearSearch =>
    rw [hst] at h
    obtain ⟨result, hloop, hfi⟩ := (@linearLoop_spec _ _ _ subject) hpattern h (subject.length + 2) index
      (by omega) (by omega)
    refine ⟨s, result, ?_, rfl, hre, hfi⟩
    dsimp only
    rw [linearSearch, hloop]
    rfl
  | initialSearch => exact initialSearch_spec hre hst
  | boyerMooreHorspoolSearch => exact boyerMooreHorspoolSearch_spec hre hst
  | boyerMooreSearch => exact boyerMooreSearch_spec hre hst

theorem searches_spec (hre : s.Ready) (calls : List (CharVector subjectSize × Nat)) :
    ∃ results, s.searches calls = some results ∧
      List.Forall₂ (fun call result => Finds s.pattern call.1 call.2 result) calls results := by
  induction calls generalizing s with
  | nil => exact ⟨[], rfl, .nil⟩
  | cons call calls ih =>
    obtain ⟨s', result, hsea, hpattern, hre', hfi⟩ := (@search_spec _ _ _ call.1 call.2) hre
    obtain ⟨results, hse, hall⟩ := ih hre'
    rw [hpattern] at hall
    refine ⟨result :: results, ?_, .cons hfi hall⟩
    rw [searches, hsea]
    dsimp only [bind_eq_bind, bind_some]
    rw [hse]
    rfl

end Searcher

section
variable {patternSize subjectSize : CharSize} {pattern : CharVector patternSize}

theorem exists_wide_char (hsize : patternSize.sizeof > subjectSize.sizeof) (hone : isOneByteString pattern = false) :
    ∃ k < pattern.length, subjectSize.limit ≤ pattern.get k := by
  cases patternSize with
  | one => cases hone
  | two =>
    cases subjectSize with
    | two => exact absurd hsize (lt_irrefl 2)
    | one =>
      obtain ⟨c, hmem, hc⟩ := all_eq_false.mp hone
      obtain ⟨k, hk, rfl⟩ := getElem_of_mem hmem
      refine ⟨k, hk, ?_⟩
      rw [CharVector.get, getD_eq_getElem _ _ hk]
      rw [decide_eq_true_eq, kMaxOneByteCharCodeU] at hc
      exact Nat.not_le.mp hc

theorem get_lt_of_narrow (hpattern : 0 < pattern.length)
    (h : ¬(patternSize.sizeof > subjectSize.sizeof ∧ isOneByteString pattern = false)) : pattern.get 0 < subjectSize.limit := by
  have hlt := get_lt pattern 0
  cases patternSize with
  | one =>
    cases subjectSize with
    | one => exact hlt
    | two => exact hlt.trans (by decide)
  | two =>
    cases subjectSize with
    | two => exact hlt
    | one =>
      have hone : isOneByteString pattern = true := by simpa [CharSize.sizeof] using h
      have := List.all_eq_true.mp hone _ (getElem_mem hpattern)
      rw [CharVector.get, getD_eq_getElem _ _ hpattern]
      exact lt_succ_of_le (of_decide_eq_true this)

theorem new_ready (hpattern : 0 < pattern.length) (tables : Tables) :
    (new pattern tables : Searcher patternSize subjectSize).Ready := by
  refine ⟨hpattern, ?_⟩
  by_cases hfa : patternSize.sizeof > subjectSize.sizeof ∧ isOneByteString pattern = false
  · rw [new, if_pos hfa]
    exact exists_wide_char hfa.1 hfa.2
  · have hfits := get_lt_of_narrow hpattern hfa
    rw [new, if_neg hfa]
    dsimp only
    by_cases hsh : pattern.length < kBMMinPatternLength
    · by_cases hone : pattern.length = 1
      · rw [if_pos hsh, if_pos hone]
        exact ⟨hone, hfits⟩
      · rw [if_pos hsh, if_neg hone]
        exact hfits
    · rw [if_neg hsh]
      exact hfits

theorem prefix_drop_iff (hpattern : 0 < pattern.length) {subject : CharVector subjectSize} (i : Nat) :
    pattern.chars <+: subject.chars.drop i ↔ i < subject.length + 1 - pattern.length ∧ OccursAt pattern subject i := by
  have hget : ∀ k (hk : k < pattern.chars.length), pattern.chars[k] = pattern.get k := fun k hk =>
    (getD_eq_getElem _ _ hk).symm
  have hget' : ∀ k, i + k < subject.length → (subject.chars.drop i)[k]? = some (subject.get (i + k)) := fun k hk => by
    rw [CharVector.get, getElem?_drop, getD_eq_getElem _ _ hk, getElem?_eq_getElem hk]
  have hl : pattern.chars.length = pattern.length ∧ subject.chars.length = subject.length := ⟨rfl, rfl⟩
  rw [prefix_iff_getElem?]
  constructor
  · intro h
    have hle := (prefix_iff_getElem?.mpr h).length_le
    rw [length_drop] at hle
    refine ⟨by omega, fun k hk => ?_⟩
    rw [← hl.1] at hk
    have := h k hk
    rw [hget' k (by omega), hget k hk] at this
    exact (Option.some.inj this).symm
  · rintro ⟨hi, ho⟩ k hk
    rw [hget' k (by omega), hget k hk, ho k hk]

end

/-- `result` is the first position from `index` on at which `pattern` stands in `subject`. -/
def IsFirstOccurrence (pattern subject : List Nat) (index : Nat) : (result : Option Nat) → Prop
  | none => ∀ i, index ≤ i → ¬pattern <+: subject.drop i
  | some i => index ≤ i ∧ pattern <+: subject.drop i ∧ ∀ k, index ≤ k → k < i → ¬pattern <+: subject.drop k

theorem Finds.isFirstOccurrence {patternSize subjectSize : CharSize} {pattern : CharVector patternSize}
    (hpattern : 0 < pattern.length) {subject : CharVector subjectSize} {index : Nat} {result : Option Nat}
    (h : Finds pattern subject index result) : IsFirstOccurrence pattern.chars subject.chars index result := by
  cases result with
  | none => exact fun i hi hp => h i hi ((prefix_drop_iff hpattern i).mp hp).1 ((prefix_drop_iff hpattern i).mp hp).2
  | some i =>
    obtain ⟨hle, hlt, ho, hbefore⟩ := h
    refine ⟨hle, (prefix_drop_iff hpattern i).mpr ⟨hlt, ho⟩, fun k hk hki hp => ?_⟩
    exact hbefore k hk hki ((prefix_drop_iff hpattern k).mp hp).2

/-- One search after the other with one object, from whatever the tables hold at first. -/
theorem searches_find_first {patternSize subjectSize : CharSize} (pattern : CharVector patternSize) (hpattern : pattern.chars ≠ [])
    (tables : Tables) (calls : List (CharVector subjectSize × Nat)) :
    (∀ call ∈ calls, call.2 + pattern.length ≤ call.1.length + 1) → ∃ results, (new pattern tables : Searcher patternSize subjectSize).searches calls = some results ∧
      List.Forall₂ (fun call result => IsFirstOccurrence pattern.chars call.1.chars call.2 result) calls results := by
  intro _
  have hpos : 0 < pattern.length := length_pos_of_ne_nil hpattern
  obtain ⟨results, hsearches, hall⟩ := Searcher.searches_spec (@new_ready _ subjectSize _ hpos tables) calls
  exact ⟨results, hsearches, hall.imp fun _ _ h => Finds.isFirstOccurrence hpos h⟩

/-- A pattern of eight characters, looked for twice. -/
theorem searches_find_first_repeated :
    ∃ results, (new ⟨[1, 1, 1, 1, 1, 1, 1, 2], by decide⟩ ⟨fun _ => 0, fun _ => 0, fun _ => 0⟩ : Searcher .one .two).searches
        [(⟨replicate 9 1, by decide⟩, 0), (⟨replicate 7 1 ++ [2, 300], by decide⟩, 0)] = some results ∧
      List.Forall₂ (fun call result => IsFirstOccurrence [1, 1, 1, 1, 1, 1, 1, 2] call.1.chars call.2 result)
        [((⟨replicate 9 1, by decide⟩ : CharVector .two), 0), (⟨replicate 7 1 ++ [2, 300], by decide⟩, 0)] results :=
  searches_find_first ⟨[1, 1, 1, 1, 1, 1, 1, 2], by decide⟩ (by decide) _ _ (by decide)

end V8Multithread.Strings.StringSearch
