import V8Multithread.Strings.StringSearch

/-! The tables of the search for a pattern: what they say of it when they are built. -/
namespace V8Multithread.Strings.StringSearch
open List Option Base.Matching
open Function (update update_self update_of_ne)

/-! ### Last occurrences of characters -/

section
variable {patternSize subjectSize : CharSize} (pattern : CharVector patternSize)

/-- The loop that registers the characters from `start` on. -/
theorem foldl_bucket (start count : Nat) (cleared : Nat → Int) (b : Nat) (h : cleared b = start - 1) :
    let table := (List.range' start count).foldl
      (fun table i => update table (bucket patternSize (pattern.get i)) (i : Int)) cleared
    start - 1 ≤ table b ∧ table b < start + count ∧
      ∀ k, start ≤ k → k < start + count → bucket patternSize (pattern.get k) = b → k ≤ table b := by
  induction count with
  | zero =>
    refine ⟨h.ge, ?_, fun k _ _ => by omega⟩
    change cleared b < _
    omega
  | succ count ih =>
    obtain ⟨hge, hlt, hle⟩ := ih
    rw [range'_1_concat, foldl_append, foldl_cons, foldl_nil]
    by_cases hb : b = bucket patternSize (pattern.get (start + count))
    · subst hb
      simp only [update_self]
      exact ⟨by omega, by omega, fun k _ hk _ => by omega⟩
    · simp only [update_of_ne hb]
      refine ⟨hge, by omega, fun k hst hk hbu => ?_⟩
      by_cases heq : k = start + count
      · exact absurd (heq ▸ hbu.symm) hb
      · exact hle k hst (by omega) hbu

/-- No character of the pattern but its last one is where the table does not say. -/
def BadChars (subjectSize : CharSize) (badChar : Nat → Int) : Prop :=
  ∀ c < subjectSize.limit, -1 ≤ charOccurrence patternSize subjectSize badChar c ∧
    charOccurrence patternSize subjectSize badChar c < pattern.length - 1 ∧
      ∀ k : Nat, charOccurrence patternSize subjectSize badChar c < k → k + 1 < pattern.length → pattern.get k ≠ c

theorem get_lt {size : CharSize} (v : CharVector size) (i : Nat) : v.get i < size.limit := by
  rw [CharVector.get, getD_eq_getElem?_getD]
  cases h : v.chars[i]? with
  | none => cases size <;> decide
  | some c => exact v.bound c (mem_of_getElem? h)

theorem populateBoyerMooreHorspoolTable_spec (hpattern : 0 < pattern.length) (old : Nat → Int) :
    BadChars pattern subjectSize (populateBoyerMooreHorspoolTable pattern old) := by
  have hst : start pattern < pattern.length := by
    rw [start, kBMMaxShift]
    omega
  have hsize : alphabetSize patternSize = 256 := by cases patternSize <;> rfl
  have htable : ∀ b < 256, -1 ≤ populateBoyerMooreHorspoolTable pattern old b ∧
      populateBoyerMooreHorspoolTable pattern old b < pattern.length - 1 ∧
      ∀ k : Nat, populateBoyerMooreHorspoolTable pattern old b < k → k + 1 < pattern.length →
        bucket patternSize (pattern.get k) ≠ b := by
    intro b hb
    obtain ⟨hge, hlt, hle⟩ := foldl_bucket pattern (start pattern) (pattern.length - 1 - start pattern)
      (fun i => if i < alphabetSize patternSize then if start pattern = 0 then -1 else start pattern - 1 else old i) b
      (by split <;> [split <;> omega; omega])
    rw [populateBoyerMooreHorspoolTable]
    refine ⟨by omega, by omega, fun k hk hm hbu => ?_⟩
    have := hle k (by omega) (by omega) hbu
    omega
  intro c hc
  rw [charOccurrence]
  cases subjectSize with
  | one =>
    obtain ⟨hge, hlt, hne⟩ := htable c hc
    refine ⟨hge, hlt, fun k hk hm heq => hne k hk hm ?_⟩
    rw [bucket, heq]
    split
    · rfl
    · rw [hsize]
      exact Nat.mod_eq_of_lt hc
  | two =>
    cases patternSize with
    | one =>
      by_cases hc' : exceedsOneByte .two c = true
      · rw [if_neg nofun, if_pos rfl, if_pos hc']
        refine ⟨le_rfl, by omega, fun k _ _ heq => ?_⟩
        have hk : pattern.get k < 256 := get_lt pattern k
        have hc' : 0xFF < c := by simpa [exceedsOneByte, kMaxOneByteCharCodeU] using hc'
        omega
      · rw [if_neg nofun, if_pos rfl, if_neg hc']
        obtain ⟨hge, hlt, hne⟩ := htable c (by simpa [exceedsOneByte, kMaxOneByteCharCodeU, Nat.lt_succ_iff] using hc')
        exact ⟨hge, hlt, fun k hk hm heq => hne k hk hm (by rw [bucket, if_pos rfl, heq])⟩
    | two =>
      obtain ⟨hge, hlt, hne⟩ := htable (c % 256) (Nat.mod_lt _ (by decide))
      refine ⟨hge, hlt, fun k hk hm heq => hne k hk hm ?_⟩
      rw [bucket, if_neg nofun, heq]
      rfl

end

/-! ### Good suffixes -/

/-- A shift is not longer than what an overlap of the suffix from there on allows. -/
def GoodSuffixes (p : Nat → Nat) (start m : Nat) (shift : Nat → Nat) : Prop :=
  ∀ u, start < u → u < m → 0 < shift u ∧ ∀ t, 0 < t → Overlaps p start m u t → shift u ≤ t

/-- The shifts when the suffixes down to `i` have been looked at: each is still unset, or one that
keeps to the right of `i`, and none is too long for a border of such a suffix. -/
structure Shifts (p : Nat → Nat) (start m i : Nat) (shift : Nat → Nat) : Prop where
  value : ∀ u, start < u → u < m → 0 < shift u ∧ (shift u = m - start ∨ shift u + i < u)
  bound : ∀ u x, u < m → i < x → Border p m x u → p (x - 1) ≠ p (u - 1) → shift u ≤ u - x

structure Built (p : Nat → Nat) (start m : Nat) (b : Build) : Prop where
  start_le : start ≤ b.i
  le : b.i ≤ m
  fails : ∀ u, b.i ≤ u → u ≤ m → Fails p m u (b.suffixTable u)
  suffix : b.suffixTable b.i = b.suffix
  shifts : Shifts p start m b.i b.shiftTable

theorem setUnset_apply (length : Nat) (shiftTable : Nat → Nat) (k value u : Nat) :
    setUnset length shiftTable k value u = if u = k ∧ shiftTable u = length then value else shiftTable u := by
  rw [setUnset]
  split
  · next h =>
    by_cases hu : u = k
    · rw [hu, update_self, if_pos ⟨rfl, h⟩]
    · rw [update_of_ne hu, if_neg fun h => hu h.1]
  · next h =>
    rw [if_neg]
    rintro ⟨rfl, hu⟩
    exact h hu

section
variable {p : Nat → Nat} {start m : Nat} {b : Build}

theorem Built.initial {shift suffixTable : Nat → Nat} (hst : start < m) (hun : ∀ u, start < u → u < m → shift u = m - start)
    (hsu : suffixTable m = m + 1) : Built p start m ⟨m, m + 1, shift, suffixTable⟩ where
  start_le := hst.le
  le := le_rfl
  fails u hle hge := by
    obtain rfl : u = m := le_antisymm hge hle
    dsimp only
    rw [hsu]
    exact fails_end
  suffix := hsu
  shifts := by
    refine ⟨fun u hu hm => ?_, fun u x hu hx hbo _ => ?_⟩
    · have := hun u hu hm
      dsimp only
      omega
    · have := hbo.lt
      dsimp only at hx
      omega

/-- One position to the left, once a border is found that goes on there. -/
theorem Built.pred (h : Built p start m b) (hi : start < b.i) {suffix : Nat} {shift : Nat → Nat} (hbo : Border p m b.i suffix)
    (hfi : ∀ v < suffix, Border p m b.i v → p (b.i - 1) ≠ p (v - 1)) (hst : suffix = m + 1 ∨ p (b.i - 1) = p (suffix - 1))
    (hshift : ∀ u, start < u → u < m → 0 < shift u ∧ (shift u = m - start ∨ shift u + b.i ≤ u))
    (hle : ∀ u < m, shift u ≤ b.shiftTable u) (hp : ∀ v < suffix, v < m → Border p m b.i v → shift v ≤ v - b.i) :
    Built p start m ⟨b.i - 1, suffix - 1, shift, update b.suffixTable (b.i - 1) (suffix - 1)⟩ := by
  have hsu : b.i - 1 + 1 = b.i := by omega
  have him := h.le
  constructor <;> dsimp only
  · omega
  · omega
  · intro u hu hm
    by_cases heq : u = b.i - 1
    · subst heq
      rw [update_self]
      exact Fails.pred (hsu.symm ▸ hbo) (hsu.symm ▸ hfi) hst
    · rw [update_of_ne heq]
      exact h.fails u (by omega) hm
  · exact update_self ..
  · refine ⟨fun u hu hm => ?_, fun u x hu hx hb' hne => ?_⟩
    · obtain ⟨hpos, hor⟩ := hshift u hu hm
      exact ⟨hpos, hor.imp_right fun hlt => by omega⟩
    by_cases heq : x = b.i
    · subst heq
      -- The borders before `suffix` have been passed; the later ones are borders of it.
      have hlt := hbo.lt
      rcases lt_trichotomy u suffix with hu' | hu' | hu'
      · exact hp u hu' hu hb'
      · rcases hst with hst | hst
        · omega
        · exact absurd (hu' ▸ hst) hne
      · rcases hst with hst | hst
        · omega
        · have hbou := h.shifts.bound u suffix hu hlt (hbo.of_lt hb' hu') (hst ▸ hne)
          have := hle u hu
          omega
    · exact (hle u hu).trans (h.shifts.bound u x hu (by omega) hb' hne)

end

section
variable {patternSize : CharSize} (pattern : CharVector patternSize) {start : Nat} {b : Build}

/-- What holds when the borders before `b.suffix` have been passed. -/
structure Passed (p : Nat → Nat) (start m : Nat) (before b : Build) : Prop where
  i : b.i = before.i
  suffixTable : b.suffixTable = before.suffixTable
  border : Border p m before.i b.suffix
  first : ∀ v < b.suffix, Border p m before.i v → p (before.i - 1) ≠ p (v - 1)
  value : ∀ u, start < u → u < m → 0 < b.shiftTable u ∧ (b.shiftTable u = m - start ∨ b.shiftTable u + before.i ≤ u)
  le : ∀ u < m, b.shiftTable u ≤ before.shiftTable u
  passed : ∀ v < b.suffix, v < m → Border p m before.i v → b.shiftTable v ≤ v - before.i

theorem followSuffixes_spec {before : Build} (hbefore : Built pattern.get start pattern.length before) (hi : start < before.i) :
    ∀ fuel b, pattern.length + 2 ≤ b.suffix + fuel → Passed pattern.get start pattern.length before b →
      ∃ b', followSuffixes pattern (pattern.length - start) fuel b = some b' ∧
        Passed pattern.get start pattern.length before b' ∧
          (b'.suffix = pattern.length + 1 ∨ pattern.get (before.i - 1) = pattern.get (b'.suffix - 1)) := by
  intro fuel
  induction fuel with
  | zero =>
    intro b hfu h
    have := h.border.le
    omega
  | succ fuel ih =>
    intro b hfu h
    rw [followSuffixes, h.i]
    split
    · next hwh =>
      obtain ⟨hle, hne⟩ := hwh
      have hlt := h.border.lt
      have hfa : Fails pattern.get pattern.length b.suffix (b.suffixTable b.suffix) := by
        rw [h.suffixTable]
        exact hbefore.fails _ (by omega) hle
      have hnext := hfa.1.lt
      -- A border before the next one is this one, or was passed before.
      have hbefore_next : ∀ v < b.suffixTable b.suffix, Border pattern.get pattern.length before.i v → v < b.suffix ∨ v = b.suffix := by
        intro v hv hbo
        by_contra hnot
        exact absurd (hfa.2 (h.border.of_lt hbo (by omega))) (by omega)
      refine ih _ (by dsimp only; omega) ⟨rfl, h.suffixTable, h.border.trans hfa.1, ?_, ?_, ?_, ?_⟩ <;> dsimp only
      · intro v hv hbo
        rcases hbefore_next v hv hbo with hv' | rfl
        · exact h.first v hv' hbo
        · exact hne
      · intro u hu hm
        rw [setUnset_apply]
        split
        · omega
        · exact h.value u hu hm
      · intro u hu
        have := h.le u hu
        rw [setUnset_apply]
        split <;> omega
      · intro v hv hm hbo
        rw [setUnset_apply]
        rcases hbefore_next v hv hbo with hv' | rfl
        · rw [if_neg (by omega)]
          exact h.passed v hv' hm hbo
        · have := h.value b.suffix (by omega) hm
          split <;> omega
    · next hwh =>
      refine ⟨b, rfl, h, ?_⟩
      have := h.border.le
      rw [not_and_or, not_not] at hwh
      exact hwh.imp_left fun h => by omega

theorem Built.step (h : Built pattern.get start pattern.length b) (hi : start < b.i) :
    ∃ b', followSuffixes pattern (pattern.length - start) (pattern.length + 2) b = some b' ∧
      Built pattern.get start pattern.length b'.extend ∧ b'.extend.i = b.i - 1 := by
  have hfa : Fails pattern.get pattern.length b.i b.suffix := h.suffix ▸ h.fails b.i le_rfl h.le
  obtain ⟨b', hfo, hp, hst⟩ := followSuffixes_spec pattern h hi (pattern.length + 2) b (by omega)
    { i := rfl
      suffixTable := rfl
      border := hfa.1
      first := fun v hv hbo => absurd (hfa.2 hbo) (by omega)
      value := fun u hu hm => (h.shifts.value u hu hm).imp_right (Or.imp_right le_of_lt)
      le := fun u _ => le_rfl
      passed := fun v hv _ hbo => absurd (hfa.2 hbo) (by omega) }
  refine ⟨b', hfo, ?_, ?_⟩
  · rw [Build.extend, hp.i, hp.suffixTable]
    exact h.pred hi hp.border hp.first hst hp.value hp.le hp.passed
  · rw [Build.extend, hp.i]

/-- When only the empty suffix is a border. -/
theorem Built.pred_empty (h : Built pattern.get start pattern.length b) (hi : start < b.i) (hsu : b.suffix = pattern.length)
    {suffix : Nat} {shift : Nat → Nat} (hbo : Border pattern.get pattern.length b.i suffix) (hle : pattern.length ≤ suffix)
    (hfi : suffix = pattern.length + 1 → pattern.get (b.i - 1) ≠ pattern.get (pattern.length - 1))
    (hst : suffix = pattern.length + 1 ∨ pattern.get (b.i - 1) = pattern.get (suffix - 1))
    (hshift : ∀ u < pattern.length, shift u = b.shiftTable u) :
    Built pattern.get start pattern.length
      ⟨b.i - 1, suffix - 1, shift, update b.suffixTable (b.i - 1) (suffix - 1)⟩ := by
  have hfa := h.fails b.i le_rfl h.le
  rw [h.suffix, hsu] at hfa
  refine h.pred hi hbo (fun v hv hv' => ?_) hst (fun u hu hm => ?_) (fun u hu => (hshift u hu).le) fun v _ hm hv' => ?_
  · have := hfa.2 hv'
    have := hbo.le
    obtain rfl : v = pattern.length := by omega
    exact hfi (by omega)
  · rw [hshift u hm]
    exact (h.shifts.value u hu hm).imp_right (Or.imp_right le_of_lt)
  · exact absurd (hfa.2 hv') (by omega)

theorem skipOthers_spec : ∀ fuel b, Built pattern.get start pattern.length b → b.suffix = pattern.length → b.i < start + fuel →
    ∃ b', skipOthers pattern start (pattern.length - start) fuel b = some b' ∧ Built pattern.get start pattern.length b' ∧
      b'.suffix = pattern.length ∧ b'.i ≤ b.i ∧ (start < b'.i → pattern.get (b'.i - 1) = lastChar pattern) := by
  intro fuel
  induction fuel with
  | zero =>
    intro b h _ hfu
    have := h.start_le
    omega
  | succ fuel ih =>
    intro b h hsu hfu
    rw [skipOthers]
    split
    · next hwh =>
      have hun : ∀ u < pattern.length, setUnset (pattern.length - start) b.shiftTable pattern.length (pattern.length - b.i) u =
          b.shiftTable u := fun u hu => by rw [setUnset_apply, if_neg (by omega)]
      have hbu := h.pred_empty pattern hwh.1 hsu (.beyond h.le) (Nat.le_succ _) (fun _ => hwh.2) (.inl rfl) hun
      rw [Nat.add_sub_cancel] at hbu
      obtain ⟨b', hskip, hb', hs', hle, hl⟩ := ih _ hbu rfl (by dsimp only; omega)
      rw [hsu]
      exact ⟨b', hskip, hb', hs', hle.trans (Nat.sub_le ..), hl⟩
    · next hwh =>
      exact ⟨b, rfl, h, hsu, le_rfl, fun hi => by_contra fun hne => hwh ⟨hi, hne⟩⟩

theorem findSuffixes_spec : ∀ fuel b, Built pattern.get start pattern.length b → b.i < start + fuel →
    ∃ b', findSuffixes pattern start (pattern.length - start) fuel b = some b' ∧ Built pattern.get start pattern.length b' ∧
      b'.i = start := by
  intro fuel
  induction fuel with
  | zero =>
    intro b h hfu
    have := h.start_le
    omega
  | succ fuel ih =>
    intro b h hfu
    rw [findSuffixes]
    split
    · next hi =>
      obtain ⟨b₁, hfo, h₁, hi₁⟩ := h.step pattern hi
      rw [hfo, bind_eq_bind, bind_some]
      dsimp only
      split
      · next hsu =>
        obtain ⟨b₂, hskip, h₂, hs₂, hle, hl⟩ := skipOthers_spec pattern (pattern.length + 1) b₁.extend h₁ hsu (by
          have := h₁.le
          omega)
        rw [hskip, bind_some]
        split
        · next hi₂ =>
          have hm := h₂.le
          have hbo : Border pattern.get pattern.length b₂.i pattern.length := by
            have hfa := h₂.fails b₂.i le_rfl hm
            rw [h₂.suffix, hs₂] at hfa
            exact hfa.1
          have h₃ := h₂.pred_empty pattern hi₂ hs₂ hbo le_rfl (fun heq => by omega) (.inr (hl hi₂)) fun _ _ => rfl
          rw [Build.extend, hs₂]
          exact ih _ h₃ (by dsimp only; omega)
        · exact ih _ h₂ (by omega)
      · exact ih _ h₁ (by omega)
    · next hi =>
      have := h.start_le
      exact ⟨b, rfl, h, by omega⟩

end

/-- The first border of the whole pattern that is not before `i`. -/
def NextBorder (p : Nat → Nat) (start m i u : Nat) : Prop := IsLeast {u | Border p m start u ∧ i ≤ u} u

section
variable {p : Nat → Nat} {start m : Nat}

theorem fillShifts_spec (length : Nat) {suffixTable : Nat → Nat} (hfa : ∀ u, start ≤ u → u ≤ m → Fails p m u (suffixTable u)) :
    ∀ count i suffix shift, i + count = m + 1 → start ≤ i → NextBorder p start m i suffix →
      ∀ u, fillShifts start length suffixTable count i suffix shift u = shift u ∧ (i ≤ u → u ≤ m → shift u ≠ length) ∨
        shift u = length ∧ i ≤ u ∧ ∃ v, fillShifts start length suffixTable count i suffix shift u = v - start ∧ NextBorder p start m u v := by
  intro count
  induction count with
  | zero =>
    intro i suffix shift hco _ _ u
    exact .inl ⟨rfl, by omega⟩
  | succ count ih =>
    intro i suffix shift hco hi hsu u
    rw [fillShifts]
    have hnext : NextBorder p start m (i + 1) (if i = suffix then suffixTable suffix else suffix) := by
      split
      · next heq =>
        have hf := hfa suffix (by omega) (by omega)
        refine ⟨⟨hsu.1.1.trans hf.1, by have := hf.1.lt; omega⟩, fun w hw => ?_⟩
        exact hf.2 (hsu.1.1.of_lt hw.1 (by have := hw.2; omega))
      · have := hsu.1.2
        exact ⟨⟨hsu.1.1, by omega⟩, fun w hw => hsu.2 ⟨hw.1, by have := hw.2; omega⟩⟩
    rcases ih (i + 1) _ (setUnset length shift i (suffix - start)) (by omega) (by omega) hnext u with ⟨heq, hset⟩ | ⟨hun, hu, hv⟩
    · rw [heq, setUnset_apply]
      split
      · next h => exact .inr ⟨h.2, by omega, suffix, rfl, h.1 ▸ hsu⟩
      · next h =>
        refine .inl ⟨rfl, fun hiu hm heq' => ?_⟩
        by_cases hui : u = i
        · exact h ⟨hui, heq'⟩
        · refine hset (by omega) hm ?_
          rw [setUnset_apply, if_neg h]
          exact heq'
    · rw [setUnset_apply, if_neg (by omega)] at hun
      exact .inr ⟨hun, by omega, hv⟩

/-- The two kinds of overlaps. -/
theorem Built.goodSuffixes {b : Build} (h : Built p start m b) (hi : b.i = start) {shift : Nat → Nat}
    (hpos : ∀ u, start < u → u < m → 0 < shift u) (hle : ∀ u, start < u → u < m → shift u ≤ b.shiftTable u)
    (hbo : ∀ u v, start < u → u < m → b.shiftTable u = m - start → Border p m start v → u ≤ v → shift u ≤ v - start) :
    GoodSuffixes p start m shift := by
  intro u hu hm
  refine ⟨hpos u hu hm, fun t ht ho => ?_⟩
  have hle := hle u hu hm
  obtain ⟨j, rfl⟩ : ∃ j, u = j + 1 := ⟨u - 1, by omega⟩
  by_cases hlt : start + t < j + 1
  · obtain ⟨hb, hne⟩ := ho.border (by omega) ht hlt
    have heq : j + 1 - t - 1 = j - t := by omega
    have := h.shifts.bound (j + 1) (j + 1 - t) hm (by omega) hb (by rwa [heq, Nat.add_sub_cancel])
    omega
  · rcases (h.shifts.value (j + 1) hu hm).2 with hun | hset
    · by_cases htm : start + t ≤ m
      · have := hbo (j + 1) (start + t) hu hm hun (ho.border_start ht (by omega) htm) (by omega)
        omega
      · omega
    · omega

end

theorem populateBoyerMooreTable_spec {patternSize : CharSize} (pattern : CharVector patternSize) (hpattern : 0 < pattern.length)
    (tables : Tables) : ∃ tables', populateBoyerMooreTable pattern tables = some tables' ∧ tables'.badChar = tables.badChar ∧
      GoodSuffixes pattern.get (start pattern) pattern.length tables'.goodSuffixShift := by
  have hst : start pattern < pattern.length := by
    rw [start, kBMMaxShift]
    omega
  have hun : ∀ u, start pattern < u → u < pattern.length → (if u = pattern.length then 1
      else if start pattern ≤ u ∧ u < pattern.length then pattern.length - start pattern else tables.goodSuffixShift u) =
        pattern.length - start pattern := by
    intro u hu hm
    rw [if_neg (by omega), if_pos (by omega)]
  obtain ⟨b, hfin, hbu, hi⟩ := findSuffixes_spec pattern (pattern.length + 1) _
    (Built.initial hst hun (update_self pattern.length (pattern.length + 1) tables.suffix)) (by dsimp only; omega)
  rw [populateBoyerMooreTable]
  dsimp only
  rw [if_neg (by omega), hfin, bind_eq_bind, bind_some]
  refine ⟨_, rfl, rfl, ?_⟩
  dsimp only
  have hfa : ∀ u, start pattern ≤ u → u ≤ pattern.length → Fails pattern.get pattern.length u (b.suffixTable u) :=
    fun u hu hm => hbu.fails u (by omega) hm
  have hfi := hfa (start pattern) le_rfl hst.le
  rw [← hi, hbu.suffix, hi] at hfi
  split
  · have hfil := fillShifts_spec (pattern.length - start pattern) hfa (pattern.length + 1 - start pattern) (start pattern) b.suffix b.shiftTable (by omega)
      le_rfl ⟨⟨hfi.1, hfi.1.lt.le⟩, fun w hw => hfi.2 hw.1⟩
    have hem : ∀ u v, u < pattern.length → NextBorder pattern.get (start pattern) pattern.length u v → v ≤ pattern.length :=
      fun u v hm hv => hv.2 ⟨.empty hst, hm.le⟩
    refine hbu.goodSuffixes hi (fun u hu hm => ?_) (fun u hu hm => ?_) fun u w hu hm hun hw hle => ?_
    · rcases hfil u with ⟨heq, -⟩ | ⟨-, -, v, heq, hv⟩
      · rw [heq]
        exact (hbu.shifts.value u hu hm).1
      · have := hv.1.1.lt
        omega
    · rcases hfil u with ⟨heq, -⟩ | ⟨hun, -, v, heq, hv⟩
      · exact heq.le
      · have := hem u v hm hv
        omega
    · rcases hfil u with ⟨-, hset⟩ | ⟨-, -, v, heq, hv⟩
      · exact absurd hun (hset (by omega) hm.le)
      · have := hv.2 ⟨hw, hle⟩
        omega
  · refine hbu.goodSuffixes hi (fun u hu hm => (hbu.shifts.value u hu hm).1) (fun _ _ _ => le_rfl) fun u v hu hm hun hv _ => ?_
    have := hfi.2 hv
    omega

end V8Multithread.Strings.StringSearch
