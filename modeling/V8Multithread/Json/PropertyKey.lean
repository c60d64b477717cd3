import Mathlib.Data.Nat.Digits.Defs
import V8Multithread.Json.StringScan

/-! Keys that are array indices.

`ScanJsonPropertyKey` looks for an index before it looks for a string. It takes digits in runs, each
digit plain or as a unicode escape, and gives up where another character or an overflow comes. Here the
digits are taken one unit at a time, and the units that are taken are those of the index in decimal. -/
namespace V8Multithread.Json
open List Option Source

def kMaxArrayIndex : Nat := 4294967294

/-- The text of an array index: its decimal digits, with no leading zero. -/
def arrayIndexName (index : Nat) : List Nat := (Nat.toDigits 10 index).map Char.toNat

/-! ### Decimal -/

variable {d index c result : Nat} {cursor rest : Cursor} {piece : Piece}

theorem arrayIndexName_digit (hd : d < 10) : arrayIndexName d = [0x30 + d] := by
  rw [arrayIndexName, Nat.toDigits_of_lt_base hd, map_singleton, Nat.toNat_digitChar_of_lt_ten hd]

theorem arrayIndexName_add (hin : 0 < index) (hd : d < 10) :
    arrayIndexName (index * 10 + d) = arrayIndexName index ++ [0x30 + d] := by
  rw [← arrayIndexName_digit hd, arrayIndexName, arrayIndexName, arrayIndexName, ← map_append,
    Nat.toDigits_append_toDigits (by decide) hin hd, mul_comm]

/-- By the digits of an index. -/
theorem decimal_induction {motive : Nat → Prop} (digit : ∀ d < 10, motive d)
    (add : ∀ index d, 0 < index → d < 10 → motive index → motive (index * 10 + d)) (index : Nat) : motive index := by
  induction index using Nat.strong_induction_on with
  | _ index ih =>
    by_cases hlt : index < 10
    · exact digit index hlt
    · have hsp : index = index / 10 * 10 + index % 10 := by omega
      rw [hsp]
      exact add _ _ (by omega) (Nat.mod_lt _ (by decide)) (ih _ (by omega))

def addDigit (value c : Nat) : Nat := value * 10 + (c - 0x30)

theorem foldl_arrayIndexName (index : Nat) : (arrayIndexName index).foldl addDigit 0 = index := by
  induction index using decimal_induction with
  | digit d hd =>
    rw [arrayIndexName_digit hd]
    simp [addDigit]
  | add index d hin hd ih =>
    rw [arrayIndexName_add hin hd, foldl_append, ih]
    simp [addDigit]

theorem isDecimalDigit_add (hd : d < 10) : isDecimalDigit (0x30 + d) := by
  simp only [isDecimalDigit, Bool.and_eq_true, decide_eq_true_eq]
  omega

theorem isDecimalDigit_of_mem_name {index c : Nat} (h : c ∈ arrayIndexName index) : isDecimalDigit c := by
  induction index using decimal_induction with
  | digit d hd =>
    rw [arrayIndexName_digit hd, mem_singleton] at h
    exact h ▸ isDecimalDigit_add hd
  | add index d hin hd ih =>
    rw [arrayIndexName_add hin hd, mem_append, mem_singleton] at h
    rcases h with h | h
    · exact ih h
    · exact h ▸ isDecimalDigit_add hd

theorem head_arrayIndexName (h : 0 < index) : ∃ d us, 0 < d ∧ d < 10 ∧ arrayIndexName index = (0x30 + d) :: us := by
  induction index using decimal_induction with
  | digit d hd => exact ⟨d, [], h, hd, arrayIndexName_digit hd⟩
  | add index d hin hd ih =>
    obtain ⟨first, us, hpos, hfi, hna⟩ := ih hin
    exact ⟨first, us ++ [0x30 + d], hpos, hfi, by rw [arrayIndexName_add hin hd, hna, cons_append]⟩

theorem le_foldl_addDigit (us : List Nat) (value : Nat) : value ≤ us.foldl addDigit value := by
  induction us generalizing value with
  | nil => exact le_refl _
  | cons u us ih =>
    have hst : value ≤ addDigit value u := by
      simp only [addDigit]
      omega
    exact hst.trans (ih _)

/-! ### One unit at a time -/

/-- The index after the units, where they are digits and none overflows. -/
def addUnits : (index : Nat) → List Nat → Option Nat
  | index, [] => some index
  | index, u :: us =>
    if isDecimalDigit u then
      match tryAddArrayIndexChar index u with
      | some index => addUnits index us
      | none => none
    else none

theorem digit_of_isDecimalDigit (h : isDecimalDigit c) : ∃ d < 10, c = 0x30 + d := by
  simp only [isDecimalDigit, Bool.and_eq_true, decide_eq_true_eq] at h
  exact ⟨c - 0x30, by omega, by omega⟩

theorem tryAddArrayIndexChar_eq (index : Nat) (hd : d < 10) :
    tryAddArrayIndexChar index (0x30 + d) =
      if index * 10 + d ≤ kMaxArrayIndex then some (index * 10 + d) else none := by
  have hshift : (d + 3) >>> 3 = if d < 5 then 0 else 1 := by
    split <;> omega
  have hg : index > 429496729 - (d + 3) >>> 3 ↔ ¬index * 10 + d ≤ kMaxArrayIndex := by
    rw [hshift, kMaxArrayIndex]
    split <;> omega
  rw [tryAddArrayIndexChar]
  simp only [Nat.add_sub_cancel_left]
  by_cases hfi : index * 10 + d ≤ kMaxArrayIndex
  · rw [if_pos hfi, if_neg fun h => hg.mp h hfi]
  · rw [if_neg hfi, if_pos (hg.mpr hfi)]

/-- The units that are added to an index are the rest of the digits of the result. -/
theorem addUnits_eq_some (hin : 0 < index) (hle : index ≤ kMaxArrayIndex) (us : List Nat) :
    addUnits index us = some result ↔ arrayIndexName result = arrayIndexName index ++ us ∧ result ≤ kMaxArrayIndex := by
  induction us generalizing index with
  | nil =>
    rw [addUnits, append_nil, some_inj]
    constructor
    · rintro rfl
      exact ⟨rfl, hle⟩
    · rintro ⟨hna, -⟩
      rw [← foldl_arrayIndexName index, ← hna, foldl_arrayIndexName]
  | cons u us ih =>
    by_cases hu : isDecimalDigit u = true
    · obtain ⟨d, hd, rfl⟩ := digit_of_isDecimalDigit hu
      rw [addUnits, if_pos hu, tryAddArrayIndexChar_eq index hd]
      by_cases hfi : index * 10 + d ≤ kMaxArrayIndex
      · rw [if_pos hfi]
        rw [ih (by omega) hfi, arrayIndexName_add hin hd, append_assoc, singleton_append]
      · rw [if_neg hfi]
        refine iff_of_false (by simp) ?_
        rintro ⟨hna, hre⟩
        -- the value of the digits is at least the one that overflowed
        have hva : result = us.foldl addDigit (index * 10 + d) := by
          rw [← foldl_arrayIndexName result, hna, foldl_append, foldl_arrayIndexName, foldl_cons,
            addDigit, Nat.add_sub_cancel_left]
        have := le_foldl_addDigit us (index * 10 + d)
        omega
    · rw [addUnits, if_neg hu]
      refine iff_of_false (by simp) ?_
      rintro ⟨hna, -⟩
      refine hu (@isDecimalDigit_of_mem_name result u ?_)
      rw [hna]
      exact mem_append_right _ mem_cons_self

/-! ### The scanner -/

/-- How `scanIndex` goes on after a run of digits. -/
def indexAfter : Nat × Cursor → Option (Nat × Cursor)
  | (found, 0x22 :: rest) => some (found, rest)
  | (found, 0x5c :: rest) =>
    if currentCharacter rest = some 0x75 then
      match scanUnicodeCharacter rest with
      | (some c, last) =>
        if isDecimalDigit c then
          match tryAddArrayIndexChar found c with
          | some next => scanIndex next last
          | none => none
        else none
      | (none, _) => none
    else none
  | _ => none

section
variable (index)

theorem scanIndex_eq (cursor : Cursor) : scanIndex index cursor = indexAfter (addDigits index cursor.tail) := by
  rw [scanIndex]
  split
  · next hfound => rw [hfound, indexAfter]
  · next rest hfound =>
    refine Eq.trans ?_ (congrArg indexAfter hfound).symm
    rw [indexAfter]
    split
    · split
      · next hscan => simp only [hscan] <;> rfl
      · next hscan => simp only [hscan]
    · rfl
  · next hqu hba =>
    rw [indexAfter.eq_def]
    split
    · next hfound => exact absurd hfound (hqu _ _)
    · next hfound => exact absurd hfound (hba _ _)
    · rfl

/-- Only what is after the cursor counts. -/
theorem scanIndex_congr {cursor' : Cursor} (h : cursor.tail = cursor'.tail) :
    scanIndex index cursor = scanIndex index cursor' := by
  rw [scanIndex_eq, scanIndex_eq, h]

theorem indexAfter_of_ne (hqu : c ≠ 0x22) (hba : c ≠ 0x5c) (found : Nat) (rest : Cursor) :
    indexAfter (found, c :: rest) = none := by
  rw [indexAfter.eq_def]
  split
  · next heq => cases heq; exact absurd rfl hqu
  · next heq => cases heq; exact absurd rfl hba
  · rfl

theorem plain_of_isDecimalDigit (h : isDecimalDigit c) : Plain c := by
  obtain ⟨d, hd, rfl⟩ := digit_of_isDecimalDigit h
  simp only [Plain]
  omega

theorem scanIndex_nil (h : cursor.tail = []) : scanIndex index cursor = none := by
  rw [scanIndex_eq, h]
  rfl

theorem scanIndex_plain (hc : isDecimalDigit c) (h : cursor.tail = c :: rest) :
    scanIndex index cursor = (tryAddArrayIndexChar index c).bind fun next => scanIndex next (c :: rest) := by
  have hp := plain_of_isDecimalDigit hc
  rw [scanIndex_eq, h, addDigits, if_pos hc]
  cases tryAddArrayIndexChar index c with
  | none => exact indexAfter_of_ne hp.2.1 hp.2.2 index rest
  | some next => exact (scanIndex_eq next (c :: rest)).symm

theorem scanIndex_other (hc : isDecimalDigit c = false) (h : cursor.tail = c :: rest) :
    scanIndex index cursor = indexAfter (index, c :: rest) := by
  rw [scanIndex_eq, h, addDigits, if_neg (by rw [hc]; decide)]

theorem scanIndex_quote (h : cursor.tail = 0x22 :: rest) : scanIndex index cursor = some (index, rest) := by
  rw [scanIndex_other index rfl h, indexAfter]

theorem scanIndex_unicode {a b c d : HexDigit} (h : cursor.tail = (Piece.unicode a b c d).source ++ rest)
    (hdi : isDecimalDigit (Piece.unicode a b c d).unit) :
    scanIndex index cursor =
      (tryAddArrayIndexChar index (Piece.unicode a b c d).unit).bind fun next => scanIndex next (d.char :: rest) := by
  simp only [Piece.source, cons_append, nil_append] at h
  rw [scanIndex_other index rfl h, indexAfter, if_pos (by rfl), scanUnicodeCharacter_digits]
  dsimp only
  rw [if_pos hdi]
  cases tryAddArrayIndexChar index (Piece.unicode a b c d).unit <;> rfl

theorem not_digit_of_escapes {letter unit : Nat} (h : (letter, unit) ∈ escapes) : isDecimalDigit unit = false := by
  have hall : ∀ entry ∈ escapes, isDecimalDigit entry.2 = false := by decide
  exact hall (letter, unit) h

/-- A piece that is a digit is taken as its unit. -/
theorem scanIndex_piece (h : cursor.tail = piece.source ++ rest)
    (hdi : isDecimalDigit piece.unit) (last : Cursor) (hl : last.tail = rest) :
    scanIndex index cursor = (tryAddArrayIndexChar index piece.unit).bind fun next => scanIndex next last := by
  cases piece with
  | plain c hc =>
    rw [scanIndex_plain index hdi h]
    exact congrArg _ (funext fun next => scanIndex_congr next hl.symm)
  | escape letter unit hletter =>
    rw [Piece.unit, not_digit_of_escapes hletter] at hdi
    cases hdi
  | unicode a b c d =>
    rw [scanIndex_unicode index h hdi]
    exact congrArg _ (funext fun next => scanIndex_congr next hl.symm)

end

theorem addUnits_cons {u : Nat} {us : List Nat} (h : addUnits index (u :: us) = some result) :
    isDecimalDigit u ∧ ∃ next, tryAddArrayIndexChar index u = some next ∧ addUnits next us = some result := by
  rw [addUnits] at h
  split at h
  · next hu =>
    split at h
    · next next htry => exact ⟨hu, next, htry, h⟩
    · cases h
  · cases h

theorem scanIndex_written (rest : Cursor) (pieces : List Piece) (hta : cursor.tail = written pieces ++ 0x22 :: rest)
    (h : addUnits index (units pieces) = some result) :
    scanIndex index cursor = some (result, rest) := by
  induction pieces generalizing index cursor with
  | nil =>
    cases h
    exact scanIndex_quote result hta
  | cons piece pieces ih =>
    obtain ⟨hdi, next, htry, hrest⟩ := addUnits_cons h
    rw [written_cons, append_assoc] at hta
    -- any character before what is left will do
    rw [scanIndex_piece index hta hdi (0 :: (written pieces ++ 0x22 :: rest)) rfl, htry, bind_some]
    exact ih rfl hrest

theorem scanIndex_sound (hbo : ∀ c ∈ cursor, c < 2 ^ 16) (h : scanIndex index cursor = some (result, rest)) :
    ∃ pieces, cursor.tail = written pieces ++ 0x22 :: rest ∧ addUnits index (units pieces) = some result := by
  induction hn : cursor.length using Nat.strong_induction_on generalizing index cursor with
  | _ n ih =>
    have hta : ∀ c ∈ cursor.tail, c < 2 ^ 16 := fun c hc => hbo c (mem_of_mem_tail hc)
    have htai : cursor.tail.length = n - 1 := by rw [length_tail, hn]
    -- a piece that is a digit, with the rest taken from the induction
    have hp (piece : Piece) {after : Cursor} (hcu : cursor.tail = piece.source ++ after)
        (hdi : isDecimalDigit piece.unit = true) :
        ∃ pieces, cursor.tail = written pieces ++ 0x22 :: rest ∧ addUnits index (units pieces) = some result := by
      have hpos := piece.length_source_pos
      rw [hcu, length_append] at htai
      obtain ⟨c, source, hso⟩ := exists_cons_of_length_pos hpos
      have hl : c < 2 ^ 16 := hta c (by rw [hcu, hso]; exact mem_cons_self)
      rw [scanIndex_piece index hcu hdi (c :: after) rfl, bind_eq_some_iff] at h
      obtain ⟨next, htry, hnext⟩ := h
      have hafter : ∀ x ∈ c :: after, x < 2 ^ 16 := by
        intro x hx
        rcases mem_cons.mp hx with rfl | hx
        · exact hl
        · exact hta x (by rw [hcu]; exact mem_append_right _ hx)
      obtain ⟨pieces, htail, hun⟩ := ih (c :: after).length (by rw [length_cons]; omega) hafter hnext rfl
      refine ⟨piece :: pieces, ?_, ?_⟩
      · rw [hcu, written_cons, append_assoc, ← htail, tail_cons]
      · rw [units_cons, addUnits, if_pos hdi, htry]
        exact hun
    cases htail : cursor.tail with
    | nil => cases (scanIndex_nil index htail).symm.trans h
    | cons c after =>
      rw [← htail]
      by_cases hc : isDecimalDigit c = true
      · exact hp (.plain c (plain_of_isDecimalDigit hc)) htail hc
      · rw [scanIndex_other index (Bool.eq_false_iff.mpr hc) htail] at h
        by_cases hqu : c = 0x22
        · subst hqu
          cases h
          exact ⟨[], htail, rfl⟩
        by_cases hba : c = 0x5c
        · subst hba
          rw [indexAfter] at h
          split at h
          · next hu =>
            split at h
            · next value last hscan =>
              obtain ⟨a, b, c, d, after', hdig, rfl, -⟩ :=
                scanUnicodeCharacter_some hscan fun c hc => hta c (htail ▸ mem_cons_of_mem _ hc)
              obtain ⟨u, after, rfl⟩ : ∃ u after', after = u :: after' := by
                cases after with
                | nil => cases hu
                | cons u after => exact ⟨u, after, rfl⟩
              cases hu
              rw [tail_cons] at hdig
              split at h
              · next hdi => exact hp (.unicode a b c d) (htail.trans (by rw [hdig]; rfl)) hdi
              · cases h
            · cases h
          · cases h
        · cases (indexAfter_of_ne hqu hba index after).symm.trans h

/-! ### Keys -/

theorem arrayIndexName_zero : arrayIndexName 0 = [0x30] := arrayIndexName_digit (by decide)

/-- An index in decimal starts with its first digit, and that is 0 for 0 alone. -/
theorem arrayIndexName_eq_cons (hd : d < 10) (us : List Nat) :
    arrayIndexName index = (0x30 + d) :: us ∧ index ≤ kMaxArrayIndex ↔
      if d = 0 then index = 0 ∧ us = [] else addUnits d us = some index := by
  split
  · next hzero =>
    subst hzero
    constructor
    · rintro ⟨hna, -⟩
      rcases Nat.eq_zero_or_pos index with rfl | hpos
      · rw [arrayIndexName_zero, List.cons.injEq] at hna
        exact ⟨rfl, hna.2.symm⟩
      · obtain ⟨first, us', hfi, -, hh⟩ := head_arrayIndexName hpos
        rw [hh, List.cons.injEq] at hna
        omega
    · rintro ⟨rfl, rfl⟩
      exact ⟨arrayIndexName_zero, Nat.zero_le _⟩
  · next hpos =>
    have hle : d ≤ kMaxArrayIndex := by
      rw [kMaxArrayIndex]
      omega
    rw [addUnits_eq_some (Nat.pos_of_ne_zero hpos) hle, arrayIndexName_digit hd, singleton_append]

theorem firstCharacter_piece (hdi : isDecimalDigit piece.unit) (rest : Cursor) :
    ∃ last : Cursor, last.tail = rest ∧ firstCharacter (piece.source ++ rest) = (some piece.unit, last) := by
  cases piece with
  | plain c hc =>
    refine ⟨c :: rest, rfl, ?_⟩
    rw [firstCharacter, if_neg]
    · rfl
    · rintro ⟨hfi, -⟩
      exact hc.2.2 (some_inj.mp hfi)
  | escape letter unit hletter =>
    rw [Piece.unit, not_digit_of_escapes hletter] at hdi
    cases hdi
  | unicode a b c d =>
    refine ⟨d.char :: rest, rfl, ?_⟩
    simp only [Piece.source, cons_append, nil_append]
    rw [firstCharacter, if_pos ⟨rfl, rfl⟩, tail_cons, scanUnicodeCharacter_digits]

theorem firstCharacter_some {first : Nat} {last : Cursor} (hbo : ∀ c ∈ cursor, c < 2 ^ 16)
    (h : firstCharacter cursor = (some first, last)) (hdig : isDecimalDigit first) :
    ∃ (piece : Piece) (rest : Cursor), cursor = piece.source ++ rest ∧ piece.unit = first ∧ last.tail = rest := by
  rw [firstCharacter] at h
  split at h
  · next hes =>
    obtain ⟨a, b, c, d, rest, hdi, rfl, rfl⟩ :=
      scanUnicodeCharacter_some h fun c hc => hbo c (mem_of_mem_tail hc)
    refine ⟨.unicode a b c d, rest, ?_, rfl, rfl⟩
    obtain ⟨hba, hu⟩ := hes
    match cursor, hba, hu, hdi with
    | _ :: _ :: _, hba, hu, hdi =>
      cases hba
      cases hu
      simp only [tail_cons] at hdi
      rw [hdi]
      rfl
  · match cursor, h with
    | c :: rest, h =>
      cases h
      exact ⟨.plain first (plain_of_isDecimalDigit hdig), rest, rfl, rfl, rfl⟩

theorem scanArrayIndex_piece (hd : d < 10) (hu : piece.unit = 0x30 + d) (rest : Cursor) :
    scanArrayIndex (piece.source ++ rest) =
      if d = 0 then if currentCharacter rest = some 0x22 then some (0, rest.tail) else none
      else scanIndex d (0 :: rest) := by
  have hdi : isDecimalDigit piece.unit = true := hu ▸ isDecimalDigit_add hd
  obtain ⟨last, hl, hfi⟩ := firstCharacter_piece hdi rest
  rw [scanArrayIndex, hfi]
  dsimp only
  rw [if_pos hdi, hl, hu, Nat.add_sub_cancel_left, scanIndex_congr d (show last.tail = (0 :: rest).tail from hl)]
  by_cases hzero : d = 0
  · rw [if_pos hzero, if_pos (by omega)]
  · rw [if_neg hzero, if_neg (by omega)]

/-- A key is an index where it spells one. -/
theorem scanArrayIndex_eq_some (hbo : ∀ c ∈ cursor, c < 2 ^ 16) (index : Nat) (rest : Cursor) :
    scanArrayIndex cursor = some (index, rest) ↔
      ∃ pieces, cursor = written pieces ++ 0x22 :: rest ∧ units pieces = arrayIndexName index ∧ index ≤ kMaxArrayIndex := by
  constructor
  · intro h
    have hfi : ∃ (piece : Piece) (after : Cursor), cursor = piece.source ++ after ∧ isDecimalDigit piece.unit = true := by
      rw [scanArrayIndex] at h
      split at h
      · next first last hfi =>
        split at h
        · next hdi =>
          obtain ⟨piece, after, hcu, rfl, -⟩ := firstCharacter_some hbo hfi hdi
          exact ⟨piece, after, hcu, hdi⟩
        · cases h
      · cases h
    obtain ⟨piece, after, rfl, hdi⟩ := hfi
    obtain ⟨d, hd, hun⟩ := digit_of_isDecimalDigit hdi
    rw [scanArrayIndex_piece hd hun] at h
    have hrest : ∃ pieces, after = written pieces ++ 0x22 :: rest ∧
        if d = 0 then index = 0 ∧ units pieces = [] else addUnits d (units pieces) = some index := by
      split at h
      · next hzero =>
        split at h
        · next hqu =>
          cases h
          refine ⟨[], ?_, by rw [if_pos hzero]; exact ⟨rfl, rfl⟩⟩
          match after, hqu with
          | _ :: _, hqu =>
            cases hqu
            rfl
        · cases h
      · next hpos =>
        have hafter : ∀ c ∈ 0 :: after, c < 2 ^ 16 := by
          intro c hc
          rcases mem_cons.mp hc with rfl | hc
          · decide
          · exact hbo c (mem_append_right _ hc)
        obtain ⟨pieces, hta, hu⟩ := scanIndex_sound hafter h
        exact ⟨pieces, hta, by rw [if_neg hpos]; exact hu⟩
    obtain ⟨pieces, rfl, hu⟩ := hrest
    obtain ⟨hna, hle⟩ := (arrayIndexName_eq_cons hd _).mpr hu
    exact ⟨piece :: pieces, by rw [written_cons, append_assoc], by rw [units_cons, hun, hna], hle⟩
  · rintro ⟨pieces, rfl, hu, hle⟩
    cases pieces with
    | nil =>
      have hva := foldl_arrayIndexName index
      rw [← hu] at hva
      cases hva
      cases hu.trans arrayIndexName_zero
    | cons piece pieces =>
      rw [units_cons] at hu
      have hdi : isDecimalDigit piece.unit = true :=
        @isDecimalDigit_of_mem_name index _ (hu ▸ mem_cons_self)
      obtain ⟨d, hd, hun⟩ := digit_of_isDecimalDigit hdi
      rw [hun] at hu
      have hrest := (arrayIndexName_eq_cons hd _).mp ⟨hu.symm, hle⟩
      rw [written_cons, append_assoc, scanArrayIndex_piece hd hun]
      split at hrest
      · next hzero =>
        obtain ⟨rfl, hnil⟩ := hrest
        rw [if_pos hzero, map_eq_nil_iff.mp hnil]
        rfl
      · next hpos =>
        rw [if_neg hpos]
        exact scanIndex_written rest pieces rfl hrest

/-! ### Strings and keys -/

/-- A string is what its grammar says it is, for the scanner and for the decoder; and a key is an index
where its decoded text is one. What the decoder reads is what is written: it is enough for it. -/
theorem strings_scanned_exactly (s : Source) (position : Nat) (needsInternalization : Bool) (cont : Elements) :
    let cursor := s.chars.drop position
    (∀ result, s.scanJsonString cursor needsInternalization = .ok result ↔
      ∃ pieces rest, cursor = written pieces ++ 0x22 :: rest ∧
        result = (.string (s.position cursor) (units pieces).length (s.width.needsConversion (units pieces))
          needsInternalization (pieces.any Piece.isEscape), rest)) ∧
    (∀ pieces rest, cursor = written pieces ++ 0x22 :: rest → (∀ sink : Width, (∀ u ∈ units pieces, u ≤ sink.maxChar) →
        decodeString sink cursor (units pieces).length = some (units pieces) ∧
        decodeString sink (written pieces) (units pieces).length = some (units pieces)) ∧
      s.makeString (.string (s.position cursor) (units pieces).length (s.width.needsConversion (units pieces))
        needsInternalization (pieces.any Piece.isEscape)) = some (units pieces)) ∧
    (∀ index rest cont', s.scanJsonPropertyKey cont cursor = .ok (.index index, rest, cont') ↔
      (∃ pieces, cursor = written pieces ++ 0x22 :: rest ∧ units pieces = arrayIndexName index ∧
        index ≤ kMaxArrayIndex) ∧ cont' = ⟨max cont.maxIndex index, cont.elements + 1⟩) ∧
    ((¬∃ pieces rest index, cursor = written pieces ++ 0x22 :: rest ∧ units pieces = arrayIndexName index ∧
        index ≤ kMaxArrayIndex) →
      s.scanJsonPropertyKey cont cursor =
        (s.scanJsonString cursor true).map fun (string, rest) => (string, rest, cont)) := by
  intro cursor
  have hsuffix : cursor <:+ s.chars := drop_suffix position s.chars
  have hbound : ∀ c ∈ cursor, c < 2 ^ 16 :=
    fun c hc => lt_of_le_of_lt (s.bounded c (hsuffix.subset hc)) s.width.maxChar_lt
  have hlength (pieces : List Piece) : (units pieces).length = pieces.length := length_map _
  refine ⟨fun result => ⟨fun h => ?_, ?_⟩, fun pieces rest hcursor => ⟨fun sink hfits => ⟨?_, ?_⟩, ?_⟩,
    fun index rest cont' => ⟨fun h => ?_, ?_⟩, fun hnone => ?_⟩
  · obtain ⟨pieces, hpieces⟩ := scanJsonString_sound hsuffix h
    rw [hpieces] at hsuffix h ⊢
    rw [s.scanJsonString_written needsInternalization pieces result.2 hsuffix] at h
    refine ⟨pieces, result.2, rfl, ?_⟩
    rw [hlength]
    exact (Except.ok.inj h).symm
  · rintro ⟨pieces, rest, hpieces, rfl⟩
    rw [hpieces] at hsuffix ⊢
    rw [s.scanJsonString_written needsInternalization pieces rest hsuffix, hlength]
  · rw [hcursor, hlength, decodeString_written, map_store hfits]
  · have := decodeString_written sink pieces []
    rw [append_nil, map_store hfits] at this
    rw [hlength, this]
  · rw [hcursor] at hsuffix ⊢
    rw [hlength, s.makeString_written needsInternalization pieces rest hsuffix]
  · rw [scanJsonPropertyKey] at h
    split at h
    · next found after hscan =>
      cases h
      exact ⟨(scanArrayIndex_eq_some hbound index rest).mp hscan, rfl⟩
    · next hscan =>
      cases hstring : s.scanJsonString cursor true with
      | error e =>
        rw [hstring] at h
        cases h
      | ok result =>
        obtain ⟨string, after⟩ := result
        rw [hstring] at h
        obtain ⟨pieces, hpieces⟩ := scanJsonString_sound hsuffix hstring
        rw [hpieces] at hsuffix hstring
        rw [s.scanJsonString_written true pieces after hsuffix] at hstring
        cases hstring
        cases h
  · rintro ⟨hpieces, rfl⟩
    rw [scanJsonPropertyKey, (scanArrayIndex_eq_some hbound index rest).mpr hpieces]
  · rw [scanJsonPropertyKey]
    split
    · next found after hscan =>
      obtain ⟨pieces, hpieces⟩ := (scanArrayIndex_eq_some hbound found after).mp hscan
      exact absurd ⟨pieces, after, found, hpieces⟩ hnone
    · rfl

end V8Multithread.Json
