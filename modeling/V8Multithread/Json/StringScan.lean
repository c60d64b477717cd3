import V8Multithread.Json.JsonString

/-! JSON strings are scanned and decoded exactly.

A JSON string is a list of pieces: plain characters, escapes of one letter, and escapes of four hex
digits. Each piece is one code unit of the decoded string. The scanner and the decoder both go through
the source in runs, from one escape to the next. Here each is first shown to take a piece at a time,
with equations about the first piece; what they do to a whole string follows by induction on its
pieces. -/
namespace V8Multithread.Json
open List Width

/-! ### The grammar -/

def Plain (c : Nat) : Prop := 0x20 ≤ c ∧ c ≠ 0x22 ∧ c ≠ 0x5c

/-- What the letter after a backslash stands for. -/
def escapes : List (Nat × Nat) :=
  [(0x22, 0x22), (0x5c, 0x5c), (0x2f, 0x2f), (0x62, 0x08), (0x66, 0x0c), (0x6e, 0x0a), (0x72, 0x0d), (0x74, 0x09)]

def hexDigit (c : Nat) : Option Nat :=
  if 0x30 ≤ c ∧ c ≤ 0x39 then some (c - 0x30)
  else if 0x61 ≤ c ∧ c ≤ 0x66 then some (c - 0x61 + 10)
  else if 0x41 ≤ c ∧ c ≤ 0x46 then some (c - 0x41 + 10)
  else none

structure HexDigit where
  char : Nat
  value : Nat
  spells : hexDigit char = some value

inductive Piece where
  | plain (c : Nat) (hc : Plain c)
  | escape (letter unit : Nat) (hletter : (letter, unit) ∈ escapes)
  | unicode (a b c d : HexDigit)

namespace Piece

def source : Piece → List Nat
  | plain c _ => [c]
  | escape letter _ _ => [0x5c, letter]
  | unicode a b c d => [0x5c, 0x75, a.char, b.char, c.char, d.char]

def unit : Piece → Nat
  | plain c _ => c
  | escape _ unit _ => unit
  | unicode a b c d => ((a.value * 16 + b.value) * 16 + c.value) * 16 + d.value

def isEscape : Piece → Bool
  | plain _ _ => false
  | _ => true

end Piece

def written (pieces : List Piece) : List Nat := pieces.flatMap Piece.source

def units (pieces : List Piece) : List Nat := pieces.map Piece.unit

@[simp] theorem written_nil : written [] = [] := rfl
@[simp] theorem written_cons (piece : Piece) (pieces : List Piece) :
    written (piece :: pieces) = piece.source ++ written pieces := flatMap_cons

@[simp] theorem units_nil : units [] = [] := rfl

@[simp] theorem units_cons (piece : Piece) (pieces : List Piece) :
    units (piece :: pieces) = piece.unit :: units pieces := rfl

/-! ### Characters -/

theorem or_0x20 (d : Nat) : d ||| 0x20 = if d / 32 % 2 = 1 then d else d + 32 := by
  have hlow : ∀ r < 64, r ||| 0x20 = if r / 32 % 2 = 1 then r else r + 32 := by decide
  have hd : d = 2 ^ 6 * (d / 64) ||| d % 64 := by
    rw [← Nat.two_pow_add_eq_or_of_lt (Nat.mod_lt d (by decide)), Nat.div_add_mod]
  have hr := hlow (d % 64) (Nat.mod_lt d (by decide))
  have hlt : d % 64 ||| 0x20 < 2 ^ 6 := Nat.or_lt_two_pow (Nat.mod_lt d (by decide)) (by decide)
  calc d ||| 0x20 = 2 ^ 6 * (d / 64) ||| (d % 64 ||| 0x20) := by rw [← Nat.or_assoc, ← hd]
    _ = 2 ^ 6 * (d / 64) + (d % 64 ||| 0x20) := (Nat.two_pow_add_eq_or_of_lt hlt _).symm
    _ = _ := by
      rw [hr]
      split <;> split <;> omega

/-- The second test, on the difference to `0`. -/
theorem lower_sub_le {d : Nat} (hd : d < 2 ^ 32) (h9 : ¬d ≤ 9) :
    ((d ||| 0x20) + 2 ^ 32 - 0x31) % 2 ^ 32 ≤ 5 ↔ (0x11 ≤ d ∧ d ≤ 0x16) ∨ (0x31 ≤ d ∧ d ≤ 0x36) := by
  rw [or_0x20]
  split <;> omega

variable {c letter unit value : Nat} {cursor : Cursor} {pieces : List Piece} {width : Width}

/-- `HexValue` finds the digits of the grammar. -/
theorem hexValue_eq (hc : c < 2 ^ 16) : hexValue c = hexDigit c := by
  have hd : (c + 2 ^ 32 - 0x30) % 2 ^ 32 = if 0x30 ≤ c then c - 0x30 else c + 2 ^ 32 - 0x30 := by
    split <;> omega
  have hlt : (c + 2 ^ 32 - 0x30) % 2 ^ 32 < 2 ^ 32 := Nat.mod_lt _ (by decide)
  have hor := or_0x20 ((c + 2 ^ 32 - 0x30) % 2 ^ 32)
  simp only [hexValue, hexDigit]
  generalize (c + 2 ^ 32 - 0x30) % 2 ^ 32 = d at *
  by_cases h9 : d ≤ 9
  · have hdi : 0x30 ≤ c ∧ c ≤ 0x39 := by
      split at hd <;> omega
    rw [if_pos h9, if_pos hdi, hd, if_pos hdi.1]
  · have hnot : ¬(0x30 ≤ c ∧ c ≤ 0x39) := by
      split at hd <;> omega
    rw [if_neg h9, if_neg hnot]
    have hle := lower_sub_le hlt h9
    by_cases hl : 0x61 ≤ c ∧ c ≤ 0x66
    · rw [if_pos hl, if_pos (hle.mpr (by split at hd <;> omega)), hor]
      refine congrArg some ?_
      split at hd <;> split <;> omega
    · rw [if_neg hl]
      by_cases hu : 0x41 ≤ c ∧ c ≤ 0x46
      · rw [if_pos hu, if_pos (hle.mpr (by split at hd <;> omega)), hor]
        refine congrArg some ?_
        split at hd <;> split <;> omega
      · rw [if_neg hu, if_neg fun h => by
          have := hle.mp h
          split at hd <;> omega]

theorem hexDigit_lt {d : Nat} (h : hexDigit c = some d) : d < 16 := by
  simp only [hexDigit] at h
  split_ifs at h <;> (cases h; omega)

theorem hexDigit_char_lt {d : Nat} (h : hexDigit c = some d) : c < 0x67 := by
  simp only [hexDigit] at h
  split_ifs at h <;> omega

theorem HexDigit.hexValue_char (digit : HexDigit) : hexValue digit.char = some digit.value := by
  have := hexDigit_char_lt digit.spells
  rw [hexValue_eq (by omega), digit.spells]

theorem mayTerminate_eq_false : mayTerminateJsonString c = false ↔ Plain c := by
  simp only [mayTerminateJsonString, Plain, Bool.or_eq_false_iff, decide_eq_false_iff_not]
  omega

theorem letter_of_escapes (h : (letter, unit) ∈ escapes) :
    letter ≤ kMaxChar ∧ unit ≤ kMaxChar ∧ getEscapeKind letter ≠ .kUnicode ∧ getEscapeKind letter ≠ .kIllegal := by
  have hall : ∀ entry ∈ escapes, entry.1 ≤ kMaxChar ∧ entry.2 ≤ kMaxChar ∧ getEscapeKind entry.1 ≠ .kUnicode ∧
      getEscapeKind entry.1 ≠ .kIllegal := by
    decide
  exact hall (letter, unit) h

/-- A letter that is neither `u` nor illegal is one of the grammar's. -/
theorem escapes_of_kind (hun : getEscapeKind letter ≠ .kUnicode) (hil : getEscapeKind letter ≠ .kIllegal) :
    ∃ unit, (letter, unit) ∈ escapes := by
  simp only [getEscapeKind] at hun hil
  simp only [escapes, mem_cons, Prod.mk.injEq, not_mem_nil, or_false]
  split_ifs at hun hil with hb ht hn hf hr hu hqu hba hsl
  · exact ⟨_, .inr (.inr (.inr (.inl ⟨hb, rfl⟩)))⟩
  · exact ⟨_, .inr (.inr (.inr (.inr (.inr (.inr (.inr ⟨ht, rfl⟩))))))⟩
  · exact ⟨_, .inr (.inr (.inr (.inr (.inr (.inl ⟨hn, rfl⟩)))))⟩
  · exact ⟨_, .inr (.inr (.inr (.inr (.inl ⟨hf, rfl⟩))))⟩
  · exact ⟨_, .inr (.inr (.inr (.inr (.inr (.inr (.inl ⟨hr, rfl⟩))))))⟩
  · exact absurd rfl hun
  · exact ⟨_, .inl ⟨hqu, rfl⟩⟩
  · exact ⟨_, .inr (.inl ⟨hba, rfl⟩)⟩
  · exact ⟨_, .inr (.inr (.inl ⟨hsl, rfl⟩))⟩
  · exact absurd rfl hil

theorem getEscapeKind_eq_unicode (h : getEscapeKind c = .kUnicode) : c = 0x75 := by
  simp only [getEscapeKind] at h
  split_ifs at h
  assumption

theorem scanDigits_cons (count value u : Nat) (digit : HexDigit) (rest : Cursor) :
    scanDigits (count + 1) value (u :: digit.char :: rest) =
      scanDigits count (value * 16 + digit.value) (digit.char :: rest) := by
  rw [scanDigits, currentCharacter, tail_cons, List.head?_cons, Option.bind_some, digit.hexValue_char]

theorem scanUnicodeCharacter_digits (u : Nat) (a b c d : HexDigit) (rest : Cursor) :
    scanUnicodeCharacter (u :: a.char :: b.char :: c.char :: d.char :: rest) =
      (some (Piece.unicode a b c d).unit, d.char :: rest) := by
  rw [scanUnicodeCharacter, scanDigits_cons, scanDigits_cons, scanDigits_cons, scanDigits_cons, scanDigits,
    zero_mul, zero_add]
  rfl

theorem scanDigits_some {count result : Nat} {last : Cursor}
    (h : scanDigits (count + 1) value cursor = (some result, last)) (hbo : ∀ c ∈ cursor, c < 2 ^ 16) :
    ∃ digit : HexDigit, ∃ rest, cursor.tail = digit.char :: rest ∧
      scanDigits count (value * 16 + digit.value) (digit.char :: rest) = (some result, last) := by
  rw [scanDigits] at h
  split at h
  · next v hv =>
    obtain ⟨c, hc, hhex⟩ := Option.bind_eq_some_iff.mp hv
    obtain ⟨rest, hta⟩ := List.head?_eq_some_iff.mp hc
    have hmem : c ∈ cursor := mem_of_mem_tail (by rw [hta]; exact mem_cons_self)
    rw [hexValue_eq (hbo c hmem)] at hhex
    rw [hta] at h
    exact ⟨⟨c, v, hhex⟩, rest, hta, h⟩
  · cases h

theorem scanUnicodeCharacter_some {last : Cursor} (h : scanUnicodeCharacter cursor = (some value, last))
    (hbo : ∀ c ∈ cursor, c < 2 ^ 16) :
    ∃ (a b c d : HexDigit) (rest : Cursor), cursor.tail = a.char :: b.char :: c.char :: d.char :: rest ∧
      value = (Piece.unicode a b c d).unit ∧ last = d.char :: rest := by
  have hsub {x : HexDigit} {xs ys : Cursor} (hta : ys.tail = x.char :: xs) (hys : ∀ c ∈ ys, c < 2 ^ 16) :
      ∀ c ∈ x.char :: xs, c < 2 ^ 16 := by
    intro c hc
    rw [← hta] at hc
    exact hys c (mem_of_mem_tail hc)
  obtain ⟨a, r₁, h₁, hscan⟩ := scanDigits_some h hbo
  have hb₁ := hsub h₁ hbo
  obtain ⟨b, r₂, h₂, hscan⟩ := scanDigits_some hscan hb₁
  have hb₂ := hsub h₂ hb₁
  obtain ⟨c, r₃, h₃, hscan⟩ := scanDigits_some hscan hb₂
  have hb₃ := hsub h₃ hb₂
  obtain ⟨d, r₄, h₄, hscan⟩ := scanDigits_some hscan hb₃
  rw [tail_cons] at h₂ h₃ h₄
  rw [scanDigits, Prod.mk.injEq, Option.some.injEq] at hscan
  refine ⟨a, b, c, d, r₄, by rw [h₁, h₂, h₃, h₄], ?_, hscan.2.symm⟩
  rw [← hscan.1, Piece.unit, zero_mul, zero_add]

/-! ### Runs of plain characters -/

theorem lane_eq (c : Nat) : lane c = mayTerminateJsonString c := rfl

theorem dropWhile_drop {p : Nat → Bool} {l : List Nat} {n : Nat} (h : ∀ x ∈ l.take n, p x) :
    (l.drop n).dropWhile p = l.dropWhile p := by
  rw [← dropWhile_append_of_pos h, take_append_drop]

/-- Whole vectors are skipped only where nothing in them may end the string. -/
theorem dropWhile_skipVectors (vectors : Nat) (cursor : Cursor) :
    (skipVectors vectors cursor).dropWhile (fun c => !mayTerminateJsonString c) =
      cursor.dropWhile fun c => !mayTerminateJsonString c := by
  induction vectors generalizing cursor with
  | zero => rfl
  | succ vectors ih =>
    rw [skipVectors]
    split
    · split
      · next hno =>
        rw [ih]
        apply dropWhile_drop
        intro c hc
        rw [← lane_eq, List.findIdx?_eq_none_iff.mp hno c hc]
        rfl
      · next i hso =>
        obtain ⟨hi, -, hbefore⟩ := List.findIdx?_eq_some_iff_getElem.mp hso
        apply dropWhile_drop
        intro c hc
        obtain ⟨j, hj, rfl⟩ := getElem_of_mem hc
        rw [length_take] at hj hi
        have hl := hbefore j (by omega)
        rw [getElem_take] at hl ⊢
        rw [← lane_eq, Bool.eq_false_of_not_eq_true hl]
        rfl
    · rfl

theorem skipOneByte_eq (cursor : Cursor) : skipOneByte cursor = cursor.dropWhile fun c => !mayTerminateJsonString c :=
  dropWhile_skipVectors _ cursor

def Width.gather (width : Width) (bits c : Nat) : Nat :=
  match width with
  | .one => bits
  | .two => if c > kMaxChar then bits ||| c else bits

theorem skip_plain (hc : Plain c) (width : Width) (bits : Nat) (rest : Cursor) :
    width.skip bits (c :: rest) = width.skip (width.gather bits c) rest := by
  have hst := mayTerminate_eq_false.mpr hc
  cases width with
  | one => simp [Width.skip, skipOneByte_eq, hst, gather]
  | two =>
    simp only [Width.skip, gather, skipTwoByte, hst]
    split <;> rfl

theorem skip_stop (hst : mayTerminateJsonString c) (hc : c ≤ kMaxChar) (width : Width) (bits : Nat)
    (rest : Cursor) : width.skip bits (c :: rest) = (bits, c :: rest) := by
  cases width with
  | one => simp [Width.skip, skipOneByte_eq, hst]
  | two => simp [Width.skip, skipTwoByte, hst, Nat.not_lt.mpr hc]

theorem skip_nil (width : Width) (bits : Nat) : width.skip bits [] = (bits, []) := by
  cases width <;> rfl

/-! ### One piece at a time -/

namespace Source
variable (s : Source) (start : Nat) (needsInternalization : Bool) (offset bits : Nat) (hasEscape : Bool)

/-- The loop goes on from what a round leaves. -/
theorem scanLoop_eq (loop : Scanning) : s.scanLoop start needsInternalization loop =
      s.scanRound start needsInternalization loop >>= Sum.elim (s.scanLoop start needsInternalization) .ok := by
  rw [scanLoop]
  split <;> next hround =>
    simp only [hround]
    rfl

theorem scanLoop_plain (hc : Plain c) (rest : Cursor) :
    s.scanLoop start needsInternalization ⟨c :: rest, offset, hasEscape, bits⟩ =
      s.scanLoop start needsInternalization ⟨rest, offset, hasEscape, s.width.gather bits c⟩ := by
  rw [scanLoop_eq, scanLoop_eq]
  simp only [scanRound, skip_plain hc]

theorem scanLoop_quote (rest : Cursor) : s.scanLoop start needsInternalization ⟨0x22 :: rest, offset, hasEscape, bits⟩ =
      .ok (.string start (s.position (0x22 :: rest) - offset) (s.width.converts bits) needsInternalization hasEscape,
        rest) := by
  rw [scanLoop_eq]
  simp only [scanRound, skip_stop (show mayTerminateJsonString 0x22 = true from rfl) (by decide), if_true]
  rfl

theorem scanLoop_escape (h : (letter, unit) ∈ escapes) (rest : Cursor) :
    s.scanLoop start needsInternalization ⟨0x5c :: letter :: rest, offset, hasEscape, bits⟩ =
      s.scanLoop start needsInternalization ⟨rest, offset + 1, true, bits⟩ := by
  obtain ⟨hletter, -, hu, hil⟩ := letter_of_escapes h
  rw [scanLoop_eq]
  simp only [scanRound, skip_stop (show mayTerminateJsonString 0x5c = true from rfl) (by decide), if_true]
  rw [if_neg (by decide), if_neg (Nat.not_lt.mpr hletter)]
  rfl

theorem unit_unicode_le (a b c d : HexDigit) : (Piece.unicode a b c d).unit ≤ kMaxNonSurrogateCharCode := by
  have ha := hexDigit_lt a.spells
  have hb := hexDigit_lt b.spells
  have hc := hexDigit_lt c.spells
  have hd := hexDigit_lt d.spells
  simp only [Piece.unit, kMaxNonSurrogateCharCode]
  omega

theorem scanLoop_unicode (a b c d : HexDigit) (rest : Cursor) : s.scanLoop start needsInternalization
        ⟨0x5c :: 0x75 :: a.char :: b.char :: c.char :: d.char :: rest, offset, hasEscape, bits⟩ =
      s.scanLoop start needsInternalization ⟨rest, offset + 5, true, bits ||| (Piece.unicode a b c d).unit⟩ := by
  rw [scanLoop_eq]
  simp only [scanRound, skip_stop (show mayTerminateJsonString 0x5c = true from rfl) (by decide),
    scanUnicodeCharacter_digits, if_true]
  rw [if_neg (by decide), if_neg (by decide), if_neg (Nat.not_lt.mpr (unit_unicode_le a b c d))]
  rfl

/-- The first piece of what a round accepts. -/
theorem scanRound_head {loop : Scanning} (hbo : ∀ c ∈ loop.cursor, c < 2 ^ 16)
    {result : Scanning ⊕ JsonString × Cursor} (h : s.scanRound start needsInternalization loop = .ok result) :
    (∃ rest, loop.cursor = 0x22 :: rest) ∨ ∃ (piece : Piece) (rest : Cursor), loop.cursor = piece.source ++ rest := by
  obtain ⟨cursor, offset, hasEscape, bits⟩ := loop
  cases cursor with
  | nil =>
    simp only [scanRound, skip_nil] at h
    cases h
  | cons c rest =>
    by_cases hp : Plain c
    · exact .inr ⟨.plain c hp, rest, rfl⟩
    have hst : mayTerminateJsonString c = true := by
      rw [← Bool.not_eq_false]
      exact fun hc => hp (mayTerminate_eq_false.mp hc)
    have hc : c ≤ kMaxChar := by
      simp only [Plain, kMaxChar] at hp ⊢
      omega
    simp only [scanRound, skip_stop hst hc] at h
    split at h
    · next hqu =>
      subst hqu
      exact .inl ⟨rest, rfl⟩
    · split at h
      · next hba =>
        subst hba
        cases rest with
        | nil => cases h
        | cons letter after =>
          dsimp only at h
          split at h
          · cases h
          · split at h
            · next hki =>
              obtain rfl := getEscapeKind_eq_unicode hki
              split at h
              · cases h
              · next value last hscan =>
                obtain ⟨a, b, c, d, rest', hta, -⟩ :=
                  scanUnicodeCharacter_some hscan fun c hc => hbo c (mem_cons_of_mem _ hc)
                rw [tail_cons] at hta
                rw [hta]
                exact .inr ⟨.unicode a b c d, rest', rfl⟩
            · cases h
            · next hu hil =>
              obtain ⟨unit, hletter⟩ := escapes_of_kind hu hil
              exact .inr ⟨.escape letter unit hletter, after, rfl⟩
      · cases h

end Source

/-! ### Whole strings -/

/-- Whether a string that is made of the units is stored with another width than the source's. -/
def Width.needsConversion (width : Width) (units : List Nat) : Bool :=
  match width with
  | .one => !units.all (· ≤ kMaxChar)
  | .two => units.all (· ≤ kMaxChar)

theorem or_gt_kMaxChar (a b : Nat) : a ||| b > kMaxChar ↔ a > kMaxChar ∨ b > kMaxChar := by
  constructor
  · intro h
    by_contra hle
    simp only [not_or, not_lt, kMaxChar] at hle h
    have hlt : a ||| b < 2 ^ 8 := Nat.or_lt_two_pow (by omega) (by omega)
    omega
  · rintro (h | h)
    · exact lt_of_lt_of_le h Nat.left_le_or
    · exact lt_of_lt_of_le h Nat.right_le_or

theorem exists_mem_cons {piece : Piece} :
    (∃ p ∈ piece :: pieces, p.unit > kMaxChar) ↔ piece.unit > kMaxChar ∨ ∃ p ∈ pieces, p.unit > kMaxChar := by
  simp only [mem_cons, exists_eq_or_imp]

theorem gather_gt_kMaxChar (bits : Nat) (hc : c ≤ width.maxChar) :
    width.gather bits c > kMaxChar ↔ bits > kMaxChar ∨ c > kMaxChar := by
  cases width with
  | one =>
    simp only [gather, maxChar, kMaxChar] at hc ⊢
    omega
  | two =>
    simp only [gather]
    split
    · exact or_gt_kMaxChar bits c
    · next hle => simp [hle]

/-- The characters gathered from the pieces are wide where a unit is. -/
theorem Source.scanLoop_written (s : Source) (start : Nat) (needsInternalization : Bool) (rest : Cursor)
    (pieces : List Piece) (hbo : ∀ c ∈ written pieces, c ≤ s.width.maxChar) (offset bits : Nat) (hasEscape : Bool) :
    ∃ bits' offset', (bits' > kMaxChar ↔ bits > kMaxChar ∨ ∃ piece ∈ pieces, piece.unit > kMaxChar) ∧
      offset' + pieces.length = offset + (written pieces).length ∧
      s.scanLoop start needsInternalization ⟨written pieces ++ 0x22 :: rest, offset, hasEscape, bits⟩ =
        .ok (.string start (s.position (0x22 :: rest) - offset') (s.width.converts bits') needsInternalization
          (hasEscape || pieces.any Piece.isEscape), rest) := by
  induction pieces generalizing offset bits hasEscape with
  | nil => exact ⟨bits, offset, by simp, rfl, by simp [s.scanLoop_quote]⟩
  | cons piece pieces ih =>
    rw [written_cons] at hbo
    have hrest : ∀ c ∈ written pieces, c ≤ s.width.maxChar := fun c hc => hbo c (mem_append_right _ hc)
    cases piece with
    | plain c hc =>
      obtain ⟨bits', offset', hbi, ho, hscan⟩ := ih hrest offset (s.width.gather bits c) hasEscape
      refine ⟨bits', offset', ?_, ?_, ?_⟩
      · rw [hbi, gather_gt_kMaxChar bits (hbo c mem_cons_self), exists_mem_cons, or_assoc]
        rfl
      · simp only [written_cons, Piece.source, length_cons, singleton_append]
        omega
      · rw [written_cons, Piece.source, singleton_append, cons_append, s.scanLoop_plain _ _ _ _ _ hc, hscan]
        simp [Piece.isEscape]
    | escape letter unit hletter =>
      obtain ⟨bits', offset', hbi, ho, hscan⟩ := ih hrest (offset + 1) bits true
      have hu : ¬unit > kMaxChar := Nat.not_lt.mpr (letter_of_escapes hletter).2.1
      refine ⟨bits', offset', ?_, ?_, ?_⟩
      · rw [hbi, exists_mem_cons]
        simp [Piece.unit, hu]
      · simp only [written_cons, Piece.source, length_cons, cons_append, nil_append]
        omega
      · rw [written_cons, Piece.source, cons_append, cons_append, cons_append, nil_append,
          cons_append, s.scanLoop_escape _ _ _ _ _ hletter, hscan]
        simp [Piece.isEscape]
    | unicode a b c d =>
      obtain ⟨bits', offset', hbi, ho, hscan⟩ :=
        ih hrest (offset + 5) (bits ||| (Piece.unicode a b c d).unit) true
      refine ⟨bits', offset', ?_, ?_, ?_⟩
      · rw [hbi, or_gt_kMaxChar, exists_mem_cons, or_assoc]
      · simp only [written_cons, Piece.source, length_cons, cons_append, nil_append]
        omega
      · simp only [written_cons, Piece.source, cons_append, nil_append]
        rw [s.scanLoop_unicode, hscan]
        simp [Piece.isEscape]

theorem converts_eq {bits : Nat} (h : bits > kMaxChar ↔ ∃ piece ∈ pieces, piece.unit > kMaxChar) :
    width.converts bits = width.needsConversion (units pieces) := by
  have hall : (units pieces).all (· ≤ kMaxChar) = decide (bits ≤ kMaxChar) := by
    rw [Bool.eq_iff_iff, List.all_eq_true, decide_eq_true_iff, ← not_lt, ← gt_iff_lt, h]
    simp [units]
  cases width with
  | one =>
    rw [Width.needsConversion, hall, converts, ← decide_not]
    simp
  | two => rw [Width.needsConversion, hall, converts]

theorem Source.position_append (s : Source) {before after : Cursor} (h : before ++ after <:+ s.chars) :
    s.position after = s.position (before ++ after) + before.length := by
  have hle := h.length_le
  rw [length_append] at hle
  simp only [position, length_append]
  omega

/-- A string is scanned as it is written. -/
theorem Source.scanJsonString_written (s : Source) (needsInternalization : Bool) (pieces : List Piece) (rest : Cursor)
    (hsu : written pieces ++ 0x22 :: rest <:+ s.chars) :
    s.scanJsonString (written pieces ++ 0x22 :: rest) needsInternalization =
      .ok (.string (s.position (written pieces ++ 0x22 :: rest)) pieces.length (s.width.needsConversion (units pieces))
        needsInternalization (pieces.any Piece.isEscape), rest) := by
  have hbo : ∀ c ∈ written pieces, c ≤ s.width.maxChar :=
    fun c hc => s.bounded c (hsu.subset (mem_append_left _ hc))
  obtain ⟨bits, offset, hbi, ho, hscan⟩ := s.scanLoop_written (s.position (written pieces ++ 0x22 :: rest))
    needsInternalization rest pieces hbo (s.position (written pieces ++ 0x22 :: rest)) 0 false
  rw [scanJsonString, hscan, s.position_append hsu, converts_eq (hbi.trans (or_iff_right (by decide))), Bool.false_or]
  congr 3
  omega

theorem Source.scanLoop_piece (s : Source) (start : Nat) (needsInternalization : Bool) (piece : Piece) (rest : Cursor)
    (offset bits : Nat) (hasEscape : Bool) :
    ∃ next : Scanning, next.cursor = rest ∧
      s.scanLoop start needsInternalization ⟨piece.source ++ rest, offset, hasEscape, bits⟩ =
        s.scanLoop start needsInternalization next := by
  cases piece with
  | plain c hc => exact ⟨_, rfl, s.scanLoop_plain _ _ _ _ _ hc rest⟩
  | escape letter unit hletter => exact ⟨_, rfl, s.scanLoop_escape _ _ _ _ _ hletter rest⟩
  | unicode a b c d => exact ⟨_, rfl, s.scanLoop_unicode _ _ _ _ _ a b c d rest⟩

theorem Piece.length_source_pos (piece : Piece) : 0 < piece.source.length := by
  cases piece <;> exact Nat.succ_pos _

/-- Only JSON strings are accepted. -/
theorem Source.scanLoop_sound (s : Source) (start : Nat) (needsInternalization : Bool) (loop : Scanning)
    (hbo : ∀ c ∈ loop.cursor, c < 2 ^ 16) {result : JsonString × Cursor}
    (h : s.scanLoop start needsInternalization loop = .ok result) :
    ∃ pieces, loop.cursor = written pieces ++ 0x22 :: result.2 := by
  induction hn : loop.cursor.length using Nat.strong_induction_on generalizing loop with
  | _ n ih =>
    obtain ⟨cursor, offset, hasEscape, bits⟩ := loop
    cases hround : s.scanRound start needsInternalization ⟨cursor, offset, hasEscape, bits⟩ with
    | error e =>
      rw [s.scanLoop_eq, hround] at h
      cases h
    | ok round =>
      rcases s.scanRound_head start needsInternalization hbo hround with ⟨rest, hqu⟩ | ⟨piece, rest, hp⟩
      · dsimp only at hqu
        subst hqu
        rw [s.scanLoop_quote] at h
        cases h
        exact ⟨[], rfl⟩
      · dsimp only at hp
        subst hp
        obtain ⟨next, hnext, hscan⟩ := s.scanLoop_piece start needsInternalization piece rest offset bits hasEscape
        have hl : next.cursor.length < n := by
          have := piece.length_source_pos
          rw [← hn, hnext, length_append]
          omega
        obtain ⟨pieces, hpi⟩ := ih _ hl next
          (fun c hc => hbo c (mem_append_right _ (hnext ▸ hc))) (hscan ▸ h) rfl
        refine ⟨piece :: pieces, ?_⟩
        rw [written_cons, append_assoc, ← hpi, hnext]

theorem Width.maxChar_lt (width : Width) : width.maxChar < 2 ^ 16 := by
  cases width <;> decide

theorem Source.scanJsonString_sound {s : Source} {needsInternalization : Bool} (hsu : cursor <:+ s.chars)
    {result : JsonString × Cursor} (h : s.scanJsonString cursor needsInternalization = .ok result) :
    ∃ pieces, cursor = written pieces ++ 0x22 :: result.2 :=
  s.scanLoop_sound _ _ _ (fun c hc => lt_of_le_of_lt (s.bounded c (hsu.subset hc)) s.width.maxChar_lt) h

/-! ### Decoding -/

theorem decodeRounds_plain (sink : Width) (hc : c ≠ 0x5c) (rounds : Nat) (cursor : Cursor) (length : Nat) :
    decodeRounds sink (rounds + 1) (c :: cursor) (length + 1) =
      (decodeRounds sink (rounds + 1) cursor length).map (sink.store c :: ·) := by
  cases length with
  | zero =>
    simp only [decodeRounds, copyUntilBackslash, if_neg hc]
    rfl
  | succ length =>
    simp only [decodeRounds, copyUntilBackslash.eq_3, if_neg hc]
    cases copyUntilBackslash (length + 1) cursor with
    | none => rfl
    | some result =>
      obtain ⟨copied, after⟩ := result
      simp only [Option.map_some, length_cons, Nat.succ_eq_add_one, Nat.add_sub_add_right]
      split
      · rfl
      · cases decodeEscape (length + 1 - copied.length) after.tail with
        | none => rfl
        | some result => simp [Option.map_map, Function.comp_def]

theorem decodeRounds_escape (sink : Width) {escape rest : Cursor} {length : Nat}
    (h : decodeEscape (length + 1) escape = some ([unit], rest)) (rounds : Nat) :
    decodeRounds sink (rounds + 1) (0x5c :: escape) (length + 1) =
      (decodeRounds sink rounds rest length).map (sink.store unit :: ·) := by
  simp [decodeRounds, copyUntilBackslash, h]

theorem decodeEscape_letter (h : (letter, unit) ∈ escapes) (length : Nat) (rest : Cursor) :
    decodeEscape length (letter :: rest) = some ([unit], rest) := by
  simp only [escapes, mem_cons, not_mem_nil, Prod.mk.injEq, or_false] at h
  rcases h with ⟨rfl, rfl⟩ | ⟨rfl, rfl⟩ | ⟨rfl, rfl⟩ | ⟨rfl, rfl⟩ | ⟨rfl, rfl⟩ | ⟨rfl, rfl⟩ | ⟨rfl, rfl⟩ | ⟨rfl, rfl⟩ <;> rfl

theorem decodeDigits_cons (digit : HexDigit) (count : Nat) (hva : value < 2 ^ 12) (rest : Cursor) :
    decodeDigits (count + 1) value (digit.char :: rest) = decodeDigits count (value * 16 + digit.value) rest := by
  have hdi := hexDigit_lt digit.spells
  rw [decodeDigits, digit.hexValue_char, Option.getD_some, Nat.mod_eq_of_lt (by omega)]

theorem decodeEscape_unicode (a b c d : HexDigit) (length : Nat) (rest : Cursor) :
    decodeEscape length (0x75 :: a.char :: b.char :: c.char :: d.char :: rest) =
      some ([(Piece.unicode a b c d).unit], rest) := by
  have ha := hexDigit_lt a.spells
  have hb := hexDigit_lt b.spells
  have hc := hexDigit_lt c.spells
  have hdi : decodeDigits 4 0 (a.char :: b.char :: c.char :: d.char :: rest) =
      some ((Piece.unicode a b c d).unit, rest) := by
    rw [decodeDigits_cons _ _ (by omega), decodeDigits_cons _ _ (by omega), decodeDigits_cons _ _ (by omega),
      decodeDigits_cons _ _ (by omega), decodeDigits, zero_mul, zero_add]
    rfl
  have hki : getEscapeKind 0x75 = .kUnicode := rfl
  simp only [decodeEscape, hki, hdi]
  rw [if_pos (Source.unit_unicode_le a b c d)]

/-- The decoder takes what is written, whatever follows it and also where nothing does. -/
theorem decodeRounds_written (sink : Width) (rest : Cursor) (pieces : List Piece) (rounds : Nat)
    (h : pieces.length ≤ rounds) :
    decodeRounds sink rounds (written pieces ++ rest) pieces.length = some ((units pieces).map sink.store) := by
  induction pieces generalizing rounds with
  | nil => cases rounds <;> rfl
  | cons piece pieces ih =>
    obtain ⟨rounds, rfl⟩ : ∃ n, rounds = n + 1 := ⟨rounds - 1, by rw [length_cons] at h; omega⟩
    have hl : pieces.length ≤ rounds := Nat.le_of_succ_le_succ h
    rw [written_cons, units_cons, length_cons, append_assoc, map_cons]
    cases piece with
    | plain c hc =>
      rw [Piece.source, singleton_append, decodeRounds_plain sink hc.2.2, ih _ (Nat.le_succ_of_le hl)]
      rfl
    | escape letter unit hletter =>
      simp only [Piece.source, cons_append, nil_append]
      rw [decodeRounds_escape sink (decodeEscape_letter hletter _ _), ih _ hl]
      rfl
    | unicode a b c d =>
      simp only [Piece.source, cons_append, nil_append]
      rw [decodeRounds_escape sink (decodeEscape_unicode a b c d _ _), ih _ hl]
      rfl

theorem decodeString_written (sink : Width) (pieces : List Piece) (rest : Cursor) :
    decodeString sink (written pieces ++ rest) pieces.length = some ((units pieces).map sink.store) :=
  decodeRounds_written sink rest pieces _ (le_refl _)

theorem map_store {sink : Width} {units : List Nat} (h : ∀ u ∈ units, u ≤ sink.maxChar) : units.map sink.store = units := by
  conv_rhs => rw [← map_id units]
  exact map_congr_left fun u hu => Nat.mod_eq_of_lt (Nat.lt_succ_of_le (h u hu))

def Width.sink (width : Width) (needsConversion : Bool) : Width :=
  if (width = .one) = (needsConversion = false) then .one else .two

theorem unit_lt (piece : Piece) (h : ∀ c ∈ piece.source, c ≤ Width.two.maxChar) : piece.unit ≤ Width.two.maxChar := by
  cases piece with
  | plain c hc => exact h c mem_cons_self
  | escape letter unit hletter => exact (letter_of_escapes hletter).2.1.trans (by decide)
  | unicode a b c d => exact Source.unit_unicode_le a b c d

/-- The units fit in the string that is made for them. -/
theorem units_fit (hbo : ∀ c ∈ written pieces, c ≤ width.maxChar) :
    ∀ u ∈ units pieces, u ≤ (width.sink (width.needsConversion (units pieces))).maxChar := by
  intro u hu
  have hwi : u ≤ Width.two.maxChar := by
    obtain ⟨piece, hp, rfl⟩ := List.mem_map.mp hu
    refine unit_lt piece fun c hc => (hbo c (mem_flatMap.mpr ⟨piece, hp, hc⟩)).trans ?_
    cases width <;> decide
  by_cases hall : ∀ u ∈ units pieces, u ≤ kMaxChar
  · have hfi : (units pieces).all (· ≤ kMaxChar) = true := by simpa using hall
    have hna : u ≤ Width.one.maxChar := hall u hu
    cases width <;> simpa [Width.needsConversion, Width.sink, hfi] using hna
  · have hfi : (units pieces).all (· ≤ kMaxChar) = false := by simpa using hall
    cases width <;> simpa [Width.needsConversion, Width.sink, hfi] using hwi

theorem written_eq_units (h : pieces.any Piece.isEscape = false) : written pieces = units pieces := by
  induction pieces with
  | nil => rfl
  | cons piece pieces ih =>
    rw [any_cons, Bool.or_eq_false_iff] at h
    cases piece with
    | plain c hc =>
      rw [written_cons, ih h.2]
      rfl
    | escape | unicode => cases h.1

theorem Source.drop_position {s : Source} (h : cursor <:+ s.chars) : s.chars.drop (s.position cursor) = cursor :=
  (suffix_iff_eq_drop.mp h).symm

theorem Source.makeString_written (s : Source) (needsInternalization : Bool) (pieces : List Piece) (rest : Cursor)
    (hsu : written pieces ++ 0x22 :: rest <:+ s.chars) :
    s.makeString (.string (s.position (written pieces ++ 0x22 :: rest)) pieces.length
      (s.width.needsConversion (units pieces)) needsInternalization (pieces.any Piece.isEscape)) =
      some (units pieces) := by
  have hbo : ∀ c ∈ written pieces, c ≤ s.width.maxChar :=
    fun c hc => s.bounded c (hsu.subset (mem_append_left _ hc))
  have hstore := map_store (units_fit hbo)
  rw [Width.sink] at hstore
  simp only [makeString, drop_position hsu]
  cases hes : pieces.any Piece.isEscape with
  | true =>
    rw [decodeString_written, hstore]
    split
    · next hzero => rw [length_eq_zero_iff.mp hzero, units_nil]
    split
    · next hone =>
      rw [if_pos rfl, ← hone, decodeString_written, map_store]
      intro u hu
      obtain ⟨piece, hp, rfl⟩ := List.mem_map.mp hu
      refine unit_lt piece fun c hc => (hbo c (mem_flatMap.mpr ⟨piece, hp, hc⟩)).trans ?_
      cases s.width <;> decide
    · rfl
  | false =>
    have hl : pieces.length = (units pieces).length := (length_map _).symm
    rw [written_eq_units hes, hl]
    split
    · next hzero => rw [length_eq_zero_iff.mp hzero]
    split
    · next hone =>
      obtain ⟨u, hu⟩ := length_eq_one_iff.mp hone
      rw [hu]
      rfl
    · rw [if_neg (by decide), if_pos (by simp), take_left, hstore]

end V8Multithread.Json
