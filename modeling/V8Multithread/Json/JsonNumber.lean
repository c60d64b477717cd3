import V8Multithread.Json.PropertyKey

/-! The numbers of `JsonParser`.

Numbers are of any type that the integers go into. What the code does with IEEE doubles is given: the
conversion of a numeral, which may be any function of its characters, and the test for a Smi, which
only has to be right where it says yes. -/
namespace V8Multithread.Json
open List Option Source

structure Numbers (N : Type) where
  ofInt : Int → N
  stringToDouble : List Nat → N
  doubleToSmiInteger : N → Option Int
  ofInt_smi : ∀ d i, doubleToSmiInteger d = some i → ofInt i = d

/-- Both results of `ParseJsonNumberAsDoubleOrSmi`. -/
inductive ScannedNumber (N : Type) where
  | smi (i : Int)
  | double (d : N)

def ScannedNumber.value {N : Type} (ν : Numbers N) : ScannedNumber N → N
  | smi i => ν.ofInt i
  | double d => d

/-! ### The scanner -/

def advanceToNonDecimal (cursor : Cursor) : Cursor := cursor.dropWhile isDecimalDigit

def kMaxSmiLength : Nat := 9

/-- The loop over the digits of a Smi, up to `stop`. -/
def takeSmiDigits : (count i : Nat) → Cursor → Nat × Cursor
  | 0, i, cursor => (i, cursor)
  | _ + 1, i, [] => (i, [])
  | count + 1, i, c :: rest =>
    if isDecimalDigit c then takeSmiDigits count (i * 10 + (c - 0x30)) rest else (i, c :: rest)

/-- The test on `character_json_scan_flags`, which has no entry for what is past `kMaxChar`. -/
def partOfNumber (c : Option Nat) : Bool := c.any fun c => c ≤ kMaxChar && isNumberPart c

/-- The integer part. It is the whole number, or the cursor is after it. -/
def Source.scanInteger (s : Source) (negative : Bool) (cursor : Cursor) : Except JsonError (Int × Cursor ⊕ Cursor) :=
  if currentCharacter cursor = some 0x30 then
    let c := currentCharacter cursor.tail
    if partOfNumber c then
      if c.any isDecimalDigit then .error (s.unexpectedToken cursor.tail .NUMBER none) else .ok (.inr cursor.tail)
    else if negative then .ok (.inr cursor.tail)
    else .ok (.inl (0, cursor.tail))
  else
    let (i, stop) := takeSmiDigits kMaxSmiLength 0 cursor
    if stop.length = cursor.length then
      .error (s.unexpectedToken stop .ILLEGAL (some .kJsonParseNoNumberAfterMinusSign))
    else if partOfNumber (currentCharacter stop) then .ok (.inr (advanceToNonDecimal stop))
    else .ok (.inl (if negative then -(i : Int) else i, stop))

def Source.scanFraction (s : Source) (cursor : Cursor) : Except JsonError Cursor :=
  if currentCharacter cursor = some 0x2e then
    if (currentCharacter cursor.tail).any isDecimalDigit then .ok (advanceToNonDecimal cursor.tail)
    else .error (s.unexpectedToken cursor.tail .ILLEGAL (some .kJsonParseUnterminatedFractionalNumber))
  else .ok cursor

def asciiAlphaToLower (c : Nat) : Nat := c ||| 0x20

def isSign (c : Nat) : Bool := c = 0x2d || c = 0x2b

def skipSign (cursor : Cursor) : Cursor := if (currentCharacter cursor).any isSign then cursor.tail else cursor

def Source.scanExponent (s : Source) (cursor : Cursor) : Except JsonError Cursor :=
  if (currentCharacter cursor).map asciiAlphaToLower = some 0x65 then
    let digits := skipSign cursor.tail
    if (currentCharacter digits).any isDecimalDigit then .ok (advanceToNonDecimal digits)
    else .error (s.unexpectedToken digits .ILLEGAL (some .kJsonParseExponentPartMissingNumber))
  else .ok cursor

def Numbers.doubleOrSmi {N : Type} (ν : Numbers N) (chars : List Nat) : ScannedNumber N :=
  let double := ν.stringToDouble chars
  match ν.doubleToSmiInteger double with
  | some i => .smi i
  | none => .double double

def Source.parseJsonNumberAsDoubleOrSmi {N : Type} (s : Source) (ν : Numbers N) (start : Cursor) :
    Except JsonError (ScannedNumber N × Cursor) :=
  let negative : Bool := currentCharacter start = some 0x2d
  match s.scanInteger negative (if negative then start.tail else start) with
  | .error e => .error e
  | .ok (.inl (i, cursor)) => .ok (.smi i, cursor)
  | .ok (.inr cursor) =>
    match s.scanFraction cursor with
    | .error e => .error e
    | .ok cursor =>
      match s.scanExponent cursor with
      | .error e => .error e
      | .ok cursor => .ok (ν.doubleOrSmi (start.take (start.length - cursor.length)), cursor)

/-! ### Numerals -/

def Digits (t : List Nat) : Prop := t ≠ [] ∧ ∀ c ∈ t, isDecimalDigit c = true

/-- Zero, or digits of which the first is not zero. -/
def IsInteger (t : List Nat) : Prop := t = [0x30] ∨ Digits t ∧ t.head? ≠ some 0x30

def IsFraction (t : List Nat) : Prop := t = [] ∨ ∃ digits, t = 0x2e :: digits ∧ Digits digits

def IsSign (t : List Nat) : Prop := t = [] ∨ ∃ c, t = [c] ∧ isSign c = true

def IsExponent (t : List Nat) : Prop :=
  t = [] ∨ ∃ e sign digits, t = e :: (sign ++ digits) ∧ (e = 0x65 ∨ e = 0x45) ∧ IsSign sign ∧ Digits digits

structure Numeral where
  negative : Bool
  integer : List Nat
  fraction : List Nat
  exponent : List Nat
  isInteger : IsInteger integer
  isFraction : IsFraction fraction
  isExponent : IsExponent exponent

namespace Numeral

def sign (numeral : Numeral) : List Nat := if numeral.negative then [0x2d] else []

def text (numeral : Numeral) : List Nat := numeral.sign ++ (numeral.integer ++ (numeral.fraction ++ numeral.exponent))

def isMinusZero (numeral : Numeral) : Bool := numeral.negative && numeral.integer = [0x30]

/-- At most nine digits, without fraction or exponent, and not -0. -/
def isSmi (numeral : Numeral) : Bool :=
  numeral.fraction = [] && numeral.exponent = [] && numeral.integer.length ≤ 9 && !numeral.isMinusZero

theorem isSmi_iff (numeral : Numeral) :
    numeral.isSmi ↔ numeral.fraction = [] ∧ numeral.exponent = [] ∧ numeral.integer.length ≤ 9 ∧
      ¬(numeral.negative ∧ numeral.integer = [0x30]) := by
  cases h : numeral.negative <;> simp [isSmi, isMinusZero, h, and_assoc]

/-- A short integer is itself; any other numeral is converted. -/
def value {N : Type} (ν : Numbers N) (numeral : Numeral) : N :=
  if numeral.isSmi then
    let i := numeral.integer.foldl addDigit 0
    ν.ofInt (if numeral.negative then -(i : Int) else i)
  else ν.stringToDouble numeral.text

end Numeral

def Ends (cursor : Cursor) : Prop := partOfNumber (currentCharacter cursor) = false

/-! ### Runs of digits -/

theorem partOfNumber_eq (c : Nat) : partOfNumber (some c) = isNumberPart c := by
  by_cases h : isNumberPart c = true
  · have hc : c ≤ kMaxChar := by
      simp only [isNumberPart, isDecimalDigit, Bool.or_eq_true, Bool.and_eq_true, decide_eq_true_eq, kMaxChar] at h ⊢
      omega
    simp [partOfNumber, hc]
  · simp [partOfNumber, h]

theorem isNumberPart_of_digit {c : Nat} (h : isDecimalDigit c) : isNumberPart c := by
  simp [isNumberPart, h]

variable {cursor rest t after : Cursor} {s : Source} {negative : Bool}

theorem Ends.not_digit (h : Ends cursor) : (currentCharacter cursor).any isDecimalDigit = false := by
  cases cursor with
  | nil => rfl
  | cons c rest =>
    rw [Ends, currentCharacter, head?_cons, partOfNumber_eq] at h
    rw [currentCharacter, head?_cons, any_some, ← Bool.not_eq_true]
    intro hdi
    rw [isNumberPart_of_digit hdi] at h
    cases h

theorem advanceToNonDecimal_append {digits rest : Cursor} (hdi : ∀ c ∈ digits, isDecimalDigit c)
    (hrest : (currentCharacter rest).any isDecimalDigit = false) : advanceToNonDecimal (digits ++ rest) = rest := by
  rw [advanceToNonDecimal, dropWhile_append_of_pos hdi]
  cases rest with
  | nil => rfl
  | cons c rest => exact dropWhile_cons_of_neg (by simpa [currentCharacter] using hrest)

theorem advanceToNonDecimal_spec (cursor : Cursor) :
    ∃ digits, cursor = digits ++ advanceToNonDecimal cursor ∧ (∀ c ∈ digits, isDecimalDigit c) ∧
      (currentCharacter (advanceToNonDecimal cursor)).any isDecimalDigit = false := by
  refine ⟨cursor.takeWhile isDecimalDigit, takeWhile_append_dropWhile.symm, fun c => mem_takeWhile_imp, ?_⟩
  rw [currentCharacter, advanceToNonDecimal, Option.any_eq_false]
  intro c hc
  have hnot := head?_dropWhile_not isDecimalDigit cursor
  rw [hc] at hnot
  simpa using hnot

/-- The digits of a Smi, up to so many. -/
theorem takeSmiDigits_spec (count i : Nat) (cursor : Cursor) :
    ∃ digits rest, cursor = digits ++ rest ∧ (∀ c ∈ digits, isDecimalDigit c) ∧ digits.length ≤ count ∧
      (digits.length = count ∨ (currentCharacter rest).any isDecimalDigit = false) ∧
      takeSmiDigits count i cursor = (digits.foldl addDigit i, rest) := by
  induction count generalizing i cursor with
  | zero => exact ⟨[], cursor, rfl, by simp, Nat.le_refl _, .inl rfl, by rw [takeSmiDigits]; rfl⟩
  | succ count ih =>
    cases cursor with
    | nil => exact ⟨[], [], rfl, by simp, Nat.zero_le _, .inr rfl, rfl⟩
    | cons c rest =>
      rw [takeSmiDigits]
      by_cases hc : isDecimalDigit c = true
      · obtain ⟨digits, after, hrest, hdi, hl, hst, hta⟩ := ih (i * 10 + (c - 0x30)) rest
        refine ⟨c :: digits, after, by rw [hrest, cons_append], ?_, Nat.succ_le_succ hl, ?_, ?_⟩
        · intro x hx
          rcases mem_cons.mp hx with rfl | hx
          · exact hc
          · exact hdi x hx
        · exact hst.imp (congrArg Nat.succ) id
        · rw [if_pos hc, hta]
          rfl
      · exact ⟨[], c :: rest, rfl, by simp, Nat.zero_le _, .inr (by simpa [currentCharacter] using hc), by rw [if_neg hc]; rfl⟩

/-- A run of digits is taken whole if it is short. -/
theorem takeSmiDigits_append {digits : Cursor} (hdi : ∀ c ∈ digits, isDecimalDigit c) {count : Nat}
    (hl : digits.length ≤ count)
    (hrest : digits.length = count ∨ (currentCharacter rest).any isDecimalDigit = false) (i : Nat) :
    takeSmiDigits count i (digits ++ rest) = (digits.foldl addDigit i, rest) := by
  induction digits generalizing count i with
  | nil =>
    cases count with
    | zero => rw [takeSmiDigits]; rfl
    | succ count =>
      cases rest with
      | nil => rfl
      | cons c rest =>
        have hdig := hrest.resolve_left (Nat.succ_ne_zero count).symm
        rw [nil_append, takeSmiDigits, if_neg (by simpa [currentCharacter] using hdig)]
        rfl
  | cons c digits ih =>
    obtain ⟨count, rfl⟩ : ∃ n, count = n + 1 := ⟨count - 1, by rw [length_cons] at hl; omega⟩
    rw [cons_append, takeSmiDigits, if_pos (hdi c mem_cons_self),
      ih (fun x hx => hdi x (mem_cons_of_mem _ hx)) (Nat.le_of_succ_le_succ hl) (hrest.imp_left Nat.succ.inj)]
    rfl

/-! ### The parts of a numeral -/

theorem any_isDecimalDigit_append {digits : List Nat} (h : Digits digits) (rest : Cursor) :
    (currentCharacter (digits ++ rest)).any isDecimalDigit := by
  cases digits with
  | nil => exact absurd rfl h.1
  | cons c digits => exact h.2 c mem_cons_self

/-- Where there is a digit, the digits are taken. -/
theorem digits_of_any (h : (currentCharacter cursor).any isDecimalDigit) :
    ∃ digits, cursor = digits ++ advanceToNonDecimal cursor ∧ Digits digits := by
  obtain ⟨digits, hcu, hdi, hst⟩ := advanceToNonDecimal_spec cursor
  refine ⟨digits, hcu, ?_, hdi⟩
  rintro rfl
  rw [nil_append] at hcu
  rw [← hcu, h] at hst
  cases hst

theorem scanFraction_sound (h : s.scanFraction cursor = .ok rest) : ∃ t, cursor = t ++ rest ∧ IsFraction t := by
  rw [scanFraction] at h
  split at h
  · next hp =>
    split at h
    · next hdig =>
      cases h
      obtain ⟨c, after, rfl⟩ := exists_cons_of_ne_nil (l := cursor) (by rintro rfl; cases hp)
      cases hp
      obtain ⟨digits, hafter, hdi⟩ := digits_of_any hdig
      exact ⟨0x2e :: digits, congrArg _ hafter, .inr ⟨digits, rfl, hdi⟩⟩
    · cases h
  · cases h
    exact ⟨[], rfl, .inl rfl⟩

theorem scanFraction_append (s : Source) (ht : IsFraction t)
    (hdig : (currentCharacter rest).any isDecimalDigit = false) (hp : currentCharacter rest ≠ some 0x2e) :
    s.scanFraction (t ++ rest) = .ok rest := by
  rcases ht with rfl | ⟨digits, rfl, hdi⟩
  · rw [scanFraction, nil_append, if_neg hp]
  · rw [scanFraction, cons_append, if_pos (by rfl), tail_cons,
      if_pos (any_isDecimalDigit_append hdi rest), advanceToNonDecimal_append hdi.2 hdig]

theorem asciiAlphaToLower_eq_e (c : Nat) : asciiAlphaToLower c = 0x65 ↔ c = 0x65 ∨ c = 0x45 := by
  rw [asciiAlphaToLower, or_0x20]
  split <;> omega

theorem not_isSign_of_digit {c : Nat} (h : isDecimalDigit c) : isSign c = false := by
  obtain ⟨d, hd, rfl⟩ := digit_of_isDecimalDigit h
  simp only [isSign, Bool.or_eq_false_iff, decide_eq_false_iff_not]
  omega

theorem skipSign_spec (cursor : Cursor) : ∃ sign, cursor = sign ++ skipSign cursor ∧ IsSign sign := by
  by_cases hsi : (currentCharacter cursor).any isSign = true
  · cases cursor with
    | nil => cases hsi
    | cons c rest => exact ⟨[c], by rw [skipSign, if_pos hsi]; rfl, .inr ⟨c, rfl, hsi⟩⟩
  · exact ⟨[], by rw [skipSign, if_neg hsi]; rfl, .inl rfl⟩

theorem skipSign_append {sign digits : List Nat} (hsi : IsSign sign) (hdi : Digits digits) (rest : Cursor) :
    skipSign (sign ++ digits ++ rest) = digits ++ rest := by
  rcases hsi with rfl | ⟨c, rfl, hc⟩
  · cases digits with
    | nil => exact absurd rfl hdi.1
    | cons c digits => simp [skipSign, currentCharacter, not_isSign_of_digit (hdi.2 c mem_cons_self)]
  · simp [skipSign, currentCharacter, hc]

theorem scanExponent_sound (h : s.scanExponent cursor = .ok rest) : ∃ t, cursor = t ++ rest ∧ IsExponent t := by
  rw [scanExponent] at h
  split at h
  · next he =>
    obtain ⟨e, after, rfl⟩ := exists_cons_of_ne_nil (l := cursor) (by rintro rfl; cases he)
    have hletter := (asciiAlphaToLower_eq_e e).mp (some_inj.mp he)
    dsimp only [tail_cons] at h
    split at h
    · next hdig =>
      cases h
      obtain ⟨digits, hsp, hdi⟩ := digits_of_any hdig
      obtain ⟨sign, hafter, hsi⟩ := skipSign_spec after
      refine ⟨e :: (sign ++ digits), ?_, .inr ⟨e, sign, digits, rfl, hletter, hsi, hdi⟩⟩
      rw [cons_append, append_assoc, ← hsp, ← hafter]
    · cases h
  · cases h
    exact ⟨[], rfl, .inl rfl⟩

theorem scanExponent_append (s : Source) (ht : IsExponent t) (hdig : (currentCharacter rest).any isDecimalDigit = false)
    (hletter : (currentCharacter rest).map asciiAlphaToLower ≠ some 0x65) : s.scanExponent (t ++ rest) = .ok rest := by
  rcases ht with rfl | ⟨e, sign, digits, rfl, he, hsi, hdi⟩
  · rw [scanExponent, nil_append, if_neg hletter]
  · have hl : (currentCharacter (e :: (sign ++ digits ++ rest))).map asciiAlphaToLower = some 0x65 :=
      congrArg some ((asciiAlphaToLower_eq_e e).mpr he)
    rw [scanExponent, cons_append, if_pos hl, tail_cons]
    rw [skipSign_append hsi hdi, if_pos (any_isDecimalDigit_append hdi rest),
      advanceToNonDecimal_append hdi.2 hdig]

/-! ### Numerals are scanned whole -/

theorem value_doubleOrSmi {N : Type} (ν : Numbers N) (chars : List Nat) :
    (ν.doubleOrSmi chars).value ν = ν.stringToDouble chars := by
  simp only [Numbers.doubleOrSmi]
  split
  · next hsmi => exact ν.ofInt_smi _ _ hsmi
  · rfl

theorem head_isInteger {t : List Nat} (h : IsInteger t) : ∃ c rest, t = c :: rest ∧ isDecimalDigit c := by
  rcases h with rfl | ⟨⟨hne, hdi⟩, -⟩
  · exact ⟨0x30, [], rfl, rfl⟩
  · obtain ⟨c, rest, rfl⟩ := exists_cons_of_ne_nil hne
    exact ⟨c, rest, rfl, hdi c mem_cons_self⟩

/-- Where the integer ends the number, it is a short one and not -0. -/
theorem scanInteger_smi {i : Int} (h : s.scanInteger negative cursor = .ok (.inl (i, rest))) :
    ∃ t, cursor = t ++ rest ∧ IsInteger t ∧ t.length ≤ 9 ∧ ¬(negative ∧ t = [0x30]) ∧
      i = if negative then -((t.foldl addDigit 0 : Nat) : Int) else (t.foldl addDigit 0 : Nat) := by
  rw [scanInteger] at h
  split at h
  · next hzero =>
    obtain ⟨c, after, rfl⟩ := exists_cons_of_ne_nil (l := cursor) (by rintro rfl; cases hzero)
    cases hzero
    dsimp only [tail_cons] at h
    split at h
    · split at h <;> cases h
    · split at h
      · cases h
      · next hp =>
        cases h
        exact ⟨[0x30], rfl, .inl rfl, by decide, fun h => hp h.1, by rw [if_neg hp]; rfl⟩
  · next hzero =>
    obtain ⟨digits, after, rfl, hdi, hl, -, hta⟩ := takeSmiDigits_spec kMaxSmiLength 0 cursor
    rw [hta] at h
    dsimp only at h
    split at h
    · cases h
    · next hso =>
      split at h
      · cases h
      · cases h
        have hne : digits ≠ [] := by
          rintro rfl
          exact hso rfl
        have hfi : digits.head? ≠ some 0x30 := by
          cases digits with
          | nil => exact absurd rfl hne
          | cons c digits => exact hzero
        refine ⟨digits, rfl, .inr ⟨⟨hne, hdi⟩, hfi⟩, hl, ?_, rfl⟩
        rintro ⟨-, rfl⟩
        exact hfi rfl

/-- Where it does not, something has to follow, except after -0. -/
theorem scanInteger_part (h : s.scanInteger negative cursor = .ok (.inr rest)) :
    ∃ t, cursor = t ++ rest ∧ IsInteger t ∧ (Ends rest → t.length ≤ 9 → negative ∧ t = [0x30]) := by
  rw [scanInteger] at h
  split at h
  · next hzero =>
    obtain ⟨c, after, rfl⟩ := exists_cons_of_ne_nil (l := cursor) (by rintro rfl; cases hzero)
    cases hzero
    dsimp only [tail_cons] at h
    split at h
    · next hpart =>
      split at h
      · cases h
      · cases h
        exact ⟨[0x30], rfl, .inl rfl, fun hen => absurd (hpart.symm.trans hen) (by decide)⟩
    · split at h
      · next hneg =>
        cases h
        exact ⟨[0x30], rfl, .inl rfl, fun _ _ => ⟨hneg, rfl⟩⟩
      · cases h
  · next hzero =>
    obtain ⟨digits, after, rfl, hdi, hl, hst, hta⟩ := takeSmiDigits_spec kMaxSmiLength 0 cursor
    rw [hta] at h
    dsimp only at h
    split at h
    · cases h
    · next hso =>
      split at h
      · next hpart =>
        cases h
        obtain ⟨more, hafter, hmo, -⟩ := advanceToNonDecimal_spec after
        have hne : digits ≠ [] := by
          rintro rfl
          exact hso rfl
        have hfi : digits.head? ≠ some 0x30 := by
          cases digits with
          | nil => exact absurd rfl hne
          | cons c digits => exact hzero
        refine ⟨digits ++ more, by rw [append_assoc, ← hafter], .inr ⟨⟨by simp [hne], ?_⟩, ?_⟩, ?_⟩
        · intro c hc
          rcases mem_append.mp hc with hc | hc
          · exact hdi c hc
          · exact hmo c hc
        · rwa [head?_append_of_ne_nil _ hne]
        · -- either digits were left over, and there are more than nine, or a letter was
          intro hen hsh
          exfalso
          cases more with
          | nil =>
            rw [nil_append] at hafter
            rw [Ends, ← hafter, hpart] at hen
            cases hen
          | cons c more =>
            rcases hst with hfu | hno
            · rw [length_append, hfu, length_cons, kMaxSmiLength] at hsh
              omega
            · have hh : currentCharacter after = some c := by
                rw [hafter]
                rfl
              rw [hh, any_some, hmo c mem_cons_self] at hno
              cases hno
      · cases h

theorem partOfNumber_of_digit {c : Option Nat} (h : c.any isDecimalDigit) : partOfNumber c := by
  cases c with
  | none => cases h
  | some c => rw [partOfNumber_eq, isNumberPart_of_digit h]

/-- The integer part of a numeral, before what is no digit. -/
theorem scanInteger_append (s : Source) (negative : Bool) (ht : IsInteger t)
    (hdi : (currentCharacter after).any isDecimalDigit = false) :
    s.scanInteger negative (t ++ after) =
      .ok (if partOfNumber (currentCharacter after) = false ∧ t.length ≤ 9 ∧ ¬(negative ∧ t = [0x30]) then
        .inl (if negative then -((t.foldl addDigit 0 : Nat) : Int) else (t.foldl addDigit 0 : Nat), after)
      else .inr after) := by
  rcases ht with rfl | ⟨⟨hne, hdig⟩, hfi⟩
  · rw [scanInteger, if_pos (by rfl)]
    simp only [singleton_append, tail_cons, hdi]
    cases partOfNumber (currentCharacter after) <;> cases negative <;> simp [addDigit]
  · have hzero : currentCharacter (t ++ after) ≠ some 0x30 := by
      rwa [currentCharacter, head?_append_of_ne_nil _ hne]
    have hmi : ¬(negative = true ∧ t = [0x30]) := by
      rintro ⟨-, rfl⟩
      exact hfi rfl
    rw [scanInteger, if_neg hzero]
    by_cases hsh : t.length ≤ 9
    · rw [takeSmiDigits_append hdig (show t.length ≤ kMaxSmiLength from hsh) (.inr hdi)]
      dsimp only
      rw [if_neg (by simpa using hne)]
      have hst : advanceToNonDecimal after = after := @advanceToNonDecimal_append [] after (by simp) hdi
      cases partOfNumber (currentCharacter after) <;> simp [hsh, hmi, hst]
    · -- nine digits are taken, the others are skipped
      have hl : (t.take 9).length = kMaxSmiLength := by
        rw [length_take, kMaxSmiLength]
        omega
      have hmo : Digits (t.drop 9) := by
        refine ⟨fun hnil => hsh (drop_eq_nil_iff.mp hnil), fun c hc => hdig c (mem_of_mem_drop hc)⟩
      have hsp : t ++ after = t.take 9 ++ (t.drop 9 ++ after) := by
        rw [← append_assoc, take_append_drop]
      rw [hsp, takeSmiDigits_append (fun c hc => hdig c (mem_of_mem_take hc)) (le_of_eq hl) (.inl hl)]
      dsimp only
      rw [if_neg (by simp [hne]), if_pos (partOfNumber_of_digit (any_isDecimalDigit_append hmo after)),
        advanceToNonDecimal_append hmo.2 hdi, if_neg (fun h => hsh h.2.1)]

theorem take_text (t rest : Cursor) : (t ++ rest).take ((t ++ rest).length - rest.length) = t := by
  rw [length_append, Nat.add_sub_cancel, take_left]

section
variable {N : Type} (ν : Numbers N) {s : Source}

/-- What is scanned is a numeral. -/
theorem parseJsonNumber_sound {start : Cursor} {n : ScannedNumber N} (hen : Ends rest)
    (h : s.parseJsonNumberAsDoubleOrSmi ν start = .ok (n, rest)) :
    ∃ numeral : Numeral, start = numeral.text ++ rest ∧ n.value ν = numeral.value ν := by
  rw [parseJsonNumberAsDoubleOrSmi] at h
  obtain ⟨negative, cursor, hne, hcu, hst⟩ : ∃ (negative : Bool) (cursor : Cursor),
      decide (currentCharacter start = some 0x2d) = negative ∧
      (if decide (currentCharacter start = some 0x2d) = true then start.tail else start) = cursor ∧
      start = (if negative then [0x2d] else []) ++ cursor := by
    refine ⟨_, _, rfl, rfl, ?_⟩
    by_cases hmi : currentCharacter start = some 0x2d
    · cases start with
      | nil => cases hmi
      | cons c start =>
        cases hmi
        rfl
    · simp [hmi]
  rw [hcu, hne] at h
  split at h
  · cases h
  · next i after hscan =>
    cases h
    obtain ⟨t, rfl, ht, hsh, hzero, rfl⟩ := scanInteger_smi hscan
    have hsmi : (Numeral.mk negative t [] [] ht (.inl rfl) (.inl rfl)).isSmi = true :=
      (Numeral.isSmi_iff _).mpr ⟨rfl, rfl, hsh, hzero⟩
    refine ⟨⟨negative, t, [], [], ht, .inl rfl, .inl rfl⟩, ?_, ?_⟩
    · rw [hst, Numeral.text, Numeral.sign, append_nil, append_nil, append_assoc]
    · rw [Numeral.value, if_pos hsmi]
      rfl
  · next after hscan =>
    obtain ⟨t, rfl, ht, hpart⟩ := scanInteger_part hscan
    split at h
    · cases h
    · next after hfr =>
      obtain ⟨fraction, rfl, his⟩ := scanFraction_sound hfr
      split at h
      · cases h
      · next after hex =>
        obtain ⟨exponent, rfl, hisE⟩ := scanExponent_sound hex
        cases h
        have hte : start = (Numeral.mk negative t fraction exponent ht his hisE).text ++ rest := by
          rw [hst, Numeral.text, Numeral.sign]
          simp only [append_assoc]
        have hsmi : ¬(Numeral.mk negative t fraction exponent ht his hisE).isSmi = true := by
          rw [Numeral.isSmi_iff]
          rintro ⟨rfl, rfl, hsh, hzero⟩
          exact hzero (hpart hen hsh)
        refine ⟨_, hte, ?_⟩
        rw [value_doubleOrSmi, Numeral.value, if_neg hsmi, hte, take_text]

/-! What may come after a part of a numeral. -/

theorem Ends.ne_point (h : Ends rest) : currentCharacter rest ≠ some 0x2e := by
  intro hp
  rw [Ends, hp] at h
  cases h

theorem Ends.ne_letter (h : Ends rest) : (currentCharacter rest).map asciiAlphaToLower ≠ some 0x65 := by
  rw [Ends] at h
  cases hc : currentCharacter rest with
  | none => nofun
  | some c =>
    rw [hc] at h
    intro hletter
    rcases (asciiAlphaToLower_eq_e c).mp (some_inj.mp hletter) with rfl | rfl <;> cases h

theorem exponent_follow {exponent : Cursor} (hex : IsExponent exponent) (hen : Ends rest) :
    (currentCharacter (exponent ++ rest)).any isDecimalDigit = false ∧ currentCharacter (exponent ++ rest) ≠ some 0x2e := by
  rcases hex with rfl | ⟨e, sign, digits, rfl, he, -, -⟩
  · exact ⟨hen.not_digit, hen.ne_point⟩
  · rcases he with rfl | rfl <;> exact ⟨rfl, by simp [currentCharacter]⟩

theorem fraction_follow {fraction : Cursor} (hfr : IsFraction fraction)
    (hafter : (currentCharacter after).any isDecimalDigit = false) :
    (currentCharacter (fraction ++ after)).any isDecimalDigit = false := by
  rcases hfr with rfl | ⟨digits, rfl, -⟩
  · exact hafter
  · rfl

/-- Only an empty rest of the numeral ends a number. -/
theorem ends_parts {fraction exponent : Cursor} (hfr : IsFraction fraction) (hex : IsExponent exponent)
    (hen : Ends rest) : Ends (fraction ++ (exponent ++ rest)) ↔ fraction = [] ∧ exponent = [] := by
  constructor
  · intro h
    rcases hfr with rfl | ⟨digits, rfl, -⟩
    · rcases hex with rfl | ⟨e, sign, digits, rfl, he, -, -⟩
      · exact ⟨rfl, rfl⟩
      · rcases he with rfl | rfl <;> cases h
    · cases h
  · rintro ⟨rfl, rfl⟩
    exact hen

theorem minus_of_text (ht : IsInteger t) :
    decide (currentCharacter ((if negative then [0x2d] else []) ++ (t ++ after)) = some 0x2d) = negative := by
  cases negative with
  | true => rfl
  | false =>
    obtain ⟨c, rest, rfl, hc⟩ := head_isInteger ht
    have hne : c ≠ 0x2d := by
      rintro rfl
      cases hc
    simpa [currentCharacter] using hne

/-- A numeral is scanned whole. -/
theorem parseJsonNumber_text (numeral : Numeral) (hen : Ends rest) :
    ∃ n, s.parseJsonNumberAsDoubleOrSmi ν (numeral.text ++ rest) = .ok (n, rest) ∧ n.value ν = numeral.value ν := by
  obtain ⟨negative, t, fraction, exponent, ht, hfr, hex⟩ := numeral
  obtain ⟨hexp, hexponentPoint⟩ := exponent_follow hex hen
  have hsc := scanFraction_append s hfr hexp hexponentPoint
  have hsca := scanExponent_append s hex hen.not_digit hen.ne_letter
  have hscan := scanInteger_append s negative ht (fraction_follow hfr hexp)
  have hte : (Numeral.mk negative t fraction exponent ht hfr hex).text ++ rest =
      (if negative then [0x2d] else []) ++ (t ++ (fraction ++ (exponent ++ rest))) := by
    simp only [Numeral.text, Numeral.sign, append_assoc]
  have hta : (if negative = true then ((if negative then [0x2d] else []) ++ (t ++ (fraction ++ (exponent ++ rest)))).tail
      else (if negative then [0x2d] else []) ++ (t ++ (fraction ++ (exponent ++ rest)))) =
      t ++ (fraction ++ (exponent ++ rest)) := by
    cases negative <;> rfl
  have hp := ends_parts hfr hex hen
  rw [Ends] at hp
  rw [parseJsonNumberAsDoubleOrSmi, hte, minus_of_text ht, hta, hscan]
  by_cases hsmi : (Numeral.mk negative t fraction exponent ht hfr hex).isSmi = true
  · obtain ⟨hno, hnoE, hsh⟩ := (Numeral.isSmi_iff _).mp hsmi
    dsimp only at hno hnoE
    rw [if_pos ⟨hp.mpr ⟨hno, hnoE⟩, hsh⟩]
    refine ⟨.smi _, by rw [hno, hnoE]; rfl, ?_⟩
    rw [Numeral.value, if_pos hsmi]
    rfl
  · have hg : ¬(partOfNumber (currentCharacter (fraction ++ (exponent ++ rest))) = false ∧ t.length ≤ 9 ∧
        ¬(negative = true ∧ t = [0x30])) := by
      rw [hp, and_assoc]
      exact fun h => hsmi ((Numeral.isSmi_iff _).mpr h)
    rw [if_neg hg]
    simp only [hsc, hsca]
    refine ⟨_, rfl, ?_⟩
    rw [value_doubleOrSmi, Numeral.value, if_neg hsmi, ← hte, take_text]

end

end V8Multithread.Json
