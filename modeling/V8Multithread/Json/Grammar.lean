import V8Multithread.Json.JsonNumber

/-! The JSON grammar, and a reader for it.

The grammar is a relation between a text and the value it denotes. The reader goes through a text from
left to right and gives the value at its beginning with what is left over. It accepts what the grammar
derives and nothing else. It is not the parser of the code: it has one function for each kind of list
and no state. -/
namespace V8Multithread.Json
open Bool List Option

/-! ### Values -/

inductive Key where
  | index (i : Nat)
  | name (units : List Nat)
  deriving DecidableEq, Repr

/-- The tree of a text. The properties of an object are in the order of the text, with duplicates. -/
inductive Value (N : Type) where
  | null
  | boolean (b : Bool)
  | number (n : N)
  | string (units : List Nat)
  | array (elements : List (Value N))
  | object (properties : List (Key × Value N))

/-- A key that spells an array index is that index. -/
def Key.ofUnits (units : List Nat) : Key :=
  let i := units.foldl addDigit 0
  if units = arrayIndexName i ∧ i ≤ kMaxArrayIndex then .index i else .name units

theorem Key.ofUnits_index {units : List Nat} {i : Nat} (h : units = arrayIndexName i) (hi : i ≤ kMaxArrayIndex) :
    ofUnits units = .index i := by
  have hva : units.foldl addDigit 0 = i := by rw [h, foldl_arrayIndexName]
  rw [ofUnits, hva, if_pos ⟨h, hi⟩]

theorem Key.ofUnits_name {units : List Nat} (h : ¬∃ i, units = arrayIndexName i ∧ i ≤ kMaxArrayIndex) :
    ofUnits units = .name units :=
  if_neg fun hin => h ⟨_, hin⟩

/-! ### The grammar -/

def isWhitespace (c : Nat) : Bool := c = 0x20 || c = 0x09 || c = 0x0d || c = 0x0a

def White (t : List Nat) : Prop := ∀ c ∈ t, isWhitespace c = true

def nullText : List Nat := [0x6e, 0x75, 0x6c, 0x6c]

def booleanText : Bool → List Nat
  | true => [0x74, 0x72, 0x75, 0x65]
  | false => [0x66, 0x61, 0x6c, 0x73, 0x65]

mutual

/-- A value, with no space around it. -/
inductive IsValue {N : Type} (ν : Numbers N) : List Nat → Value N → Prop
  | null : IsValue ν nullText .null
  | boolean (b : Bool) : IsValue ν (booleanText b) (.boolean b)
  | number (numeral : Numeral) : IsValue ν numeral.text (.number (numeral.value ν))
  | string (pieces : List Piece) : IsValue ν (0x22 :: (written pieces ++ [0x22])) (.string (units pieces))
  | emptyArray {w : List Nat} (hw : White w) : IsValue ν (0x5b :: (w ++ [0x5d])) (.array [])
  | array {t : List Nat} {vs : List (Value N)} (h : IsElements ν t vs) : IsValue ν (0x5b :: (t ++ [0x5d])) (.array vs)
  | emptyObject {w : List Nat} (hw : White w) : IsValue ν (0x7b :: (w ++ [0x7d])) (.object [])
  | object {t : List Nat} {ps : List (Key × Value N)} (h : IsMembers ν t ps) :
    IsValue ν (0x7b :: (t ++ [0x7d])) (.object ps)

/-- A value between spaces. -/
inductive IsElement {N : Type} (ν : Numbers N) : List Nat → Value N → Prop
  | mk {before t after : List Nat} {v : Value N} (hbefore : White before) (h : IsValue ν t v) (hafter : White after) :
    IsElement ν (before ++ (t ++ after)) v

inductive IsElements {N : Type} (ν : Numbers N) : List Nat → List (Value N) → Prop
  | one {t : List Nat} {v : Value N} (h : IsElement ν t v) : IsElements ν t [v]
  | more {t rest : List Nat} {v : Value N} {vs : List (Value N)} (h : IsElement ν t v) (hrest : IsElements ν rest vs) :
    IsElements ν (t ++ 0x2c :: rest) (v :: vs)

inductive IsMember {N : Type} (ν : Numbers N) : List Nat → Key × Value N → Prop
  | mk {before between t : List Nat} (pieces : List Piece) {v : Value N} (hbefore : White before)
    (hbetween : White between) (h : IsElement ν t v) :
    IsMember ν (before ++ 0x22 :: (written pieces ++ 0x22 :: (between ++ 0x3a :: t))) (Key.ofUnits (units pieces), v)

inductive IsMembers {N : Type} (ν : Numbers N) : List Nat → List (Key × Value N) → Prop
  | one {t : List Nat} {p : Key × Value N} (h : IsMember ν t p) : IsMembers ν t [p]
  | more {t rest : List Nat} {p : Key × Value N} {ps : List (Key × Value N)} (h : IsMember ν t p)
    (hrest : IsMembers ν rest ps) : IsMembers ν (t ++ 0x2c :: rest) (p :: ps)

end

/-- A text of the grammar and its value. -/
def IsText {N : Type} (ν : Numbers N) (t : List Nat) (v : Value N) : Prop := IsElement ν t v

/-! ### The reader -/

def skipWhitespace (cursor : Cursor) : Cursor := cursor.dropWhile isWhitespace

/-- What is after the next character that is not a space, if it is this one. -/
def punctuator (c : Nat) (cursor : Cursor) : Option Cursor :=
  match skipWhitespace cursor with
  | [] => none
  | first :: rest => if first = c then some rest else none

theorem length_skipWhitespace (cursor : Cursor) : (skipWhitespace cursor).length ≤ cursor.length :=
  (dropWhile_sublist _).length_le

theorem punctuator_eq_some {c : Nat} {cursor rest : Cursor} :
    punctuator c cursor = some rest ↔ skipWhitespace cursor = c :: rest := by
  rw [punctuator]
  cases skipWhitespace cursor with
  | nil => simp
  | cons first after => simp

theorem length_punctuator {c : Nat} {cursor rest : Cursor} (h : punctuator c cursor = some rest) :
    rest.length < cursor.length := by
  have hle := length_skipWhitespace cursor
  rw [punctuator_eq_some.mp h] at hle
  exact hle

def readLiteral (text : List Nat) (cursor : Cursor) : Option Cursor :=
  if cursor.take text.length = text then some (cursor.drop text.length) else none

namespace Source
variable {N : Type} (s : Source) (ν : Numbers N)

def readString (cursor : Cursor) : Option (List Nat × Cursor) :=
  match s.scanJsonString cursor false with
  | .ok (string, rest) => (s.makeString string).map (·, rest)
  | .error _ => none

def readKey (cursor : Cursor) : Option (Key × Cursor) :=
  match scanArrayIndex cursor with
  | some (i, rest) => some (.index i, rest)
  | none => (s.readString cursor).map fun (units, rest) => (.name units, rest)

/-- A number that is not followed by more of one. -/
def readNumber (cursor : Cursor) : Option (N × Cursor) :=
  match s.parseJsonNumberAsDoubleOrSmi ν cursor with
  | .ok (n, rest) => if partOfNumber (currentCharacter rest) then none else some (n.value ν, rest)
  | .error _ => none

mutual

/-- The value at the beginning, after spaces. -/
def readValue (cursor : Cursor) : Option (Value N × Cursor) :=
  match hskip : skipWhitespace cursor with
  | [] => none
  | c :: rest =>
    have hlt : rest.length < cursor.length := by
      have := length_skipWhitespace cursor
      rw [hskip] at this
      exact this
    match getTokenForCharacter c with
    | .STRING => (s.readString rest).map fun (units, rest) => (.string units, rest)
    | .NUMBER => (s.readNumber ν (c :: rest)).map fun (n, rest) => (.number n, rest)
    | .TRUE_LITERAL => (readLiteral (booleanText true) (c :: rest)).map (.boolean true, ·)
    | .FALSE_LITERAL => (readLiteral (booleanText false) (c :: rest)).map (.boolean false, ·)
    | .NULL_LITERAL => (readLiteral nullText (c :: rest)).map (.null, ·)
    | .LBRACE =>
      match punctuator 0x7d rest with
      | some rest => some (.object [], rest)
      | none => (readMembers rest).map fun (ps, rest) => (.object ps, rest)
    | .LBRACK =>
      match punctuator 0x5d rest with
      | some rest => some (.array [], rest)
      | none => (readElements rest).map fun (vs, rest) => (.array vs, rest)
    | _ => none
termination_by (cursor.length, 0)

/-- One element or more, up to the bracket. -/
def readElements (cursor : Cursor) : Option (List (Value N) × Cursor) :=
  match readValue cursor with
  | none => none
  | some (v, rest) =>
    match punctuator 0x2c rest with
    | some rest =>
      if rest.length < cursor.length then (readElements rest).map fun (vs, rest) => (v :: vs, rest) else none
    | none => (punctuator 0x5d rest).map ([v], ·)
termination_by (cursor.length, 1)

/-- One property or more, up to the brace. -/
def readMembers (cursor : Cursor) : Option (List (Key × Value N) × Cursor) :=
  match ((punctuator 0x22 cursor).bind s.readKey) with
  | none => none
  | some (key, rest) =>
    match punctuator 0x3a rest with
    | none => none
    | some rest =>
      if rest.length < cursor.length then
        match readValue rest with
        | none => none
        | some (v, rest) =>
          match punctuator 0x2c rest with
          | some rest =>
            if rest.length < cursor.length then (readMembers rest).map fun (ps, rest) => ((key, v) :: ps, rest)
            else none
          | none => (punctuator 0x7d rest).map ([(key, v)], ·)
      else none
termination_by (cursor.length, 1)

end

def readToken (c : Nat) (rest : Cursor) : Option (Value N × Cursor) :=
  match getTokenForCharacter c with
  | .STRING => (s.readString rest).map fun (units, rest) => (.string units, rest)
  | .NUMBER => (s.readNumber ν (c :: rest)).map fun (n, rest) => (.number n, rest)
  | .TRUE_LITERAL => (readLiteral (booleanText true) (c :: rest)).map (.boolean true, ·)
  | .FALSE_LITERAL => (readLiteral (booleanText false) (c :: rest)).map (.boolean false, ·)
  | .NULL_LITERAL => (readLiteral nullText (c :: rest)).map (.null, ·)
  | .LBRACE =>
    match punctuator 0x7d rest with
    | some rest => some (.object [], rest)
    | none => (s.readMembers ν rest).map fun (ps, rest) => (.object ps, rest)
  | .LBRACK =>
    match punctuator 0x5d rest with
    | some rest => some (.array [], rest)
    | none => (s.readElements ν rest).map fun (vs, rest) => (.array vs, rest)
  | _ => none

theorem readValue_nil {cursor : Cursor} (h : skipWhitespace cursor = []) : s.readValue ν cursor = none := by
  rw [readValue]
  split
  · rfl
  · next hskip => cases h.symm.trans hskip

theorem readValue_cons {cursor rest : Cursor} {c : Nat} (h : skipWhitespace cursor = c :: rest) :
    s.readValue ν cursor = s.readToken ν c rest := by
  rw [readValue]
  split
  · next hskip => cases h.symm.trans hskip
  · next hskip =>
    cases h.symm.trans hskip
    rw [readToken]

end Source

/-! ### Spaces and punctuators -/

variable {c : Nat} {cursor rest : Cursor} {before t w : List Nat} {pieces : List Piece}

/-- `JsonTokenToCharacter`, for the tokens that are one character. -/
def jsonTokenToCharacter : JsonToken → Option Nat
  | .LBRACE => some 0x7b
  | .RBRACE => some 0x7d
  | .LBRACK => some 0x5b
  | .RBRACK => some 0x5d
  | .STRING => some 0x22
  | .COLON => some 0x3a
  | .COMMA => some 0x2c
  | .TRUE_LITERAL => some 0x74
  | .FALSE_LITERAL => some 0x66
  | .NULL_LITERAL => some 0x6e
  | _ => none

/-- The table has the tokens of the characters of one byte. -/
theorem token_cases {P : Nat → JsonToken → Prop} (hone : ∀ c ≤ 255, P c (getOneCharJsonToken c))
    (hwide : ∀ c > 255, P c .ILLEGAL) (c : Nat) : P c (getTokenForCharacter c) := by
  rw [getTokenForCharacter]
  split
  · next hc => exact hone c hc
  · next hc => exact hwide c (not_le.mp hc)

theorem token_character {ch : Nat} (h : jsonTokenToCharacter (getTokenForCharacter c) = some ch) : c = ch := by
  have hall := token_cases (P := fun c token => jsonTokenToCharacter token = none ∨ jsonTokenToCharacter token = some c)
    (by decide +kernel) (fun _ _ => .inl rfl) c
  rw [h] at hall
  simpa [eq_comm] using hall

theorem token_whitespace : ∀ c, getTokenForCharacter c = .WHITESPACE ↔ isWhitespace c := by
  refine token_cases (P := fun c token => token = .WHITESPACE ↔ isWhitespace c) (by decide +kernel) fun c hc => ?_
  refine iff_of_false (by simp) ?_
  simp only [isWhitespace, or_eq_true, decide_eq_true_eq]
  omega

theorem token_number : ∀ c, getTokenForCharacter c = .NUMBER ↔ isDecimalDigit c ∨ c = 0x2d := by
  refine token_cases (P := fun c token => token = .NUMBER ↔ isDecimalDigit c ∨ c = 0x2d) (by decide +kernel) fun c hc => ?_
  refine iff_of_false (by simp) ?_
  simp only [isDecimalDigit, and_eq_true, decide_eq_true_eq]
  omega

theorem token_ne_end : ∀ c, getTokenForCharacter c ≠ .EOS :=
  token_cases (P := fun _ token => token ≠ .EOS) (by decide +kernel) (by simp)

theorem skipWhitespace_spec (cursor : Cursor) : ∃ w, White w ∧ cursor = w ++ skipWhitespace cursor ∧
      ∀ c rest, skipWhitespace cursor = c :: rest → isWhitespace c = false := by
  refine ⟨cursor.takeWhile isWhitespace, fun c => mem_takeWhile_imp, takeWhile_append_dropWhile.symm, ?_⟩
  intro c rest hskip
  have hnot := head?_dropWhile_not isWhitespace cursor
  rw [skipWhitespace] at hskip
  rw [hskip] at hnot
  simpa using hnot

theorem skipWhitespace_append (hw : White w) (hc : isWhitespace c = false) (rest : Cursor) :
    skipWhitespace (w ++ c :: rest) = c :: rest := by
  rw [skipWhitespace, dropWhile_append_of_pos hw]
  exact dropWhile_cons_of_neg (by simp [hc])

theorem punctuator_sound (h : punctuator c cursor = some rest) :
    ∃ w, White w ∧ cursor = w ++ c :: rest := by
  obtain ⟨w, hw, hcu, -⟩ := skipWhitespace_spec cursor
  exact ⟨w, hw, by rw [hcu, punctuator_eq_some.mp h]⟩

theorem punctuator_append (hw : White w) (hc : isWhitespace c = false) (rest : Cursor)
    (p : Nat) : punctuator p (w ++ c :: rest) = if c = p then some rest else none := by
  rw [punctuator, skipWhitespace_append hw hc]

theorem ends_append (hw : White w) (hrest : Ends rest) : Ends (w ++ rest) := by
  cases w with
  | nil => exact hrest
  | cons c w =>
    have hc := hw c mem_cons_self
    simp only [isWhitespace, or_eq_true, decide_eq_true_eq] at hc
    rcases hc with ((rfl | rfl) | rfl) | rfl <;> rfl

/-! ### Strings, keys and literals -/

namespace Source
variable {N : Type} {s : Source} {ν : Numbers N}

theorem readString_written (hsu : written pieces ++ 0x22 :: rest <:+ s.chars) :
    s.readString (written pieces ++ 0x22 :: rest) = some (units pieces, rest) := by
  rw [readString, s.scanJsonString_written false pieces rest hsu]
  dsimp only
  rw [s.makeString_written false pieces rest hsu]
  rfl

theorem readString_sound {u : List Nat} (hsu : cursor <:+ s.chars)
    (h : s.readString cursor = some (u, rest)) : ∃ pieces, cursor = written pieces ++ 0x22 :: rest ∧ u = units pieces := by
  cases hscan : s.scanJsonString cursor false with
  | error e =>
    rw [readString, hscan] at h
    cases h
  | ok result =>
    obtain ⟨pieces, rfl⟩ := scanJsonString_sound hsu hscan
    rw [readString_written hsu] at h
    cases h
    exact ⟨pieces, rfl, rfl⟩

/-- What is after a part of the source. -/
theorem suffix_right {before : Cursor} (h : before ++ rest <:+ s.chars) : rest <:+ s.chars :=
  (suffix_append before rest).trans h

theorem suffix_after {before : Cursor} (h : before ++ c :: rest <:+ s.chars) : rest <:+ s.chars :=
  (suffix_cons c rest).trans (suffix_right h)

theorem lt_of_suffix (hsu : cursor <:+ s.chars) : ∀ c ∈ cursor, c < 2 ^ 16 :=
  fun c hc => lt_of_le_of_lt (s.bounded c (hsu.subset hc)) s.width.maxChar_lt

theorem readKey_written (hsu : written pieces ++ 0x22 :: rest <:+ s.chars) :
    s.readKey (written pieces ++ 0x22 :: rest) = some (Key.ofUnits (units pieces), rest) := by
  have hin := scanArrayIndex_eq_some (lt_of_suffix hsu)
  rw [readKey]
  split
  · next i after hscan =>
    obtain ⟨pieces', hp, hu, hi⟩ := (hin i after).mp hscan
    -- both lists of pieces are what the string scanner finds
    have hst := readString_written hsu
    rw [hp, readString_written (hp ▸ hsu), some_inj, Prod.mk.injEq] at hst
    rw [Key.ofUnits_index (hst.1.symm.trans hu) hi, hst.2]
  · next hscan =>
    rw [readString_written hsu, Key.ofUnits_name]
    · rfl
    · rintro ⟨i, hu, hi⟩
      rw [(hin i rest).mpr ⟨pieces, rfl, hu, hi⟩] at hscan
      cases hscan

theorem readKey_sound {key : Key} (hsu : cursor <:+ s.chars)
    (h : s.readKey cursor = some (key, rest)) :
    ∃ pieces, cursor = written pieces ++ 0x22 :: rest ∧ key = Key.ofUnits (units pieces) := by
  obtain ⟨pieces, after, rfl⟩ : ∃ pieces after, cursor = written pieces ++ 0x22 :: after := by
    rw [readKey] at h
    split at h
    · next i after hscan =>
      obtain ⟨pieces, hp, -⟩ := (scanArrayIndex_eq_some (lt_of_suffix hsu) i after).mp hscan
      exact ⟨pieces, after, hp⟩
    · obtain ⟨⟨u, after⟩, hst, -⟩ := map_eq_some_iff.mp h
      obtain ⟨pieces, hp, -⟩ := readString_sound hsu hst
      exact ⟨pieces, after, hp⟩
  rw [readKey_written hsu] at h
  cases h
  exact ⟨pieces, rfl, rfl⟩

theorem readNumber_text (numeral : Numeral) (hen : Ends rest) :
    s.readNumber ν (numeral.text ++ rest) = some (numeral.value ν, rest) := by
  obtain ⟨n, hp, hva⟩ := parseJsonNumber_text (s := s) ν numeral hen
  rw [readNumber, hp]
  dsimp only
  rw [if_neg (by rw [hen]; decide), hva]

theorem readNumber_sound {n : N} (h : s.readNumber ν cursor = some (n, rest)) :
    ∃ numeral : Numeral, cursor = numeral.text ++ rest ∧ n = numeral.value ν := by
  rw [readNumber] at h
  split at h
  · next scanned after hp =>
    split at h
    · cases h
    · next hen =>
      cases h
      exact parseJsonNumber_sound ν (eq_false_iff.mpr hen) hp
  · cases h

end Source

theorem readLiteral_append (text rest : List Nat) : readLiteral text (text ++ rest) = some rest := by
  rw [readLiteral, take_left, if_pos rfl, drop_left]

theorem readLiteral_sound {text : List Nat} (h : readLiteral text cursor = some rest) :
    cursor = text ++ rest := by
  rw [readLiteral] at h
  split at h
  · next hta =>
    cases h
    conv_lhs => rw [← take_append_drop text.length cursor, hta]
  · cases h

/-! ### What is read is derived -/

namespace Source
variable {N : Type} (s : Source) (ν : Numbers N)

def ValueSound (cursor : Cursor) : Prop :=
  ∀ v rest, s.readValue ν cursor = some (v, rest) →
    ∃ before t, White before ∧ IsValue ν t v ∧ cursor = before ++ (t ++ rest)

def ElementsSound (cursor : Cursor) : Prop :=
  ∀ vs rest, s.readElements ν cursor = some (vs, rest) → ∃ t, IsElements ν t vs ∧ cursor = t ++ 0x5d :: rest

def MembersSound (cursor : Cursor) : Prop :=
  ∀ ps rest, s.readMembers ν cursor = some (ps, rest) → ∃ t, IsMembers ν t ps ∧ cursor = t ++ 0x7d :: rest

variable {s ν}

theorem valueSound_step (hsu : cursor <:+ s.chars)
    (ih : ∀ rest, rest <:+ s.chars → rest.length < cursor.length → s.ElementsSound ν rest ∧ s.MembersSound ν rest) :
    s.ValueSound ν cursor := by
  intro v rest h
  obtain ⟨before, hbefore, hcu, -⟩ := skipWhitespace_spec cursor
  have hlen := length_skipWhitespace cursor
  refine ⟨before, ?_⟩
  suffices hva : ∃ t, IsValue ν t v ∧ skipWhitespace cursor = t ++ rest by
    obtain ⟨t, ht, hskip⟩ := hva
    exact ⟨t, hbefore, ht, by rw [← hskip, ← hcu]⟩
  have hsk : skipWhitespace cursor <:+ s.chars := (dropWhile_suffix _).trans hsu
  cases hskip : skipWhitespace cursor with
  | nil =>
    rw [s.readValue_nil ν hskip] at h
    cases h
  | cons c after =>
    rw [s.readValue_cons ν hskip, readToken] at h
    rw [hskip] at hsk hlen
    have hafter : after <:+ s.chars := (suffix_cons c after).trans hsk
    have hch := @token_character c
    split at h
    · next hto =>
      obtain ⟨⟨u, rest'⟩, hst, heq⟩ := map_eq_some_iff.mp h
      cases heq
      obtain ⟨pieces, rfl, rfl⟩ := readString_sound hafter hst
      rw [hto] at hch
      cases hch rfl
      exact ⟨_, .string pieces, by simp⟩
    · next hto =>
      obtain ⟨⟨n, rest'⟩, hnu, heq⟩ := map_eq_some_iff.mp h
      cases heq
      obtain ⟨numeral, hte, rfl⟩ := readNumber_sound hnu
      exact ⟨_, .number numeral, hte⟩
    · next hto =>
      obtain ⟨rest', hl, heq⟩ := map_eq_some_iff.mp h
      cases heq
      exact ⟨_, .boolean true, readLiteral_sound hl⟩
    · next hto =>
      obtain ⟨rest', hl, heq⟩ := map_eq_some_iff.mp h
      cases heq
      exact ⟨_, .boolean false, readLiteral_sound hl⟩
    · next hto =>
      obtain ⟨rest', hl, heq⟩ := map_eq_some_iff.mp h
      cases heq
      exact ⟨_, .null, readLiteral_sound hl⟩
    · next hto =>
      rw [hto] at hch
      cases hch rfl
      split at h
      · next hcl =>
        cases h
        obtain ⟨w, hw, rfl⟩ := punctuator_sound hcl
        exact ⟨_, .emptyObject hw, by simp⟩
      · obtain ⟨⟨ps, rest'⟩, hme, heq⟩ := map_eq_some_iff.mp h
        cases heq
        obtain ⟨t, ht, rfl⟩ := (ih after hafter hlen).2 ps rest hme
        exact ⟨_, .object ht, by simp⟩
    · next hto =>
      rw [hto] at hch
      cases hch rfl
      split at h
      · next hcl =>
        cases h
        obtain ⟨w, hw, rfl⟩ := punctuator_sound hcl
        exact ⟨_, .emptyArray hw, by simp⟩
      · obtain ⟨⟨vs, rest'⟩, hel, heq⟩ := map_eq_some_iff.mp h
        cases heq
        obtain ⟨t, ht, rfl⟩ := (ih after hafter hlen).1 vs rest hel
        exact ⟨_, .array ht, by simp⟩
    · cases h

theorem elementsSound_step (hsu : cursor <:+ s.chars) (hva : s.ValueSound ν cursor)
    (ih : ∀ rest, rest <:+ s.chars → rest.length < cursor.length → s.ElementsSound ν rest) :
    s.ElementsSound ν cursor := by
  intro vs rest h
  rw [readElements] at h
  split at h
  · cases h
  · next v after hre =>
    obtain ⟨before, t, hbefore, ht, rfl⟩ := hva v after hre
    split at h
    · next next hco =>
      obtain ⟨w, hw, rfl⟩ := punctuator_sound hco
      split at h
      · next hlt =>
        obtain ⟨⟨vs', rest'⟩, hrest, heq⟩ := map_eq_some_iff.mp h
        cases heq
        have hnext := suffix_after (suffix_right (suffix_right hsu))
        obtain ⟨t', ht', rfl⟩ := ih next hnext hlt vs' rest hrest
        exact ⟨_, .more (.mk hbefore ht hw) ht', by simp⟩
      · cases h
    · obtain ⟨rest', hcl, heq⟩ := map_eq_some_iff.mp h
      cases heq
      obtain ⟨w, hw, rfl⟩ := punctuator_sound hcl
      exact ⟨_, .one (.mk hbefore ht hw), by simp⟩

theorem membersSound_step (hsu : cursor <:+ s.chars)
    (ih : ∀ rest, rest <:+ s.chars → rest.length < cursor.length → s.ValueSound ν rest ∧ s.MembersSound ν rest) :
    s.MembersSound ν cursor := by
  intro ps rest h
  rw [readMembers] at h
  split at h
  · cases h
  · next key after hbi =>
    obtain ⟨start, hqu, hkey⟩ := bind_eq_some_iff.mp hbi
    obtain ⟨before, hbefore, rfl⟩ := punctuator_sound hqu
    have hst := suffix_after hsu
    obtain ⟨pieces, rfl, rfl⟩ := readKey_sound hst hkey
    split at h
    · cases h
    · next value hco =>
      obtain ⟨between, hbetween, rfl⟩ := punctuator_sound hco
      split at h
      · next hlt =>
        have hva := suffix_after (suffix_after hst)
        split at h
        · cases h
        · next v after hre =>
          obtain ⟨space, t, hsp, ht, rfl⟩ := (ih value hva hlt).1 v after hre
          split at h
          · next next hcom =>
            obtain ⟨w, hw, rfl⟩ := punctuator_sound hcom
            split at h
            · next hlt' =>
              obtain ⟨⟨ps', rest'⟩, hrest, heq⟩ := map_eq_some_iff.mp h
              cases heq
              have hnext := suffix_after (suffix_right (suffix_right hva))
              obtain ⟨t', ht', rfl⟩ := (ih next hnext hlt').2 ps' rest hrest
              exact ⟨_, .more (.mk pieces hbefore hbetween (.mk hsp ht hw)) ht', by simp⟩
            · cases h
          · obtain ⟨rest', hcl, heq⟩ := map_eq_some_iff.mp h
            cases heq
            obtain ⟨w, hw, rfl⟩ := punctuator_sound hcl
            exact ⟨_, .one (.mk pieces hbefore hbetween (.mk hsp ht hw)), by simp⟩
      · cases h

/-- What is read is what the grammar derives. -/
theorem read_sound (cursor : Cursor) (hsu : cursor <:+ s.chars) :
    s.ValueSound ν cursor ∧ s.ElementsSound ν cursor ∧ s.MembersSound ν cursor := by
  induction hn : cursor.length using Nat.strong_induction_on generalizing cursor with
  | _ n ih =>
    subst hn
    have hsh : ∀ rest, rest <:+ s.chars → rest.length < cursor.length →
        s.ValueSound ν rest ∧ s.ElementsSound ν rest ∧ s.MembersSound ν rest :=
      fun rest hrest hlt => ih rest.length hlt rest hrest rfl
    have hva := valueSound_step hsu fun rest hrest hlt => (hsh rest hrest hlt).2
    have hel := elementsSound_step hsu hva fun rest hrest hlt => (hsh rest hrest hlt).2.1
    have hme := membersSound_step hsu fun rest hrest hlt =>
      ⟨(hsh rest hrest hlt).1, (hsh rest hrest hlt).2.2⟩
    exact ⟨hva, hel, hme⟩

end Source

/-- How a value begins. -/
theorem IsValue.head {N : Type} {ν : Numbers N} {v : Value N} (h : IsValue ν t v) :
    ∃ c rest, t = c :: rest ∧ isWhitespace c = false ∧ c ≠ 0x5d := by
  cases h with
  | null | string | emptyArray | array | emptyObject | object => exact ⟨_, _, rfl, rfl, by decide⟩
  | boolean b => cases b <;> exact ⟨_, _, rfl, rfl, by decide⟩
  | number numeral =>
    obtain ⟨negative, t, fraction, exponent, ht, _, _⟩ := numeral
    obtain ⟨c, rest, rfl, hc⟩ := head_isInteger ht
    cases negative with
    | true => exact ⟨0x2d, _, rfl, rfl, by decide⟩
    | false =>
      refine ⟨c, _, rfl, ?_, ?_⟩
      · obtain ⟨d, hd, rfl⟩ := digit_of_isDecimalDigit hc
        simp only [isWhitespace, or_eq_false_iff, decide_eq_false_iff_not]
        omega
      · rintro rfl
        cases hc

namespace Source
variable {N : Type} {s : Source} {ν : Numbers N}

/-! ### The lists of the reader, by their first -/

def readElementsRest (s : Source) (ν : Numbers N) (cursor : Cursor) : Option (List (Value N) × Cursor) :=
  match punctuator 0x2c cursor with
  | some rest => s.readElements ν rest
  | none => (punctuator 0x5d cursor).map ([], ·)

def readMembersRest (s : Source) (ν : Numbers N) (cursor : Cursor) : Option (List (Key × Value N) × Cursor) :=
  match punctuator 0x2c cursor with
  | some rest => s.readMembers ν rest
  | none => (punctuator 0x7d cursor).map ([], ·)

/-- A key after its quote, and the colon. -/
def readKeyColon (s : Source) (cursor : Cursor) : Option (Key × Cursor) :=
  (s.readKey cursor).bind fun (key, rest) => (punctuator 0x3a rest).map (key, ·)

theorem readValue_suffix {v : Value N} (hsu : cursor <:+ s.chars)
    (h : s.readValue ν cursor = some (v, rest)) : rest <:+ s.chars ∧ rest.length < cursor.length := by
  obtain ⟨before, t, -, ht, rfl⟩ := (read_sound cursor hsu).1 v rest h
  obtain ⟨c, t', rfl, -⟩ := ht.head
  refine ⟨suffix_right (suffix_right hsu), ?_⟩
  simp only [length_append, length_cons]
  omega

theorem punctuator_suffix (hsu : cursor <:+ s.chars)
    (h : punctuator c cursor = some rest) : rest <:+ s.chars := by
  obtain ⟨w, -, rfl⟩ := punctuator_sound h
  exact suffix_after hsu

theorem readKeyColon_suffix {key : Key} (hsu : cursor <:+ s.chars)
    (h : s.readKeyColon cursor = some (key, rest)) : rest <:+ s.chars ∧ rest.length < cursor.length := by
  obtain ⟨⟨key', after⟩, hkey, hco⟩ := bind_eq_some_iff.mp h
  obtain ⟨rest', hco, heq⟩ := map_eq_some_iff.mp hco
  cases heq
  obtain ⟨pieces, rfl, -⟩ := readKey_sound hsu hkey
  have hafter := suffix_after hsu
  have hl := length_punctuator hco
  refine ⟨punctuator_suffix hafter hco, ?_⟩
  simp only [length_append, length_cons]
  omega

theorem readElements_bind (hsu : cursor <:+ s.chars) :
    s.readElements ν cursor = (s.readValue ν cursor).bind fun (v, rest) =>
      (s.readElementsRest ν rest).map fun (vs, rest) => (v :: vs, rest) := by
  rw [readElements]
  cases hre : s.readValue ν cursor with
  | none => rfl
  | some result =>
    obtain ⟨v, rest⟩ := result
    rw [bind_some]
    dsimp only
    rw [readElementsRest]
    cases hco : punctuator 0x2c rest with
    | none =>
      dsimp only
      rw [Option.map_map]
      rfl
    | some after =>
      have hl := length_punctuator hco
      have hrest := (readValue_suffix hsu hre).2
      dsimp only
      rw [if_pos (by omega)]

theorem readMembers_bind (hsu : cursor <:+ s.chars) :
    s.readMembers ν cursor = ((punctuator 0x22 cursor).bind s.readKeyColon).bind fun (key, value) =>
      (s.readValue ν value).bind fun (v, rest) =>
        (s.readMembersRest ν rest).map fun (ps, rest) => ((key, v) :: ps, rest) := by
  rw [readMembers]
  cases hqu : punctuator 0x22 cursor with
  | none => rfl
  | some start =>
    have hst := punctuator_suffix hsu hqu
    have hsta := length_punctuator hqu
    rw [bind_some, bind_some]
    cases hco : s.readKeyColon start with
    | none =>
      rw [readKeyColon] at hco
      cases hkey : s.readKey start with
      | none => rfl
      | some result =>
        rw [hkey, bind_some, map_eq_none_iff] at hco
        dsimp only
        rw [hco]
        rfl
    | some result =>
      obtain ⟨key, value⟩ := result
      obtain ⟨hva, hval⟩ := readKeyColon_suffix hst hco
      obtain ⟨⟨key', after⟩, hkey, hmap⟩ := bind_eq_some_iff.mp hco
      obtain ⟨value', hp, heq⟩ := map_eq_some_iff.mp hmap
      cases heq
      rw [hkey]
      dsimp only at hp ⊢
      rw [hp]
      dsimp only
      rw [if_pos (by omega), bind_some]
      dsimp only
      cases hre : s.readValue ν value with
      | none => rfl
      | some result =>
        obtain ⟨v, rest⟩ := result
        have hrest := (readValue_suffix hva hre).2
        rw [bind_some]
        dsimp only
        rw [readMembersRest]
        cases hcom : punctuator 0x2c rest with
        | none =>
          dsimp only
          rw [Option.map_map]
          rfl
        | some after =>
          have hl := length_punctuator hcom
          dsimp only
          rw [if_pos (by omega)]

end Source

/-! ### What is derived is read -/

section
variable {N : Type} {ν : Numbers N}

theorem IsElements.head {vs : List (Value N)} (h : IsElements ν t vs) :
    ∃ w c rest, White w ∧ t = w ++ c :: rest ∧ isWhitespace c = false ∧ c ≠ 0x5d := by
  cases h with
  | one h =>
    cases h with
    | mk hbefore h hafter =>
      obtain ⟨c, rest, rfl, hc, hne⟩ := h.head
      exact ⟨_, c, _, hbefore, rfl, hc, hne⟩
  | more h hrest =>
    cases h with
    | mk hbefore h hafter =>
      obtain ⟨c, rest, rfl, hc, hne⟩ := h.head
      exact ⟨_, c, _, hbefore, by simp; rfl, hc, hne⟩

theorem IsMembers.head {ps : List (Key × Value N)} (h : IsMembers ν t ps) :
    ∃ w rest, White w ∧ t = w ++ 0x22 :: rest := by
  cases h with
  | one h =>
    cases h with
    | mk pieces hbefore hbetween h => exact ⟨_, _, hbefore, rfl⟩
  | more h hrest =>
    cases h with
    | mk pieces hbefore hbetween h => exact ⟨_, _, hbefore, by simp; rfl⟩

theorem token_of_digit (h : isDecimalDigit c) : getTokenForCharacter c = .NUMBER :=
  (token_number c).mpr (.inl h)

theorem Numeral.head (numeral : Numeral) : ∃ c rest, numeral.text = c :: rest ∧ getTokenForCharacter c = .NUMBER := by
  obtain ⟨negative, t, fraction, exponent, ht, _, _⟩ := numeral
  obtain ⟨c, rest, rfl, hc⟩ := head_isInteger ht
  cases negative with
  | true => exact ⟨0x2d, _, rfl, rfl⟩
  | false => exact ⟨c, _, rfl, token_of_digit hc⟩

end

namespace Source
variable {N : Type} (s : Source) (ν : Numbers N)

def ValueComplete (t : List Nat) : Prop :=
  ∀ v before rest, IsValue ν t v → White before → Ends rest → before ++ (t ++ rest) <:+ s.chars →
    s.readValue ν (before ++ (t ++ rest)) = some (v, rest)

def ElementsComplete (t : List Nat) : Prop :=
  ∀ vs rest, IsElements ν t vs → t ++ 0x5d :: rest <:+ s.chars → s.readElements ν (t ++ 0x5d :: rest) = some (vs, rest)

def MembersComplete (t : List Nat) : Prop :=
  ∀ ps rest, IsMembers ν t ps → t ++ 0x7d :: rest <:+ s.chars → s.readMembers ν (t ++ 0x7d :: rest) = some (ps, rest)

variable {s ν}

theorem readValue_append (hbefore : White before) (hc : isWhitespace c = false)
    (rest : Cursor) : s.readValue ν (before ++ c :: rest) = s.readToken ν c rest :=
  s.readValue_cons ν (skipWhitespace_append hbefore hc rest)

section
variable (rest : Cursor)

theorem readToken_quote :
    s.readToken ν 0x22 rest = (s.readString rest).map fun (units, rest) => (.string units, rest) := rfl

theorem readToken_bracket : s.readToken ν 0x5b rest =
      match punctuator 0x5d rest with
      | some rest => some (.array [], rest)
      | none => (s.readElements ν rest).map fun (vs, rest) => (.array vs, rest) := rfl

theorem readToken_brace : s.readToken ν 0x7b rest =
      match punctuator 0x7d rest with
      | some rest => some (.object [], rest)
      | none => (s.readMembers ν rest).map fun (ps, rest) => (.object ps, rest) := rfl

end

theorem readValue_literal (hbefore : White before) {text : List Nat} {v : Value N}
    (hc : isWhitespace c = false) (hto : ∀ rest, s.readToken ν c rest = (readLiteral (c :: text) (c :: rest)).map (v, ·))
    (rest : Cursor) : s.readValue ν (before ++ (c :: text ++ rest)) = some (v, rest) := by
  rw [cons_append, readValue_append hbefore hc, hto, ← cons_append, readLiteral_append]
  rfl

theorem valueComplete_step
    (ih : ∀ t', t'.length < t.length → s.ElementsComplete ν t' ∧ s.MembersComplete ν t') : s.ValueComplete ν t := by
  intro v before rest h hbefore hen hsu
  have hva := suffix_right hsu
  cases h with
  | null => exact readValue_literal hbefore rfl (fun _ => rfl) rest
  | boolean b => cases b <;> exact readValue_literal hbefore rfl (fun _ => rfl) rest
  | number numeral =>
    obtain ⟨c, t', hte, hto⟩ := numeral.head
    have hc : isWhitespace c = false := by
      rw [← not_eq_true, ← token_whitespace, hto]
      decide
    have hnu := readNumber_text (s := s) (ν := ν) numeral hen
    rw [hte, cons_append] at hnu ⊢
    rw [readValue_append hbefore hc, readToken, hto]
    dsimp only
    rw [hnu]
    rfl
  | string pieces =>
    rw [cons_append, append_assoc, singleton_append] at hva ⊢
    have hst := readString_written ((suffix_cons _ _).trans hva)
    rw [readValue_append hbefore rfl, readToken_quote, hst]
    rfl
  | emptyArray hw =>
    rw [cons_append, append_assoc, singleton_append, readValue_append hbefore rfl, readToken_bracket,
      punctuator_append hw rfl, if_pos rfl]
  | array h =>
    rename_i t vs
    obtain ⟨w, c, t', hw, rfl, hc, hne⟩ := h.head
    rw [cons_append, append_assoc, singleton_append] at hva ⊢
    have hel := (ih _ (by simp)).1 vs rest h ((suffix_cons _ _).trans hva)
    rw [readValue_append hbefore rfl, readToken_bracket, hel, append_assoc, cons_append,
      punctuator_append hw hc, if_neg hne]
    rfl
  | emptyObject hw =>
    rw [cons_append, append_assoc, singleton_append, readValue_append hbefore rfl, readToken_brace,
      punctuator_append hw rfl, if_pos rfl]
  | object h =>
    rename_i t ps
    obtain ⟨w, t', hw, rfl⟩ := h.head
    rw [cons_append, append_assoc, singleton_append] at hva ⊢
    have hme := (ih _ (by simp)).2 ps rest h ((suffix_cons _ _).trans hva)
    rw [readValue_append hbefore rfl, readToken_brace, hme, append_assoc, cons_append,
      punctuator_append hw rfl, if_neg (by decide)]
    rfl

/-- An element before a punctuator is read up to the spaces after it. -/
theorem readValue_element {v : Value N} (h : IsElement ν t v)
    (hva : ∀ t', t'.length ≤ t.length → s.ValueComplete ν t') (hen : Ends rest)
    (hsu : t ++ rest <:+ s.chars) :
    ∃ after, White after ∧ s.readValue ν (t ++ rest) = some (v, after ++ rest) := by
  cases h with
  | @mk before t after v hbefore h hafter =>
    rw [append_assoc, append_assoc] at hsu ⊢
    have hl : t.length ≤ (before ++ (t ++ after)).length := by
      rw [length_append, length_append]
      omega
    exact ⟨after, hafter, hva t hl v before (after ++ rest) h hbefore (ends_append hafter hen) hsu⟩

theorem elementsComplete_step (hva : ∀ t', t'.length ≤ t.length → s.ValueComplete ν t')
    (ih : ∀ t', t'.length < t.length → s.ElementsComplete ν t') : s.ElementsComplete ν t := by
  intro vs rest h hsu
  cases h with
  | one h =>
    obtain ⟨after, hafter, hre⟩ := readValue_element h hva (show Ends (0x5d :: rest) from rfl) hsu
    rw [readElements_bind hsu, hre, bind_some]
    dsimp only
    rw [readElementsRest, punctuator_append hafter rfl, if_neg (by decide), punctuator_append hafter rfl, if_pos rfl]
    rfl
  | @more t rest' v vs h hrest =>
    rw [length_append, length_cons] at hva ih
    rw [append_assoc, cons_append] at hsu ⊢
    have hen : Ends (0x2c :: (rest' ++ 0x5d :: rest)) := rfl
    obtain ⟨after, hafter, hre⟩ := readValue_element h (fun t' ht' => hva t' (by omega)) hen hsu
    rw [readElements_bind hsu, hre, bind_some]
    dsimp only
    rw [readElementsRest, punctuator_append hafter rfl, if_pos rfl]
    dsimp only
    rw [ih rest' (by omega) vs rest hrest (suffix_after hsu)]
    rfl

/-- A member, up to its value. -/
theorem readMembers_append {between : List Nat} (hbefore : White before) (hbetween : White between)
    (pieces : List Piece) {value : Cursor}
    (hsu : before ++ 0x22 :: (written pieces ++ 0x22 :: (between ++ 0x3a :: value)) <:+ s.chars) :
    s.readMembers ν (before ++ 0x22 :: (written pieces ++ 0x22 :: (between ++ 0x3a :: value))) =
      (s.readValue ν value).bind fun (v, rest) =>
        (s.readMembersRest ν rest).map fun (ps, rest) => ((Key.ofUnits (units pieces), v) :: ps, rest) := by
  rw [readMembers_bind hsu, punctuator_append hbefore rfl, if_pos rfl, bind_some, readKeyColon,
    readKey_written (suffix_after hsu), bind_some]
  dsimp only
  rw [punctuator_append hbetween rfl, if_pos rfl]
  rfl

theorem membersComplete_step (hva : ∀ t', t'.length < t.length → s.ValueComplete ν t')
    (ih : ∀ t', t'.length < t.length → s.MembersComplete ν t') : s.MembersComplete ν t := by
  intro ps rest h hsu
  cases h with
  | one h =>
    cases h with
    | @mk before between t pieces v hbefore hbetween h =>
      simp only [append_assoc, cons_append] at hsu ⊢
      have hs' := suffix_after (suffix_after (suffix_after hsu))
      obtain ⟨after, hafter, hre⟩ := readValue_element h (fun t' ht' => hva t' (by simp; omega))
        (show Ends (0x7d :: rest) from rfl) hs'
      rw [readMembers_append hbefore hbetween pieces hsu, hre, bind_some]
      dsimp only
      rw [readMembersRest, punctuator_append hafter rfl, if_neg (by decide), punctuator_append hafter rfl, if_pos rfl]
      rfl
  | @more t rest' p ps h hrest =>
    cases h with
    | @mk before between t pieces v hbefore hbetween h =>
      simp only [append_assoc, cons_append] at hsu ⊢
      have hs' := suffix_after (suffix_after (suffix_after hsu))
      have hen : Ends (0x2c :: (rest' ++ 0x7d :: rest)) := rfl
      obtain ⟨after, hafter, hre⟩ := readValue_element h (fun t' ht' => hva t' (by simp; omega)) hen hs'
      rw [readMembers_append hbefore hbetween pieces hsu, hre, bind_some]
      dsimp only
      rw [readMembersRest, punctuator_append hafter rfl, if_pos rfl]
      dsimp only
      rw [ih rest' (by simp; omega) ps rest hrest (suffix_after hs')]
      rfl

/-- What the grammar derives is read. -/
theorem read_complete (t : List Nat) : s.ValueComplete ν t ∧ s.ElementsComplete ν t ∧ s.MembersComplete ν t := by
  induction hn : t.length using Nat.strong_induction_on generalizing t with
  | _ n ih =>
    subst hn
    have hsh : ∀ t', t'.length < t.length → s.ValueComplete ν t' ∧ s.ElementsComplete ν t' ∧ s.MembersComplete ν t' :=
      fun t' hlt => ih t'.length hlt t' rfl
    have hva : ∀ t', t'.length ≤ t.length → s.ValueComplete ν t' := fun t' hle =>
      valueComplete_step fun t'' hlt => (hsh t'' (lt_of_lt_of_le hlt hle)).2
    have hel := elementsComplete_step hva fun t' hlt => (hsh t' hlt).2.1
    have hme := membersComplete_step (fun t' hlt => (hsh t' hlt).1) fun t' hlt => (hsh t' hlt).2.2
    exact ⟨hva t (le_refl _), hel, hme⟩

/-- The reader finds the texts of the grammar: a value with nothing but spaces after it. -/
theorem isText_iff (v : Value N) :
    IsText ν s.chars v ↔ ∃ rest, s.readValue ν s.chars = some (v, rest) ∧ skipWhitespace rest = [] := by
  constructor
  · intro h
    have hsu : s.chars ++ [] <:+ s.chars := by rw [append_nil]
    obtain ⟨after, hafter, hre⟩ := readValue_element h (fun t' _ => (read_complete t').1) (show Ends [] from rfl) hsu
    rw [append_nil, append_nil] at hre
    exact ⟨after, hre, dropWhile_eq_nil_iff.mpr hafter⟩
  · rintro ⟨rest, hre, hrest⟩
    obtain ⟨before, t, hbefore, ht, hch⟩ := (read_sound s.chars suffix_rfl).1 v rest hre
    rw [hch]
    exact .mk hbefore ht (dropWhile_eq_nil_iff.mp hrest)

theorem skipWhitespace_skipWhitespace (cursor : Cursor) :
    skipWhitespace (skipWhitespace cursor) = skipWhitespace cursor := by
  rw [skipWhitespace, skipWhitespace, dropWhile_idempotent]

theorem readValue_skipWhitespace (s : Source) (ν : Numbers N) (cursor : Cursor) :
    s.readValue ν (skipWhitespace cursor) = s.readValue ν cursor := by
  have hskip := skipWhitespace_skipWhitespace cursor
  cases hcu : skipWhitespace cursor with
  | nil => rw [readValue_nil s ν hcu, readValue_nil s ν rfl]
  | cons c rest =>
    rw [hcu] at hskip
    rw [readValue_cons s ν hcu, readValue_cons s ν hskip]

theorem skipWhitespace_suffix (hsu : cursor <:+ s.chars) : skipWhitespace cursor <:+ s.chars :=
  (dropWhile_suffix _).trans hsu

theorem punctuator_skipWhitespace (c : Nat) (cursor : Cursor) :
    punctuator c (skipWhitespace cursor) = punctuator c cursor := by
  rw [punctuator, skipWhitespace_skipWhitespace, punctuator]

theorem readElements_skipWhitespace (hsu : cursor <:+ s.chars) :
    s.readElements ν (skipWhitespace cursor) = s.readElements ν cursor := by
  rw [readElements_bind hsu, readElements_bind (skipWhitespace_suffix hsu), readValue_skipWhitespace]

theorem readMembers_skipWhitespace (hsu : cursor <:+ s.chars) :
    s.readMembers ν (skipWhitespace cursor) = s.readMembers ν cursor := by
  rw [readMembers_bind hsu, readMembers_bind (skipWhitespace_suffix hsu), punctuator_skipWhitespace]

end Source

end V8Multithread.Json
