import V8Multithread.Json.JsonParser

/-! What the parser does to its state, token by token.

Every function here either does what the reader of the grammar does, or leaves a state in which the
parser cannot succeed any more: an error was reported, or the cursor is inside a number that is over. -/
namespace V8Multithread.Json
open List Source

/-! ### Characters of tokens -/

variable {c : Nat}

theorem character_token {token : JsonToken} (h : jsonTokenToCharacter token = some c) :
    getTokenForCharacter c = token ∧ isWhitespace c = false ∧ isNumberPart c = false := by
  cases token <;> cases h <;> exact ⟨rfl, rfl, rfl⟩

def tokenAt (cursor : Cursor) : JsonToken := (currentCharacter cursor).elim .EOS getTokenForCharacter

/-- The next token is a punctuator exactly if its character is next. -/
theorem tokenAt_eq_iff {token : JsonToken} (hc : jsonTokenToCharacter token = some c) (cursor : Cursor) :
    tokenAt cursor = token ↔ ∃ rest, cursor = c :: rest := by
  cases cursor with
  | nil =>
    refine iff_of_false ?_ (by simp)
    rintro rfl
    cases hc
  | cons first rest =>
    constructor
    · intro hto
      rw [← hto] at hc
      rw [token_character (c := first) hc]
      exact ⟨rest, rfl⟩
    · rintro ⟨after, heq⟩
      cases heq
      exact (character_token hc).1

theorem isWhitespace_of_part (h : isNumberPart c) : isWhitespace c = false := by
  simp only [isNumberPart, isDecimalDigit, Bool.or_eq_true, Bool.and_eq_true, decide_eq_true_eq] at h
  simp only [isWhitespace, Bool.or_eq_false_iff, decide_eq_false_iff_not]
  omega

theorem skipWhitespace_of_ne (hc : isWhitespace c = false) (rest : Cursor) : skipWhitespace (c :: rest) = c :: rest :=
  dropWhile_cons_of_neg (by simp [hc])

namespace Parser
variable {N : Type} {s : Source} {ν : Numbers N}

/-! ### States that cannot succeed -/

/-- An error was reported, or a number goes on where it should be over. -/
def Doomed (p : Parser N) : Prop :=
  (p.exception.isSome = true ∧ p.cursor = []) ∨ partOfNumber (currentCharacter p.cursor) = true

theorem reportUnexpectedError_isSome (e : JsonError) (p : Parser N) : (p.reportUnexpectedError e).exception.isSome := by
  rw [reportUnexpectedError]
  split
  · next h => exact h
  · rfl

variable {p : Parser N}

theorem reportUnexpectedError_doomed (e : JsonError) (h : p.exception = none) : (p.reportUnexpectedError e).Doomed := by
  refine .inl ⟨reportUnexpectedError_isSome e p, ?_⟩
  rw [reportUnexpectedError, h]
  rfl

theorem getNextNonWhitespaceToken_eq (p : Parser N) :
    p.getNextNonWhitespaceToken = {p with cursor := skipWhitespace p.cursor, next := tokenAt (skipWhitespace p.cursor)} := by
  have hsp : (fun c => decide (getTokenForCharacter c = .WHITESPACE)) = isWhitespace := by
    funext c
    rw [Bool.eq_iff_iff, decide_eq_true_iff, token_whitespace]
  rw [getNextNonWhitespaceToken, hsp]
  rfl

theorem Doomed.punctuator (h : p.Doomed) (token : JsonToken) (hc : jsonTokenToCharacter token = some c) :
    punctuator c p.cursor = none := by
  obtain ⟨-, -, hpart⟩ := character_token hc
  rcases h with ⟨-, hnil⟩ | hnu
  · rw [hnil]
    rfl
  · cases hcursor : p.cursor with
    | nil =>
      rw [hcursor] at hnu
      cases hnu
    | cons first rest =>
      rw [hcursor, currentCharacter, head?_cons, partOfNumber_eq] at hnu
      rw [Json.punctuator, skipWhitespace_of_ne (isWhitespace_of_part hnu)]
      dsimp only
      rw [if_neg]
      rintro rfl
      rw [hnu] at hpart
      cases hpart

/-! ### Punctuators -/

section
variable {token : JsonToken} {c : Nat} (hc : jsonTokenToCharacter token = some c) {message : MessageTemplate} {p : Parser N}
include hc

theorem isNextToken_eq (p : Parser N) : p.isNextToken token = decide (currentCharacter p.cursor = some c) := by
  cases token <;> cases hc <;> rfl

theorem getNext_of_some {rest : Cursor} (h : Json.punctuator c p.cursor = some rest) :
    p.getNextNonWhitespaceToken = {p with cursor := c :: rest, next := token} := by
  rw [getNextNonWhitespaceToken_eq, punctuator_eq_some.mp h, (tokenAt_eq_iff hc _).mpr ⟨rest, rfl⟩]

theorem check_of_some {rest : Cursor} (h : Json.punctuator c p.cursor = some rest) :
    ∃ next, p.check token = (true, {p with cursor := rest, next := next}) := by
  rw [check, isNextToken_eq hc]
  by_cases hfi : currentCharacter p.cursor = some c
  · obtain ⟨after, hcursor⟩ := head?_eq_some_iff.mp hfi
    rw [punctuator_eq_some, hcursor, skipWhitespace_of_ne (character_token hc).2.1] at h
    cases h
    rw [if_pos (decide_eq_true hfi), advance, hcursor]
    exact ⟨p.next, rfl⟩
  · rw [if_neg (by simpa using hfi), getNext_of_some hc h]
    rw [if_pos rfl]
    exact ⟨token, rfl⟩

theorem check_of_none (h : Json.punctuator c p.cursor = none) :
    p.check token = (false, p.getNextNonWhitespaceToken) ∧ p.getNextNonWhitespaceToken.next ≠ token := by
  have hskip : ¬∃ rest, skipWhitespace p.cursor = c :: rest := by
    rintro ⟨rest, hrest⟩
    rw [punctuator_eq_some.mpr hrest] at h
    cases h
  have hnext : p.getNextNonWhitespaceToken.next ≠ token := by
    rw [getNextNonWhitespaceToken_eq]
    exact fun hto => hskip ((tokenAt_eq_iff hc _).mp hto)
  have hfi : ¬currentCharacter p.cursor = some c := by
    intro hfi
    obtain ⟨after, hcursor⟩ := head?_eq_some_iff.mp hfi
    exact hskip ⟨after, by rw [hcursor, skipWhitespace_of_ne (character_token hc).2.1]⟩
  refine ⟨?_, hnext⟩
  rw [check, isNextToken_eq hc, if_neg (by simpa using hfi)]
  rw [if_neg hnext]

omit hc in
theorem expect_of_eq (h : p.next = token) : p.expect s token message = (true, p.advance) := by
  rw [expect, if_pos h]

omit hc in
theorem expect_of_ne (h : p.next ≠ token) :
    ∃ q : Parser N, p.expect s token message = (false, q) ∧ q.exception.isSome = true := by
  rw [expect, if_neg h]
  exact ⟨_, rfl, reportUnexpectedError_isSome _ p⟩

theorem expectNext_of_some {rest : Cursor} (h : Json.punctuator c p.cursor = some rest) :
    ∃ next, p.expectNext s token message = (true, {p with cursor := rest, next := next}) := by
  obtain ⟨next, hch⟩ := check_of_some hc h
  rw [expectNext, hch]
  exact ⟨next, rfl⟩

theorem expectNext_of_none (h : Json.punctuator c p.cursor = none) :
    ∃ q : Parser N, p.expectNext s token message = (false, q) ∧ q.exception.isSome := by
  rw [expectNext, (check_of_none hc h).1]
  exact ⟨_, rfl, reportUnexpectedError_isSome _ _⟩

/-- After a token that was not there. -/
theorem expect_getNext_of_some {rest : Cursor} (h : Json.punctuator c p.cursor = some rest) :
    p.getNextNonWhitespaceToken.expect s token message = (true, {p with cursor := rest, next := token}) := by
  rw [getNext_of_some hc h]
  exact expect_of_eq rfl

theorem expect_getNext_of_none (h : Json.punctuator c p.cursor = none) :
    ∃ q : Parser N, p.getNextNonWhitespaceToken.expect s token message = (false, q) ∧ q.exception.isSome :=
  expect_of_ne (check_of_none hc h).2

end

/-- A doomed parser finds none of the tokens that could follow. -/
theorem Doomed.check (h : p.Doomed) (token : JsonToken) (hc : jsonTokenToCharacter token = some c) :
    p.check token = (false, p.getNextNonWhitespaceToken) :=
  (check_of_none hc (h.punctuator token hc)).1

theorem Doomed.next_ne (h : p.Doomed) (token : JsonToken) (hc : jsonTokenToCharacter token = some c) :
    p.getNextNonWhitespaceToken.next ≠ token :=
  (check_of_none hc (h.punctuator token hc)).2

/-! ### Values of one token -/

/-- The value that was read, or no way to succeed. -/
def Scans (p : Parser N) (read : Option (Value N × Cursor)) (r : Value N × Parser N) : Prop :=
  match read with
  | some (v, rest) => r = (v, {p with cursor := rest})
  | none => r.2.Doomed

theorem parseJsonNumber_scans {p : Parser N} (h : p.exception = none) :
    p.Scans ((s.readNumber ν p.cursor).map fun (n, rest) => (.number n, rest)) (p.parseJsonNumber s ν) := by
  rw [readNumber, parseJsonNumber, parseJsonNumberAsDoubleOrSmi]
  cases s.parseJsonNumberAsDoubleOrSmi ν p.cursor with
  | error e => exact reportUnexpectedError_doomed e h
  | ok result =>
    dsimp only
    split
    · next hpart => exact .inr hpart
    · rfl

theorem parseJsonString_scans (h : p.exception = none) (hsu : p.cursor.tail <:+ s.chars) :
    p.Scans ((s.readString p.cursor.tail).map fun (u, rest) => (.string u, rest)) (p.parseJsonString s) := by
  cases hscan : s.scanJsonString p.cursor.tail false with
  | error e =>
    simp only [readString, parseJsonString, scanJsonString, advance, hscan]
    exact reportUnexpectedError_doomed e h
  | ok result =>
    obtain ⟨string, rest⟩ := result
    obtain ⟨units, hma⟩ : ∃ units, s.makeString string = some units := by
      obtain ⟨pieces, hp⟩ := scanJsonString_sound hsu hscan
      rw [hp] at hsu hscan
      rw [s.scanJsonString_written false pieces rest hsu] at hscan
      cases hscan
      exact ⟨_, s.makeString_written false pieces rest hsu⟩
    simp only [readString, parseJsonString, scanJsonString, advance, hscan, hma]
    rfl

theorem scanLiteralRest_doomed (text : List Nat) (h : p.exception = none) : (p.scanLiteralRest s text).Doomed := by
  induction text generalizing p with
  | nil => exact reportUnexpectedError_doomed _ h
  | cons e text ih =>
    rw [scanLiteralRest]
    split
    · exact reportUnexpectedError_doomed _ h
    · split
      · exact ih h
      · exact reportUnexpectedError_doomed _ h

theorem scanLiteral_scans (text : List Nat) {first : Nat} {rest : Cursor} (h : p.exception = none)
    (hcursor : p.cursor = first :: rest) (v : Value N) :
    p.Scans ((readLiteral (first :: text) p.cursor).map (v, ·)) (v, p.scanLiteral s (first :: text)) := by
  rw [readLiteral, scanLiteral, hcursor]
  have hiff : ((first :: text).length ≤ (first :: rest).length ∧ (first :: rest).tail.take ((first :: text).length - 1) =
      (first :: text).tail) ↔ (first :: rest).take (first :: text).length = first :: text := by
    simp only [length_cons, tail_cons, Nat.add_sub_cancel, take_succ_cons, List.cons.injEq, true_and]
    constructor
    · exact fun h => h.2
    · intro hta
      have := congrArg List.length hta
      rw [length_take] at this
      exact ⟨by omega, hta⟩
  by_cases hma : (first :: rest).take (first :: text).length = first :: text
  · rw [if_pos hma, if_pos (hiff.mpr hma)]
    rfl
  · rw [if_neg hma, if_neg fun hg => hma (hiff.mp hg)]
    exact scanLiteralRest_doomed _ h

/-! ### The token that begins a value -/

section
variable {p : Parser N} {c : Nat} {rest : Cursor} (hrunning : p.exception = none) (hcursor : p.cursor = c :: rest)
include hrunning hcursor

theorem scans_string (hsu : p.cursor <:+ s.chars) (hto : getTokenForCharacter c = .STRING) :
    p.Scans (s.readToken ν c rest) (p.parseJsonString s) := by
  have hsc := parseJsonString_scans hrunning ((tail_suffix p.cursor).trans hsu)
  rw [hcursor, tail_cons] at hsc
  simp only [readToken, hto]
  exact hsc

theorem scans_number (hto : getTokenForCharacter c = .NUMBER) :
    p.Scans (s.readToken ν c rest) (p.parseJsonNumber s ν) := by
  have hsc := @parseJsonNumber_scans N s ν p hrunning
  rw [hcursor] at hsc
  simp only [readToken, hto]
  exact hsc

theorem scans_boolean (b : Bool) (hto : getTokenForCharacter c = if b then .TRUE_LITERAL else .FALSE_LITERAL) :
    p.Scans (s.readToken ν c rest) (.boolean b, p.scanLiteral s (booleanText b)) := by
  cases b with
  | true =>
    obtain rfl : c = 0x74 := token_character (by rw [hto]; rfl)
    have hsc := scanLiteral_scans (s := s) (booleanText true).tail hrunning hcursor (.boolean true)
    rw [hcursor] at hsc
    exact hsc
  | false =>
    obtain rfl : c = 0x66 := token_character (by rw [hto]; rfl)
    have hsc := scanLiteral_scans (s := s) (booleanText false).tail hrunning hcursor (.boolean false)
    rw [hcursor] at hsc
    exact hsc

theorem scans_null (hto : getTokenForCharacter c = .NULL_LITERAL) :
    p.Scans (s.readToken ν c rest) (.null, p.scanLiteral s nullText) := by
  obtain rfl : c = 0x6e := token_character (by rw [hto]; rfl)
  have hsc := scanLiteral_scans (s := s) nullText.tail hrunning hcursor .null
  rw [hcursor] at hsc
  exact hsc

end

end Parser

end V8Multithread.Json
