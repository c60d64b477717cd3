import Mathlib

/-! The strings of `JsonParser`: scanning, decoding, and the keys that are array indices.

The source is a list of code units. A cursor is the part of the source that is still to be read, so
that moving on is taking the tail, and `position` is how much was read. The end of the source is
`none` where the code has `kEndOfString`. Lengths and positions fit in 32 bits, as those of strings
do. -/
namespace V8Multithread.Json
open List

/-! ### Sources -/

/-- `sizeof(Char)`, of the source or of what a string is decoded into. -/
inductive Width where
  | one
  | two
  deriving DecidableEq, Repr

def Width.maxChar : Width → Nat
  | .one => 0xff
  | .two => 0xffff

/-- `unibrow::Latin1::kMaxChar`. -/
def kMaxChar : Nat := 0xff

/-- `unibrow::Utf16::kMaxNonSurrogateCharCode`. -/
def kMaxNonSurrogateCharCode : Nat := 0xffff

structure Source where
  width : Width
  chars : List Nat
  bounded : ∀ c ∈ chars, c ≤ width.maxChar

abbrev Cursor := List Nat

def Source.position (s : Source) (cursor : Cursor) : Nat := s.chars.length - cursor.length

def currentCharacter (cursor : Cursor) : Option Nat := cursor.head?

/-! ### Characters -/

inductive JsonToken where
  | NUMBER
  | STRING
  | LBRACE
  | RBRACE
  | LBRACK
  | RBRACK
  | TRUE_LITERAL
  | FALSE_LITERAL
  | NULL_LITERAL
  | WHITESPACE
  | COLON
  | COMMA
  | ILLEGAL
  | EOS
  deriving DecidableEq, Repr

def isDecimalDigit (c : Nat) : Bool := 0x30 ≤ c && c ≤ 0x39

/-- `GetOneCharJsonToken`, which fills the table of the characters up to `kMaxChar`. -/
def getOneCharJsonToken (c : Nat) : JsonToken :=
  if c = 0x22 then .STRING
  else if isDecimalDigit c then .NUMBER
  else if c = 0x2d then .NUMBER
  else if c = 0x5b then .LBRACK
  else if c = 0x7b then .LBRACE
  else if c = 0x5d then .RBRACK
  else if c = 0x7d then .RBRACE
  else if c = 0x74 then .TRUE_LITERAL
  else if c = 0x66 then .FALSE_LITERAL
  else if c = 0x6e then .NULL_LITERAL
  else if c = 0x20 then .WHITESPACE
  else if c = 0x09 then .WHITESPACE
  else if c = 0x0d then .WHITESPACE
  else if c = 0x0a then .WHITESPACE
  else if c = 0x3a then .COLON
  else if c = 0x2c then .COMMA
  else .ILLEGAL

def getTokenForCharacter (c : Nat) : JsonToken := if c ≤ kMaxChar then getOneCharJsonToken c else .ILLEGAL

inductive EscapeKind where
  | kIllegal
  | kSelf
  | kBackspace
  | kTab
  | kNewLine
  | kFormFeed
  | kCarriageReturn
  | kUnicode
  deriving DecidableEq, Repr

/-! The three fields of `GetJsonScanFlags`. -/

def getEscapeKind (c : Nat) : EscapeKind :=
  if c = 0x62 then .kBackspace
  else if c = 0x74 then .kTab
  else if c = 0x6e then .kNewLine
  else if c = 0x66 then .kFormFeed
  else if c = 0x72 then .kCarriageReturn
  else if c = 0x75 then .kUnicode
  else if c = 0x22 then .kSelf
  else if c = 0x5c then .kSelf
  else if c = 0x2f then .kSelf
  else .kIllegal

def mayTerminateJsonString (c : Nat) : Bool := c < 0x20 || c = 0x22 || c = 0x5c

def isNumberPart (c : Nat) : Bool := c = 0x2e || c = 0x65 || c = 0x45 || isDecimalDigit c || c = 0x2d || c = 0x2b

/-- Unsigned 32-bit arithmetic, in which a difference below zero is large. -/
def hexValue (c : Nat) : Option Nat :=
  let d := (c + 2 ^ 32 - 0x30) % 2 ^ 32
  if d ≤ 9 then some d
  else
    let e := ((d ||| 0x20) + 2 ^ 32 - 0x31) % 2 ^ 32
    if e ≤ 5 then some (e + 10) else none

/-! ### Errors -/

inductive MessageTemplate where
  | kJsonParseUnterminatedString
  | kJsonParseBadUnicodeEscape
  | kJsonParseBadEscapedCharacter
  | kJsonParseBadControlCharacter
  | kJsonParseNoNumberAfterMinusSign
  | kJsonParseUnterminatedFractionalNumber
  | kJsonParseExponentPartMissingNumber
  | kJsonParseExpectedColonAfterPropertyName
  | kJsonParseExpectedDoubleQuotedPropertyName
  | kJsonParseExpectedPropNameOrRBrace
  | kJsonParseExpectedCommaOrRBrace
  | kJsonParseExpectedCommaOrRBrack
  | kJsonParseUnexpectedNonWhiteSpaceCharacter
  deriving DecidableEq, Repr

/-- What `ReportUnexpectedToken` is told, and where. Without a message it depends on the token. -/
structure JsonError where
  token : JsonToken
  message : Option MessageTemplate
  position : Nat
  deriving DecidableEq, Repr

def Source.unexpectedToken (s : Source) (cursor : Cursor) (token : JsonToken) (message : Option MessageTemplate) :
    JsonError :=
  ⟨token, message, s.position cursor⟩

def Source.unexpectedCharacter (s : Source) (cursor : Cursor) (c : Option Nat) : JsonError :=
  s.unexpectedToken cursor (c.elim .EOS getTokenForCharacter) none

/-! ### Scanning -/

/-- A string of the source, or an index. -/
inductive JsonString where
  | string (start length : Nat) (needsConversion internalize hasEscape : Bool)
  | index (index : Nat)
  deriving DecidableEq, Repr

/-- Four digits, each after the one before; the cursor ends on the last, or on what is none. -/
def scanDigits : (count value : Nat) → Cursor → Option Nat × Cursor
  | 0, value, cursor => (some value, cursor)
  | count + 1, value, cursor =>
    match (currentCharacter cursor.tail).bind hexValue with
    | some digit => scanDigits count (value * 16 + digit) cursor.tail
    | none => (none, cursor.tail)

def scanUnicodeCharacter (cursor : Cursor) : Option Nat × Cursor := scanDigits 4 0 cursor

def stride : Nat := 16

/-- What the comparisons of a vector say of one lane. -/
def lane (c : Nat) : Bool := c < 0x20 || c = 0x22 || c = 0x5c

/-- The loop over whole vectors, up to the first lane that is set. -/
def skipVectors : (vectors : Nat) → Cursor → Cursor
  | 0, cursor => cursor
  | vectors + 1, cursor =>
    if stride ≤ cursor.length then
      match (cursor.take stride).findIdx? lane with
      | none => skipVectors vectors (cursor.drop stride)
      | some i => cursor.drop i
    else cursor

def skipOneByte (cursor : Cursor) : Cursor :=
  (skipVectors cursor.length cursor).dropWhile fun c => !mayTerminateJsonString c

/-- Two-byte characters are gathered in `bits`. -/
def skipTwoByte : (bits : Nat) → Cursor → Nat × Cursor
  | bits, [] => (bits, [])
  | bits, c :: rest =>
    if c > kMaxChar then skipTwoByte (bits ||| c) rest
    else if mayTerminateJsonString c then (bits, c :: rest)
    else skipTwoByte bits rest

def Width.skip (width : Width) (bits : Nat) (cursor : Cursor) : Nat × Cursor :=
  match width with
  | .one => (bits, skipOneByte cursor)
  | .two => skipTwoByte bits cursor

def Width.converts (width : Width) (bits : Nat) : Bool :=
  match width with
  | .one => bits > kMaxChar
  | .two => bits ≤ kMaxChar

/-- The variables of the loop of `ScanJsonString`. -/
structure Scanning where
  cursor : Cursor
  offset : Nat
  hasEscape : Bool
  bits : Nat
  deriving DecidableEq, Repr

/-- One round: the string is over, or the loop goes on. -/
def Source.scanRound (s : Source) (start : Nat) (needsInternalization : Bool) (loop : Scanning) :
    Except JsonError (Scanning ⊕ JsonString × Cursor) :=
  let (bits, cursor) := s.width.skip loop.bits loop.cursor
  match cursor with
  | [] => .error (s.unexpectedToken cursor .ILLEGAL (some .kJsonParseUnterminatedString))
  | c :: rest =>
    if c = 0x22 then
      let length := s.position cursor - loop.offset
      .ok (.inr (.string start length (s.width.converts bits) needsInternalization loop.hasEscape, rest))
    else if c = 0x5c then
      match rest with
      | [] => .error (s.unexpectedCharacter rest none)
      | e :: after =>
        if e > kMaxChar then .error (s.unexpectedCharacter rest (some e))
        else
          match getEscapeKind e with
          | .kUnicode =>
            match scanUnicodeCharacter rest with
            | (none, cursor) => .error (s.unexpectedToken cursor .ILLEGAL (some .kJsonParseBadUnicodeEscape))
            | (some value, cursor) =>
              let units := if value > kMaxNonSurrogateCharCode then 1 else 0
              .ok (.inl ⟨cursor.tail, loop.offset + (5 - units), true, bits ||| value⟩)
          | .kIllegal => .error (s.unexpectedToken rest .ILLEGAL (some .kJsonParseBadEscapedCharacter))
          | _ => .ok (.inl ⟨after, loop.offset + 1, true, bits⟩)
    else .error (s.unexpectedToken cursor .ILLEGAL (some .kJsonParseBadControlCharacter))

theorem length_skipVectors (vectors : Nat) (cursor : Cursor) : (skipVectors vectors cursor).length ≤ cursor.length := by
  induction vectors generalizing cursor with
  | zero => exact le_refl _
  | succ vectors ih =>
    rw [skipVectors]
    split
    · split
      · exact (ih _).trans (by rw [length_drop]; exact Nat.sub_le _ _)
      · rw [length_drop]
        exact Nat.sub_le _ _
    · exact le_refl _

theorem length_skipTwoByte (bits : Nat) (cursor : Cursor) : (skipTwoByte bits cursor).2.length ≤ cursor.length := by
  induction cursor generalizing bits with
  | nil => exact le_refl _
  | cons c rest ih =>
    rw [skipTwoByte]
    split
    · exact (ih _).trans (Nat.le_succ _)
    · split
      · exact le_refl _
      · exact (ih _).trans (Nat.le_succ _)

theorem length_skip (width : Width) (bits : Nat) (cursor : Cursor) : (width.skip bits cursor).2.length ≤ cursor.length := by
  cases width with
  | one => exact (dropWhile_sublist _).length_le.trans (length_skipVectors _ _)
  | two => exact length_skipTwoByte bits cursor

theorem length_scanDigits (count value : Nat) (cursor : Cursor) :
    (scanDigits count value cursor).2.length ≤ cursor.length := by
  induction count generalizing value cursor with
  | zero => exact le_refl _
  | succ count ih =>
    rw [scanDigits]
    split
    · exact (ih _ _).trans (by rw [length_tail]; exact Nat.sub_le _ _)
    · rw [length_tail]
      exact Nat.sub_le _ _

theorem Source.scanRound_decreases {s : Source} {start : Nat} {needsInternalization : Bool} {loop next : Scanning}
    (h : s.scanRound start needsInternalization loop = .ok (.inl next)) : next.cursor.length < loop.cursor.length := by
  have hskip := length_skip s.width loop.bits loop.cursor
  simp only [scanRound] at h
  split at h
  · cases h
  · next c rest hcu =>
    rw [hcu, length_cons] at hskip
    split at h
    · cases h
    · split at h
      · split at h
        · cases h
        · next e after =>
          rw [length_cons] at hskip
          split at h
          · cases h
          · split at h
            · split at h
              · cases h
              · next value cursor hscan =>
                have hdi := length_scanDigits 4 0 (e :: after)
                rw [scanUnicodeCharacter] at hscan
                rw [hscan, length_cons] at hdi
                dsimp only at hdi
                cases h
                simp only [length_tail]
                omega
            · cases h
            · cases h
              dsimp only
              omega
      · cases h

def Source.scanLoop (s : Source) (start : Nat) (needsInternalization : Bool) (loop : Scanning) :
    Except JsonError (JsonString × Cursor) :=
  match hround : s.scanRound start needsInternalization loop with
  | .error e => .error e
  | .ok (.inr result) => .ok result
  | .ok (.inl next) =>
    have _ := Source.scanRound_decreases hround
    s.scanLoop start needsInternalization next
termination_by loop.cursor.length

/-- The cursor is after the opening quote. -/
def Source.scanJsonString (s : Source) (cursor : Cursor) (needsInternalization : Bool) :
    Except JsonError (JsonString × Cursor) :=
  let start := s.position cursor
  s.scanLoop start needsInternalization ⟨cursor, start, false, 0⟩

/-! ### Keys -/

/-- What a continuation gathers about the elements of an object. -/
structure Elements where
  maxIndex : Nat
  elements : Nat
  deriving DecidableEq, Repr

/-- `TryAddArrayIndexChar`, or `none` where it fails. -/
def tryAddArrayIndexChar (index c : Nat) : Option Nat :=
  let d := c - 0x30
  if index > 429496729 - (d + 3) >>> 3 then none else some (index * 10 + d)

/-- `find_if`: the digits that can be added, from the cursor on. -/
def addDigits : (index : Nat) → Cursor → Nat × Cursor
  | index, [] => (index, [])
  | index, c :: rest =>
    if isDecimalDigit c then
      match tryAddArrayIndexChar index c with
      | some index => addDigits index rest
      | none => (index, c :: rest)
    else (index, c :: rest)

theorem length_addDigits (index : Nat) (cursor : Cursor) : (addDigits index cursor).2.length ≤ cursor.length := by
  induction cursor generalizing index with
  | nil => exact le_refl _
  | cons c rest ih =>
    rw [addDigits]
    split
    · split
      · exact (ih _).trans (Nat.le_succ _)
      · exact le_refl _
    · exact le_refl _

theorem length_escapedDigit {index found c : Nat} {cursor rest last : Cursor}
    (hfound : addDigits index cursor.tail = (found, 0x5c :: rest))
    (hscan : scanUnicodeCharacter rest = (some c, last)) : last.length < cursor.length := by
  have hadd := length_addDigits index cursor.tail
  have hdi := length_scanDigits 4 0 rest
  rw [scanUnicodeCharacter] at hscan
  rw [hscan] at hdi
  rw [hfound, length_tail] at hadd
  simp only [length_cons] at hadd hdi
  omega

/-- The loop over the digits after the first, with the cursor on the last one taken. -/
def scanIndex (index : Nat) (cursor : Cursor) : Option (Nat × Cursor) :=
  match hfound : addDigits index cursor.tail with
  | (found, 0x22 :: rest) => some (found, rest)
  | (found, 0x5c :: rest) =>
    if currentCharacter rest = some 0x75 then
      match hscan : scanUnicodeCharacter rest with
      | (some c, last) =>
        have _ := length_escapedDigit hfound hscan
        if isDecimalDigit c then
          match tryAddArrayIndexChar found c with
          | some next => scanIndex next last
          | none => none
        else none
      | (none, _) => none
    else none
  | _ => none
termination_by cursor.length

/-- The first character, decoded, with the cursor on its last. -/
def firstCharacter (cursor : Cursor) : Option Nat × Cursor :=
  if currentCharacter cursor = some 0x5c ∧ currentCharacter cursor.tail = some 0x75 then
    scanUnicodeCharacter cursor.tail
  else (currentCharacter cursor, cursor)

def scanArrayIndex (cursor : Cursor) : Option (Nat × Cursor) :=
  match firstCharacter cursor with
  | (some first, cursor) =>
    if isDecimalDigit first then
      if first = 0x30 then
        if currentCharacter cursor.tail = some 0x22 then some (0, cursor.tail.tail) else none
      else scanIndex (first - 0x30) cursor
    else none
  | (none, _) => none

def Source.scanJsonPropertyKey (s : Source) (cont : Elements) (cursor : Cursor) :
    Except JsonError (JsonString × Cursor × Elements) :=
  match scanArrayIndex cursor with
  | some (index, cursor) => .ok (.index index, cursor, ⟨max cont.maxIndex index, cont.elements + 1⟩)
  | none => (s.scanJsonString cursor true).map fun (string, cursor) => (string, cursor, cont)

/-! ### Decoding -/

/-- `std::find` and `std::copy_n` over a window of so many characters; a read past the end is `none`. -/
def copyUntilBackslash : (window : Nat) → Cursor → Option (List Nat × Cursor)
  | 0, cursor => some ([], cursor)
  | _ + 1, [] => none
  | window + 1, c :: rest =>
    if c = 0x5c then some ([], c :: rest)
    else (copyUntilBackslash window rest).map fun (copied, cursor) => (c :: copied, cursor)

/-- `HexValue` of what is no digit is -1. -/
def decodeDigits : (count value : Nat) → Cursor → Option (Nat × Cursor)
  | 0, value, cursor => some (value, cursor)
  | _ + 1, _, [] => none
  | count + 1, value, c :: rest => decodeDigits count ((value * 16 + (hexValue c).getD (2 ^ 32 - 1)) % 2 ^ 32) rest

def leadSurrogate (value : Nat) : Nat := 0xd800 + ((value - 0x10000) >>> 10 &&& 0x3ff)

def trailSurrogate (value : Nat) : Nat := 0xdc00 + (value &&& 0x3ff)

/-- The units of the escape after a backslash, with so many left to write. -/
def decodeEscape (length : Nat) : Cursor → Option (List Nat × Cursor)
  | [] => none
  | c :: rest =>
    match getEscapeKind c with
    | .kSelf => some ([c], rest)
    | .kBackspace => some ([0x08], rest)
    | .kTab => some ([0x09], rest)
    | .kNewLine => some ([0x0a], rest)
    | .kFormFeed => some ([0x0c], rest)
    | .kCarriageReturn => some ([0x0d], rest)
    | .kUnicode =>
      match decodeDigits 4 0 rest with
      | none => none
      | some (value, rest) =>
        if value ≤ kMaxNonSurrogateCharCode then some ([value], rest)
        else if 2 ≤ length then some ([leadSurrogate value, trailSurrogate value], rest)
        else none
    | .kIllegal => none

/-- A character of the sink has so many bits. -/
def Width.store (sink : Width) (c : Nat) : Nat := c % (sink.maxChar + 1)

/-- One round takes at least one unit, so there are at most as many rounds as units. -/
def decodeRounds (sink : Width) : (rounds : Nat) → Cursor → (length : Nat) → Option (List Nat)
  | _, _, 0 => some []
  | 0, _, _ + 1 => none
  | rounds + 1, cursor, length =>
    match copyUntilBackslash length cursor with
    | none => none
    | some (copied, cursor) =>
      if length - copied.length = 0 then some (copied.map sink.store)
      else
        match decodeEscape (length - copied.length) cursor.tail with
        | none => none
        | some (units, cursor) =>
          (decodeRounds sink rounds cursor (length - copied.length - units.length)).map fun rest =>
            (copied ++ units).map sink.store ++ rest

def decodeString (sink : Width) (cursor : Cursor) (length : Nat) : Option (List Nat) :=
  decodeRounds sink length cursor length

/-- The contents of the string that `MakeString` makes. Whether it is internalized, or is a string that
was there before, does not change them. -/
def Source.makeString (s : Source) : JsonString → Option (List Nat)
  | .string start length needsConversion _ hasEscape =>
    let cursor := s.chars.drop start
    let sink : Width := if (s.width = .one) = (needsConversion = false) then .one else .two
    if length = 0 then some []
    else if length = 1 then
      if hasEscape then decodeString .two cursor 1 else (currentCharacter cursor).map ([·])
    else if hasEscape then decodeString sink cursor length
    else if length ≤ cursor.length then some ((cursor.take length).map sink.store)
    else none
  | .index _ => none

end V8Multithread.Json
