import V8Multithread.Strings.UnicodeDecoder

/-! `Uri`: percent-encoding of strings.

`Decode` begins with a buffer of one-byte characters and goes on with one of two-byte characters
from the first escape or character that is not ASCII. It takes as many escapes as the first byte
of a sequence announces and only then asks the UTF-8 decoder. `Encode` writes into a buffer that
may not grow beyond the longest string. -/
namespace V8Multithread.Strings.Uri
open List Option Base

/-! ### `unibrow::Utf8` -/

def kIncomplete : Nat := 0xFFFFFFFC

structure Incremental where
  value : Nat
  state : Nat
  buffer : Nat
  deriving DecidableEq, Repr

/-- The value of one byte, and the state and the buffer after it. -/
def valueOfIncremental (next state buffer : Nat) : Incremental :=
  if next ≤ kMaxOneByteChar ∧ state = utf8DfaDecoder.kAccept then ⟨next, state, buffer⟩
  else
    let decoded := utf8DfaDecoder.decode next state buffer
    if decoded.1 = utf8DfaDecoder.kAccept then ⟨decoded.2, decoded.1, 0⟩
    else if decoded.1 = 0 then ⟨kBadChar, utf8DfaDecoder.kAccept, 0⟩
    else ⟨kIncomplete, decoded.1, decoded.2⟩

def calculateValue : (str : List Nat) → (state buffer : Nat) → Nat
  | [], _, _ => kBadChar
  | next :: str, state, buffer =>
    let t := valueOfIncremental next state buffer
    if str ≠ [] ∧ t.value = kIncomplete then calculateValue str t.state t.buffer
    else if t.state = utf8DfaDecoder.kAccept then t.value else kBadChar

def valueOf : List Nat → Nat
  | [] => kBadChar
  | first :: bytes =>
    if first ≤ kMaxOneByteChar then first else calculateValue (first :: bytes) utf8DfaDecoder.kAccept 0

/-- `static_cast<char>(0x80 | (c & kMask))`. -/
def continuationOctet (c : Nat) : Nat := (0x80 ||| (c &&& 0xFFFFFFBF)) % 2 ^ 8

/-- `Utf8::Encode` of a character that stands alone. -/
def encodeUtf8 (c : Nat) : List Nat :=
  if c ≤ kMaxOneByteChar then [c]
  else if c ≤ 0x7FF then [0xC0 ||| c >>> 6, continuationOctet c]
  else if c ≤ 0xFFFF then [0xE0 ||| c >>> 12, continuationOctet (c >>> 6), continuationOctet c]
  else [0xF0 ||| c >>> 18, continuationOctet (c >>> 12), continuationOctet (c >>> 6), continuationOctet c]

/-! ### Decoding -/

def percent : Nat := '%'.toNat

def isReservedPredicate (c : Nat) : Bool :=
  c = '#'.toNat || c = '$'.toNat || c = '&'.toNat || c = '+'.toNat || c = ','.toNat || c = '/'.toNat ||
    c = ':'.toNat || c = ';'.toNat || c = '='.toNat || c = '?'.toNat || c = '@'.toNat

def isReplacementCharacter (octets : List Nat) : Bool := octets = [0xEF, 0xBF, 0xBD]

def decodeOctets (octets : List Nat) : Option (List Nat) :=
  let value := valueOf octets
  if value = kBadChar ∧ isReplacementCharacter octets = false then none
  else if value ≤ kMaxNonSurrogateCharCode then some [value]
  else some [leadSurrogate value, trailSurrogate value]

/-- `HexValue`, on 32 bits. -/
def hexValue (c : Nat) : Option Nat :=
  let digit := (c + 2 ^ 32 - '0'.toNat) % 2 ^ 32
  if digit ≤ 9 then some digit
  else
    let letter := ((digit ||| 0x20) + 2 ^ 32 - ('a'.toNat - '0'.toNat)) % 2 ^ 32
    if letter ≤ 5 then some (letter + 10) else none

def twoDigitHex (character1 character2 : Nat) : Option Nat :=
  if character1 > 'f'.toNat then none
  else match hexValue character1 with
    | none => none
    | some high =>
      if character2 > 'f'.toNat then none
      else match hexValue character2 with
        | none => none
        | some low => some (high <<< 4 + low)

/-- What is added for an escape of an ASCII character with the digits `first` and `second`. -/
def addToBuffer (isUri : Bool) (decoded first second : Nat) : List Nat :=
  if isUri && isReservedPredicate decoded then [percent, first, second] else [decoded]

/-- The loop over the escapes that the lead byte announces: all octets and what is left of the
string. -/
def continuationOctets (lead : Nat) (octets : List Nat) : (uri : List Nat) → Option (List Nat × List Nat)
  | p :: first :: second :: uri =>
    if lead <<< octets.length &&& 0x80 = 0 then some (octets, p :: first :: second :: uri)
    else if octets.length > 3 then none
    else if p ≠ percent then none
    else match twoDigitHex first second with
      | none => none
      | some octet => continuationOctets lead (octets ++ [octet]) uri
  | uri => if lead <<< octets.length &&& 0x80 = 0 then some (octets, uri) else none

variable {lead c first second octet : Nat} {octets uri result rest : List Nat} {isUri : Bool}

theorem length_le_of_continuationOctets {result : List Nat × List Nat}
    (h : continuationOctets lead octets uri = some result) : result.2.length ≤ uri.length := by
  fun_induction continuationOctets lead octets uri with
  | case1 => cases h; exact le_refl _
  | case2 | case3 | case4 => cases h
  | case5 _ _ _ _ _ _ _ _ _ _ ih =>
    have := ih h
    simp only [length_cons]
    omega
  | case6 => cases h; exact le_refl _
  | case7 => cases h

/-- The characters that are added to the two-byte buffer. -/
def intoTwoByte (isUri : Bool) (uri : List Nat) : Option (List Nat) :=
  match uri with
  | [] => some []
  | code :: uri =>
    if code = percent then
      match uri with
      | first :: second :: uri =>
        match twoDigitHex first second with
        | none => none
        | some decoded =>
          if decoded > kMaxOneByteChar then
            match _h : continuationOctets decoded [decoded] uri with
            | none => none
            | some (octets, rest) =>
              match decodeOctets octets with
              | none => none
              | some chars => (intoTwoByte isUri rest).map (chars ++ ·)
          else (intoTwoByte isUri uri).map (addToBuffer isUri decoded first second ++ ·)
      | _ => none
    else (intoTwoByte isUri uri).map (code :: ·)
termination_by uri.length
decreasing_by
  · have hle : rest.length ≤ uri.length := length_le_of_continuationOctets _h
    simp only [length_cons]
    omega
  · simp only [length_cons]
    omega
  · simp only [length_cons]
    omega

/-- The characters of the one-byte buffer, and those of the two-byte buffer. -/
def intoOneAndTwoByte (isUri : Bool) : (uri : List Nat) → Option (List Nat × List Nat)
  | [] => some ([], [])
  | code :: uri =>
    if code = percent then
      match uri with
      | first :: second :: rest =>
        match twoDigitHex first second with
        | none => none
        | some decoded =>
          if decoded > kMaxOneByteChar then (intoTwoByte isUri (code :: first :: second :: rest)).map ([], ·)
          else (intoOneAndTwoByte isUri rest).map fun (one, two) => (addToBuffer isUri decoded first second ++ one, two)
      | _ => none
    else if code > kMaxOneByteChar then (intoTwoByte isUri (code :: uri)).map ([], ·)
    else (intoOneAndTwoByte isUri uri).map fun (one, two) => (code :: one, two)

/-- A URI error is `none`. -/
def decode (isUri : Bool) (uri : List Nat) : Option (List Nat) :=
  (intoOneAndTwoByte isUri uri).map fun (one, two) => if two.isEmpty then one else one ++ two

/-! ### Encoding -/

/-- `size_` is the length of the data. -/
structure ResizableBuffer where
  data : List Nat
  capacity : Nat
  maxCapacity : Nat
  size_le : data.length ≤ capacity
  capacity_le : capacity ≤ maxCapacity

def ResizableBuffer.tryExpand (buffer : ResizableBuffer) (required : Nat) :
    Option {capacity // buffer.data.length + required ≤ capacity ∧ capacity ≤ buffer.maxCapacity} :=
  let newCapacity := min (buffer.capacity * 2 + required) buffer.maxCapacity
  if h : newCapacity < buffer.data.length + required then none
  else some ⟨newCapacity, Nat.not_lt.mp h, min_le_right _ _⟩

def ResizableBuffer.tryPushBack (buffer : ResizableBuffer) (args : List Nat) : Option ResizableBuffer :=
  if h : buffer.data.length + args.length > buffer.capacity then
    match buffer.tryExpand args.length with
    | none => none
    | some capacity => some ⟨buffer.data ++ args, capacity, buffer.maxCapacity, by simpa using capacity.2.1, capacity.2.2⟩
  else some ⟨buffer.data ++ args, buffer.capacity, buffer.maxCapacity, by simpa using h, buffer.capacity_le⟩

@[irreducible] def isAlphaNumeric (c : Nat) : Bool :=
  ('a'.toNat ≤ c ||| 0x20 && c ||| 0x20 ≤ 'z'.toNat) || ('0'.toNat ≤ c && c ≤ '9'.toNat)

def isUnescapePredicateInUriComponent (c : Nat) : Bool :=
  isAlphaNumeric c || c = '!'.toNat || c = '\''.toNat || c = '('.toNat || c = ')'.toNat || c = '*'.toNat ||
    c = '-'.toNat || c = '.'.toNat || c = '_'.toNat || c = '~'.toNat

def isUriSeparator (c : Nat) : Bool :=
  c = '#'.toNat || c = ':'.toNat || c = ';'.toNat || c = '/'.toNat || c = '?'.toNat || c = '$'.toNat ||
    c = '&'.toNat || c = '+'.toNat || c = ','.toNat || c = '@'.toNat || c = '='.toNat

def hexCharOfValue (value : Nat) : Nat := if value < 10 then value + '0'.toNat else value - 10 + 'A'.toNat

def addEncodedOctetToBuffer (octet : Nat) (buffer : ResizableBuffer) : Option ResizableBuffer :=
  buffer.tryPushBack [percent, hexCharOfValue (octet >>> 4), hexCharOfValue (octet &&& 0x0F)]

/-- The anonymous `Encode` of one character. -/
def encodeCharacter (c : Nat) (buffer : ResizableBuffer) : Option ResizableBuffer :=
  (encodeUtf8 c).foldlM (fun buffer octet => addEncodedOctetToBuffer octet buffer) buffer

/-- `EncodeStatus` other than `kSuccess`. -/
inductive EncodeFailure where
  | uriError | allocationFailure
  deriving DecidableEq, Repr

/-- The part of both helpers for a character that is no surrogate. -/
def addCharacter (isUri : Bool) (c : Nat) (buffer : ResizableBuffer) : Option ResizableBuffer :=
  if isUnescapePredicateInUriComponent c || (isUri && isUriSeparator c) then buffer.tryPushBack [c]
  else encodeCharacter c buffer

def encodeHelperOneByte (isUri : Bool) : List Nat → ResizableBuffer → Except EncodeFailure ResizableBuffer
  | [], buffer => .ok buffer
  | c :: content, buffer =>
    match addCharacter isUri c buffer with
    | none => .error .allocationFailure
    | some buffer => encodeHelperOneByte isUri content buffer

def combineSurrogatePair (lead trail : Nat) : Nat := 0x10000 + (lead &&& 0x3FF) <<< 10 + (trail &&& 0x3FF)

def encodeHelperTwoByte (isUri : Bool) : List Nat → ResizableBuffer → Except EncodeFailure ResizableBuffer
  | [], buffer => .ok buffer
  | cc1 :: content, buffer =>
    if isLeadSurrogate cc1 then
      match content with
      | [] => .error .uriError
      | cc2 :: content =>
        if isTrailSurrogate cc2 = false then .error .uriError
        else match encodeCharacter (combineSurrogatePair cc1 cc2) buffer with
          | none => .error .allocationFailure
          | some buffer => encodeHelperTwoByte isUri content buffer
    else if isTrailSurrogate cc1 then .error .uriError
    else match addCharacter isUri cc1 buffer with
      | none => .error .allocationFailure
      | some buffer => encodeHelperTwoByte isUri content buffer

structure FlatString (kMaxLength : Nat) where
  isOneByte : Bool
  units : List Nat
  units_lt : ∀ u ∈ units, u < if isOneByte then 2 ^ 8 else 2 ^ 16
  length_le : units.length ≤ kMaxLength

section
variable {kMaxLength : Nat}

def encodeHelper (isUri : Bool) (uri : FlatString kMaxLength) (buffer : ResizableBuffer) :
    Except EncodeFailure ResizableBuffer :=
  if uri.isOneByte then encodeHelperOneByte isUri uri.units buffer else encodeHelperTwoByte isUri uri.units buffer

def encode (isUri : Bool) (uri : FlatString kMaxLength) : Except EncodeFailure (List Nat) :=
  (encodeHelper isUri uri ⟨[], uri.units.length, kMaxLength, Nat.zero_le _, uri.length_le⟩).map ResizableBuffer.data

end

/-! ### What the ECMAScript standard says -/

def charCodes (s : String) : List Nat := s.toList.map Char.toNat

/-- The characters whose escapes `decodeURI` keeps and which `encodeURI` does not escape. -/
def uriReserved : List Nat := charCodes ";/?:@&=+$,#"

def AlwaysUnescaped (c : Nat) : Prop :=
  ('0'.toNat ≤ c ∧ c ≤ '9'.toNat) ∨ ('A'.toNat ≤ c ∧ c ≤ 'Z'.toNat) ∨ ('a'.toNat ≤ c ∧ c ≤ 'z'.toNat) ∨
    c ∈ charCodes "_-.!~*'()"

instance (c : Nat) : Decidable (AlwaysUnescaped c) := inferInstanceAs (Decidable (_ ∨ _))

def hexDigit (c : Nat) : Option Nat :=
  if '0'.toNat ≤ c ∧ c ≤ '9'.toNat then some (c - '0'.toNat)
  else if 'A'.toNat ≤ c ∧ c ≤ 'F'.toNat then some (c - 'A'.toNat + 10)
  else if 'a'.toNat ≤ c ∧ c ≤ 'f'.toNat then some (c - 'a'.toNat + 10)
  else none

def HexOctet (first second octet : Nat) : Prop :=
  ∃ high low, hexDigit first = some high ∧ hexDigit second = some low ∧ octet = high * 16 + low

inductive Escapes : List Nat → List Nat → Prop
  | nil : Escapes [] []
  | cons {octet first second : Nat} {octets units : List Nat} (hoctet : HexOctet first second octet)
      (h : Escapes octets units) : Escapes (octet :: octets) (percent :: first :: second :: units)

/-- `Decode`: a character that is not a percent sign stands for itself, an escape of an ASCII
character for that, unless it is kept, and a run of escapes of the UTF-8 sequence of any other
scalar value for this one. -/
inductive Decoded (isUri : Bool) : List Nat → List Nat → Prop
  | nil : Decoded isUri [] []
  | unit {c : Nat} {uri result : List Nat} (hc : c ≠ percent) (h : Decoded isUri uri result) :
      Decoded isUri (c :: uri) (c :: result)
  | ascii {first second octet : Nat} {uri result : List Nat} (hoctet : HexOctet first second octet) (hascii : octet ≤ 0x7F)
      (h : Decoded isUri uri result) :
      Decoded isUri (percent :: first :: second :: uri)
        ((if isUri = true ∧ octet ∈ uriReserved then [percent, first, second] else [octet]) ++ result)
  | sequence {c : Nat} {escapes uri result : List Nat} (hc : Utf8.Encodable false c) (hlarge : 0x80 ≤ c)
      (hescapes : Escapes (Utf8.encode c) escapes) (h : Decoded isUri uri result) :
      Decoded isUri (escapes ++ uri) (Utf8.utf16 c ++ result)

def escapeOctet (octet : Nat) : List Nat := [percent, hexCharOfValue (octet / 16), hexCharOfValue (octet % 16)]

/-- `Encode`, for one scalar value. -/
def encoded (isUri : Bool) (c : Nat) : List Nat :=
  if AlwaysUnescaped c ∨ (isUri = true ∧ c ∈ uriReserved) then [c] else (Utf8.encode c).flatMap escapeOctet

/-! ### Characters -/

theorem isReservedPredicate_iff (c : Nat) : isReservedPredicate c ↔ c ∈ uriReserved := by
  simp only [isReservedPredicate, uriReserved, charCodes]
  simp
  tauto

theorem isUriSeparator_iff (c : Nat) : isUriSeparator c ↔ c ∈ uriReserved := by
  simp only [isUriSeparator, uriReserved, charCodes]
  simp
  tauto

theorem isAlphaNumeric_lt (h : isAlphaNumeric c) : c < 0x80 := by
  have hle : c ≤ c ||| 0x20 := Nat.left_le_or
  simp only [isAlphaNumeric, Bool.or_eq_true, Bool.and_eq_true, decide_eq_true_eq, Char.reduceToNat] at h
  generalize c ||| 0x20 = lower at hle h
  omega

theorem isUnescape_lt (h : isUnescapePredicateInUriComponent c) : c < 0x80 := by
  simp only [isUnescapePredicateInUriComponent, Bool.or_eq_true, decide_eq_true_eq] at h
  have hal := isAlphaNumeric_lt (c := c)
  simp only [Char.reduceToNat] at h
  by_cases hc : isAlphaNumeric c = true
  · exact hal hc
  · simp only [hc, Bool.false_eq_true, false_or] at h
    omega

theorem alwaysUnescaped_lt (h : AlwaysUnescaped c) : c < 0x80 := by
  simp [AlwaysUnescaped, charCodes] at h
  omega

theorem isUnescape_iff (c : Nat) : isUnescapePredicateInUriComponent c ↔ AlwaysUnescaped c := by
  have hascii : ∀ c < 0x80, isUnescapePredicateInUriComponent c = true ↔ AlwaysUnescaped c := by decide +kernel
  by_cases hc : c < 0x80
  · exact hascii c hc
  · exact iff_of_false (fun h => hc (isUnescape_lt h)) fun h => hc (alwaysUnescaped_lt h)

theorem hexValue_eq (hc : c ≤ 'f'.toNat) : hexValue c = hexDigit c := by
  have hall : ∀ c < 103, hexValue c = hexDigit c := by decide +kernel
  exact hall c (Nat.lt_succ_of_le hc)

theorem hexDigit_none (hc : 'f'.toNat < c) : hexDigit c = none := by
  simp only [Char.reduceToNat] at hc
  rw [hexDigit]
  simp only [Char.reduceToNat]
  rw [if_neg (by omega), if_neg (by omega), if_neg (by omega)]

theorem twoDigitHex_iff : twoDigitHex first second = some octet ↔ HexOctet first second octet := by
  rw [twoDigitHex, HexOctet]
  split
  · next h => simp only [hexDigit_none h, reduceCtorEq, false_and, exists_false]
  next hfi =>
  rw [hexValue_eq (Nat.not_lt.mp hfi)]
  cases hexDigit first with
  | none => simp
  | some high =>
    dsimp only
    split
    · next h => simp only [hexDigit_none h, reduceCtorEq, false_and, and_false, exists_false]
    next hse =>
    rw [hexValue_eq (Nat.not_lt.mp hse)]
    cases hexDigit second with
    | none => simp
    | some low => simp [Nat.shiftLeft_eq, eq_comm]

theorem HexOctet.lt (h : HexOctet first second octet) : octet < 256 := by
  have hdi : ∀ c v, hexDigit c = some v → v < 16 := by
    intro c v hv
    rw [hexDigit] at hv
    simp only [Char.reduceToNat] at hv
    split_ifs at hv <;> cases hv <;> omega
  obtain ⟨high, low, hh, hlow, rfl⟩ := h
  have := hdi _ _ hh
  have := hdi _ _ hlow
  omega

theorem hexOctet_hexCharOfValue {octet : Nat} (h : octet < 256) :
    HexOctet (hexCharOfValue (octet / 16)) (hexCharOfValue (octet % 16)) octet := by
  have hdi : ∀ v < 16, hexDigit (hexCharOfValue v) = some v := by decide
  exact ⟨octet / 16, octet % 16, hdi _ (by omega), hdi _ (by omega), by omega⟩

/-! ### Runs of escapes -/

/-- How many octets the first one announces; it is 5 if that is too many. -/
def announced (lead : Nat) : Nat :=
  if lead < 0xC0 then 1 else if lead < 0xE0 then 2 else if lead < 0xF0 then 3 else if lead < 0xF8 then 4 else 5

theorem shiftLeft_and_eq {n : Nat} (hlow : 0x80 ≤ lead) (hh : lead < 256) (hpos : 1 ≤ n) (hn : n ≤ announced lead)
    (hfo : n ≤ 4) : lead <<< n &&& 0x80 = 0 ↔ n = announced lead := by
  have hall : ∀ lead < 256, 0x80 ≤ lead → ∀ n < 5, 1 ≤ n ∧ n ≤ announced lead →
      (lead <<< n &&& 0x80 = 0 ↔ n = announced lead) := by decide +kernel
  exact hall lead hh hlow n (Nat.lt_succ_of_le hfo) ⟨hpos, hn⟩

/-- The escapes of the octets that are still missing come next. -/
def Continues (lead : Nat) (octets uri result rest : List Nat) : Prop :=
  ∃ more escapes, Escapes more escapes ∧ result = octets ++ more ∧ uri = escapes ++ rest ∧
    result.length = announced lead ∧ announced lead ≤ 4

/-- No escape is taken after the last octet. -/
theorem continues_of_length (hl : octets.length = announced lead) (hfo : octets.length ≤ 4) :
    some (octets, uri) = some (result, rest) ↔ Continues lead octets uri result rest := by
  constructor
  · rintro ⟨⟩
    exact ⟨[], [], .nil, (append_nil _).symm, rfl, hl, hl ▸ hfo⟩
  · rintro ⟨more, escapes, hescapes, rfl, rfl, hre, -⟩
    rw [length_append] at hre
    obtain rfl : more = [] := length_eq_zero_iff.mp (by omega)
    cases hescapes
    simp

/-- Before that, an escape has to come. -/
theorem continues_of_ne (hne : octets.length ≠ announced lead) :
    Continues lead octets uri result rest ↔ ∃ octet first second tail, HexOctet first second octet ∧
      uri = percent :: first :: second :: tail ∧ Continues lead (octets ++ [octet]) tail result rest := by
  constructor
  · rintro ⟨more, escapes, hescapes, rfl, rfl, hre⟩
    cases hescapes with
    | nil => exact absurd (by simpa using hre.1) hne
    | cons hoctet hescapes => exact ⟨_, _, _, _, hoctet, rfl, _, _, hescapes, by simp, rfl, hre⟩
  · rintro ⟨octet, first, second, tail, hoctet, rfl, more, escapes, hescapes, rfl, rfl, hre⟩
    exact ⟨_, _, .cons hoctet hescapes, by simp, rfl, hre⟩

theorem continuationOctets_iff {lead : Nat} (hlow : 0x80 ≤ lead) (hh : lead < 256) {octets uri result rest : List Nat}
    (hpos : 1 ≤ octets.length) (hle : octets.length ≤ announced lead) (hfo : octets.length ≤ 4) :
    continuationOctets lead octets uri = some (result, rest) ↔ Continues lead octets uri result rest := by
  fun_induction continuationOctets lead octets uri with
  | case1 octets p first second uri h =>
    exact continues_of_length ((shiftLeft_and_eq hlow hh hpos hle hfo).mp h) hfo
  | case2 octets p first second uri h hma =>
    have hne := (shiftLeft_and_eq hlow hh hpos hle hfo).not.mp h
    refine iff_of_false nofun ?_
    rintro ⟨more, escapes, -, -, -, -, han⟩
    omega
  | case3 octets p first second uri h hma hp =>
    have hne := (shiftLeft_and_eq hlow hh hpos hle hfo).not.mp h
    rw [continues_of_ne hne]
    refine iff_of_false nofun ?_
    rintro ⟨_, _, _, _, -, huri, -⟩
    cases huri
    exact hp rfl
  | case4 octets p first second uri h hma hp hhex =>
    have hne := (shiftLeft_and_eq hlow hh hpos hle hfo).not.mp h
    rw [continues_of_ne hne]
    refine iff_of_false nofun ?_
    rintro ⟨_, _, _, _, hoctet, huri, -⟩
    cases huri
    rw [twoDigitHex_iff.mpr hoctet] at hhex
    cases hhex
  | case5 octets p first second uri h hma hp octet hhex ih =>
    have hne := (shiftLeft_and_eq hlow hh hpos hle hfo).not.mp h
    have hl : (octets ++ [octet]).length = octets.length + 1 := length_append
    have hnext := ih (by omega) (by omega) (by omega)
    rw [not_not] at hp
    rw [hnext, continues_of_ne hne, hp]
    constructor
    · intro hco
      exact ⟨octet, first, second, uri, twoDigitHex_iff.mp hhex, rfl, hco⟩
    · rintro ⟨_, _, _, _, hoctet, huri, hco⟩
      cases huri
      rw [twoDigitHex_iff.mpr hoctet] at hhex
      cases hhex
      exact hco
  | case6 octets uri hsh h => exact continues_of_length ((shiftLeft_and_eq hlow hh hpos hle hfo).mp h) hfo
  | case7 octets uri hsh h =>
    rw [continues_of_ne ((shiftLeft_and_eq hlow hh hpos hle hfo).not.mp h)]
    refine iff_of_false nofun ?_
    rintro ⟨_, _, _, _, -, huri, -⟩
    exact hsh _ _ _ _ huri

/-! ### The UTF-8 decoder -/

/-- What a byte does to the incremental decoder. -/
theorem valueOfIncremental_cases {st : Utf8.State} (hst : Utf8.Possible false st) {b : Nat} (hby : b < 256)
    (hb : st = none → 0x80 ≤ b) :
    let t := valueOfIncremental b (utf8DfaDecoder.at false st).1 (utf8DfaDecoder.at false st).2
    (∃ out, (∀ rest, ∃ outs, Utf8.decode false st (b :: rest) = out :: outs) ∧ t = ⟨out.getD kBadChar, utf8DfaDecoder.kAccept, 0⟩ ∧
        t.value ≠ kIncomplete) ∨
      ∃ st', st' ≠ none ∧ Utf8.Possible false st' ∧ (∀ rest, Utf8.decode false st (b :: rest) = Utf8.decode false st' rest) ∧
        t = ⟨kIncomplete, (utf8DfaDecoder.at false st').1, (utf8DfaDecoder.at false st').2⟩ := by
  have hlt := utf8_tables.accept_lt
  have hnext := utf8_tables.decode hby hst hb
  dsimp only
  rw [valueOfIncremental, if_neg ?hslow]
  case hslow =>
    rintro ⟨hle, hsta⟩
    exact absurd hle (Nat.not_le.mpr (hb (utf8_tables.at_accept.mp hsta)))
  generalize utf8DfaDecoder.decode b _ _ = next at hnext ⊢
  cases hnext with
  | accept hde =>
    have hle := Utf8.le_of_mem_decode hst (hde [] ▸ mem_cons_self)
    rw [if_pos rfl]
    refine .inl ⟨some _, fun rest => ⟨_, hde rest⟩, rfl, ?_⟩
    rw [kIncomplete]
    exact Nat.ne_of_lt (Nat.lt_of_le_of_lt hle (by decide))
  | more hpossible hde =>
    rw [if_neg (hlt _).ne', if_neg (Nat.lt_of_le_of_lt (Nat.zero_le _) (hlt _)).ne']
    exact .inr ⟨some _, nofun, hpossible, hde, rfl⟩
  | bad hde | again hde =>
    exact .inl ⟨none, fun rest => ⟨_, hde rest⟩, rfl, show kBadChar ≠ kIncomplete by decide⟩

/-- The decoder answers with the first code point, or with an error. -/
theorem calculateValue_eq {st : Utf8.State} (hst : Utf8.Possible false st) {b : Nat} {bytes : List Nat}
    (hby : ∀ b' ∈ b :: bytes, b' < 256) (hb : st = none → 0x80 ≤ b) :
    ∃ out outs, Utf8.decode false st (b :: bytes) = out :: outs ∧
      calculateValue (b :: bytes) (utf8DfaDecoder.at false st).1 (utf8DfaDecoder.at false st).2 = out.getD kBadChar := by
  induction bytes generalizing st b with
  | nil =>
    rw [calculateValue, if_neg (by simp)]
    rcases valueOfIncremental_cases hst (hby b (by simp)) hb with ⟨out, hde, ht, -⟩ | ⟨st', hne, -, hde, ht⟩
    · obtain ⟨outs, ho⟩ := hde []
      rw [ht]
      exact ⟨out, outs, ho, rfl⟩
    · rw [ht, if_neg (utf8_tables.at_accept.not.mpr hne), hde]
      cases st' with
      | none => exact absurd rfl hne
      | some st' => exact ⟨none, [], rfl, rfl⟩
  | cons b' bytes ih =>
    rw [calculateValue]
    rcases valueOfIncremental_cases hst (hby b (by simp)) hb with ⟨out, hde, ht, hco⟩ | ⟨st', hne, hst', hde, ht⟩
    · obtain ⟨outs, ho⟩ := hde (b' :: bytes)
      rw [if_neg fun h => hco h.2, ht]
      exact ⟨out, outs, ho, rfl⟩
    · rw [ht, if_pos ⟨cons_ne_nil _ _, rfl⟩, hde]
      exact ih hst' (fun x hx => hby x (mem_cons_of_mem _ hx)) fun h => absurd h hne

/-- The length of a sequence is the one that its first octet announces. -/
theorem exists_encode_eq (hmax : c ≤ 0x10FFFF) (hlarge : 0x80 ≤ c) :
    ∃ lead more, Utf8.encode c = lead :: more ∧ 0x80 ≤ lead ∧ (Utf8.encode c).length = announced lead ∧ announced lead ≤ 4 := by
  rw [Utf8.encode, if_neg (by omega)]
  split
  · refine ⟨_, _, rfl, by omega, ?_⟩
    rw [announced, if_neg (by omega), if_pos (by omega)]
    exact ⟨rfl, by decide⟩
  split
  · refine ⟨_, _, rfl, by omega, ?_⟩
    rw [announced, if_neg (by omega), if_neg (by omega), if_pos (by omega)]
    exact ⟨rfl, by decide⟩
  · refine ⟨_, _, rfl, by omega, ?_⟩
    rw [announced, if_neg (by omega), if_neg (by omega), if_neg (by omega), if_pos (by omega)]
    exact ⟨rfl, by decide⟩

theorem encode_ascii (hc : c < 0x80) : Utf8.encode c = [c] := if_pos hc

/-- The first octet of a sequence announces it. -/
theorem encode_of_decode_cons {more : List Nat} {outs : List (Option Nat)} (hlea : 0x80 ≤ lead)
    (hl : (lead :: more).length = announced lead) (h : Utf8.decode false none (lead :: more) = some c :: outs) :
    Utf8.Encodable false c ∧ 0x80 ≤ c ∧ lead :: more = Utf8.encode c := by
  rcases Utf8.next_cons lead more with ⟨c', rest, hc', hby⟩ | ⟨part, rest, -, -, hno⟩
  · rw [hby, Utf8.decode_encode hc'] at h
    obtain rfl : c' = c := by
      cases h
      rfl
    have hlarge : 0x80 ≤ c' := by
      by_contra hsm
      rw [encode_ascii (by omega)] at hby
      cases hby
      exact hsm hlea
    obtain ⟨lead', more', hen, -, han, -⟩ := exists_encode_eq hc'.1 hlarge
    obtain rfl : lead' = lead := by
      rw [hen] at hby
      cases hby
      rfl
    rw [hby, length_append] at hl
    obtain rfl : rest = [] := length_eq_zero_iff.mp (by omega)
    exact ⟨hc', hlarge, by rw [hby, append_nil]⟩
  · rw [hno] at h
    cases h

/-- As many octets as the first one announces are a character or nothing. -/
theorem decodeOctets_iff {more chars : List Nat} (hby : ∀ b ∈ lead :: more, b < 256) (hlea : 0x80 ≤ lead)
    (hl : (lead :: more).length = announced lead) :
    decodeOctets (lead :: more) = some chars ↔
      ∃ c, Utf8.Encodable false c ∧ 0x80 ≤ c ∧ lead :: more = Utf8.encode c ∧ chars = Utf8.utf16 c := by
  obtain ⟨out, outs, hde, hval⟩ := (@calculateValue_eq none) trivial hby fun _ => hlea
  have hva : valueOf (lead :: more) = out.getD kBadChar := by
    rw [valueOf, kMaxOneByteChar, if_neg (by omega)]
    exact hval
  rw [decodeOctets, hva]
  cases out with
  | none =>
    -- what is decoded as an error is no replacement character
    have hre : isReplacementCharacter (lead :: more) = false := by
      refine decide_eq_false fun h => ?_
      rw [h] at hde
      revert hde
      rw [show Utf8.decode false none [0xEF, 0xBF, 0xBD] = [some 0xFFFD] from rfl]
      exact nofun
    rw [if_pos ⟨rfl, hre⟩]
    refine iff_of_false nofun ?_
    rintro ⟨c, hc, -, hen, -⟩
    have hno := Utf8.not_mem_decode_encode hc
    rw [← hen, hde] at hno
    exact hno mem_cons_self
  | some c =>
    obtain ⟨hc, hlarge, hen⟩ := encode_of_decode_cons hlea hl hde
    have hch : (if c ≤ kMaxNonSurrogateCharCode then some [c] else some [leadSurrogate c, trailSurrogate c]) =
        some (Utf8.utf16 c) := by
      rw [kMaxNonSurrogateCharCode]
      split
      · next h => rw [Utf8.utf16, if_pos h]
      · next h => rw [utf16_of_gt (by omega) hc.1]
    rw [getD_some, if_neg ?hgood, hch]
    case hgood =>
      rintro ⟨rfl, hnot⟩
      rw [hen] at hnot
      cases hnot
    constructor
    · rintro ⟨⟩
      exact ⟨c, hc, hlarge, hen, rfl⟩
    · rintro ⟨c', hc', -, he', rfl⟩
      have hsa := hde
      rw [he', ← append_nil (Utf8.encode c'), Utf8.decode_encode hc'] at hsa
      cases hsa
      rfl

/-! ### Decoding -/

theorem Escapes.lt {escapes : List Nat} (h : Escapes octets escapes) : ∀ b ∈ octets, b < 256 := by
  induction h with
  | nil => nofun
  | cons hoctet _ ih => exact forall_mem_cons.mpr ⟨hoctet.lt, ih⟩

/-- A run of escapes that begins with an octet above 0x7F. -/
theorem readSequence_iff {chars : List Nat} (hlow : 0x80 ≤ lead) (hh : lead < 256) :
    (∃ octets, continuationOctets lead [lead] uri = some (octets, rest) ∧ decodeOctets octets = some chars) ↔
      ∃ c more escapes, Utf8.Encodable false c ∧ 0x80 ≤ c ∧ Utf8.encode c = lead :: more ∧ Escapes more escapes ∧
        uri = escapes ++ rest ∧ chars = Utf8.utf16 c := by
  have hone : 1 ≤ announced lead := by
    rw [announced]
    split_ifs <;> decide
  constructor
  · rintro ⟨octets, ho, hde⟩
    obtain ⟨more, escapes, hescapes, rfl, huri, hl, -⟩ :=
      ((@continuationOctets_iff _ hlow hh [lead]) (le_refl _) hone (Nat.le_add_left 1 3)).mp ho
    obtain ⟨c, hc, hlarge, hen, hch⟩ :=
      (decodeOctets_iff (forall_mem_cons.mpr ⟨hh, hescapes.lt⟩) hlow hl).mp hde
    exact ⟨c, more, escapes, hc, hlarge, hen.symm, hescapes, huri, hch⟩
  · rintro ⟨c, more, escapes, hc, hlarge, hen, hescapes, huri, hch⟩
    obtain ⟨lead', more', he', -, hl, hfo⟩ := exists_encode_eq hc.1 hlarge
    rw [hen] at he' hl
    cases he'
    refine ⟨lead :: more, ?_, ?_⟩
    · exact ((@continuationOctets_iff _ hlow hh [lead]) (le_refl _) hone (Nat.le_add_left 1 3)).mpr
        ⟨more, escapes, hescapes, rfl, huri, hl, hfo⟩
    · exact (decodeOctets_iff (forall_mem_cons.mpr ⟨hh, hescapes.lt⟩) hlow hl).mpr
        ⟨c, hc, hlarge, hen.symm, hch⟩

theorem addToBuffer_eq (isUri : Bool) (decoded first second : Nat) : addToBuffer isUri decoded first second =
      if isUri ∧ decoded ∈ uriReserved then [percent, first, second] else [decoded] := by
  rw [addToBuffer]
  simp only [Bool.and_eq_true, isReservedPredicate_iff]

theorem decoded_of_intoTwoByte (h : intoTwoByte isUri uri = some result) : Decoded isUri uri result := by
  fun_induction intoTwoByte isUri uri generalizing result with
  | case1 =>
    cases h
    exact .nil
  | case2 | case3 | case4 | case7 => cases h
  | case5 first second uri decoded hhex hlarge octets rest ho chars hch ih =>
    obtain ⟨result, hre, rfl⟩ := map_eq_some_iff.mp h
    have hoctet := twoDigitHex_iff.mp hhex
    obtain ⟨c, more, escapes, hc, hc80, hen, hescapes, rfl, rfl⟩ :=
      (readSequence_iff hlarge hoctet.lt).mp ⟨octets, ho, hch⟩
    have hall : Escapes (Utf8.encode c) (percent :: first :: second :: escapes) := hen ▸ .cons hoctet hescapes
    exact .sequence hc hc80 hall (ih hre)
  | case6 first second uri decoded hhex hsm ih =>
    obtain ⟨result, hre, rfl⟩ := map_eq_some_iff.mp h
    rw [addToBuffer_eq]
    exact .ascii (twoDigitHex_iff.mp hhex) (Nat.not_lt.mp hsm) (ih hre)
  | case8 code uri hco ih =>
    obtain ⟨result, hre, rfl⟩ := map_eq_some_iff.mp h
    exact .unit hco (ih hre)

theorem intoTwoByte_unit (hc : c ≠ percent) (uri : List Nat) :
    intoTwoByte isUri (c :: uri) = (intoTwoByte isUri uri).map (c :: ·) := by
  rw [intoTwoByte.eq_def]
  simp only [hc, if_false]

theorem intoTwoByte_ascii (hoctet : HexOctet first second octet) (hascii : octet ≤ 0x7F) (uri : List Nat) :
    intoTwoByte isUri (percent :: first :: second :: uri) =
      (intoTwoByte isUri uri).map (addToBuffer isUri octet first second ++ ·) := by
  rw [intoTwoByte, if_pos rfl, twoDigitHex_iff.mpr hoctet]
  exact if_neg (Nat.not_lt.mpr hascii)

theorem intoTwoByte_sequence {escapes : List Nat} (hc : Utf8.Encodable false c) (hlarge : 0x80 ≤ c)
    (hescapes : Escapes (Utf8.encode c) escapes) (uri : List Nat) :
    intoTwoByte isUri (escapes ++ uri) = (intoTwoByte isUri uri).map (Utf8.utf16 c ++ ·) := by
  obtain ⟨lead, more, hen, hl, -, -⟩ := exists_encode_eq hc.1 hlarge
  rw [hen] at hescapes
  cases hescapes with
  | cons hoctet hescapes =>
    obtain ⟨octets, ho, hch⟩ := (readSequence_iff hl hoctet.lt).mpr
      ⟨c, more, _, hc, hlarge, hen, hescapes, rfl, rfl⟩
    rw [cons_append, cons_append, cons_append, intoTwoByte, if_pos rfl, twoDigitHex_iff.mpr hoctet]
    refine (if_pos hl).trans ?_
    split
    · next hno =>
      rw [ho] at hno
      cases hno
    · next hso =>
      rw [ho] at hso
      cases hso
      rw [hch]

theorem intoTwoByte_iff : intoTwoByte isUri uri = some result ↔ Decoded isUri uri result := by
  refine ⟨decoded_of_intoTwoByte, fun h => ?_⟩
  induction h with
  | nil => rw [intoTwoByte]
  | unit hc _ ih => rw [intoTwoByte_unit hc, ih, map_some]
  | ascii hoctet hascii _ ih => rw [intoTwoByte_ascii hoctet hascii, ih, map_some, addToBuffer_eq]
  | sequence hc hlarge hescapes _ ih => rw [intoTwoByte_sequence hc hlarge hescapes, ih, map_some]

/-- It does not matter where the one-byte buffer ends. -/
theorem intoOneAndTwoByte_append (isUri : Bool) (uri : List Nat) :
    (intoOneAndTwoByte isUri uri).map (fun buffers => buffers.1 ++ buffers.2) = intoTwoByte isUri uri := by
  fun_induction intoOneAndTwoByte isUri uri with
  | case1 =>
    rw [intoTwoByte]
    rfl
  | case2 first second rest hhex =>
    rw [intoTwoByte, if_pos rfl, hhex]
    rfl
  | case3 first second rest decoded hhex hlarge => rw [Option.map_map]; exact map_id'
  | case4 first second rest decoded hhex hsm ih =>
    rw [intoTwoByte_ascii (twoDigitHex_iff.mp hhex) (Nat.not_lt.mp hsm), ← ih]
    simp [Function.comp_def]
  | case5 uri hsh =>
    rw [intoTwoByte.eq_def]
    dsimp only
    rw [if_pos rfl]
    split
    · next first second rest => exact absurd rfl (hsh first second rest)
    · rfl
  | case6 code uri hco hlarge => rw [Option.map_map]; exact map_id'
  | case7 code uri hco hsm ih =>
    rw [intoTwoByte_unit hco, ← ih]
    simp [Function.comp_def]

theorem decode_iff : decode isUri uri = some result ↔ Decoded isUri uri result := by
  rw [← intoTwoByte_iff, ← intoOneAndTwoByte_append, decode]
  have hbo : ∀ buffers : List Nat × List Nat,
      (if buffers.2.isEmpty then buffers.1 else buffers.1 ++ buffers.2) = buffers.1 ++ buffers.2 := by
    intro buffers
    split
    · next hem => rw [List.isEmpty_iff.mp hem, append_nil]
    · rfl
  simp only [hbo]

/-! ### Encoding -/

theorem continuationOctet_eq (c : Nat) : continuationOctet c = 0x80 + c % 64 := by
  have hall : ∀ c < 256, 0x80 ||| (c &&& 0xBF) = 0x80 + c % 64 := by decide +kernel
  have hmod := hall (c % 256) (Nat.mod_lt _ (by decide))
  rw [continuationOctet, Nat.or_mod_two_pow, Nat.and_mod_two_pow]
  refine hmod.trans ?_
  omega

/-- A first octet: the bits of the character fit under its mark. -/
theorem or_mark {mark bits w : Nat} (hbi : bits < 2 ^ w) : (mark <<< w) ||| bits = mark * 2 ^ w + bits := by
  rw [← Nat.shiftLeft_add_eq_or_of_lt hbi, Nat.shiftLeft_eq]

theorem encodeUtf8_eq (hc : c ≤ 0x10FFFF) : encodeUtf8 c = Utf8.encode c := by
  rw [encodeUtf8, Utf8.encode, kMaxOneByteChar]
  simp only [continuationOctet_eq, Nat.shiftRight_eq_div_pow]
  by_cases hone : c < 0x80
  · rw [if_pos (by omega), if_pos hone]
  rw [if_neg (by omega), if_neg hone]
  by_cases htwo : c < 0x800
  · rw [if_pos (by omega), if_pos htwo]
    exact congrArg (· :: _) (@or_mark 6 _ 5 (by omega))
  rw [if_neg (by omega), if_neg htwo]
  by_cases hth : c < 0x10000
  · rw [if_pos (by omega), if_pos hth]
    exact congrArg (· :: _) (@or_mark 14 _ 4 (by omega))
  · rw [if_neg (by omega), if_neg hth]
    exact congrArg (· :: _) (@or_mark 30 _ 3 (by omega))

theorem combineSurrogatePair_eq {trail : Nat} (hl : Utf8.IsLead lead) (htr : Utf8.IsTrail trail) :
    combineSurrogatePair lead trail = 0x10000 + (lead - 0xD800) * 1024 + (trail - 0xDC00) := by
  rw [Utf8.IsLead] at hl
  rw [Utf8.IsTrail] at htr
  rw [combineSurrogatePair, Nat.and_two_pow_sub_one_eq_mod _ 10, Nat.and_two_pow_sub_one_eq_mod _ 10, Nat.shiftLeft_eq]
  omega

/-- Something that adds characters to a buffer, or fails if they are too many. -/
structure Pushes (push : ResizableBuffer → Option ResizableBuffer) (out : List Nat) : Prop where
  fits : ∀ buffer : ResizableBuffer, buffer.data.length + out.length ≤ buffer.maxCapacity →
    ∃ buffer', push buffer = some buffer' ∧ buffer'.data = buffer.data ++ out ∧ buffer'.maxCapacity = buffer.maxCapacity
  full : ∀ buffer : ResizableBuffer, buffer.maxCapacity < buffer.data.length + out.length → push buffer = none

theorem tryPushBack_pushes (args : List Nat) : Pushes (fun buffer => buffer.tryPushBack args) args where
  fits buffer hfi := by
    have hsize := buffer.size_le
    rw [ResizableBuffer.tryPushBack]
    by_cases hroom : buffer.data.length + args.length > buffer.capacity
    · rw [dif_pos hroom, ResizableBuffer.tryExpand, dif_neg (by omega)]
      exact ⟨_, rfl, rfl, rfl⟩
    · rw [dif_neg hroom]
      exact ⟨_, rfl, rfl, rfl⟩
  full buffer hfu := by
    have hca := buffer.capacity_le
    rw [ResizableBuffer.tryPushBack, dif_pos (by omega), ResizableBuffer.tryExpand, dif_pos (by omega)]

theorem Pushes.nil : Pushes some [] where
  fits buffer _ := ⟨buffer, rfl, (append_nil _).symm, rfl⟩
  full buffer hfu := absurd (le_trans buffer.size_le buffer.capacity_le) (Nat.not_le.mpr hfu)

theorem Pushes.append {push push' : ResizableBuffer → Option ResizableBuffer} {out out' : List Nat} (h : Pushes push out)
    (h' : Pushes push' out') : Pushes (fun buffer => push buffer >>= push') (out ++ out') where
  fits buffer hfi := by
    rw [length_append] at hfi
    obtain ⟨buffer', hp, hda, hmax⟩ := h.fits buffer (by omega)
    obtain ⟨buffer'', hp', hd', hmax'⟩ := h'.fits buffer' (by
      rw [hda, hmax, length_append]
      omega)
    refine ⟨buffer'', ?_, by rw [hd', hda, append_assoc], hmax'.trans hmax⟩
    simp only [hp, bind_eq_bind, bind_some, hp']
  full buffer hfu := by
    rw [length_append] at hfu
    by_cases hfi : buffer.data.length + out.length ≤ buffer.maxCapacity
    · obtain ⟨buffer', hp, hda, hmax⟩ := h.fits buffer hfi
      simp only [hp, bind_eq_bind, bind_some]
      refine h'.full buffer' ?_
      rw [hda, hmax, length_append]
      omega
    · simp only [h.full buffer (by omega), bind_eq_bind, bind_none]

theorem addEncodedOctetToBuffer_pushes (octet : Nat) : Pushes (addEncodedOctetToBuffer octet) (escapeOctet octet) := by
  have hp := tryPushBack_pushes [percent, hexCharOfValue (octet >>> 4), hexCharOfValue (octet &&& 0x0F)]
  have hh : octet >>> 4 = octet / 16 := Nat.shiftRight_eq_div_pow octet 4
  have hlow : octet &&& 0x0F = octet % 16 := Nat.and_two_pow_sub_one_eq_mod octet 4
  rw [escapeOctet, ← hh, ← hlow]
  exact hp

theorem encodeCharacter_pushes (hc : c ≤ 0x10FFFF) : Pushes (encodeCharacter c) ((Utf8.encode c).flatMap escapeOctet) := by
  have hall : ∀ octets : List Nat, Pushes (octets.foldlM fun buffer octet => addEncodedOctetToBuffer octet buffer)
      (octets.flatMap escapeOctet) := by
    intro octets
    induction octets with
    | nil => exact .nil
    | cons octet octets ih => exact (addEncodedOctetToBuffer_pushes octet).append ih
  rw [← encodeUtf8_eq hc]
  exact hall (encodeUtf8 c)

theorem addCharacter_pushes (hc : c ≤ 0x10FFFF) (isUri : Bool) : Pushes (addCharacter isUri c) (encoded isUri c) := by
  have hco : (isUnescapePredicateInUriComponent c || (isUri && isUriSeparator c)) = true ↔
      AlwaysUnescaped c ∨ (isUri = true ∧ c ∈ uriReserved) := by
    rw [Bool.or_eq_true, Bool.and_eq_true, isUnescape_iff, isUriSeparator_iff]
  by_cases hun : AlwaysUnescaped c ∨ (isUri = true ∧ c ∈ uriReserved)
  · rw [encoded, if_pos hun]
    have hadd : addCharacter isUri c = fun buffer => buffer.tryPushBack [c] := funext fun buffer => if_pos (hco.mpr hun)
    rw [hadd]
    exact tryPushBack_pushes [c]
  · rw [encoded, if_neg hun]
    have hadd : addCharacter isUri c = encodeCharacter c := funext fun buffer => if_neg (hco.not.mpr hun)
    rw [hadd]
    exact encodeCharacter_pushes hc

theorem encoded_of_le {isUri : Bool} {c : Nat} (hc : 0x80 ≤ c) : encoded isUri c = (Utf8.encode c).flatMap escapeOctet := by
  refine if_neg ?_
  rintro (h | ⟨-, h⟩)
  · exact absurd (alwaysUnescaped_lt h) (Nat.not_lt.mpr hc)
  · simp [uriReserved, charCodes] at h
    omega

/-- The helper takes a character as a whole. -/
theorem encodeHelperTwoByte_utf16 (isUri : Bool) (hc : Utf8.Encodable false c) :
    ∃ push, Pushes push (encoded isUri c) ∧ ∀ rest buffer, encodeHelperTwoByte isUri (Utf8.utf16 c ++ rest) buffer =
      match push buffer with
      | none => .error .allocationFailure
      | some buffer => encodeHelperTwoByte isUri rest buffer := by
  rcases Utf8.utf16_cases hc with ⟨hutf, hl, htr⟩ | ⟨lead, trail, hutf, hl, htr, hva⟩
  · refine ⟨addCharacter isUri c, addCharacter_pushes hc.1 isUri, fun rest buffer => ?_⟩
    rw [hutf, singleton_append, encodeHelperTwoByte.eq_def]
    dsimp only
    rw [if_neg ((isLeadSurrogate_iff hc.1).not.mpr hl), if_neg ((isTrailSurrogate_iff hc.1).not.mpr htr)]
  · have hisL := (isLeadSurrogate_iff (by rw [Utf8.IsLead] at hl; omega)).mpr hl
    have his := (isTrailSurrogate_iff (by rw [Utf8.IsTrail] at htr; omega)).mpr htr
    rw [← combineSurrogatePair_eq hl htr] at hva
    refine ⟨encodeCharacter c, @encoded_of_le isUri c ?_ ▸ encodeCharacter_pushes hc.1, fun rest buffer => ?_⟩
    · rw [hva, combineSurrogatePair]
      omega
    · rw [hutf, cons_append, singleton_append, encodeHelperTwoByte, if_pos hisL, if_neg (by simp [his]), hva]

theorem encodeHelperTwoByte_unpaired {after : List Nat} (hc : c < 0x10000) (hu : Utf8.Unpaired [] c after)
    (hafter : ∀ u ∈ after, u < 0x10000) (buffer : ResizableBuffer) :
    encodeHelperTwoByte isUri (c :: after) buffer = .error .uriError := by
  have hl := @isLeadSurrogate_iff c (by omega)
  have htr := @isTrailSurrogate_iff c (by omega)
  rcases hu with ⟨hc, hnot⟩ | ⟨hc, -⟩
  · rcases after with - | ⟨cc2, after⟩
    · rw [encodeHelperTwoByte, if_pos (hl.mpr hc)]
    · have hcc2 := hafter cc2 (by simp)
      have hfa := (@isTrailSurrogate_iff cc2 (by omega)).not.mpr (hnot cc2 rfl)
      rw [encodeHelperTwoByte, if_pos (hl.mpr hc), if_pos (Bool.not_eq_true _ ▸ hfa)]
  · rw [encodeHelperTwoByte.eq_def]
    dsimp only
    rw [if_neg (hl.not.mpr (Utf8.not_isLead_of_isTrail hc)), if_pos (htr.mpr hc)]

/-- The helper on whole characters and what comes after them. -/
theorem encodeHelperTwoByte_flatMap {isUri : Bool} {cs : List Nat} (hcs : ∀ c ∈ cs, Utf8.Encodable false c) (rest : List Nat)
    (buffer : ResizableBuffer) :
    if buffer.data.length + (cs.flatMap (encoded isUri)).length ≤ buffer.maxCapacity then
      ∃ buffer', encodeHelperTwoByte isUri (cs.flatMap Utf8.utf16 ++ rest) buffer = encodeHelperTwoByte isUri rest buffer' ∧
        buffer'.data = buffer.data ++ cs.flatMap (encoded isUri)
    else encodeHelperTwoByte isUri (cs.flatMap Utf8.utf16 ++ rest) buffer = .error .allocationFailure := by
  induction cs generalizing buffer with
  | nil =>
    rw [flatMap_nil, length_nil, add_zero, if_pos (le_trans buffer.size_le buffer.capacity_le)]
    exact ⟨buffer, rfl, (append_nil _).symm⟩
  | cons c cs ih =>
    obtain ⟨push, hp, hh⟩ := encodeHelperTwoByte_utf16 isUri (hcs c (by simp))
    rw [flatMap_cons, flatMap_cons, append_assoc, hh, length_append]
    by_cases hfi : buffer.data.length + (encoded isUri c).length ≤ buffer.maxCapacity
    · obtain ⟨buffer', hb', hda, hmax⟩ := hp.fits buffer hfi
      have hrest := ih (fun x hx => hcs x (by simp [hx])) buffer'
      rw [hda, hmax, length_append, add_assoc] at hrest
      rw [hb']
      simp only [append_assoc] at hrest ⊢
      exact hrest
    · rw [if_neg (by omega), hp.full buffer (by omega)]

theorem encodeHelperOneByte_cons (isUri : Bool) (c : Nat) (content : List Nat) (buffer : ResizableBuffer) :
    encodeHelperOneByte isUri (c :: content) buffer =
      match addCharacter isUri c buffer with
      | none => .error .allocationFailure
      | some buffer => encodeHelperOneByte isUri content buffer := rfl

theorem encodeHelperOneByte_eq {content : List Nat} (hco : ∀ u ∈ content, u < 0x100) (buffer : ResizableBuffer) :
    encodeHelperOneByte isUri content buffer = encodeHelperTwoByte isUri content buffer := by
  induction content generalizing buffer with
  | nil => rw [encodeHelperTwoByte]; rfl
  | cons c content ih =>
    have hc := hco c (by simp)
    have hl : ¬ isLeadSurrogate c = true := (isLeadSurrogate_iff (by omega)).not.mpr (by rw [Utf8.IsLead]; omega)
    have htr : ¬ isTrailSurrogate c = true := (isTrailSurrogate_iff (by omega)).not.mpr (by rw [Utf8.IsTrail]; omega)
    rw [encodeHelperOneByte_cons, encodeHelperTwoByte.eq_def]
    dsimp only
    rw [if_neg hl, if_neg htr]
    cases addCharacter isUri c buffer with
    | none => rfl
    | some buffer => exact ih (fun u hu => hco u (by simp [hu])) buffer

section
variable {kMaxLength : Nat} {isUri : Bool} {uri : FlatString kMaxLength}

theorem FlatString.units_lt_two (uri : FlatString kMaxLength) : ∀ u ∈ uri.units, u < 0x10000 := by
  intro u hu
  have hlt := uri.units_lt u hu
  split at hlt <;> omega

theorem encode_eq_twoByte (isUri : Bool) (uri : FlatString kMaxLength) : encode isUri uri =
    (encodeHelperTwoByte isUri uri.units
      ⟨[], uri.units.length, kMaxLength, Nat.zero_le _, uri.length_le⟩).map ResizableBuffer.data := by
  rw [encode, encodeHelper]
  split
  · next hone =>
    rw [encodeHelperOneByte_eq]
    intro u hu
    have hlt := uri.units_lt u hu
    rw [if_pos hone] at hlt
    omega
  · rfl

/-- What comes of whole characters. -/
theorem encode_flatMap {cs : List Nat} (hcs : ∀ c ∈ cs, Utf8.Encodable false c) (hu : uri.units = cs.flatMap Utf8.utf16) :
    encode isUri uri = if (cs.flatMap (encoded isUri)).length ≤ kMaxLength then .ok (cs.flatMap (encoded isUri))
      else .error .allocationFailure := by
  have hh := (@encodeHelperTwoByte_flatMap isUri) hcs []
    ⟨[], uri.units.length, kMaxLength, Nat.zero_le _, uri.length_le⟩
  rw [append_nil, ← hu, length_nil, Nat.zero_add] at hh
  rw [encode_eq_twoByte]
  split
  · next hfi =>
    rw [if_pos hfi] at hh
    obtain ⟨buffer, hbu, hda⟩ := hh
    rw [hbu, encodeHelperTwoByte]
    exact congrArg Except.ok hda
  · next hfi =>
    rw [if_neg hfi] at hh
    rw [hh]
    rfl

/-- What comes of an unpaired surrogate after whole characters. -/
theorem encode_unpaired {cs after : List Nat} {c : Nat} (hcs : ∀ c ∈ cs, Utf8.Encodable false c)
    (hun : uri.units = cs.flatMap Utf8.utf16 ++ c :: after) (hc : Utf8.Unpaired [] c after) :
    encode isUri uri = .error (if (cs.flatMap (encoded isUri)).length ≤ kMaxLength then .uriError else .allocationFailure) := by
  have hlt := uri.units_lt_two
  have hh := (@encodeHelperTwoByte_flatMap isUri) hcs (c :: after)
    ⟨[], uri.units.length, kMaxLength, Nat.zero_le _, uri.length_le⟩
  rw [← hun, length_nil, Nat.zero_add] at hh
  rw [encode_eq_twoByte]
  split
  · next hfi =>
    rw [if_pos hfi] at hh
    obtain ⟨buffer, hbu, -⟩ := hh
    rw [hun] at hlt
    rw [hbu, encodeHelperTwoByte_unpaired (hlt c (by simp)) hc fun u hu => hlt u (by simp [hu])]
    rfl
  · next hfi =>
    rw [if_neg hfi] at hh
    rw [hh]
    rfl

end

/-! ### Decoding what was encoded -/

theorem encode_lt (hc : c ≤ 0x10FFFF) : ∀ octet ∈ Utf8.encode c, octet < 256 := by
  rw [Utf8.encode]
  split_ifs <;> simp only [forall_mem_cons, not_mem_nil, false_implies, implies_true, and_true] <;> omega

theorem escapes_flatMap (h : ∀ octet ∈ octets, octet < 256) : Escapes octets (octets.flatMap escapeOctet) := by
  induction octets with
  | nil => exact .nil
  | cons octet octets ih =>
    exact .cons (hexOctet_hexCharOfValue (h octet (by simp))) (ih fun x hx => h x (by simp [hx]))

theorem Decoded.encoded {out : List Nat} (hc : Utf8.Encodable false c) (h : Decoded isUri out result) :
    Decoded isUri (encoded isUri c ++ out) (Utf8.utf16 c ++ result) := by
  by_cases hlarge : 0x80 ≤ c
  · rw [encoded_of_le hlarge]
    exact .sequence hc hlarge (escapes_flatMap (encode_lt hc.1)) h
  have hutf : Utf8.utf16 c = [c] := if_pos (by omega)
  rw [hutf, Uri.encoded]
  split
  · next hun =>
    refine .unit ?_ h
    rintro rfl
    revert hun
    cases isUri <;> decide
  · next hun =>
    -- in a URI, a reserved character is not escaped in the first place
    have hke : ¬ (isUri = true ∧ c ∈ uriReserved) := fun hre => hun (.inr hre)
    have hde := Decoded.ascii (@hexOctet_hexCharOfValue c (by omega)) (by omega) h
    rw [if_neg hke] at hde
    rw [encode_ascii (by omega)]
    exact hde

theorem decoded_flatMap {cs : List Nat} (hcs : ∀ c ∈ cs, Utf8.Encodable false c) :
    Decoded isUri (cs.flatMap (encoded isUri)) (cs.flatMap Utf8.utf16) := by
  induction cs with
  | nil => exact .nil
  | cons c cs ih => exact .encoded (hcs c (by simp)) (ih fun x hx => hcs x (by simp [hx]))

/-! ### The results -/

/-- In both modes. An unpaired surrogate is a URI error unless what stands before it is already too
long a result; a string without one comes back, unless its result is too long. -/
theorem uri_encode_decode (kMaxLength : Nat) (isUri : Bool) : (∀ uri : FlatString kMaxLength,
      (encode isUri uri = .error .uriError ↔ ∃ (cs : List Nat) (c : Nat) (after : List Nat), uri.units = cs.flatMap Utf8.utf16 ++ c :: after ∧
        (∀ c ∈ cs, Utf8.Encodable false c) ∧ Utf8.Unpaired (cs.flatMap Utf8.utf16) c after ∧
        (cs.flatMap (encoded isUri)).length ≤ kMaxLength) ∧
      (¬ Utf8.HasUnpaired uri.units → ∃ cs : List Nat, uri.units = cs.flatMap Utf8.utf16 ∧ (∀ c ∈ cs, Utf8.Encodable false c) ∧
        if (cs.flatMap (encoded isUri)).length ≤ kMaxLength then
          encode isUri uri = .ok (cs.flatMap (encoded isUri)) ∧ decode isUri (cs.flatMap (encoded isUri)) = some uri.units
        else encode isUri uri = .error .allocationFailure)) ∧
    ∀ uri result, decode isUri uri = some result ↔ Decoded isUri uri result := by
  refine ⟨fun uri => ?_, fun uri result => decode_iff⟩
  obtain ⟨cs, hcs, hunits | ⟨c, after, hunits, hc⟩⟩ :=
    Utf8.exists_flatMap_utf16 _ uri.units (le_refl _) uri.units_lt_two
  · have hencode := (@encode_flatMap _ isUri) hcs hunits
    refine ⟨iff_of_false ?_ ?_, fun _ => ⟨cs, hunits, hcs, ?_⟩⟩
    · rw [hencode]
      split <;> nofun
    · rintro ⟨cs', c, after, hunits', -, hunpaired, -⟩
      refine Utf8.not_hasUnpaired_flatMap hcs ?_
      rw [← hunits, hunits']
      exact ⟨_, c, after, rfl, hunpaired⟩
    · split
      · next hfits =>
        rw [if_pos hfits] at hencode
        exact ⟨hencode, hunits ▸ decode_iff.mpr (decoded_flatMap hcs)⟩
      · next hfits => rwa [if_neg hfits] at hencode
  · have hencode := (@encode_unpaired _ isUri) hcs hunits hc
    refine ⟨?_, fun hnot => absurd ⟨_, c, after, hunits, (Utf8.unpaired_flatMap hcs).mpr hc⟩ hnot⟩
    constructor
    · intro herror
      refine ⟨cs, c, after, hunits, hcs, (Utf8.unpaired_flatMap hcs).mpr hc, ?_⟩
      by_contra hlong
      rw [hencode, if_neg hlong] at herror
      cases herror
    · rintro ⟨cs', c', after', hunits', hcs', hc', hfits⟩
      rw [encode_unpaired hcs' hunits' ((Utf8.unpaired_flatMap hcs').mp hc'), if_pos hfits]

theorem flatMap_replicate_percent (isUri : Bool) (n : Nat) :
    (replicate n percent).flatMap Utf8.utf16 = replicate n percent ∧
      ((replicate n percent).flatMap (encoded isUri)).length = 3 * n := by
  have hl : (encoded isUri percent).length = 3 := by cases isUri <;> rfl
  induction n with
  | zero => exact ⟨rfl, rfl⟩
  | succ n ih =>
    rw [replicate_succ, flatMap_cons, flatMap_cons, length_append, ih.1, ih.2, hl]
    exact ⟨rfl, by omega⟩

/-- The longest string, on 64 bits. -/
def maxLength64 : Nat := 2 ^ 29 - 24

theorem unpaired_surrogate_after_long_string : ∃ uri : FlatString maxLength64,
    Utf8.HasUnpaired uri.units ∧ encode false uri = .error .allocationFailure := by
  obtain ⟨hutf, hlength⟩ := flatMap_replicate_percent false 178956963
  have hunpaired : Utf8.Unpaired [] 0xD800 [] := .inl ⟨by decide, nofun⟩
  have hcs : ∀ c ∈ replicate 178956963 percent, Utf8.Encodable false c := by
    intro c hc
    rw [eq_of_mem_replicate hc]
    exact ⟨by decide, fun _ => by decide⟩
  let uri : FlatString maxLength64 :=
    { isOneByte := false
      units := replicate 178956963 percent ++ [0xD800]
      units_lt := by
        intro u hu
        rcases mem_append.mp hu with hu | hu
        · rw [eq_of_mem_replicate hu]
          decide
        · rw [mem_singleton.mp hu]
          decide
      length_le := by
        rw [length_append, length_replicate, maxLength64]
        decide }
  have hunits : uri.units = (replicate 178956963 percent).flatMap Utf8.utf16 ++ 0xD800 :: [] := by
    rw [hutf]
  refine ⟨uri, ⟨_, _, _, hunits, (Utf8.unpaired_flatMap hcs).mpr hunpaired⟩, ?_⟩
  rw [encode_unpaired hcs hunits hunpaired, if_neg]
  rw [hlength, maxLength64]
  decide

end V8Multithread.Strings.Uri
