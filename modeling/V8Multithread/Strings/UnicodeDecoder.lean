import V8Multithread.Base.Utf8

/-! `Utf8DecoderBase`: UTF-8 into strings, in two passes.

The first pass says how long the string is and whether it has one-byte characters, the second
writes it. Both skip the ASCII characters at the beginning and then run a table-driven state
machine; a byte that does not continue a sequence is read again. -/
namespace V8Multithread.Strings
open List Option Base

/-! ### The state machines -/

structure DfaDecoder where
  kAccept : Nat
  transitions : List Nat
  states : List Nat

/-- The state and the buffer after a byte. The state `kReject` is 0. -/
def DfaDecoder.decode (d : DfaDecoder) (byte state buffer : Nat) : Nat × Nat :=
  let type := d.transitions.getD byte 0
  (d.states.getD (state + type) 0, (buffer <<< 6 ||| (byte &&& (0x7F >>> (type >>> 1)))) % 2 ^ 32)

def utf8DfaDecoder : DfaDecoder where
  kAccept := 12
  transitions :=
    replicate 0x80 0 ++ replicate 0x10 1 ++ replicate 0x10 2 ++ replicate 0x20 3 ++
      [9, 9] ++ replicate 30 4 ++ [10] ++ replicate 12 5 ++ [6, 5, 5] ++
      [11, 7, 7, 7, 8] ++ replicate 11 9
  states := [ 0, 0, 0, 0, 0, 0, 0, 0, 0, 0, 0, 0, 12, 0, 0, 0, 24, 36, 48, 60, 72, 0, 84, 96,
    0, 12, 12, 12, 0, 0, 0, 0, 0, 0, 0, 0,
    0, 24, 24, 24, 0, 0, 0, 0, 0, 0, 0, 0,
    0, 24, 24, 0, 0, 0, 0, 0, 0, 0, 0, 0,
    0, 36, 36, 36, 0, 0, 0, 0, 0, 0, 0, 0,
    0, 36, 0, 0, 0, 0, 0, 0, 0, 0, 0, 0,
    0, 0, 0, 24, 0, 0, 0, 0, 0, 0, 0, 0,
    0, 0, 36, 36, 0, 0, 0, 0, 0, 0, 0, 0]

def generalizedUtf8DfaDecoder : DfaDecoder where
  kAccept := 11
  transitions :=
    replicate 0x80 0 ++ replicate 0x10 1 ++ replicate 0x10 2 ++ replicate 0x20 3 ++
      [8, 8] ++ replicate 30 4 ++ [9] ++ replicate 15 5 ++ [10, 6, 6, 6, 7] ++ replicate 11 8
  states := [ 0, 0, 0, 0, 0, 0, 0, 0, 0, 0, 0, 11, 0, 0, 0, 22, 33, 44, 55, 0, 66, 77, 0, 11, 11, 11, 0, 0, 0, 0, 0, 0, 0,
    0, 22, 22, 22, 0, 0, 0, 0, 0, 0, 0,
    0, 33, 33, 33, 0, 0, 0, 0, 0, 0, 0,
    0, 33, 0, 0, 0, 0, 0, 0, 0, 0, 0,
    0, 0, 0, 22, 0, 0, 0, 0, 0, 0, 0,
    0, 0, 33, 33, 0, 0, 0, 0, 0, 0, 0]

/-! ### The decoders -/

def kMaxOneByteChar : Nat := 0x7F
def kBadChar : Nat := 0xFFFD
def kMaxNonSurrogateCharCode : Nat := 0xFFFF

def isLeadSurrogate (code : Nat) : Bool := code &&& 0x1FFC00 = 0xD800
def isTrailSurrogate (code : Nat) : Bool := code &&& 0x1FFC00 = 0xDC00
def leadSurrogate (code : Nat) : Nat := 0xD800 + ((code - 0x10000) >>> 10 &&& 0x3FF)
def trailSurrogate (code : Nat) : Nat := 0xDC00 + (code &&& 0x3FF)

structure DecoderTraits where
  isInvalidSurrogatePair : (lead trail : Nat) → Bool
  kAllowIncompleteSequences : Bool
  dfaDecoder : DfaDecoder

def utf8Decoder : DecoderTraits where
  isInvalidSurrogatePair _ _ := false
  kAllowIncompleteSequences := true
  dfaDecoder := utf8DfaDecoder

def wtf8Decoder : DecoderTraits where
  isInvalidSurrogatePair lead trail := isLeadSurrogate lead && isTrailSurrogate trail
  kAllowIncompleteSequences := false
  dfaDecoder := generalizedUtf8DfaDecoder

def strictUtf8Decoder : DecoderTraits where
  isInvalidSurrogatePair _ _ := false
  kAllowIncompleteSequences := false
  dfaDecoder := utf8DfaDecoder

inductive Encoding where
  | ascii | latin1 | utf16 | invalid
  deriving DecidableEq, Repr

/-! ### The ASCII characters at the beginning -/

def isAscii (b : UInt8) : Bool := b.toNat ≤ kMaxOneByteChar

/-- The loop over aligned words of `size` bytes: how many bytes they have, up to one with a byte
that is not ASCII or to the last whole word. -/
def asciiWords (size : Nat) : (words : Nat) → List UInt8 → Nat
  | 0, _ => 0
  | words + 1, bytes =>
    if size ≤ bytes.length ∧ (bytes.take size).all isAscii then size + asciiWords size words (bytes.drop size) else 0

/-- Words are `size` bytes long. The result can be the first aligned word with a byte that is not
ASCII and not that byte. -/
def nonAsciiStart (size address : Nat) (bytes : List UInt8) : Nat :=
  let unaligned := (size - address % size) % size
  if bytes.length ≥ size then
    if (bytes.take unaligned).all isAscii then
      let words := unaligned + asciiWords size bytes.length (bytes.drop unaligned)
      if words + size ≤ bytes.length then words
      else words + ((bytes.drop words).takeWhile isAscii).length
    else ((bytes.take unaligned).takeWhile isAscii).length
  else (bytes.takeWhile isAscii).length

/-! ### The first pass -/

structure Counting where
  state : Nat
  current : Nat := 0
  previous : Nat := 0
  isOneByte : Bool := true
  utf16Length : Nat
  deriving DecidableEq, Repr

section
variable (t : DecoderTraits)

def Counting.finish (s : Counting) : Encoding × Nat :=
  if s.state = t.dfaDecoder.kAccept then (if s.isOneByte then .latin1 else .utf16, s.utf16Length)
  else if t.kAllowIncompleteSequences then (.utf16, s.utf16Length + 1)
  else (.invalid, s.utf16Length)

def count (bytes : List UInt8) (s : Counting) : Encoding × Nat :=
  match bytes with
  | [] => s.finish t
  | b :: rest =>
    if b.toNat ≤ kMaxOneByteChar ∧ s.state = t.dfaDecoder.kAccept then
      count rest {s with previous := b.toNat, utf16Length := s.utf16Length + 1}
    else
      let next := t.dfaDecoder.decode b.toNat s.state s.current
      if next.1 < t.dfaDecoder.kAccept then
        if t.kAllowIncompleteSequences then
          let s' : Counting := ⟨t.dfaDecoder.kAccept, 0, kBadChar, false, s.utf16Length + 1⟩
          -- a byte that did not continue a sequence is tried again
          if s.state ≠ t.dfaDecoder.kAccept then count (b :: rest) s' else count rest s'
        else (.invalid, s.utf16Length)
      else if next.1 = t.dfaDecoder.kAccept then
        if t.isInvalidSurrogatePair s.previous next.2 then (.invalid, s.utf16Length)
        else count rest ⟨next.1, 0, next.2, s.isOneByte && decide (next.2 ≤ 0xFF),
          s.utf16Length + 1 + if next.2 > kMaxNonSurrogateCharCode then 1 else 0⟩
      else count rest {s with state := next.1, current := next.2}
termination_by 2 * bytes.length + if s.state = t.dfaDecoder.kAccept then 0 else 1
decreasing_by all_goals (simp only [length_cons]; split_ifs <;> omega)

/-! ### The second pass -/

/-- `static_cast<Char>`, for characters of two bytes or of one. -/
def toChar (twoByte : Bool) (c : Nat) : Nat := if twoByte then c % 2 ^ 16 else c % 2 ^ 8

def codeUnits (twoByte : Bool) (current : Nat) : List Nat :=
  if twoByte = false ∨ current ≤ kMaxNonSurrogateCharCode then [toChar twoByte current]
  else [toChar twoByte (leadSurrogate current), toChar twoByte (trailSurrogate current)]

/-- The characters that the loop writes, and the one after it. -/
def write (twoByte : Bool) (bytes : List UInt8) (state current : Nat) : List Nat :=
  match bytes with
  | [] => if t.kAllowIncompleteSequences ∧ state ≠ t.dfaDecoder.kAccept then [toChar twoByte kBadChar] else []
  | b :: rest =>
    if b.toNat ≤ kMaxOneByteChar ∧ state = t.dfaDecoder.kAccept then
      toChar twoByte b.toNat :: write twoByte rest state current
    else
      let next := t.dfaDecoder.decode b.toNat state current
      if t.kAllowIncompleteSequences ∧ next.1 < t.dfaDecoder.kAccept then
        toChar twoByte kBadChar ::
          if state ≠ t.dfaDecoder.kAccept then write twoByte (b :: rest) t.dfaDecoder.kAccept 0
          else write twoByte rest t.dfaDecoder.kAccept 0
      else if next.1 = t.dfaDecoder.kAccept then
        codeUnits twoByte next.2 ++ write twoByte rest next.1 0
      else write twoByte rest next.1 next.2
termination_by 2 * bytes.length + if state = t.dfaDecoder.kAccept then 0 else 1
decreasing_by all_goals (simp only [length_cons]; split_ifs <;> omega)

structure Utf8DecoderBase where
  encoding : Encoding
  nonAsciiStart : Nat
  utf16Length : Nat
  deriving DecidableEq, Repr

def Utf8DecoderBase.isOneByte (d : Utf8DecoderBase) : Bool := d.encoding = .ascii || d.encoding = .latin1

/-- The constructor: the first pass. -/
def Utf8DecoderBase.new (size address : Nat) (data : List UInt8) : Utf8DecoderBase :=
  let start := Strings.nonAsciiStart size address data
  if start = data.length then ⟨.ascii, start, start⟩
  else
    let (encoding, length) := count t (data.drop start) {state := t.dfaDecoder.kAccept, utf16Length := start}
    ⟨encoding, start, length⟩

/-- `Decode`: the second pass. -/
def Utf8DecoderBase.decode (d : Utf8DecoderBase) (twoByte : Bool) (data : List UInt8) : List Nat :=
  (data.take d.nonAsciiStart).map UInt8.toNat ++ write t twoByte (data.drop d.nonAsciiStart) t.dfaDecoder.kAccept 0

end

/-! ### The tables -/

/-- The rows of the table after the first two, `kReject` and `kAccept`. -/
def rows (surrogates : Bool) : List Utf8.Tail :=
  [⟨1, 0x80, 0xBF⟩, ⟨2, 0x80, 0xBF⟩] ++ (if surrogates then [] else [⟨2, 0x80, 0x9F⟩]) ++
    [⟨3, 0x80, 0xBF⟩, ⟨3, 0x80, 0x8F⟩, ⟨2, 0xA0, 0xBF⟩, ⟨3, 0x90, 0xBF⟩]

def DfaDecoder.stateOf (d : DfaDecoder) (surrogates : Bool) (tail : Utf8.Tail) : Nat :=
  d.kAccept * (2 + (rows surrogates).idxOf tail)

structure Tables (d : DfaDecoder) (surrogates : Bool) : Prop where
  accept_pos : 0 < d.kAccept
  tail : ∀ b < 256, ∀ tail ∈ Utf8.tails surrogates, d.states.getD (d.stateOf surrogates tail + d.transitions.getD b 0) 0 =
      if tail.lower ≤ b ∧ b ≤ tail.upper then
        if tail.needed = 1 then d.kAccept else d.stateOf surrogates ⟨tail.needed - 1, 0x80, 0xBF⟩
      else 0
  tail_mask : ∀ b < 256, 0x80 ≤ b → b ≤ 0xBF → b &&& (0x7F >>> (d.transitions.getD b 0 >>> 1)) = b % 64
  first : ∀ b < 256, 0x80 ≤ b → d.states.getD (d.kAccept + d.transitions.getD b 0) 0 =
    (Utf8.start surrogates b).2.elim 0 fun st => d.stateOf surrogates st.1
  first_mask : ∀ b < 256, ∀ st ∈ (Utf8.start surrogates b).2, b &&& (0x7F >>> (d.transitions.getD b 0 >>> 1)) = st.2

theorem utf8_tables : Tables utf8DfaDecoder false where
  accept_pos := by decide
  tail := by decide +kernel
  tail_mask := by decide +kernel
  first := by decide +kernel
  first_mask := by decide +kernel

theorem generalizedUtf8_tables : Tables generalizedUtf8DfaDecoder true where
  accept_pos := by decide
  tail := by decide +kernel
  tail_mask := by decide +kernel
  first := by decide +kernel
  first_mask := by decide +kernel

def DfaDecoder.at (d : DfaDecoder) (surrogates : Bool) : Utf8.State → Nat × Nat
  | none => (d.kAccept, 0)
  | some (tail, value) => (d.stateOf surrogates tail, value)

variable {d : DfaDecoder} {surrogates : Bool} {st : Utf8.State} {b : Nat}

theorem Tables.accept_lt (h : Tables d surrogates) (tail : Utf8.Tail) : d.kAccept < d.stateOf surrogates tail := by
  have hpos := h.accept_pos
  rw [DfaDecoder.stateOf]
  nlinarith [Nat.zero_le ((rows surrogates).idxOf tail * d.kAccept)]

theorem Tables.at_accept (h : Tables d surrogates) : (d.at surrogates st).1 = d.kAccept ↔ st = none := by
  cases st with
  | none => exact ⟨fun _ => rfl, fun _ => rfl⟩
  | some st => exact ⟨fun hst => absurd hst (h.accept_lt st.1).ne', nofun⟩

inductive ByteStep (d : DfaDecoder) (surrogates : Bool) (b : Nat) : Utf8.State → Nat × Nat → Prop
  | accept {st : Utf8.State} {c : Nat}
      (h : ∀ rest, Utf8.decode surrogates st (b :: rest) = some c :: Utf8.decode surrogates none rest) :
      ByteStep d surrogates b st (d.kAccept, c)
  | more {st : Utf8.State} {tail : Utf8.Tail} {value : Nat} (hpossible : Utf8.Possible surrogates (some (tail, value)))
      (h : ∀ rest, Utf8.decode surrogates st (b :: rest) = Utf8.decode surrogates (some (tail, value)) rest) :
      ByteStep d surrogates b st (d.stateOf surrogates tail, value)
  | bad {buffer : Nat} (h : ∀ rest, Utf8.decode surrogates none (b :: rest) = none :: Utf8.decode surrogates none rest) :
      ByteStep d surrogates b none (0, buffer)
  | again {tail : Utf8.Tail} {value buffer : Nat} (h : ∀ rest, Utf8.decode surrogates (some (tail, value)) (b :: rest) =
        none :: Utf8.decode surrogates none (b :: rest)) :
      ByteStep d surrogates b (some (tail, value)) (0, buffer)

theorem Tables.decode_first (h : Tables d surrogates) (hb : b < 256) (hsl : 0x80 ≤ b) :
    ByteStep d surrogates b none (d.decode b d.kAccept 0) := by
  have hst := h.first b hb hsl
  have hout := @Utf8.start_fst surrogates _ hsl
  rw [DfaDecoder.decode]
  cases hsta : (Utf8.start surrogates b).2 with
  | none =>
    rw [hsta] at hst hout
    rw [hst]
    refine .bad fun rest => ?_
    rw [Utf8.decode_cons, Utf8.step, hsta, hout]
    rfl
  | some st =>
    have hma := h.first_mask b hb st hsta
    rw [hsta] at hst hout
    have hsm : st.2 < 2 ^ 32 := by
      rw [← hma]
      exact lt_of_le_of_lt Nat.and_le_left (by omega)
    rw [hst, hma, Nat.zero_shiftLeft, Nat.zero_or, Nat.mod_eq_of_lt hsm]
    refine .more (hsta ▸ Utf8.start_possible b) fun rest => ?_
    rw [Utf8.decode_cons, Utf8.step, hsta, hout]
    rfl

theorem shiftLeft_or {buffer : Nat} (hbu : buffer < 2 ^ 26) :
    (buffer <<< 6 ||| b % 64) % 2 ^ 32 = buffer * 64 + b % 64 := by
  rw [← Nat.shiftLeft_add_eq_or_of_lt (i := 6) (Nat.mod_lt _ (by decide)), Nat.shiftLeft_eq, Nat.mod_eq_of_lt (by omega)]

theorem Tables.decode_tail (h : Tables d surrogates) (hb : b < 256) {tail : Utf8.Tail} {value : Nat}
    (hst : Utf8.Possible surrogates (some (tail, value))) :
    ByteStep d surrogates b (some (tail, value)) (d.decode b (d.stateOf surrogates tail) value) := by
  have hsta := h.tail b hb tail hst.1
  obtain ⟨hone, -, hl, hu⟩ := Utf8.bounds_of_mem_tails hst.1
  rw [DfaDecoder.decode]
  by_cases hin : tail.lower ≤ b ∧ b ≤ tail.upper
  · have hva : value < 2 ^ 26 := by
      have hpow : 1 ≤ 64 ^ (tail.needed - 1) := Nat.one_le_pow _ _ (by decide)
      have := le_trans (Nat.le_mul_of_pos_right _ hpow) hst.2
      omega
    have hnext := (Utf8.step_possible hst b).1
    rw [Utf8.step, if_pos hin] at hnext
    rw [if_pos hin] at hsta
    rw [hsta, h.tail_mask b hb (by omega) (by omega), shiftLeft_or hva]
    by_cases hla : tail.needed = 1
    · rw [if_pos hla]
      refine .accept fun rest => ?_
      rw [Utf8.decode_cons, Utf8.step, if_pos hin, if_pos hla]
      rfl
    · rw [if_neg hla] at hnext ⊢
      refine .more hnext fun rest => ?_
      rw [Utf8.decode_cons, Utf8.step, if_pos hin, if_neg hla]
      rfl
  · rw [if_neg hin] at hsta
    rw [hsta]
    refine .again fun rest => ?_
    rw [Utf8.decode_cons, Utf8.step, if_neg hin, Utf8.decode_cons]
    rfl

theorem Tables.decode (h : Tables d surrogates) (hb : b < 256) (hst : Utf8.Possible surrogates st)
    (hsl : st = none → 0x80 ≤ b) :
    ByteStep d surrogates b st (d.decode b (d.at surrogates st).1 (d.at surrogates st).2) := by
  cases st with
  | none => exact h.decode_first hb (hsl rfl)
  | some st => exact h.decode_tail hb hst

/-! ### The first pass -/

section
variable (t : DecoderTraits)

/-- What the first pass makes of the code points. -/
def tally (isOneByte : Bool) (length previous : Nat) : List (Option Nat) → Encoding × Nat
  | [] => (if isOneByte then .latin1 else .utf16, length)
  | none :: outs =>
    if t.kAllowIncompleteSequences then tally false (length + 1) kBadChar outs else (.invalid, length)
  | some c :: outs =>
    if t.isInvalidSurrogatePair previous c then (.invalid, length)
    else tally (isOneByte && decide (c ≤ 0xFF)) (length + (Utf8.utf16 c).length) c outs

/-- What is assumed of a decoder: ASCII characters are never in an invalid pair. -/
structure DecoderTraits.Sound (surrogates : Bool) : Prop where
  tables : Tables t.dfaDecoder surrogates
  ascii : ∀ lead trail, lead < 0x80 ∨ trail < 0x80 → t.isInvalidSurrogatePair lead trail = false

end

section
variable {t : DecoderTraits} {surrogates : Bool}

theorem utf16_length (c : Nat) : (Utf8.utf16 c).length = 1 + if c > kMaxNonSurrogateCharCode then 1 else 0 := by
  rw [Utf8.utf16, kMaxNonSurrogateCharCode]
  split_ifs <;> first | rfl | omega

/-- In a state, the first pass makes of the bytes what they say. -/
def Counts (t : DecoderTraits) (surrogates : Bool) (bytes : List UInt8) (st : Utf8.State) : Prop :=
  ∀ previous isOneByte length,
    count t bytes ⟨(t.dfaDecoder.at surrogates st).1, (t.dfaDecoder.at surrogates st).2, previous, isOneByte, length⟩ =
      tally t isOneByte length previous (Utf8.decode surrogates st (bytes.map UInt8.toNat))

variable {b : UInt8} {rest : List UInt8}

theorem Counts.nil (h : t.Sound surrogates) (st : Utf8.State) : Counts t surrogates [] st := by
  intro previous isOneByte length
  rw [count, Counting.finish, map_nil]
  cases st with
  | none => exact if_pos rfl
  | some st => exact if_neg (h.tables.accept_lt st.1).ne'

theorem Counts.ascii (h : t.Sound surrogates) (hb : b.toNat < 0x80) (hrest : Counts t surrogates rest none) :
    Counts t surrogates (b :: rest) none := by
  intro previous isOneByte length
  rw [count, if_pos ⟨Nat.le_of_lt_succ hb, rfl⟩, map_cons, Utf8.decode_ascii hb, tally,
    h.ascii _ _ (.inr hb), if_neg Bool.false_ne_true, utf16_length, if_neg (by rw [kMaxNonSurrogateCharCode]; omega),
    decide_eq_true (by omega), Bool.and_true]
  exact hrest _ _ _

/-- A byte that is not taken by the fast path. -/
theorem Counts.slow (h : t.Sound surrogates) (hst : Utf8.Possible surrogates st) (hb : st = none → 0x80 ≤ b.toNat)
    (hrest : ∀ st, Utf8.Possible surrogates st → Counts t surrogates rest st)
    (hag : st ≠ none → Counts t surrogates (b :: rest) none) : Counts t surrogates (b :: rest) st := by
  intro previous isOneByte length
  have hpos := h.tables.accept_pos
  have hnext := h.tables.decode b.toNat_lt hst hb
  rw [count, if_neg ?hslow, map_cons]
  case hslow =>
    rintro ⟨hle, hsta⟩
    exact absurd hle (Nat.not_le.mpr (hb (h.tables.at_accept.mp hsta)))
  generalize t.dfaDecoder.decode b.toNat _ _ = next at hnext ⊢
  cases hnext with
  | accept hde =>
    rw [hde, tally, utf16_length]
    simp only [lt_irrefl, if_false, if_true]
    split
    · rfl
    · rw [← add_assoc]
      exact hrest none trivial _ _ _
  | more hpossible hde =>
    have hlt := h.tables.accept_lt
    rw [hde]
    simp only [Nat.not_lt.mpr (hlt _).le, (hlt _).ne', if_false]
    exact hrest _ hpossible _ _ _
  | bad hde =>
    rw [hde, tally]
    simp only [hpos, if_true]
    split
    · rw [if_neg (not_not.mpr (h.tables.at_accept.mpr rfl))]
      exact hrest none trivial _ _ _
    · rfl
  | again hde =>
    rw [hde, tally]
    simp only [hpos, if_true]
    split
    · rw [if_pos fun hsta => some_ne_none _ (h.tables.at_accept.mp hsta)]
      exact hag nofun _ _ _
    · rfl

/-- A byte that ends a sequence too soon is read once more. -/
theorem bytes_induction {P : List UInt8 → Utf8.State → Prop} (hnil : ∀ st, P [] st)
    (hascii : ∀ {b rest}, b.toNat < 0x80 → P rest none → P (b :: rest) none)
    (hslow : ∀ {b rest st}, Utf8.Possible surrogates st → (st = none → 0x80 ≤ b.toNat) →
      (∀ st, Utf8.Possible surrogates st → P rest st) → (st ≠ none → P (b :: rest) none) → P (b :: rest) st)
    (bytes : List UInt8) {st : Utf8.State} (hst : Utf8.Possible surrogates st) : P bytes st := by
  induction bytes generalizing st with
  | nil => exact hnil st
  | cons b rest ih =>
    have hno : P (b :: rest) none := by
      by_cases hb : b.toNat < 0x80
      · exact hascii hb (ih trivial)
      · exact hslow trivial (fun _ => Nat.not_lt.mp hb) (fun _ => ih) (absurd rfl)
    cases st with
    | none => exact hno
    | some st => exact hslow hst nofun (fun _ => ih) fun _ => hno

theorem count_eq_tally (h : t.Sound surrogates) (bytes : List UInt8) {st : Utf8.State}
    (hst : Utf8.Possible surrogates st) : Counts t surrogates bytes st :=
  bytes_induction (Counts.nil h) (Counts.ascii h) (Counts.slow h) bytes hst

/-! What the first pass finds. -/

/-- An error, or an invalid pair. -/
def Fails (t : DecoderTraits) : Nat → List (Option Nat) → Prop
  | _, [] => False
  | _, none :: outs => t.kAllowIncompleteSequences = false ∨ Fails t kBadChar outs
  | previous, some c :: outs => t.isInvalidSurrogatePair previous c = true ∨ Fails t c outs

/-- The code points, with a replacement character for each error. -/
def values (outs : List (Option Nat)) : List Nat := outs.map fun c => c.getD kBadChar

theorem values_cons (out : Option Nat) (outs : List (Option Nat)) :
    values (out :: outs) = out.getD kBadChar :: values outs := rfl

theorem tally_invalid (outs : List (Option Nat)) (isOneByte : Bool) (length previous : Nat) :
    (tally t isOneByte length previous outs).1 = .invalid ↔ Fails t previous outs := by
  induction outs generalizing isOneByte length previous with
  | nil =>
    rw [tally, Fails]
    cases isOneByte <;> simp
  | cons out outs ih =>
    cases out with
    | none =>
      rw [tally, Fails]
      split
      · next hal => simp [ih, hal]
      · next hal => simp [hal]
    | some c =>
      rw [tally, Fails]
      split
      · next hp => simp [hp]
      · next hp => simp [ih, hp]

variable {outs : List (Option Nat)} {previous c : Nat} {data : List UInt8}

theorem tally_valid {isOneByte : Bool} {length : Nat} (h : ¬ Fails t previous outs) :
    tally t isOneByte length previous outs = (if isOneByte ∧ ∀ c ∈ values outs, c ≤ 0xFF then .latin1 else .utf16,
        length + ((values outs).flatMap Utf8.utf16).length) := by
  induction outs generalizing isOneByte length previous with
  | nil => simp [tally, values]
  | cons out outs ih =>
    cases out with
    | none =>
      rw [Fails, not_or, Bool.not_eq_false] at h
      rw [tally, if_pos h.1, ih h.2]
      simp [values, kBadChar, Utf8.utf16]
      omega
    | some c =>
      rw [Fails, not_or] at h
      rw [tally, if_neg h.1, ih h.2]
      simp [values, and_assoc, add_assoc]

/-! ### The second pass -/

def Allowed (t : DecoderTraits) (outs : List (Option Nat)) : Prop := t.kAllowIncompleteSequences = true ∨ none ∉ outs

theorem Allowed.cons {out : Option Nat} {outs : List (Option Nat)} (h : Allowed t (out :: outs)) : Allowed t outs :=
  h.imp id fun hnot hmem => hnot (mem_cons_of_mem _ hmem)

theorem Allowed.none (h : Allowed t (none :: outs)) : t.kAllowIncompleteSequences :=
  h.resolve_right fun hnot => hnot mem_cons_self

theorem Allowed.of_not_fails (h : ¬ Fails t previous outs) : Allowed t outs := by
  by_cases hal : t.kAllowIncompleteSequences = true
  · exact .inl hal
  · refine .inr ?_
    induction outs generalizing previous with
    | nil => exact not_mem_nil
    | cons out outs ih =>
      cases out with
      | none => exact absurd (.inl (Bool.not_eq_true _ ▸ hal)) h
      | some c =>
        rw [Fails, not_or] at h
        simpa using ih h.2

/-- In a state, the second pass writes what the bytes say. -/
def Writes (t : DecoderTraits) (surrogates twoByte : Bool) (bytes : List UInt8) (st : Utf8.State) : Prop :=
  Allowed t (Utf8.decode surrogates st (bytes.map UInt8.toNat)) →
    write t twoByte bytes (t.dfaDecoder.at surrogates st).1 (t.dfaDecoder.at surrogates st).2 =
      (values (Utf8.decode surrogates st (bytes.map UInt8.toNat))).flatMap (codeUnits twoByte)

variable {twoByte : Bool}

theorem codeUnits_bad : codeUnits twoByte kBadChar = [toChar twoByte kBadChar] := if_pos (.inr (by decide))

theorem Writes.nil (h : t.Sound surrogates) (st : Utf8.State) : Writes t surrogates twoByte [] st := by
  intro hal
  rw [write]
  cases st with
  | none => exact if_neg fun hnot => hnot.2 rfl
  | some st =>
    rw [if_pos ⟨Allowed.none hal, (h.tables.accept_lt st.1).ne'⟩, ← codeUnits_bad]
    exact (append_nil _).symm

theorem Writes.ascii (hb : b.toNat < 0x80) (hrest : Writes t surrogates twoByte rest none) :
    Writes t surrogates twoByte (b :: rest) none := by
  intro hal
  rw [map_cons, Utf8.decode_ascii hb] at hal ⊢
  have hu : codeUnits twoByte b.toNat = [toChar twoByte b.toNat] :=
    if_pos (.inr (by rw [kMaxNonSurrogateCharCode]; omega))
  rw [write, if_pos ⟨Nat.le_of_lt_succ hb, rfl⟩, hrest hal.cons, values_cons, flatMap_cons, getD_some, hu]
  rfl

theorem Writes.slow (h : t.Sound surrogates) (hst : Utf8.Possible surrogates st) (hb : st = none → 0x80 ≤ b.toNat)
    (hrest : ∀ st, Utf8.Possible surrogates st → Writes t surrogates twoByte rest st)
    (hag : st ≠ none → Writes t surrogates twoByte (b :: rest) none) :
    Writes t surrogates twoByte (b :: rest) st := by
  intro hal
  have hpos := h.tables.accept_pos
  have hnext := h.tables.decode b.toNat_lt hst hb
  rw [map_cons] at hal ⊢
  rw [write, if_neg ?hslow]
  case hslow =>
    rintro ⟨hle, hsta⟩
    exact absurd hle (Nat.not_le.mpr (hb (h.tables.at_accept.mp hsta)))
  generalize t.dfaDecoder.decode b.toNat _ _ = next at hnext ⊢
  cases hnext with
  | accept hde =>
    rw [hde] at hal ⊢
    simp only [lt_irrefl, and_false, if_false, if_true]
    exact congrArg _ (hrest none trivial hal.cons)
  | more hpossible hde =>
    have hlt := h.tables.accept_lt
    rw [hde] at hal ⊢
    simp only [Nat.not_lt.mpr (hlt _).le, (hlt _).ne', and_false, if_false]
    exact hrest _ hpossible hal
  | bad hde =>
    rw [hde] at hal ⊢
    rw [if_pos ⟨hal.none, hpos⟩, if_neg (not_not.mpr (h.tables.at_accept.mpr rfl)), values_cons,
      flatMap_cons, getD_none, codeUnits_bad]
    exact congrArg _ (hrest none trivial hal.cons)
  | again hde =>
    rw [hde] at hal ⊢
    rw [if_pos ⟨hal.none, hpos⟩, if_pos fun hsta => some_ne_none _ (h.tables.at_accept.mp hsta), values_cons,
      flatMap_cons, getD_none, codeUnits_bad]
    exact congrArg _ (hag nofun hal.cons)

theorem write_eq (h : t.Sound surrogates) (bytes : List UInt8) {st : Utf8.State} (hst : Utf8.Possible surrogates st) :
    Writes t surrogates twoByte bytes st :=
  bytes_induction (Writes.nil h) Writes.ascii (Writes.slow h) bytes hst

/-! ### Both passes -/

theorem asciiWords_le (size words : Nat) (bytes : List UInt8) :
    asciiWords size words bytes ≤ bytes.length ∧ (bytes.take (asciiWords size words bytes)).all isAscii := by
  induction words generalizing bytes with
  | zero => simp [asciiWords]
  | succ words ih =>
    rw [asciiWords]
    split
    · next hwo =>
      obtain ⟨hle, hall⟩ := ih (bytes.drop size)
      rw [length_drop] at hle
      refine ⟨by omega, ?_⟩
      rw [take_add, all_append, hwo.2, hall]
      rfl
    · simp

theorem all_takeWhile (bytes : List UInt8) : (bytes.take (bytes.takeWhile isAscii).length).all isAscii := by
  induction bytes with
  | nil => rfl
  | cons b bytes ih =>
    rw [takeWhile_cons]
    split
    · next hb => rw [length_cons, take_succ_cons, all_cons, hb, ih, Bool.and_self]
    · rfl

/-- Everything before the start is ASCII. -/
theorem nonAsciiStart_le (size address : Nat) (bytes : List UInt8) :
    nonAsciiStart size address bytes ≤ bytes.length ∧ (bytes.take (nonAsciiStart size address bytes)).all isAscii := by
  have hloop : ∀ n ≤ bytes.length, (bytes.take n).all isAscii →
      n + ((bytes.drop n).takeWhile isAscii).length ≤ bytes.length ∧
        (bytes.take (n + ((bytes.drop n).takeWhile isAscii).length)).all isAscii := by
    intro n hn hall
    have hle := (takeWhile_sublist isAscii (l := bytes.drop n)).length_le
    rw [length_drop] at hle
    refine ⟨by omega, ?_⟩
    rw [take_add, all_append, hall, all_takeWhile]
    rfl
  rw [nonAsciiStart]
  dsimp only
  generalize hu : (size - address % size) % size = unaligned
  split
  · next hsize =>
    have hle : unaligned ≤ bytes.length := by
      have := Nat.mod_le (size - address % size) size
      omega
    split
    · next hst =>
      obtain ⟨hwo, hall⟩ := asciiWords_le size bytes.length (bytes.drop unaligned)
      rw [length_drop] at hwo
      have hbo : (bytes.take (unaligned + asciiWords size bytes.length (bytes.drop unaligned))).all isAscii := by
        rw [take_add, all_append, hst, hall]
        rfl
      split
      · exact ⟨by omega, hbo⟩
      · exact hloop _ (by omega) hbo
    · have hl := (takeWhile_sublist isAscii (l := bytes.take unaligned)).length_le
      have hall := all_takeWhile (bytes.take unaligned)
      rw [length_take] at hl
      rw [take_take, Nat.min_eq_left (by omega)] at hall
      exact ⟨by omega, hall⟩
  · simpa using hloop 0 (Nat.zero_le _) rfl

theorem decode_ascii_append {ascii : List UInt8} (hall : ascii.all isAscii) (bytes : List Nat) :
    Utf8.decode surrogates none (ascii.map UInt8.toNat ++ bytes) =
      ascii.map (fun b => some b.toNat) ++ Utf8.decode surrogates none bytes := by
  induction ascii with
  | nil => rfl
  | cons b ascii ih =>
    rw [all_cons, Bool.and_eq_true] at hall
    have hb : b.toNat < 0x80 := Nat.lt_succ_of_le (of_decide_eq_true hall.1)
    rw [map_cons, cons_append, Utf8.decode_ascii hb, ih hall.2]
    rfl

/-- The first pass may as well begin with the first byte. -/
theorem tally_ascii_append (h : t.Sound surrogates) {ascii : List UInt8} (hall : ascii.all isAscii) (isOneByte : Bool)
    (length : Nat) (hp : previous < 0x80) (outs : List (Option Nat)) :
    tally t isOneByte length previous (ascii.map (fun b => some b.toNat) ++ outs) =
      tally t isOneByte (length + ascii.length) 0 outs := by
  induction ascii generalizing length previous with
  | nil =>
    rcases outs with - | ⟨- | c, outs⟩
    · rfl
    · rfl
    · rw [map_nil, nil_append, tally, tally, h.ascii _ _ (.inl hp), h.ascii _ _ (.inl (by decide))]
      rfl
  | cons b ascii ih =>
    rw [all_cons, Bool.and_eq_true] at hall
    have hb : b.toNat < 0x80 := Nat.lt_succ_of_le (of_decide_eq_true hall.1)
    rw [map_cons, cons_append, tally, h.ascii _ _ (.inr hb), if_neg Bool.false_ne_true, utf16_length,
      if_neg (by rw [kMaxNonSurrogateCharCode]; omega), decide_eq_true (by omega), Bool.and_true, ih hall.2 _ hb,
      length_cons, add_assoc, add_comm 1]

theorem decode_split (size address : Nat) (data : List UInt8) : Utf8.decode surrogates none (data.map UInt8.toNat) =
    (data.take (nonAsciiStart size address data)).map (fun b => some b.toNat) ++
      Utf8.decode surrogates none ((data.drop (nonAsciiStart size address data)).map UInt8.toNat) := by
  rw [← decode_ascii_append (nonAsciiStart_le size address data).2, ← map_append, take_append_drop]

theorem new_eq (h : t.Sound surrogates) (size address : Nat) (data : List UInt8) : Utf8DecoderBase.new t size address data =
      let tallied := tally t true 0 0 (Utf8.decode surrogates none (data.map UInt8.toNat))
      ⟨if nonAsciiStart size address data = data.length then .ascii else tallied.1, nonAsciiStart size address data, tallied.2⟩ := by
  obtain ⟨hle, hall⟩ := nonAsciiStart_le size address data
  have hta := tally_ascii_append h hall true 0 (show 0 < 0x80 by decide)
    (Utf8.decode surrogates none ((data.drop (nonAsciiStart size address data)).map UInt8.toNat))
  rw [zero_add, length_take, min_eq_left hle] at hta
  rw [Utf8DecoderBase.new, decode_split size address data]
  dsimp only
  rw [hta, ← (@count_eq_tally _ _ h _ none) trivial]
  split
  · next hend => simp [hend, count, Counting.finish, DfaDecoder.at]
  · rfl

theorem Allowed.append {before : List (Option Nat)} (h : Allowed t (before ++ outs)) : Allowed t outs :=
  h.imp id fun hnot hmem => hnot (mem_append_right _ hmem)

theorem flatMap_codeUnits_ascii {ascii : List UInt8} (hall : ascii.all isAscii) :
    (values (ascii.map fun b => some b.toNat)).flatMap (codeUnits twoByte) = ascii.map UInt8.toNat := by
  induction ascii with
  | nil => rfl
  | cons b ascii ih =>
    rw [all_cons, Bool.and_eq_true] at hall
    have hb : b.toNat ≤ 0x7F := of_decide_eq_true hall.1
    rw [map_cons, values_cons, flatMap_cons, ih hall.2, getD_some, codeUnits,
      if_pos (.inr (by rw [kMaxNonSurrogateCharCode]; omega)), toChar]
    cases twoByte
    · rw [if_neg Bool.false_ne_true, Nat.mod_eq_of_lt (by omega)]
      rfl
    · rw [if_pos rfl, Nat.mod_eq_of_lt (by omega)]
      rfl

theorem decode_eq (h : t.Sound surrogates) (size address : Nat)
    (hal : Allowed t (Utf8.decode surrogates none (data.map UInt8.toNat))) (twoByte : Bool) :
    (Utf8DecoderBase.new t size address data).decode t twoByte data =
      (values (Utf8.decode surrogates none (data.map UInt8.toNat))).flatMap (codeUnits twoByte) := by
  have hall := (nonAsciiStart_le size address data).2
  rw [decode_split size address data] at hal ⊢
  rw [new_eq h, Utf8DecoderBase.decode, values, map_append, flatMap_append]
  refine congrArg₂ _ (flatMap_codeUnits_ascii hall).symm ?_
  exact (@write_eq _ _ _ h _ none) trivial hal.append

/-! ### The results -/

/-- Two passes that agree: the length, the size of the characters and the characters of the
string are those of the code points. -/
structure Decodes (t : DecoderTraits) (d : Utf8DecoderBase) (data : List UInt8) (codePoints : List Nat) : Prop where
  valid : d.encoding ≠ .invalid
  length : d.utf16Length = (codePoints.flatMap Utf8.utf16).length
  isOneByte : d.isOneByte = true ↔ ∀ c ∈ codePoints, c ≤ 0xFF
  twoByte : d.decode t true data = codePoints.flatMap Utf8.utf16
  oneByte : d.isOneByte = true → d.decode t false data = codePoints.flatMap Utf8.utf16

theorem utf16_of_gt (hlarge : 0xFFFF < c) (hc : c ≤ 0x10FFFF) : Utf8.utf16 c = [leadSurrogate c, trailSurrogate c] := by
  rw [Utf8.utf16, if_neg (by omega), leadSurrogate, trailSurrogate, Nat.shiftRight_eq_div_pow,
    Nat.and_two_pow_sub_one_eq_mod _ 10, Nat.and_two_pow_sub_one_eq_mod _ 10]
  congr 2
  omega

theorem codeUnits_twoByte (hc : c ≤ 0x10FFFF) : codeUnits true c = Utf8.utf16 c := by
  rw [codeUnits, kMaxNonSurrogateCharCode]
  by_cases hsm : c ≤ 0xFFFF
  · rw [if_pos (.inr hsm), Utf8.utf16, if_pos hsm, toChar, if_pos rfl, Nat.mod_eq_of_lt (by omega)]
  · have hl : leadSurrogate c ≤ 0xD800 + 0x3FF := Nat.add_le_add_left Nat.and_le_right _
    have htr : trailSurrogate c ≤ 0xDC00 + 0x3FF := Nat.add_le_add_left Nat.and_le_right _
    rw [if_neg (by simp [hsm]), utf16_of_gt (by omega) hc, toChar, toChar, if_pos rfl, if_pos rfl,
      Nat.mod_eq_of_lt (by omega), Nat.mod_eq_of_lt (by omega)]

theorem codeUnits_oneByte (hc : c ≤ 0xFF) : codeUnits false c = Utf8.utf16 c := by
  rw [codeUnits, if_pos (.inl rfl), toChar, if_neg Bool.false_ne_true, Nat.mod_eq_of_lt (by omega), Utf8.utf16,
    if_pos (by omega)]

theorem le_of_mem_values {bytes : List Nat} (hc : c ∈ values (Utf8.decode surrogates none bytes)) : c ≤ 0x10FFFF := by
  obtain ⟨out, hout, rfl⟩ := List.mem_map.mp hc
  cases out with
  | none => decide
  | some c => exact (@Utf8.le_of_mem_decode _ none) trivial hout

/-- A string of ASCII characters is found to be one before the first pass begins. -/
theorem values_of_ascii {size address : Nat} (hst : nonAsciiStart size address data = data.length) :
    values (Utf8.decode surrogates none (data.map UInt8.toNat)) = data.map UInt8.toNat := by
  rw [decode_split size address data, hst, take_length, drop_length, map_nil, Utf8.decode, append_nil,
    values, List.map_map]
  rfl

theorem isOneByte_new (h : t.Sound surrogates) (size address : Nat)
    (hfa : ¬ Fails t 0 (Utf8.decode surrogates none (data.map UInt8.toNat))) :
    (Utf8DecoderBase.new t size address data).isOneByte ↔
      ∀ c ∈ values (Utf8.decode surrogates none (data.map UInt8.toNat)), c ≤ 0xFF := by
  rw [new_eq h, tally_valid hfa, Utf8DecoderBase.isOneByte]
  by_cases hst : nonAsciiStart size address data = data.length
  · rw [values_of_ascii hst]
    simp only [hst, if_true, decide_true, Bool.true_or, true_iff, List.mem_map]
    rintro c ⟨b, -, rfl⟩
    exact Nat.le_of_lt_succ b.toNat_lt
  · simp only [hst, if_false, true_and]
    split <;> simp_all

theorem encoding_invalid (h : t.Sound surrogates) (size address : Nat) (data : List UInt8) :
    (Utf8DecoderBase.new t size address data).encoding = .invalid ↔
      Fails t 0 (Utf8.decode surrogates none (data.map UInt8.toNat)) := by
  rw [← tally_invalid _ true 0, new_eq h]
  dsimp only
  split
  · next hst =>
    have hall := (nonAsciiStart_le size address data).2
    rw [decode_split size address data, hst, drop_length, map_nil, tally_ascii_append h (hst ▸ hall) _ _ (by decide)]
    simp [Utf8.decode, tally]
  · rfl

theorem decodes_of_not_fails (h : t.Sound surrogates) (size address : Nat)
    (hfa : ¬ Fails t 0 (Utf8.decode surrogates none (data.map UInt8.toNat))) :
    Decodes t (Utf8DecoderBase.new t size address data) data (values (Utf8.decode surrogates none (data.map UInt8.toNat))) where
  valid := (encoding_invalid h size address data).not.mpr hfa
  length := by rw [new_eq h, tally_valid hfa, zero_add]
  isOneByte := isOneByte_new h size address hfa
  twoByte := by
    rw [decode_eq h size address (.of_not_fails hfa)]
    exact flatMap_congr fun c hc => codeUnits_twoByte (le_of_mem_values hc)
  oneByte hone := by
    rw [decode_eq h size address (.of_not_fails hfa)]
    exact flatMap_congr fun c hc => codeUnits_oneByte ((isOneByte_new h size address hfa).mp hone c hc)

theorem and_mask (n w k : Nat) : n &&& (2 ^ w - 1) <<< k = n / 2 ^ k % 2 ^ w * 2 ^ k := by
  rw [← Nat.shiftRight_eq_div_pow, ← Nat.and_two_pow_sub_one_eq_mod, ← Nat.shiftLeft_eq]
  refine Nat.eq_of_testBit_eq fun i => ?_
  by_cases hi : k ≤ i <;> simp [Nat.testBit_shiftLeft, hi, Bool.and_comm]

theorem and_surrogateMask (code : Nat) : code &&& 0x1FFC00 = code / 1024 % 2048 * 1024 := and_mask code 11 10

theorem isLeadSurrogate_iff {code : Nat} (h : code ≤ 0x10FFFF) : isLeadSurrogate code ↔ Utf8.IsLead code := by
  rw [isLeadSurrogate, and_surrogateMask, decide_eq_true_eq, Utf8.IsLead]
  omega

theorem isTrailSurrogate_iff {code : Nat} (h : code ≤ 0x10FFFF) : isTrailSurrogate code ↔ Utf8.IsTrail code := by
  rw [isTrailSurrogate, and_surrogateMask, decide_eq_true_eq, Utf8.IsTrail]
  omega

theorem utf8Decoder_sound : utf8Decoder.Sound false := ⟨utf8_tables, fun _ _ _ => rfl⟩

theorem strictUtf8Decoder_sound : strictUtf8Decoder.Sound false := ⟨utf8_tables, fun _ _ _ => rfl⟩

theorem wtf8Decoder_sound : wtf8Decoder.Sound true where
  tables := generalizedUtf8_tables
  ascii lead trail hsm := by
    show (isLeadSurrogate lead && isTrailSurrogate trail) = false
    rw [isLeadSurrogate, isTrailSurrogate, and_surrogateMask, and_surrogateMask, ← Bool.not_eq_true]
    simp only [Bool.and_eq_true, decide_eq_true_eq]
    omega

theorem not_fails_utf8Decoder (previous : Nat) (outs : List (Option Nat)) : ¬ Fails utf8Decoder previous outs := by
  induction outs generalizing previous with
  | nil => exact not_false
  | cons out outs ih => cases out <;> exact not_or.mpr ⟨nofun, ih _⟩

theorem fails_strictUtf8Decoder (previous : Nat) (outs : List (Option Nat)) :
    Fails strictUtf8Decoder previous outs ↔ none ∈ outs := by
  induction outs generalizing previous with
  | nil => simp [Fails]
  | cons out outs ih =>
    cases out with
    | none => exact ⟨fun _ => mem_cons_self, fun _ => .inl rfl⟩
    | some c =>
      rw [Fails, ih]
      simp [strictUtf8Decoder]

theorem fails_wtf8Decoder_of_mem (h : none ∈ outs) : Fails wtf8Decoder previous outs := by
  induction outs generalizing previous with
  | nil => cases h
  | cons out outs ih =>
    cases out with
    | none => exact .inl rfl
    | some c => exact .inr (ih ((mem_cons.mp h).resolve_left nofun))

theorem fails_wtf8Decoder_map {cs : List Nat} (hp : previous ≤ 0x10FFFF) (hcs : ∀ c ∈ cs, Utf8.Encodable true c) :
    Fails wtf8Decoder previous (cs.map some) ↔ Utf8.HasPair (previous :: cs) := by
  induction cs generalizing previous with
  | nil => exact iff_of_false not_false (Utf8.not_hasPair_singleton _)
  | cons c cs ih =>
    have hc := (hcs c (by simp)).1
    rw [map_cons, Fails, ih hc fun x hx => hcs x (by simp [hx]), Utf8.hasPair_cons_cons,
      ← isLeadSurrogate_iff hp, ← isTrailSurrogate_iff hc, ← Bool.and_eq_true]
    rfl

theorem fails_wtf8Decoder (bytes : List Nat) :
    Fails wtf8Decoder 0 (Utf8.decode true none bytes) ↔ ¬ Utf8.WellFormedWtf8 bytes := by
  by_cases hno : none ∈ Utf8.decode true none bytes
  · refine iff_of_true (fails_wtf8Decoder_of_mem hno) ?_
    rintro ⟨cs, hcs, -, rfl⟩
    simp [Utf8.decode_flatMap_encode hcs] at hno
  · obtain ⟨cs, hde, hby, hcs⟩ := Utf8.flatMap_encode_of_decode _ bytes (le_refl _) hno
    have hzero : Utf8.HasPair (0 :: cs) ↔ Utf8.HasPair cs := by
      rcases cs with - | ⟨c, cs⟩
      · exact iff_of_false (Utf8.not_hasPair_singleton _) fun ⟨_, _, _, _, h, _⟩ => by simp at h
      · rw [Utf8.hasPair_cons_cons]
        exact or_iff_right fun h => absurd h.1.1 (by decide)
    rw [hde, fails_wtf8Decoder_map (by decide) hcs, hzero]
    constructor
    · rintro hp ⟨cs', hcs', hnot, hb'⟩
      have hsa := hde.symm.trans (hb' ▸ Utf8.decode_flatMap_encode hcs')
      exact hnot (map_injective_iff.mpr (some_injective _) hsa ▸ hp)
    · intro hill
      by_contra hp
      exact hill ⟨cs, hcs, hp, hby⟩

/-- What the three decoders make of any bytes, wherever these are in memory. -/
theorem utf8Decoders_decode (size address : Nat) (data : List UInt8) :
    let bytes := data.map UInt8.toNat
    (Utf8.Replaced bytes (Utf8.replaced bytes) ∧
      Decodes utf8Decoder (.new utf8Decoder size address data) data (Utf8.replaced bytes)) ∧
    (((Utf8DecoderBase.new strictUtf8Decoder size address data).encoding = .invalid ↔ ¬ Utf8.WellFormed bytes) ∧
      ∀ cs, bytes = cs.flatMap Utf8.encode → (∀ c ∈ cs, Utf8.Encodable false c) →
        Decodes strictUtf8Decoder (.new strictUtf8Decoder size address data) data cs) ∧
    ((Utf8DecoderBase.new wtf8Decoder size address data).encoding = .invalid ↔ ¬ Utf8.WellFormedWtf8 bytes) ∧
      ∀ cs, bytes = cs.flatMap Utf8.encode → (∀ c ∈ cs, Utf8.Encodable true c) → ¬ Utf8.HasPair cs →
        Decodes wtf8Decoder (.new wtf8Decoder size address data) data cs := by
  intro bytes
  have hvalues : ∀ surrogates cs, bytes = cs.flatMap Utf8.encode → (∀ c ∈ cs, Utf8.Encodable surrogates c) →
      values (Utf8.decode surrogates none bytes) = cs := by
    intro surrogates cs hbytes hcs
    rw [hbytes, Utf8.decode_flatMap_encode hcs, values, List.map_map]
    exact map_id _
  refine ⟨⟨Utf8.replaced_spec bytes, ?_⟩, ⟨?_, ?_⟩, ?_, ?_⟩
  · exact decodes_of_not_fails utf8Decoder_sound size address (not_fails_utf8Decoder _ _)
  · rw [encoding_invalid strictUtf8Decoder_sound, fails_strictUtf8Decoder, Utf8.wellFormed_iff, not_not]
  · intro cs hbytes hcs
    have hfails : ¬ Fails strictUtf8Decoder 0 (Utf8.decode false none bytes) := by
      rw [fails_strictUtf8Decoder]
      exact Utf8.wellFormed_iff.mp ⟨cs, hcs, hbytes⟩
    have hdecodes := decodes_of_not_fails strictUtf8Decoder_sound size address hfails
    rwa [hvalues false cs hbytes hcs] at hdecodes
  · rw [encoding_invalid wtf8Decoder_sound, fails_wtf8Decoder]
  · intro cs hbytes hcs hpair
    have hfails : ¬ Fails wtf8Decoder 0 (Utf8.decode true none bytes) := by
      rw [fails_wtf8Decoder, not_not]
      exact ⟨cs, hcs, hpair, hbytes⟩
    have hdecodes := decodes_of_not_fails wtf8Decoder_sound size address hfails
    rwa [hvalues true cs hbytes hcs] at hdecodes

end

end V8Multithread.Strings
