import V8Multithread.Base.Bytes

/-! Source-position tables.

Code offsets are `int`s and raw source positions are `int64_t`s. The first bit of a raw position says whether it is external.
Reading past the end of a table has no result. -/
namespace V8Multithread.Codegen
open Base List Nat Option Varint

def kFunctionEntryBytecodeOffset : BitVec 32 := -1

def isExternal (raw : BitVec 64) : Bool := raw.getLsbD 0

structure PositionTableEntry where
  sourcePosition : BitVec 64 := 0
  codeOffset : BitVec 32 := kFunctionEntryBytecodeOffset
  isStatement : Bool := false
  isBreakable : Bool := true
  deriving DecidableEq, Repr

def addAndSetEntry (value other : PositionTableEntry) : PositionTableEntry :=
  {other with
    codeOffset := value.codeOffset + other.codeOffset
    sourcePosition := value.sourcePosition + other.sourcePosition}

def subtractFromEntry (value other : PositionTableEntry) : PositionTableEntry :=
  {value with
    codeOffset := value.codeOffset - other.codeOffset
    sourcePosition := value.sourcePosition - other.sourcePosition}

/-! ### Building a table -/

def encodeUInt (width value : Nat) : List UInt8 := encode (limit width) value

def encodeInt (value : BitVec 64) : List UInt8 := encodeUInt 64 (value <<< 1 ^^^ value.sshiftRight 63).toNat

def flag (b : Bool) : BitVec 32 := (BitVec.ofBool b).setWidth 32

def encodeEntry (entry : PositionTableEntry) (isAbsoluteSource : Bool) : List UInt8 :=
  let encodedEntry := entry.codeOffset <<< 3 |||
    (flag isAbsoluteSource <<< 2 ||| flag entry.isBreakable <<< 1 ||| flag entry.isStatement)
  encodeUInt 32 encodedEntry.toNat ++ encodeInt entry.sourcePosition

inductive RecordingMode where
  | OMIT_SOURCE_POSITIONS | LAZY_SOURCE_POSITIONS | RECORD_SOURCE_POSITIONS
  deriving DecidableEq, Repr

structure SourcePositionTableBuilder where
  mode : RecordingMode := .RECORD_SOURCE_POSITIONS
  bytes : List UInt8 := []
  previous : PositionTableEntry := {}

/-- The bytes that `AddEntry` appends. -/
def entryBytes (previous entry : PositionTableEntry) : List UInt8 :=
  let tmp := subtractFromEntry entry previous
  let isAbsoluteSource := isExternal entry.sourcePosition
  encodeEntry (if isAbsoluteSource then {tmp with sourcePosition := entry.sourcePosition} else tmp) isAbsoluteSource

namespace SourcePositionTableBuilder

def addEntry (b : SourcePositionTableBuilder) (entry : PositionTableEntry) : SourcePositionTableBuilder :=
  {b with bytes := b.bytes ++ entryBytes b.previous entry, previous := entry}

/-- The code offset is a `size_t`. -/
def addPosition (b : SourcePositionTableBuilder) (codeOffset : BitVec 64) (sourcePosition : BitVec 64)
    (isStatement isBreakable : Bool) : SourcePositionTableBuilder :=
  if b.mode ≠ .RECORD_SOURCE_POSITIONS then b
  else b.addEntry ⟨sourcePosition, codeOffset.setWidth 32, isStatement, isBreakable⟩

def addAll (b : SourcePositionTableBuilder) (entries : List PositionTableEntry) : SourcePositionTableBuilder :=
  entries.foldl
    (fun b e => b.addPosition (e.codeOffset.signExtend 64) e.sourcePosition e.isStatement e.isBreakable) b

end SourcePositionTableBuilder

/-! ### Iterating over a table -/

def decodeUInt (width : Nat) : (shift decoded : Nat) → List UInt8 → Option (Nat × List UInt8)
  | _, _, [] => none
  | shift, decoded, current :: rest =>
    -- the bits of `decoded` are all below `shift`
    let decoded := (decoded + current.toNat % 128 * 2 ^ shift) % 2 ^ width
    if 128 ≤ current.toNat then decodeUInt width (shift + 7) decoded rest else some (decoded, rest)

def decodeInt (bytes : List UInt8) : Option (BitVec 64 × List UInt8) := do
  let (n, bytes) ← decodeUInt 64 0 0 bytes
  let zigzagValue := BitVec.ofNat 64 n
  return (zigzagValue >>> 1 ^^^ -(zigzagValue &&& 1#64), bytes)

/-- An entry, whether its source position is absolute, and the bytes after it. -/
def decodeEntry (bytes : List UInt8) : Option (PositionTableEntry × Bool × List UInt8) := do
  let (n, bytes) ← decodeUInt 32 0 0 bytes
  let tmp := BitVec.ofNat 32 n
  let (sourcePosition, bytes) ← decodeInt bytes
  return (⟨sourcePosition, tmp.sshiftRight 3, tmp.getLsbD 0, tmp.getLsbD 1⟩, tmp.getLsbD 2, bytes)

inductive IterationFilter where
  | kJavaScriptOnly | kExternalOnly | kAll
  deriving DecidableEq, Repr

def IterationFilter.satisfied : IterationFilter → PositionTableEntry → Bool
  | .kAll, _ => true
  | .kJavaScriptOnly, e => !isExternal e.sourcePosition
  | .kExternalOnly, e => isExternal e.sourcePosition

structure SourcePositionTableIterator where
  /-- The bytes from `index_` on, unless the iterator is done. -/
  bytes : Option (List UInt8)
  current : PositionTableEntry := {}

namespace SourcePositionTableIterator

/-- The loop of `Advance`; `fuel` bounds its rounds. -/
def advanceLoop (filter : IterationFilter) : (fuel : Nat) → SourcePositionTableIterator → Option SourcePositionTableIterator
  | 0, _ => none
  | fuel + 1, it =>
    match it.bytes with
    | none => some it
    | some [] => some {it with bytes := none}
    | some bytes => do
      let (tmp, isAbsoluteSource, bytes) ← decodeEntry bytes
      let current :=
        if isAbsoluteSource then {tmp with codeOffset := it.current.codeOffset + tmp.codeOffset}
        else addAndSetEntry it.current tmp
      if filter.satisfied current then some ⟨some bytes, current⟩ else advanceLoop filter fuel ⟨some bytes, current⟩

def advance (filter : IterationFilter) (it : SourcePositionTableIterator) : Option SourcePositionTableIterator :=
  it.advanceLoop filter ((it.bytes.getD []).length + 1)

def start (filter : IterationFilter) (skipFunctionEntry : Bool) (table : List UInt8) :
    Option SourcePositionTableIterator := do
  let it ← advance filter ⟨some table, {}⟩
  if skipFunctionEntry ∧ it.current.codeOffset = kFunctionEntryBytecodeOffset ∧ it.bytes ≠ none then it.advance filter
  else return it

/-- `for (; !it.done(); it.Advance())`, and the entries that are seen; `fuel` bounds its rounds. -/
def entries (filter : IterationFilter) : (fuel : Nat) → SourcePositionTableIterator → Option (List PositionTableEntry)
  | 0, _ => none
  | fuel + 1, it =>
    match it.bytes with
    | none => some []
    | some _ => do
      let rest ← entries filter fuel (← it.advance filter)
      return it.current :: rest

def seen (filter : IterationFilter) (skipFunctionEntry : Bool) (table : List UInt8) : Option (List PositionTableEntry) := do
  entries filter (table.length + 1) (← start filter skipFunctionEntry table)

end SourcePositionTableIterator

/-! ### An entry -/

theorem decodeUInt_encode {w : Nat} (k shift decoded n : Nat) (rest : List UInt8) (hn : n < 128 ^ k) (hk : 0 < k)
    (hfit : decoded + n * 2 ^ shift < 2 ^ w) :
    decodeUInt w shift decoded (encode k n ++ rest) = some (decoded + n * 2 ^ shift, rest) := by
  induction k generalizing shift decoded n with
  | zero => omega
  | succ k ih =>
    by_cases hl : n < 128
    · have hby : (UInt8.ofNat n).toNat = n := toNat_ofNat_of_lt (by omega)
      simp only [encode, if_pos hl, singleton_append, decodeUInt, hby, mod_eq_of_lt hl, mod_eq_of_lt hfit,
        if_neg (not_le.mpr hl)]
    · have hby : (UInt8.ofNat (n % 128 + 128)).toNat = n % 128 + 128 := toNat_ofNat_of_lt (by omega)
      have hlow : (n % 128 + 128) % 128 = n % 128 := by omega
      have hsp : n * 2 ^ shift = n % 128 * 2 ^ shift + n / 128 * 2 ^ (shift + 7) := by
        conv_lhs => rw [← mod_add_div n 128]
        rw [pow_add]
        ring
      have hpow : n / 128 < 128 ^ k := Nat.div_lt_of_lt_mul (by rwa [← pow_succ'])
      have hk' : 0 < k := Nat.pos_of_ne_zero fun hzero => by
        rw [hzero, pow_zero] at hpow
        omega
      simp only [encode, if_neg hl, cons_append, decodeUInt, hby, hlow, if_pos (Nat.le_add_left 128 _)]
      rw [mod_eq_of_lt (by omega), ih _ _ _ hpow hk' (by omega), hsp, add_assoc]

theorem decodeUInt_encodeUInt {width n : Nat} (hn : n < 2 ^ width) (rest : List UInt8) :
    decodeUInt width 0 0 (encodeUInt width n ++ rest) = some (n, rest) := by
  have h := decodeUInt_encode (w := width) _ 0 0 n rest (lt_pow_limit hn) (succ_pos _) (by simpa using hn)
  rwa [pow_zero, mul_one, zero_add] at h

/-- What stands above three flags. -/
theorem shift_flags {c k : BitVec 32} (hc : c.toNat < 2 ^ 28) (hk : k.toNat < 8) : (c <<< 3 ||| k).sshiftRight 3 = c := by
  have heq : (c <<< 3 ||| k).toNat = c.toNat * 8 + k.toNat := by
    rw [BitVec.toNat_or, BitVec.toNat_shiftLeft, mod_eq_of_lt (by rw [shiftLeft_eq]; omega),
      ← shiftLeft_add_eq_or_of_lt (by omega), shiftLeft_eq]
  have hmsb : (c <<< 3 ||| k).msb = false := by
    rw [BitVec.msb_eq_decide, decide_eq_false_iff_not, heq]
    omega
  apply BitVec.eq_of_toNat_eq
  rw [BitVec.sshiftRight_eq_of_msb_false hmsb, BitVec.toNat_ushiftRight, heq, shiftRight_eq_div_pow]
  omega

theorem decodeInt_encodeInt (value : BitVec 64) (rest : List UInt8) :
    decodeInt (encodeInt value ++ rest) = some (value, rest) := by
  rw [decodeInt, encodeInt, decodeUInt_encodeUInt (BitVec.isLt _)]
  simp only [bind_eq_bind, bind_some, BitVec.ofNat_toNat, BitVec.setWidth_eq]
  rw [ZigZag.unzig (w := 63)]
  rfl

theorem decodeEntry_encodeEntry {e : PositionTableEntry} (h : e.codeOffset.toNat < 2 ^ 28) (isAbsoluteSource : Bool)
    (rest : List UInt8) : decodeEntry (encodeEntry e isAbsoluteSource ++ rest) = some (e, isAbsoluteSource, rest) := by
  obtain ⟨sourcePosition, codeOffset, isStatement, isBreakable⟩ := e
  have hflags : (flag isAbsoluteSource <<< 2 ||| flag isBreakable <<< 1 ||| flag isStatement).toNat < 8 := by
    cases isAbsoluteSource <;> cases isBreakable <;> cases isStatement <;> decide
  rw [encodeEntry, decodeEntry, append_assoc, decodeUInt_encodeUInt (BitVec.isLt _)]
  simp only [bind_eq_bind, bind_some, BitVec.ofNat_toNat, BitVec.setWidth_eq, decodeInt_encodeInt]
  rw [shift_flags h hflags]
  cases isAbsoluteSource <;> cases isBreakable <;> cases isStatement <;> simp [flag]

/-! ### A whole table -/

/-- The code offsets ascend in small steps. -/
def Step (previous e : PositionTableEntry) : Prop := (e.codeOffset - previous.codeOffset).toNat < 2 ^ 28

instance : DecidableRel Step := fun _ _ => inferInstanceAs (Decidable (_ < _))

def tableFrom : PositionTableEntry → List PositionTableEntry → List UInt8
  | _, [] => []
  | previous, e :: rest => entryBytes previous e ++ tableFrom e rest

open SourcePositionTableBuilder in
theorem bytes_addAll (entries : List PositionTableEntry) (bytes : List UInt8) (previous : PositionTableEntry) :
    (addAll ⟨.RECORD_SOURCE_POSITIONS, bytes, previous⟩ entries).bytes =
      bytes ++ tableFrom previous entries := by
  induction entries generalizing bytes previous with
  | nil => rw [tableFrom, append_nil]; rfl
  | cons e rest ih =>
    have hcast : (e.codeOffset.signExtend 64).setWidth 32 = e.codeOffset := by
      apply BitVec.eq_of_getLsbD_eq
      intro i hi
      rw [BitVec.getLsbD_setWidth, BitVec.getLsbD_signExtend]
      simp [hi]
      omega
    rw [tableFrom, ← append_assoc, ← ih, addAll, addAll, foldl_cons, addPosition, if_neg (not_not.mpr rfl), hcast]
    rfl

theorem encodeUInt_ne_nil (width value : Nat) : encodeUInt width value ≠ [] := by
  rw [encodeUInt, limit, encode]
  split <;> simp

theorem entryBytes_ne_nil (previous e : PositionTableEntry) : entryBytes previous e ≠ [] :=
  append_ne_nil_of_left_ne_nil (encodeUInt_ne_nil _ _) _

theorem length_le_tableFrom (previous : PositionTableEntry) (entries : List PositionTableEntry) :
    entries.length ≤ (tableFrom previous entries).length := by
  induction entries generalizing previous with
  | nil => rfl
  | cons e rest ih =>
    have := length_pos_iff.mpr (entryBytes_ne_nil previous e)
    have := ih e
    rw [tableFrom, length_append, length_cons]
    omega

namespace SourcePositionTableIterator
variable {previous e : PositionTableEntry} {es : List PositionTableEntry}

/-- The iterator after the next entry that satisfies the filter. -/
def next (filter : IterationFilter) : PositionTableEntry → List PositionTableEntry → SourcePositionTableIterator
  | previous, [] => ⟨none, previous⟩
  | _, e :: rest => if filter.satisfied e then ⟨some (tableFrom e rest), e⟩ else next filter e rest

/-- What is decoded is put together with the entry before. -/
theorem advanceLoop_entry (filter : IterationFilter) (fuel : Nat) (h : Step previous e) (rest : List UInt8) :
    advanceLoop filter (fuel + 1) ⟨some (entryBytes previous e ++ rest), previous⟩ =
      if filter.satisfied e then some ⟨some rest, e⟩ else advanceLoop filter fuel ⟨some rest, e⟩ := by
  obtain ⟨b, bytes, hbytes⟩ := exists_cons_of_ne_nil (append_ne_nil_of_left_ne_nil (entryBytes_ne_nil previous e) rest)
  rw [hbytes, advanceLoop]
  dsimp only
  rw [← hbytes, entryBytes, decodeEntry_encodeEntry]
  · simp only [bind_eq_bind, bind_some, subtractFromEntry, addAndSetEntry]
    cases isExternal e.sourcePosition <;> simp
  · split <;> exact h

theorem advanceLoop_eq (filter : IterationFilter) {fuel : Nat} (h : (previous :: es).IsChain Step) (hfuel : es.length < fuel) :
    advanceLoop filter fuel ⟨some (tableFrom previous es), previous⟩ = some (next filter previous es) := by
  induction es generalizing previous fuel with
  | nil =>
    obtain ⟨fuel, rfl⟩ := exists_eq_add_one.mpr hfuel
    rfl
  | cons e rest ih =>
    obtain ⟨fuel, rfl⟩ := exists_eq_add_one.mpr (zero_lt_of_lt hfuel)
    rw [isChain_cons_cons] at h
    rw [tableFrom, advanceLoop_entry filter fuel h.1, next]
    split
    · rfl
    · exact ih h.2 (lt_of_succ_lt_succ hfuel)

theorem advance_eq (filter : IterationFilter) (h : (previous :: es).IsChain Step) :
    advance filter ⟨some (tableFrom previous es), previous⟩ = some (next filter previous es) :=
  advanceLoop_eq filter h (lt_succ_of_le (length_le_tableFrom previous es))

theorem entries_eq (filter : IterationFilter) {fuel : Nat} (h : (previous :: es).IsChain Step) (hfuel : es.length < fuel) :
    entries filter fuel (next filter previous es) = some (es.filter filter.satisfied) := by
  induction es generalizing previous fuel with
  | nil =>
    obtain ⟨fuel, rfl⟩ := exists_eq_add_one.mpr hfuel
    rfl
  | cons e rest ih =>
    obtain ⟨fuel, rfl⟩ := exists_eq_add_one.mpr (zero_lt_of_lt hfuel)
    rw [isChain_cons_cons] at h
    rw [next]
    split
    · next hs =>
      rw [entries, advance_eq filter h.2, filter_cons_of_pos hs]
      simp only [bind_eq_bind, bind_some, ih h.2 (lt_of_succ_lt_succ hfuel)]
      rfl
    · next hs =>
      rw [ih h.2 (lt_of_succ_lt hfuel), filter_cons_of_neg hs]

end SourcePositionTableIterator

open SourcePositionTableIterator in
/-- Iterating over a table gives the entries that were added, without a read past its end. -/
theorem source_positions_round_trip (es : List PositionTableEntry) (h : ({} :: es).IsChain Step) :
    seen .kAll false (SourcePositionTableBuilder.addAll {} es).bytes = some es ∧
      ∀ filter, seen filter false (SourcePositionTableBuilder.addAll {} es).bytes = some (es.filter filter.satisfied) := by
  have hall : ∀ filter, seen filter false (SourcePositionTableBuilder.addAll {} es).bytes =
      some (es.filter filter.satisfied) := by
    intro filter
    rw [bytes_addAll, nil_append, seen, start, advance_eq filter h]
    exact entries_eq filter h (lt_succ_of_le (length_le_tableFrom _ es))
  refine ⟨?_, hall⟩
  rw [hall, filter_eq_self.mpr]
  exact fun e _ => rfl

theorem source_positions_round_trip_two :
    SourcePositionTableIterator.seen .kAll false
      (SourcePositionTableBuilder.addAll {} [⟨6, 0, true, true⟩, ⟨9, 4, false, false⟩]).bytes =
      some [⟨6, 0, true, true⟩, ⟨9, 4, false, false⟩] :=
  (source_positions_round_trip _ (by decide)).1

end V8Multithread.Codegen
