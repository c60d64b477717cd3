import V8Multithread.Base.Matching

/-! `string-search.h`: looking for a pattern in a subject.

A search object begins with a strategy that depends on the pattern and goes over to a better one
when it has done too much work. The tables of the better ones belong to the isolate; those of the
last 250 characters of the pattern are kept. A search that finds nothing returns `-1`: `none`.

The loops are given as many rounds as the subject can have positions to look at; a loop that needs
more is `none` as a whole. -/
namespace V8Multithread.Strings.StringSearch

/-! ### Characters -/

inductive CharSize where
  | one | two
  deriving DecidableEq, Repr

def CharSize.sizeof : CharSize → Nat
  | one => 1
  | two => 2

def CharSize.limit (size : CharSize) : Nat := 2 ^ (8 * size.sizeof)

/-- `base::Vector<const Char>`. -/
structure CharVector (size : CharSize) where
  chars : List Nat
  bound : ∀ c ∈ chars, c < size.limit

namespace CharVector

variable {size : CharSize} (v : CharVector size)

def length : Nat := v.chars.length

def get (i : Nat) : Nat := v.chars.getD i 0

end CharVector

def kMaxOneByteCharCodeU : Nat := 0xFF

def isOneByteString : {size : CharSize} → CharVector size → Bool
  | .one, _ => true
  | .two, string => string.chars.all (· ≤ kMaxOneByteCharCodeU)

def exceedsOneByte : CharSize → (c : Nat) → Bool
  | .one, _ => false
  | .two, c => c > kMaxOneByteCharCodeU

def kBMMaxShift : Nat := 250
def kLatin1AlphabetSize : Nat := 256
def kUC16AlphabetSize : Nat := 256
def kBMMinPatternLength : Nat := 7

/-! ### The first character -/

def getHighestValueByte : CharSize → (character : Nat) → Nat
  | .one, character => character
  | .two, character => max (character &&& 0xFF) (character >>> 8)

def toBytes : CharSize → (character : Nat) → List Nat
  | .one, character => [character]
  | .two, character => [character % 2 ^ 8, character / 2 ^ 8]

def CharVector.bytes {size : CharSize} (v : CharVector size) : List Nat := v.chars.flatMap (toBytes size)

def memchr (bytes : List Nat) (byte : Nat) : Option Nat := bytes.findIdx? (· = byte)

section
variable {patternSize subjectSize : CharSize} (pattern : CharVector patternSize) (subject : CharVector subjectSize)

/-- The loop over the bytes of the subject. Aligning the position of the byte that was found gives
the position of its character. -/
def findByte (searchByte searchChar maxN pos : Nat) : Option Nat :=
  match memchr ((subject.bytes.drop (pos * subjectSize.sizeof)).take ((maxN - pos) * subjectSize.sizeof)) searchByte with
  | none => none
  | some offset =>
    let charPos := pos + offset / subjectSize.sizeof
    if subject.get charPos = searchChar then some charPos
    else if charPos + 1 < maxN then findByte searchByte searchChar maxN (charPos + 1)
    else none
termination_by maxN - pos
decreasing_by
  have := Nat.zero_le (offset / subjectSize.sizeof)
  omega

def findFirstCharacter (index : Nat) : Option Nat :=
  let patternFirstChar := pattern.get 0
  let maxN := subject.length + 1 - pattern.length
  if subjectSize = .two ∧ patternFirstChar = 0 then
    (List.range' index (maxN - index)).find? fun i => subject.get i = 0
  else
    findByte subject (getHighestValueByte patternSize patternFirstChar) (patternFirstChar % subjectSize.limit) maxN index

/-! ### Short patterns -/

def singleCharSearch (index : Nat) : Option Nat :=
  if patternSize.sizeof > subjectSize.sizeof ∧ exceedsOneByte patternSize (pattern.get 0) = true then none
  else findFirstCharacter pattern subject index

/-- The characters from `patternPos` and those from `subjectPos`. -/
def charCompare (patternPos subjectPos length : Nat) : Bool :=
  (List.range length).all fun pos => pattern.get (patternPos + pos) = subject.get (subjectPos + pos)

def linearLoop : (fuel i : Nat) → Option (Option Nat)
  | 0, _ => none
  | fuel + 1, i =>
    if i + pattern.length ≤ subject.length then
      match findFirstCharacter pattern subject i with
      | none => some none
      | some i =>
        if charCompare pattern subject 1 (i + 1) (pattern.length - 1) then some (some i) else linearLoop fuel (i + 1)
    else some none

def linearSearch (index : Nat) : Option (Option Nat) := linearLoop pattern subject (subject.length + 2) index

/-! ### The initial strategy -/

/-- How a loop ends: with a result, or at the position where another strategy goes on. -/
inductive Outcome where
  | result (position : Option Nat)
  | bailout (index : Nat)
  deriving DecidableEq, Repr

/-- `do … while (j < pattern_length)`, with `left` characters left. -/
def matchForward (i : Nat) : (left j : Nat) → Nat
  | 0, j => j
  | left + 1, j => if pattern.get j ≠ subject.get (i + j) then j else matchForward i left (j + 1)

def initialLoop : (fuel i : Nat) → (badness : Int) → Option Outcome
  | 0, _, _ => none
  | fuel + 1, i, badness =>
    if i + pattern.length ≤ subject.length then
      let badness := badness + 1
      if badness ≤ 0 then
        match findFirstCharacter pattern subject i with
        | none => some (.result none)
        | some i =>
          let j := matchForward pattern subject i (pattern.length - 1) 1
          if j = pattern.length then some (.result (some i)) else initialLoop fuel (i + 1) (badness + j)
      else some (.bailout i)
    else some (.result none)

/-! ### Boyer-Moore-Horspool -/

/-- The tables of the isolate. The last two are indexed by positions of the pattern, as through the
biased pointers. -/
structure Tables where
  badChar : Nat → Int
  goodSuffixShift : Nat → Nat
  suffix : Nat → Nat

def start : Nat := pattern.length - kBMMaxShift

def alphabetSize : CharSize → Nat
  | .one => kLatin1AlphabetSize
  | .two => kUC16AlphabetSize

def bucket (patternSize : CharSize) (c : Nat) : Nat := if patternSize = .one then c else c % alphabetSize patternSize

def populateBoyerMooreHorspoolTable (badCharOccurrence : Nat → Int) : Nat → Int :=
  let start := start pattern
  let cleared : Nat → Int := fun i =>
    if i < alphabetSize patternSize then if start = 0 then -1 else start - 1 else badCharOccurrence i
  (List.range' start (pattern.length - 1 - start)).foldl
    (fun table i => Function.update table (bucket patternSize (pattern.get i)) i) cleared

def charOccurrence (patternSize subjectSize : CharSize) (badCharOccurrence : Nat → Int) (charCode : Nat) : Int :=
  if subjectSize = .one then badCharOccurrence charCode
  else if patternSize = .one then if exceedsOneByte subjectSize charCode then -1 else badCharOccurrence charCode
  else badCharOccurrence (charCode % kUC16AlphabetSize)

def lastChar : Nat := pattern.get (pattern.length - 1)

/-- `static_cast<SubjectChar>(last_char)`, and how far it moves the pattern. -/
def lastCharShift (subjectSize : CharSize) (badCharOccurrence : Nat → Int) : Int :=
  (pattern.length : Int) - 1 - charOccurrence patternSize subjectSize badCharOccurrence (lastChar pattern % subjectSize.limit)

/-- `while (j >= 0 && pattern[j] == subject[index + j]) j--`, from `j - 1`: one more than where it
stops. -/
def matchBackward (index : Nat) : (j : Nat) → Nat
  | 0 => 0
  | j + 1 => if pattern.get j = subject.get (index + j) then matchBackward index j else j + 1

section
variable (tables : Tables)

/-- The inner loop, over positions where the last character does not match, leaves the search at
the same condition as the outer one. -/
def horspoolLoop : (fuel index : Nat) → (badness : Int) → Option Outcome
  | 0, _, _ => none
  | fuel + 1, index, badness =>
    if index + pattern.length ≤ subject.length then
      let j := pattern.length - 1
      let subjectChar := subject.get (index + j)
      if lastChar pattern ≠ subjectChar then
        let shift : Int := j - charOccurrence patternSize subjectSize tables.badChar subjectChar
        horspoolLoop fuel (index + shift).toNat (badness + (1 - shift))
      else
        match matchBackward pattern subject index j with
        | 0 => some (.result (some index))
        | j + 1 =>
          let shift := lastCharShift pattern subjectSize tables.badChar
          let index := (index + shift).toNat
          let badness := badness + ((pattern.length - j) - shift)
          if badness > 0 then some (.bailout index) else horspoolLoop fuel index badness
    else some (.result none)

/-! ### Boyer-Moore -/

def boyerMooreLoop : (fuel index : Nat) → Option (Option Nat)
  | 0, _ => none
  | fuel + 1, index =>
    if index + pattern.length ≤ subject.length then
      let c := subject.get (index + (pattern.length - 1))
      if lastChar pattern ≠ c then
        let shift : Int := (pattern.length - 1 : Nat) - charOccurrence patternSize subjectSize tables.badChar c
        boyerMooreLoop fuel (index + shift).toNat
      else
        match matchBackward pattern subject index pattern.length with
        | 0 => some (some index)
        | j + 1 =>
          if j < start pattern then
            boyerMooreLoop fuel (index + lastCharShift pattern subjectSize tables.badChar).toNat
          else
            let gsShift : Int := tables.goodSuffixShift (j + 1)
            let shift : Int := j - charOccurrence patternSize subjectSize tables.badChar (subject.get (index + j))
            boyerMooreLoop fuel (index + if gsShift > shift then gsShift else shift).toNat
    else some none

end

/-- What the loops that build the table of the good suffixes change. -/
structure Build where
  i : Nat
  suffix : Nat
  shiftTable : Nat → Nat
  suffixTable : Nat → Nat

/-- `if (shift_table[k] == length) shift_table[k] = value`. -/
def setUnset (length : Nat) (shiftTable : Nat → Nat) (k value : Nat) : Nat → Nat :=
  if shiftTable k = length then Function.update shiftTable k value else shiftTable

/-- `while (suffix <= pattern_length && c != pattern[suffix - 1])`. -/
def followSuffixes (length : Nat) : (fuel : Nat) → Build → Option Build
  | 0, _ => none
  | fuel + 1, b =>
    if b.suffix ≤ pattern.length ∧ pattern.get (b.i - 1) ≠ pattern.get (b.suffix - 1) then
      followSuffixes length fuel { b with
        suffix := b.suffixTable b.suffix
        shiftTable := setUnset length b.shiftTable b.suffix (b.suffix - b.i) }
    else some b

/-- `suffix_table[--i] = --suffix`. -/
def Build.extend (b : Build) : Build :=
  { b with i := b.i - 1, suffix := b.suffix - 1, suffixTable := Function.update b.suffixTable (b.i - 1) (b.suffix - 1) }

/-- `while ((i > start) && (pattern[i - 1] != last_char))`. -/
def skipOthers (start length : Nat) : (fuel : Nat) → Build → Option Build
  | 0, _ => none
  | fuel + 1, b =>
    if b.i > start ∧ pattern.get (b.i - 1) ≠ lastChar pattern then
      skipOthers start length fuel { b with
        i := b.i - 1
        shiftTable := setUnset length b.shiftTable pattern.length (pattern.length - b.i)
        suffixTable := Function.update b.suffixTable (b.i - 1) pattern.length }
    else some b

def findSuffixes (start length : Nat) : (fuel : Nat) → Build → Option Build
  | 0, _ => none
  | fuel + 1, b =>
    if b.i > start then do
      let b ← followSuffixes pattern length (pattern.length + 2) b
      let b := b.extend
      if b.suffix = pattern.length then
        let b ← skipOthers pattern start length (pattern.length + 1) b
        findSuffixes start length fuel (if b.i > start then b.extend else b)
      else findSuffixes start length fuel b
    else some b

/-- `for (int i = start; i <= pattern_length; i++)`, with `count` positions left. -/
def fillShifts (start length : Nat) (suffixTable : Nat → Nat) : (count i suffix : Nat) → (shiftTable : Nat → Nat) → Nat → Nat
  | 0, _, _, shiftTable => shiftTable
  | count + 1, i, suffix, shiftTable =>
    fillShifts start length suffixTable count (i + 1) (if i = suffix then suffixTable suffix else suffix)
      (setUnset length shiftTable i (suffix - start))

def populateBoyerMooreTable (tables : Tables) : Option Tables :=
  let start := start pattern
  let length := pattern.length - start
  let shiftTable := fun i =>
    if i = pattern.length then 1 else if start ≤ i ∧ i < pattern.length then length else tables.goodSuffixShift i
  let suffixTable := Function.update tables.suffix pattern.length (pattern.length + 1)
  if pattern.length ≤ start then some { tables with goodSuffixShift := shiftTable, suffix := suffixTable }
  else do
    let b ← findSuffixes pattern start length (pattern.length + 1) ⟨pattern.length, pattern.length + 1, shiftTable, suffixTable⟩
    let shiftTable :=
      if b.suffix < pattern.length then fillShifts start length b.suffixTable (pattern.length + 1 - start) start b.suffix b.shiftTable
      else b.shiftTable
    some { tables with goodSuffixShift := shiftTable, suffix := b.suffixTable }

end

/-! ### Search objects -/

inductive Strategy where
  | failSearch | singleCharSearch | linearSearch | initialSearch | boyerMooreHorspoolSearch | boyerMooreSearch
  deriving DecidableEq, Repr

/-- A search object, with the tables of its isolate. -/
structure Searcher (patternSize subjectSize : CharSize) where
  pattern : CharVector patternSize
  strategy : Strategy
  tables : Tables

variable {patternSize subjectSize : CharSize}

/-- The constructor; it leaves the tables as they are. -/
def new (pattern : CharVector patternSize) (tables : Tables) : Searcher patternSize subjectSize :=
  { pattern
    tables
    strategy :=
      if patternSize.sizeof > subjectSize.sizeof ∧ isOneByteString pattern = false then .failSearch
      else if pattern.length < kBMMinPatternLength then
        if pattern.length = 1 then .singleCharSearch else .linearSearch
      else .initialSearch }

namespace Searcher

variable (s : Searcher patternSize subjectSize) (subject : CharVector subjectSize)

def boyerMooreSearch (index : Nat) : Option (Searcher patternSize subjectSize × Option Nat) := do
  let result ← boyerMooreLoop s.pattern subject s.tables (subject.length + 2) index
  some (s, result)

def boyerMooreHorspoolSearch (index : Nat) : Option (Searcher patternSize subjectSize × Option Nat) := do
  match ← horspoolLoop s.pattern subject s.tables (subject.length + 2) index (-s.pattern.length) with
  | .result result => some (s, result)
  | .bailout index =>
    let tables ← populateBoyerMooreTable s.pattern s.tables
    boyerMooreSearch { s with strategy := .boyerMooreSearch, tables } subject index

def initialSearch (index : Nat) : Option (Searcher patternSize subjectSize × Option Nat) := do
  match ← initialLoop s.pattern subject (subject.length + 2) index (-10 - 4 * s.pattern.length) with
  | .result result => some (s, result)
  | .bailout index =>
    let badChar := populateBoyerMooreHorspoolTable s.pattern s.tables.badChar
    boyerMooreHorspoolSearch
      { s with strategy := .boyerMooreHorspoolSearch, tables := { s.tables with badChar } } subject index

/-- `Search`: the object afterwards, and the position. -/
def search (index : Nat) : Option (Searcher patternSize subjectSize × Option Nat) :=
  match s.strategy with
  | .failSearch => some (s, none)
  | .singleCharSearch => some (s, singleCharSearch s.pattern subject index)
  | .linearSearch => do
    let result ← linearSearch s.pattern subject index
    some (s, result)
  | .initialSearch => s.initialSearch subject index
  | .boyerMooreHorspoolSearch => s.boyerMooreHorspoolSearch subject index
  | .boyerMooreSearch => s.boyerMooreSearch subject index

def searches : Searcher patternSize subjectSize → (calls : List (CharVector subjectSize × Nat)) → Option (List (Option Nat))
  | _, [] => some []
  | s, (subject, index) :: calls => do
    let (s, result) ← s.search subject index
    let results ← searches s calls
    some (result :: results)

end Searcher

end V8Multithread.Strings.StringSearch
