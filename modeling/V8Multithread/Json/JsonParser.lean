import V8Multithread.Json.Grammar

/-! `JsonParser`: the recursive parser, the iterative one, and `ParseJson` without a reviver.

An error does not stop the parser. It is kept as the exception and the cursor is moved to the end, so
that the parser fails at the next token it needs. `next` is the token that `peek` answers with; it is
that of the character at the cursor only after `GetNextNonWhitespaceToken`.

The parser does not choose when the stack is full, nor which maps and descriptor arrays it finds in the
heap: both are given by an `Environment`, as any functions of the position in the source. The objects
that are built are the sequences of their properties. -/
namespace V8Multithread.Json

/-! ### Key feedback -/

/-- `DescriptorArray::FastIterableState`. -/
inductive FastIterableState where
  | kJsonFast
  | kJsonSlow
  | kUnknown
  deriving DecidableEq, Repr

/-- The name of a property, as its characters are stored. -/
inductive PropertyName where
  | symbol
  | oneByte (chars : List Nat)
  | twoByte (chars : List Nat)
  deriving DecidableEq, Repr

structure Descriptor where
  name : PropertyName
  dontEnum : Bool
  inField : Bool
  deriving DecidableEq, Repr

/-- The key is written in a JSON text as it is stored, and is no array index. -/
def Descriptor.Fast (d : Descriptor) : Prop :=
  ∃ chars, d.name = .oneByte chars ∧ (∀ c ∈ chars, Plain c) ∧ ∀ i ≤ kMaxArrayIndex, chars ≠ arrayIndexName i

/-- A map: its descriptor array, and how many of the descriptors are its own. The array is marked as
fast only when every key in it was checked. -/
structure Feedback where
  descriptors : List Descriptor
  ownDescriptors : Nat
  fastIterable : FastIterableState
  own_le : ownDescriptors ≤ descriptors.length
  fast : fastIterable = .kJsonFast → ∀ d ∈ descriptors, d.Fast

/-- What the parser finds: the stack limit, and the map of the object before. -/
structure Environment where
  hasOverflowed : Nat → Bool
  feedback : Nat → Option Feedback

/-! ### The state -/

/-- The value is an empty handle until it is stored; here it is null. -/
structure JsonProperty (N : Type) where
  string : JsonString
  value : Value N

/-- The stacks have their top first. -/
structure Parser (N : Type) where
  cursor : Cursor
  next : JsonToken
  exception : Option JsonError
  elementStack : List (Value N)
  propertyStack : List (JsonProperty N)

/-- What was pushed since the stack had this size, in order. -/
def since {α : Type} (stack : List α) (start : Nat) : List α := (stack.take (stack.length - start)).reverse

def resize {α : Type} (stack : List α) (size : Nat) : List α := stack.drop (stack.length - size)

/-- The key that `MakeString` makes. A read past the end of the source, which no scanned string makes,
would be the empty one. -/
def Source.key (s : Source) : JsonString → Key
  | .index i => .index i
  | string => .name ((s.makeString string).getD [])

def Source.buildJsonObject {N : Type} (s : Source) (properties : List (JsonProperty N)) : Value N :=
  .object (properties.map fun p => (s.key p.string, p.value))

namespace Parser
variable {N : Type}

def reportUnexpectedError (e : JsonError) (p : Parser N) : Parser N :=
  if p.exception.isSome then p else {p with exception := some e, cursor := []}

def reportUnexpectedToken (s : Source) (token : JsonToken) (message : Option MessageTemplate) (p : Parser N) : Parser N :=
  p.reportUnexpectedError (s.unexpectedToken p.cursor token message)

def reportUnexpectedCharacter (s : Source) (c : Option Nat) (p : Parser N) : Parser N :=
  p.reportUnexpectedError (s.unexpectedCharacter p.cursor c)

def getNextNonWhitespaceToken (p : Parser N) : Parser N :=
  let cursor := p.cursor.dropWhile fun c => getTokenForCharacter c = .WHITESPACE
  {p with cursor := cursor, next := (currentCharacter cursor).elim .EOS getTokenForCharacter}

def advance (p : Parser N) : Parser N := {p with cursor := p.cursor.tail}

def isNextToken (token : JsonToken) (p : Parser N) : Bool :=
  match token with
  | .EOS => p.cursor.isEmpty
  | _ =>
    match jsonTokenToCharacter token with
    | some expected => currentCharacter p.cursor = some expected
    | none => false

def check (token : JsonToken) (p : Parser N) : Bool × Parser N :=
  if p.isNextToken token then (true, p.advance)
  else
    let p := p.getNextNonWhitespaceToken
    if p.next = token then (true, p.advance) else (false, p)

def expect (s : Source) (token : JsonToken) (message : MessageTemplate) (p : Parser N) : Bool × Parser N :=
  if p.next = token then (true, p.advance) else (false, p.reportUnexpectedToken s p.next (some message))

def expectNext (s : Source) (token : JsonToken) (message : MessageTemplate) (p : Parser N) : Bool × Parser N :=
  match p.check token with
  | (true, p) => (true, p)
  | (false, p) => (false, p.reportUnexpectedToken s p.next (some message))

/-! ### Tokens -/

/-- The loop of `ScanLiteral` over what is left of the literal, to the first difference. -/
def scanLiteralRest (s : Source) : (text : List Nat) → Parser N → Parser N
  | [], p => p.reportUnexpectedToken s .EOS none
  | e :: text, p =>
    match p.cursor with
    | [] => p.reportUnexpectedToken s .EOS none
    | c :: _ => if e = c then scanLiteralRest s text p.advance else p.reportUnexpectedCharacter s (some c)

/-- The first character was compared before. -/
def scanLiteral (s : Source) (text : List Nat) (p : Parser N) : Parser N :=
  if text.length ≤ p.cursor.length ∧ p.cursor.tail.take (text.length - 1) = text.tail then
    {p with cursor := p.cursor.drop text.length}
  else scanLiteralRest s text.tail p.advance

/-- `JsonString()`, which is what the scanner returns after an error. -/
def noString : JsonString := .string 0 0 false false false

def scanJsonString (s : Source) (needsInternalization : Bool) (p : Parser N) : JsonString × Parser N :=
  match s.scanJsonString p.cursor needsInternalization with
  | .ok (string, rest) => (string, {p with cursor := rest})
  | .error e => (noString, p.reportUnexpectedError e)

def scanJsonPropertyKey (s : Source) (cont : Elements) (p : Parser N) : JsonString × Elements × Parser N :=
  match s.scanJsonPropertyKey cont p.cursor with
  | .ok (string, rest, cont) => (string, cont, {p with cursor := rest})
  | .error e => (noString, cont, p.reportUnexpectedError e)

def parseJsonNumberAsDoubleOrSmi (s : Source) (ν : Numbers N) (p : Parser N) : ScannedNumber N × Parser N :=
  match s.parseJsonNumberAsDoubleOrSmi ν p.cursor with
  | .ok (n, rest) => (n, {p with cursor := rest})
  | .error e => (.smi 0, p.reportUnexpectedError e)

def parseJsonNumber (s : Source) (ν : Numbers N) (p : Parser N) : Value N × Parser N :=
  let (n, p) := p.parseJsonNumberAsDoubleOrSmi s ν
  (.number (n.value ν), p)

def parseJsonString (s : Source) (p : Parser N) : Value N × Parser N :=
  let (string, p) := p.advance.scanJsonString s false
  (.string ((s.makeString string).getD []), p)

/-! ### The iterative parser -/

end Parser

inductive ContinuationType where
  | kReturn
  | kObjectProperty
  | kArrayElement
  deriving DecidableEq, Repr

structure JsonContinuation where
  type : ContinuationType
  index : Nat
  elements : Elements
  deriving DecidableEq, Repr

def JsonContinuation.new (type : ContinuationType) (index : Nat) : JsonContinuation := ⟨type, index, ⟨0, 0⟩⟩

/-- The variables of `ParseJsonValue`. -/
structure Iteration (N : Type) where
  parser : Parser N
  cont : JsonContinuation
  contStack : List JsonContinuation

/-- What the loops do next: one of the two goes on, or the function returns. -/
inductive Turn (N : Type) where
  | produce (it : Iteration N)
  | consume (value : Value N) (it : Iteration N)
  | done (result : Option (Value N)) (parser : Parser N)

namespace Iteration
variable {N : Type}

def parsePropertyKey (s : Source) (it : Iteration N) : Turn N :=
  let (key, elements, p) := it.parser.scanJsonPropertyKey s it.cont.elements
  let p := {p with propertyStack := ⟨key, .null⟩ :: p.propertyStack}
  match p.expectNext s .COLON .kJsonParseExpectedColonAfterPropertyName with
  | (false, p) => .done none p
  | (true, p) => .produce {it with parser := p, cont := {it.cont with elements := elements}}

/-- One round of the loop that produces a value. -/
def produce (s : Source) (ν : Numbers N) (it : Iteration N) : Turn N :=
  let p := it.parser.getNextNonWhitespaceToken
  match p.next with
  | .STRING =>
    let (value, p) := p.parseJsonString s
    .consume value {it with parser := p}
  | .NUMBER =>
    let (value, p) := p.parseJsonNumber s ν
    .consume value {it with parser := p}
  | .LBRACE =>
    match p.advance.check .RBRACE with
    | (true, p) => .consume (.object []) {it with parser := p}
    | (false, p) =>
      let cont := JsonContinuation.new .kObjectProperty p.propertyStack.length
      match p.expect s .STRING .kJsonParseExpectedPropNameOrRBrace with
      | (false, p) => .done none p
      | (true, p) => parsePropertyKey s ⟨p, cont, it.cont :: it.contStack⟩
  | .LBRACK =>
    match p.advance.check .RBRACK with
    | (true, p) => .consume (.array []) {it with parser := p}
    | (false, p) => .produce ⟨p, JsonContinuation.new .kArrayElement p.elementStack.length, it.cont :: it.contStack⟩
  | .TRUE_LITERAL => .consume (.boolean true) {it with parser := p.scanLiteral s (booleanText true)}
  | .FALSE_LITERAL => .consume (.boolean false) {it with parser := p.scanLiteral s (booleanText false)}
  | .NULL_LITERAL => .consume .null {it with parser := p.scanLiteral s nullText}
  | .COLON | .COMMA | .ILLEGAL | .RBRACE | .RBRACK | .EOS | .WHITESPACE =>
    .done none (p.reportUnexpectedCharacter s (currentCharacter p.cursor))

/-- `property_stack_.back().value = value`. -/
def storeValue (value : Value N) : List (JsonProperty N) → List (JsonProperty N)
  | [] => []
  | property :: rest => {property with value := value} :: rest

/-- The continuation below the current one. There is one wherever it is popped. -/
def pop (p : Parser N) (value : Value N) : List JsonContinuation → Turn N
  | [] => .done none p
  | cont :: contStack => .consume value ⟨p, cont, contStack⟩

/-- One round of the loop that consumes a value. -/
def consume (s : Source) (value : Value N) (it : Iteration N) : Turn N :=
  match it.cont.type with
  | .kReturn => .done (some value) it.parser
  | .kObjectProperty =>
    let p := {it.parser with propertyStack := storeValue value it.parser.propertyStack}
    match p.check .COMMA with
    | (true, p) =>
      match p.expectNext s .STRING .kJsonParseExpectedDoubleQuotedPropertyName with
      | (false, p) => .done none p
      | (true, p) => parsePropertyKey s {it with parser := p}
    | (false, p) =>
      let value := s.buildJsonObject (since p.propertyStack it.cont.index)
      match p.expect s .RBRACE .kJsonParseExpectedCommaOrRBrace with
      | (false, p) => .done none p
      | (true, p) => pop {p with propertyStack := resize p.propertyStack it.cont.index} value it.contStack
  | .kArrayElement =>
    let p := {it.parser with elementStack := value :: it.parser.elementStack}
    match p.check .COMMA with
    | (true, p) => .produce {it with parser := p}
    | (false, p) =>
      let value := .array (since p.elementStack it.cont.index)
      match p.expect s .RBRACK .kJsonParseExpectedCommaOrRBrack with
      | (false, p) => .done none p
      | (true, p) => pop {p with elementStack := resize p.elementStack it.cont.index} value it.contStack

end Iteration

/-- The two loops, for so many rounds. -/
def Turn.run {N : Type} (s : Source) (ν : Numbers N) : (rounds : Nat) → Turn N → Option (Value N) × Parser N
  | _, .done result p => (result, p)
  | 0, .produce it => (none, it.parser)
  | 0, .consume _ it => (none, it.parser)
  | rounds + 1, .produce it => run s ν rounds (it.produce s ν)
  | rounds + 1, .consume value it => run s ν rounds (it.consume s value)

namespace Parser
variable {N : Type}

/-- Each round but the last one moves the cursor. -/
def parseJsonValue (s : Source) (ν : Numbers N) (p : Parser N) : Option (Value N) × Parser N :=
  Turn.run s ν (p.cursor.length + 2) (.produce ⟨p, JsonContinuation.new .kReturn 0, []⟩)

/-! ### The recursive parser

The functions take the parser of the values inside as an argument, and loops take a bound on their
rounds. `parseJsonValueRecursive` ties the knot. -/

section
variable (s : Source) (ν : Numbers N) (env : Environment)
  (parseValue : Option Feedback → Parser N → Option (Value N) × Parser N)

def parseJsonPropertyValue (key : JsonString) (p : Parser N) : Bool × Parser N :=
  match p.expectNext s .COLON .kJsonParseExpectedColonAfterPropertyName with
  | (false, p) => (false, p)
  | (true, p) =>
    match parseValue none p with
    | (none, p) => (false, p)
    | (some value, p) => (true, {p with propertyStack := ⟨key, value⟩ :: p.propertyStack})

/-- `ParseJsonObjectProperties<kJsonSlow>`. -/
def parsePropertiesSlow : (rounds : Nat) → Elements → MessageTemplate → Parser N → Bool × Elements × Parser N
  | 0, cont, _, p => (false, cont, p)
  | rounds + 1, cont, firstTokenMsg, p =>
    match p.expectNext s .STRING firstTokenMsg with
    | (false, p) => (false, cont, p)
    | (true, p) =>
      let (key, cont, p) := p.scanJsonPropertyKey s cont
      match p.parseJsonPropertyValue s parseValue key with
      | (false, p) => (false, cont, p)
      | (true, p) =>
        match p.check .COMMA with
        | (true, p) => parsePropertiesSlow rounds cont .kJsonParseExpectedDoubleQuotedPropertyName p
        | (false, p) => (true, cont, p)

/-- If there is a comma, the properties after it are parsed slowly. -/
def continueSlow (rounds : Nat) (cont : Elements) (p : Parser N) : Bool × Elements × Parser N :=
  match p.check .COMMA with
  | (true, p) => parsePropertiesSlow s parseValue rounds cont .kJsonParseExpectedDoubleQuotedPropertyName p
  | (false, p) => (true, cont, p)

/-- `FastKeyMatch` on the text at the cursor. -/
def fastKeyMatch (keyChars : List Nat) (p : Parser N) : Bool :=
  keyChars.length < p.cursor.length && p.cursor[keyChars.length]? = some 0x22 && p.cursor.take keyChars.length = keyChars

/-- `GetFastKeyChars`. Only one-byte keys are fast. -/
def PropertyName.fastKeyChars : PropertyName → List Nat
  | .oneByte chars => chars
  | _ => []

/-- `ParseJsonObjectProperties<kJsonFast>`, with the descriptors from `idx` on. -/
def parsePropertiesFast : (rounds : Nat) → List Descriptor → Elements → MessageTemplate → Parser N →
    Bool × Elements × Parser N
  | 0, _, cont, _, p => (false, cont, p)
  | rounds + 1, descriptors, cont, firstTokenMsg, p =>
    match p.expectNext s .STRING firstTokenMsg with
    | (false, p) => (false, cont, p)
    | (true, p) =>
      let expected := (descriptors.head?.map fun d => PropertyName.fastKeyChars d.name).getD []
      if p.fastKeyMatch expected then
        let key := .string (s.position p.cursor) expected.length false true false
        let p := {p with cursor := p.cursor.drop (expected.length + 1)}
        match p.parseJsonPropertyValue s parseValue key with
        | (false, p) => (false, cont, p)
        | (true, p) =>
          if descriptors.tail.isEmpty then p.continueSlow s parseValue rounds cont
          else
            match p.check .COMMA with
            | (true, p) =>
              parsePropertiesFast rounds descriptors.tail cont .kJsonParseExpectedDoubleQuotedPropertyName p
            | (false, p) => p.continueSlow s parseValue rounds cont
      else
        let (key, cont, p) := p.scanJsonPropertyKey s cont
        match p.parseJsonPropertyValue s parseValue key with
        | (false, p) => (false, cont, p)
        | (true, p) =>
          match key with
          | .index _ =>
            match p.check .COMMA with
            | (true, p) => parsePropertiesFast rounds descriptors cont .kJsonParseExpectedDoubleQuotedPropertyName p
            | (false, p) => p.continueSlow s parseValue rounds cont
          | .string .. => p.continueSlow s parseValue rounds cont

/-- `FastKeyMatch` on a scanned key. -/
def fastScannedKeyMatch (s : Source) (keyChars : List Nat) : JsonString → Bool
  | .string start length _ _ _ => keyChars.length = length && (s.chars.drop start).take keyChars.length = keyChars
  | .index _ => false

/-- Whether the key is slow, and whether it is the expected one. -/
def keyFeedback (s : Source) (key : JsonString) (d : Descriptor) : Bool × Bool :=
  let isSlow := (match key with | .string _ _ _ _ hasEscape => hasEscape | .index _ => false) || d.dontEnum || !d.inField
  match d.name with
  | .symbol => (true, false)
  | .twoByte _ => (true, false)
  | .oneByte chars => if isSlow then (true, false) else (false, fastScannedKeyMatch s chars key)

/-- `ParseJsonObjectProperties<kUnknown>`, with the descriptors from `idx` on. What the descriptor array
is marked as is the second result; `last` says that its last descriptor is the map's. -/
def parsePropertiesUnknown (last : Bool) : (rounds : Nat) → List Descriptor → Elements → MessageTemplate → Parser N →
    (Bool × Elements × Parser N) × FastIterableState
  | 0, _, cont, _, p => ((false, cont, p), .kUnknown)
  | rounds + 1, descriptors, cont, firstTokenMsg, p =>
    match p.expectNext s .STRING firstTokenMsg with
    | (false, p) => ((false, cont, p), .kUnknown)
    | (true, p) =>
      let (key, cont, p) := p.scanJsonPropertyKey s cont
      match key with
      | .index _ =>
        match p.parseJsonPropertyValue s parseValue key with
        | (false, p) => ((false, cont, p), .kUnknown)
        | (true, p) =>
          match p.check .COMMA with
          | (true, p) =>
            parsePropertiesUnknown last rounds descriptors cont .kJsonParseExpectedDoubleQuotedPropertyName p
          | (false, p) => (p.continueSlow s parseValue rounds cont, .kUnknown)
      | .string .. =>
        let (isSlow, keyMatch) := (descriptors.head?.map (keyFeedback s key)).getD (true, false)
        let mark := if isSlow then .kJsonSlow else .kUnknown
        match p.parseJsonPropertyValue s parseValue key with
        | (false, p) => ((false, cont, p), mark)
        | (true, p) =>
          if isSlow || !keyMatch then (p.continueSlow s parseValue rounds cont, mark)
          else if descriptors.tail.isEmpty then
            (p.continueSlow s parseValue rounds cont, if last then .kJsonFast else .kUnknown)
          else
            match p.check .COMMA with
            | (true, p) =>
              parsePropertiesUnknown last rounds descriptors.tail cont .kJsonParseExpectedDoubleQuotedPropertyName p
            | (false, p) => (p.continueSlow s parseValue rounds cont, .kUnknown)

def parseJsonObjectProperties (feedback : Option Feedback) (p : Parser N) : Bool × Elements × Parser N :=
  let rounds := p.cursor.length + 1
  let slow := parsePropertiesSlow s parseValue rounds ⟨0, 0⟩ .kJsonParseExpectedPropNameOrRBrace p
  match feedback with
  | none => slow
  | some feedback =>
    if feedback.ownDescriptors = 0 then slow
    else
      let own := feedback.descriptors.take feedback.ownDescriptors
      match feedback.fastIterable with
      | .kJsonFast => parsePropertiesFast s parseValue rounds own ⟨0, 0⟩ .kJsonParseExpectedPropNameOrRBrace p
      | .kJsonSlow => slow
      | .kUnknown =>
        (parsePropertiesUnknown s parseValue (feedback.ownDescriptors = feedback.descriptors.length) rounds own ⟨0, 0⟩
          .kJsonParseExpectedPropNameOrRBrace p).1

def parseJsonObject (feedback : Option Feedback) (p : Parser N) : Option (Value N) × Parser N :=
  if env.hasOverflowed (s.position p.cursor) then p.parseJsonValue s ν
  else
    match p.advance.check .RBRACE with
    | (true, p) => (some (.object []), p)
    | (false, p) =>
      let start := p.propertyStack.length
      match p.parseJsonObjectProperties s parseValue feedback with
      | (false, _, p) => (none, p)
      | (true, _, p) =>
        match p.expect s .RBRACE .kJsonParseExpectedCommaOrRBrace with
        | (false, p) => (none, p)
        | (true, p) =>
          (some (s.buildJsonObject (since p.propertyStack start)), {p with propertyStack := resize p.propertyStack start})

inductive Numbered where
  | failed
  | closed
  | open
  deriving DecidableEq, Repr

/-- The loop over the numbers that an array begins with: `smi_elements_` and `double_elements_`. -/
def parseNumberElements : (rounds : Nat) → (smiElements : List Int) → (doubleElements : List N) → (sawDouble : Bool) →
    Parser N → Numbered × List Int × List N × Bool × Parser N
  | 0, smis, doubles, sawDouble, p => (.failed, smis, doubles, sawDouble, p)
  | rounds + 1, smis, doubles, sawDouble, p =>
    if p.next = .NUMBER then
      let (n, p) := p.parseJsonNumberAsDoubleOrSmi s ν
      let (smis, doubles, sawDouble) :=
        match n with
        | .double d => (smis, doubles ++ [d], true)
        | .smi i => if sawDouble then (smis, doubles ++ [ν.ofInt i], true) else (smis ++ [i], doubles, false)
      match p.check .COMMA with
      | (true, p) => parseNumberElements rounds smis doubles sawDouble p.getNextNonWhitespaceToken
      | (false, p) =>
        match p.expect s .RBRACK .kJsonParseExpectedCommaOrRBrack with
        | (false, p) => (.failed, smis, doubles, sawDouble, p)
        | (true, p) => (.closed, smis, doubles, sawDouble, p)
    else (.open, smis, doubles, sawDouble, p)

def isJSObject : Value N → Bool
  | .array _ => true
  | .object _ => true
  | _ => false

/-- The elements after a value, each parsed with the map of the one before. -/
def parseElements : (rounds : Nat) → (value : Value N) → Parser N → Bool × Parser N
  | 0, _, p => (false, p)
  | rounds + 1, value, p =>
    match p.check .COMMA with
    | (true, p) =>
      let feedback := if isJSObject value then env.feedback (s.position p.cursor) else none
      match parseValue feedback p with
      | (none, p) => (false, p)
      | (some value, p) => parseElements rounds value {p with elementStack := value :: p.elementStack}
    | (false, p) => (true, p)

def parseJsonArray (p : Parser N) : Option (Value N) × Parser N :=
  if env.hasOverflowed (s.position p.cursor) then p.parseJsonValue s ν
  else
    match p.advance.check .RBRACK with
    | (true, p) => (some (.array []), p)
    | (false, p) =>
      let start := p.elementStack.length
      match p.parseNumberElements s ν (p.cursor.length + 1) [] [] false with
      | (.failed, _, _, _, p) => (none, p)
      | (.closed, smis, doubles, sawDouble, p) =>
        if sawDouble then (some (.array ((smis.map ν.ofInt ++ doubles).map .number)), p)
        else (some (.array (smis.map fun i => .number (ν.ofInt i))), p)
      | (.open, smis, doubles, _, p) =>
        let numbers := (smis.map ν.ofInt ++ doubles).map Value.number
        let p := {p with elementStack := numbers.reverse ++ p.elementStack}
        match parseValue none p with
        | (none, p) => (none, p)
        | (some value, p) =>
          match parseElements s env parseValue (p.cursor.length + 1) value {p with elementStack := value :: p.elementStack} with
          | (false, p) => (none, p)
          | (true, p) =>
            match p.expect s .RBRACK .kJsonParseExpectedCommaOrRBrack with
            | (false, p) => (none, p)
            | (true, p) => (some (.array (since p.elementStack start)), {p with elementStack := resize p.elementStack start})

end

/-- With a bound on the depth. -/
def parseJsonValueRecursive (s : Source) (ν : Numbers N) (env : Environment) :
    (depth : Nat) → Option Feedback → Parser N → Option (Value N) × Parser N
  | 0, _, p => (none, p)
  | depth + 1, feedback, p =>
    let p := p.getNextNonWhitespaceToken
    match p.next with
    | .NUMBER =>
      let (value, p) := p.parseJsonNumber s ν
      (some value, p)
    | .STRING =>
      let (value, p) := p.parseJsonString s
      (some value, p)
    | .TRUE_LITERAL => (some (.boolean true), p.scanLiteral s (booleanText true))
    | .FALSE_LITERAL => (some (.boolean false), p.scanLiteral s (booleanText false))
    | .NULL_LITERAL => (some .null, p.scanLiteral s nullText)
    | .LBRACE => p.parseJsonObject s ν env (parseJsonValueRecursive s ν env depth) feedback
    | .LBRACK => p.parseJsonArray s ν env (parseJsonValueRecursive s ν env depth)
    | .COLON | .COMMA | .ILLEGAL | .RBRACE | .RBRACK | .EOS | .WHITESPACE =>
      (none, p.reportUnexpectedCharacter s (currentCharacter p.cursor))

end Parser

/-- The value, or the error that was reported. With neither, a bound of the model was too small. -/
structure Parsed (N : Type) where
  result : Option (Value N)
  exception : Option JsonError

def Source.parseJson {N : Type} (s : Source) (ν : Numbers N) (env : Environment) : Parsed N :=
  match (⟨s.chars, .EOS, none, [], []⟩ : Parser N).parseJsonValueRecursive s ν env (s.chars.length + 1) none with
  | (none, p) => ⟨none, p.exception⟩
  | (some value, p) =>
    match p.expectNext s .EOS .kJsonParseUnexpectedNonWhiteSpaceCharacter with
    | (false, p) => ⟨none, p.exception⟩
    | (true, p) => if p.exception.isSome then ⟨none, p.exception⟩ else ⟨some value, none⟩

end V8Multithread.Json
