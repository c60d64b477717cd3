import V8Multithread.Json.ParserSteps

/-! The iterative parser reads what the grammar's reader reads.

A continuation on the stack is a list that was begun: an array, or an object. `finish` says what it is
worth to have a value for the innermost one: the rest of that list is read, the value it makes is given
to the next one, and so on down to the value that is returned. No turn of the loops changes what the
state is worth. -/
namespace V8Multithread.Json
open Nat List Option JsonContinuation Source Parser

/-! ### Stacks -/

section
variable {α : Type} {stack : List α} {start : Nat}

theorem since_cons (h : start ≤ stack.length) (x : α) : since (x :: stack) start = since stack start ++ [x] := by
  rw [since, since, length_cons, succ_sub h, take_succ_cons, reverse_cons]

theorem resize_cons (h : start ≤ stack.length) (x : α) : resize (x :: stack) start = resize stack start := by
  rw [resize, resize, length_cons, succ_sub h, drop_succ_cons]

@[simp] theorem since_self : since stack stack.length = [] := by
  rw [since, Nat.sub_self]
  rfl

@[simp] theorem resize_self : resize stack stack.length = stack := by
  rw [resize, Nat.sub_self]
  rfl

theorem length_resize (h : start ≤ stack.length) : (resize stack start).length = start := by
  rw [resize, length_drop]
  omega

end

/-! ### Outcomes -/

/-- A parser without its token and its exception. -/
structure Frame (N : Type) where
  cursor : Cursor
  elementStack : List (Value N)
  propertyStack : List (JsonProperty N)

def Parser.frame {N : Type} (p : Parser N) : Frame N := ⟨p.cursor, p.elementStack, p.propertyStack⟩

/-- Without a value and with an error, or with a value that will not do. -/
def Fails {N : Type} (r : Option (Value N) × Parser N) : Prop :=
  (r.1 = none ∧ r.2.exception.isSome = true) ∨ (r.1.isSome = true ∧ r.2.Doomed)

def Yields {N : Type} (expected : Option (Value N × Frame N)) (r : Option (Value N) × Parser N) : Prop :=
  match expected with
  | some (v, frame) => r.1 = some v ∧ r.2.frame = frame ∧ r.2.exception = none
  | none => Fails r

def Parser.expected {N : Type} (s : Source) (ν : Numbers N) (p : Parser N) : Option (Value N × Frame N) :=
  (s.readValue ν p.cursor).map fun (v, rest) => (v, {p.frame with cursor := rest})

section
variable {N : Type} (s : Source) (ν : Numbers N)

def Source.property (p : JsonProperty N) : Key × Value N := (s.key p.string, p.value)

/-! ### What a state is worth -/

/-- The continuations take what they find on the stacks, each from its own index on. A property waits
for its value on top of those of an object. -/
def Nested : List JsonContinuation → (elements properties : Nat) → Prop
  | [], _, _ => False
  | cont :: conts, elements, properties =>
    match cont.type with
    | .kReturn => True
    | .kArrayElement => cont.index ≤ elements ∧ Nested conts cont.index properties
    | .kObjectProperty => cont.index < properties ∧ Nested conts elements cont.index

def finish : List JsonContinuation → Value N → Frame N → Option (Value N × Frame N)
  | [], _, _ => none
  | cont :: conts, v, frame =>
    match cont.type with
    | .kReturn => some (v, frame)
    | .kArrayElement =>
      (s.readElementsRest ν frame.cursor).bind fun (vs, rest) =>
        finish conts (.array (since frame.elementStack cont.index ++ v :: vs))
          {frame with cursor := rest, elementStack := resize frame.elementStack cont.index}
    | .kObjectProperty =>
      (s.readMembersRest ν frame.cursor).bind fun (ps, rest) =>
        finish conts (.object ((since (Iteration.storeValue v frame.propertyStack) cont.index).map s.property ++ ps))
          {frame with cursor := rest, propertyStack := resize frame.propertyStack cont.index}

def Iteration.conts (it : Iteration N) : List JsonContinuation := it.cont :: it.contStack

def Turn.worth : Turn N → Option (Value N × Frame N)
  | .produce it =>
    (s.readValue ν it.parser.cursor).bind fun (v, rest) => finish s ν it.conts v {it.parser.frame with cursor := rest}
  | .consume v it => finish s ν it.conts v it.parser.frame
  | .done result p => result.map (·, p.frame)

structure Iteration.Good (it : Iteration N) : Prop where
  running : it.parser.exception = none
  suffix : it.parser.cursor <:+ s.chars
  nested : Nested it.conts it.parser.elementStack.length it.parser.propertyStack.length

def Turn.cursor : Turn N → Cursor
  | .produce it => it.parser.cursor
  | .consume _ it => it.parser.cursor
  | .done _ p => p.cursor

def Turn.Bad : Turn N → Prop
  | .produce _ => False
  | .consume _ it => it.parser.Doomed
  | .done result p => result = none ∧ p.exception.isSome = true

def Turn.Good : Turn N → Prop
  | .produce it => it.Good s
  | .consume _ it => it.Good s
  | .done result p => result.isSome = true ∧ p.exception = none

/-- A turn keeps what the state is worth and moves the cursor, unless it is the end. -/
def Turn.Keeps (worth : Option (Value N × Frame N)) (cursor : Cursor) (next : Turn N) : Prop :=
  (next.Good s ∧ next.worth s ν = worth ∧ ((∃ r p, next = .done r p) ∨ next.cursor.length < cursor.length)) ∨
    (worth = none ∧ next.Bad)

end

/-! ### Keys -/

section
variable {N : Type} {s : Source} {ν : Numbers N}

theorem new_index (type : ContinuationType) (index : Nat) : (new type index).index = index := rfl

theorem finish_array {cont : JsonContinuation} (hty : cont.type = .kArrayElement) (conts : List JsonContinuation)
    (v : Value N) (frame : Frame N) :
    finish s ν (cont :: conts) v frame = (s.readElementsRest ν frame.cursor).bind fun (vs, rest) =>
      finish s ν conts (.array (since frame.elementStack cont.index ++ v :: vs))
        {frame with cursor := rest, elementStack := resize frame.elementStack cont.index} := by
  simp only [finish, hty]

theorem finish_object {cont : JsonContinuation} (hty : cont.type = .kObjectProperty) (conts : List JsonContinuation)
    (v : Value N) (frame : Frame N) :
    finish s ν (cont :: conts) v frame = (s.readMembersRest ν frame.cursor).bind fun (ps, rest) =>
      finish s ν conts (.object ((since (Iteration.storeValue v frame.propertyStack) cont.index).map s.property ++ ps))
        {frame with cursor := rest, propertyStack := resize frame.propertyStack cont.index} := by
  simp only [finish, hty]

theorem Turn.Keeps.of_le {worth : Option (Value N × Frame N)} {cursor cursor' : Cursor} {next : Turn N}
    (h : Turn.Keeps s ν worth cursor next) (hle : cursor.length ≤ cursor'.length) : Turn.Keeps s ν worth cursor' next := by
  rcases h with ⟨hg, hwo, hdo | hlt⟩ | hbad
  · exact .inl ⟨hg, hwo, .inl hdo⟩
  · exact .inl ⟨hg, hwo, .inr (hlt.trans_le hle)⟩
  · exact .inr hbad

variable {rest : Cursor} {p : Parser N}

theorem key_string {needsInternalization : Bool} {pieces : List Piece}
    (hsu : written pieces ++ 0x22 :: rest <:+ s.chars) :
    s.key (.string (s.position (written pieces ++ 0x22 :: rest)) pieces.length (s.width.needsConversion (units pieces))
      needsInternalization (pieces.any Piece.isEscape)) = .name (units pieces) := by
  simp only [Source.key, s.makeString_written needsInternalization pieces rest hsu, getD_some]

/-- A key is scanned as it is read. -/
theorem scanJsonPropertyKey_some (hsu : p.cursor <:+ s.chars) (cont : Elements) {key : Key}
    (h : s.readKey p.cursor = some (key, rest)) :
    ∃ token cont', p.scanJsonPropertyKey s cont = (token, cont', {p with cursor := rest}) ∧ s.key token = key := by
  rw [Parser.scanJsonPropertyKey, Source.scanJsonPropertyKey]
  cases hscan : scanArrayIndex p.cursor with
  | some result =>
    rw [readKey, hscan] at h
    cases h
    exact ⟨_, _, rfl, rfl⟩
  | none =>
    rw [readKey, hscan] at h
    obtain ⟨⟨u, after⟩, hst, heq⟩ := map_eq_some_iff.mp h
    cases heq
    obtain ⟨pieces, hcu, hu⟩ := readString_sound hsu hst
    subst hu
    rw [hcu] at hsu
    rw [hcu, s.scanJsonString_written true pieces rest hsu]
    exact ⟨_, _, rfl, key_string hsu⟩

theorem scanJsonPropertyKey_none (hrunning : p.exception = none) (hsu : p.cursor <:+ s.chars) (cont : Elements)
    (h : s.readKey p.cursor = none) :
    ∃ token cont' q, p.scanJsonPropertyKey s cont = (token, cont', q) ∧ q.Doomed := by
  rw [Parser.scanJsonPropertyKey, Source.scanJsonPropertyKey]
  cases hscan : scanArrayIndex p.cursor with
  | some result =>
    rw [readKey, hscan] at h
    cases h
  | none =>
    rw [readKey, hscan] at h
    cases hst : s.scanJsonString p.cursor true with
    | error e => exact ⟨_, _, _, rfl, reportUnexpectedError_doomed e hrunning⟩
    | ok result =>
      obtain ⟨pieces, hp⟩ := scanJsonString_sound hsu hst
      rw [hp] at hsu h
      rw [readString_written hsu] at h
      cases h

namespace Iteration

variable {it : Iteration N}

theorem parsePropertyKey_some (hsu : it.parser.cursor <:+ s.chars) {key : Key} {value : Cursor}
    (h : s.readKeyColon it.parser.cursor = some (key, value)) :
    ∃ token elements next, it.parsePropertyKey s = .produce ⟨{it.parser with
        cursor := value, next := next, propertyStack := ⟨token, .null⟩ :: it.parser.propertyStack},
        {it.cont with elements := elements}, it.contStack⟩ ∧ s.key token = key := by
  obtain ⟨⟨key', rest⟩, hkey, hmap⟩ := bind_eq_some_iff.mp h
  obtain ⟨value', hco, heq⟩ := map_eq_some_iff.mp hmap
  cases heq
  obtain ⟨token, cont', hscan, hto⟩ := scanJsonPropertyKey_some hsu it.cont.elements hkey
  let p : Parser N := {it.parser with cursor := rest, propertyStack := ⟨token, .null⟩ :: it.parser.propertyStack}
  have hex := @expectNext_of_some N s .COLON 0x3a rfl .kJsonParseExpectedColonAfterPropertyName p value hco
  obtain ⟨next, hnext⟩ := hex
  refine ⟨token, cont', next, ?_, hto⟩
  rw [parsePropertyKey, hscan]
  dsimp only
  rw [hnext]

theorem parsePropertyKey_none (hrunning : it.parser.exception = none) (hsu : it.parser.cursor <:+ s.chars)
    (h : s.readKeyColon it.parser.cursor = none) :
    (it.parsePropertyKey s).Bad := by
  obtain ⟨token, cont', q, hscan, hco⟩ : ∃ token cont' q,
      it.parser.scanJsonPropertyKey s it.cont.elements = (token, cont', q) ∧ punctuator 0x3a q.cursor = none := by
    cases hkey : s.readKey it.parser.cursor with
    | none =>
      obtain ⟨token, cont', q, hscan, hdo⟩ := scanJsonPropertyKey_none hrunning hsu it.cont.elements hkey
      exact ⟨token, cont', q, hscan, hdo.punctuator .COLON rfl⟩
    | some result =>
      obtain ⟨key, rest⟩ := result
      obtain ⟨token, cont', hscan, -⟩ := scanJsonPropertyKey_some hsu it.cont.elements hkey
      rw [readKeyColon, hkey, bind_some, map_eq_none_iff] at h
      exact ⟨token, cont', _, hscan, h⟩
  let p : Parser N := {q with propertyStack := ⟨token, .null⟩ :: q.propertyStack}
  have hex := @expectNext_of_none N s .COLON 0x3a rfl .kJsonParseExpectedColonAfterPropertyName p hco
  obtain ⟨p', hno, hso⟩ := hex
  rw [parsePropertyKey, hscan]
  dsimp only
  rw [hno]
  exact ⟨rfl, hso⟩

/-- What an object is worth at a key, after the quote: its properties so far, this one, and the rest. -/
def keyWorth (s : Source) (ν : Numbers N) (it : Iteration N) : Option (Value N × Frame N) :=
  (s.readKeyColon it.parser.cursor).bind fun (key, value) =>
    (s.readValue ν value).bind fun (v, rest) =>
      (s.readMembersRest ν rest).bind fun (ps, rest) =>
        finish s ν it.contStack (.object ((since it.parser.propertyStack it.cont.index).map s.property ++ (key, v) :: ps))
          {it.parser.frame with cursor := rest, propertyStack := resize it.parser.propertyStack it.cont.index}

theorem parsePropertyKey_keeps {it : Iteration N} (hrunning : it.parser.exception = none)
    (hsu : it.parser.cursor <:+ s.chars) (hty : it.cont.type = .kObjectProperty)
    (hin : it.cont.index ≤ it.parser.propertyStack.length)
    (hnested : Nested it.contStack it.parser.elementStack.length it.cont.index) :
    Turn.Keeps s ν (it.keyWorth s ν) it.parser.cursor (it.parsePropertyKey s) := by
  cases hkey : s.readKeyColon it.parser.cursor with
  | none => exact .inr ⟨by rw [keyWorth, hkey]; rfl, parsePropertyKey_none hrunning hsu hkey⟩
  | some result =>
    obtain ⟨key, value⟩ := result
    obtain ⟨token, elements, next, heq, hto⟩ := parsePropertyKey_some hsu hkey
    obtain ⟨hva, hl⟩ := readKeyColon_suffix hsu hkey
    rw [heq]
    refine .inl ⟨⟨hrunning, hva, ?_⟩, ?_, .inr hl⟩
    · simp only [Iteration.conts, Nested, hty]
      exact ⟨lt_succ_of_le hin, hnested⟩
    · rw [keyWorth, hkey, bind_some]
      simp only [Turn.worth, Iteration.conts, finish, hty, Parser.frame, storeValue, since_cons hin, resize_cons hin,
        map_append, map_cons, map_nil, append_assoc, cons_append, nil_append,
        Source.property, hto]

/-- The members of an object, one at least. -/
theorem keyWorth_members {it : Iteration N} {members : Cursor} (hsu : members <:+ s.chars) :
    ((s.readMembers ν members).bind fun (ps, rest) =>
      finish s ν it.contStack (.object ((since it.parser.propertyStack it.cont.index).map s.property ++ ps))
        {it.parser.frame with cursor := rest, propertyStack := resize it.parser.propertyStack it.cont.index}) =
      (punctuator 0x22 members).bind fun start =>
        ({it with parser := {it.parser with cursor := start}} : Iteration N).keyWorth s ν := by
  rw [readMembers_bind hsu]
  simp only [Option.bind_assoc, keyWorth, Parser.frame]
  cases punctuator 0x22 members with
  | none => rfl
  | some start =>
    simp only [bind_some, bind_map]
    rfl

/-! ### The loop that produces a value -/

/-- A value of one token is produced. -/
theorem scans_keeps (hg : it.Good s) {r : Value N × Parser N}
    (h : it.parser.getNextNonWhitespaceToken.Scans (s.readValue ν it.parser.cursor) r) :
    Turn.Keeps s ν ((Turn.produce it).worth s ν) it.parser.cursor (.consume r.1 {it with parser := r.2}) := by
  cases hre : s.readValue ν it.parser.cursor with
  | none =>
    rw [hre] at h
    exact .inr ⟨by simp only [Turn.worth, hre, bind_none], h⟩
  | some result =>
    obtain ⟨v, rest⟩ := result
    obtain ⟨hsu, hl⟩ := readValue_suffix hg.suffix hre
    rw [hre] at h
    cases h
    refine .inl ⟨⟨hg.running, hsu, hg.nested⟩, ?_, .inr hl⟩
    simp only [Turn.worth, hre, bind_some]
    rfl

/-- The brace of an object. -/
theorem produce_object (hg : it.Good s) (hskip : skipWhitespace it.parser.cursor = 0x7b :: rest) :
    Turn.Keeps s ν ((Turn.produce it).worth s ν) it.parser.cursor (it.produce s ν) := by
  have hrest : rest <:+ s.chars := (suffix_cons _ _).trans (hskip ▸ skipWhitespace_suffix hg.suffix)
  have hl : rest.length < it.parser.cursor.length := by
    have hle := length_skipWhitespace it.parser.cursor
    rwa [hskip, length_cons, succ_le_iff] at hle
  have hre := s.readValue_cons ν hskip
  simp only [produce, getNextNonWhitespaceToken_eq, hskip, show tokenAt (0x7b :: rest) = .LBRACE from rfl,
    advance, tail_cons]
  let p : Parser N := {it.parser with cursor := rest, next := .LBRACE}
  cases hbr : punctuator 0x7d rest with
  | some after =>
    obtain ⟨next, hch⟩ := @check_of_some N .RBRACE 0x7d rfl p after hbr
    rw [readToken_brace, hbr] at hre
    rw [hch]
    have hafter := length_punctuator hbr
    refine .inl ⟨⟨hg.running, punctuator_suffix hrest hbr, hg.nested⟩, ?_, .inr ?_⟩
    · simp only [Turn.worth, hre, bind_some]
      rfl
    · exact hafter.trans hl
  | none =>
    rw [(@check_of_none N .RBRACE 0x7d rfl p hbr).1]
    rw [readToken_brace, hbr] at hre
    let it' : Iteration N := ⟨p, new .kObjectProperty it.parser.propertyStack.length, it.conts⟩
    have hwo : (Turn.produce it).worth s ν = (punctuator 0x22 rest).bind fun start =>
        ({it' with parser := {p with cursor := start}} : Iteration N).keyWorth s ν := by
      rw [← @keyWorth_members N s ν it' rest hrest, Turn.worth, hre, bind_map]
      simp only [it', p, new, since_self, resize_self, map_nil, nil_append]
      rfl
    rw [hwo]
    cases hqu : punctuator 0x22 rest with
    | none =>
      obtain ⟨q, hex, hso⟩ :=
        @expect_getNext_of_none N s .STRING 0x22 rfl .kJsonParseExpectedPropNameOrRBrace p hqu
      dsimp only
      rw [hex]
      exact .inr ⟨rfl, rfl, hso⟩
    | some start =>
      have hex := @expect_getNext_of_some N s .STRING 0x22 rfl .kJsonParseExpectedPropNameOrRBrace p start hqu
      have hst := length_punctuator hqu
      dsimp only
      rw [hex]
      refine (@parsePropertyKey_keeps N s ν {it' with parser := {p with cursor := start, next := .STRING}} hg.running
        (punctuator_suffix hrest hqu) rfl (le_refl _) hg.nested).of_le ?_
      exact (hst.trans hl).le

/-- The bracket of an array. -/
theorem produce_array (hg : it.Good s) (hskip : skipWhitespace it.parser.cursor = 0x5b :: rest) :
    Turn.Keeps s ν ((Turn.produce it).worth s ν) it.parser.cursor (it.produce s ν) := by
  have hrest : rest <:+ s.chars := (suffix_cons _ _).trans (hskip ▸ skipWhitespace_suffix hg.suffix)
  have hl : rest.length < it.parser.cursor.length := by
    have hle := length_skipWhitespace it.parser.cursor
    rwa [hskip, length_cons, succ_le_iff] at hle
  have hre := s.readValue_cons ν hskip
  simp only [produce, getNextNonWhitespaceToken_eq, hskip, show tokenAt (0x5b :: rest) = .LBRACK from rfl,
    advance, tail_cons]
  let p : Parser N := {it.parser with cursor := rest, next := .LBRACK}
  cases hbr : punctuator 0x5d rest with
  | some after =>
    obtain ⟨next, hch⟩ := @check_of_some N .RBRACK 0x5d rfl p after hbr
    have hafter := length_punctuator hbr
    rw [readToken_bracket, hbr] at hre
    rw [hch]
    refine .inl ⟨⟨hg.running, punctuator_suffix hrest hbr, hg.nested⟩, ?_, .inr (hafter.trans hl)⟩
    simp only [Turn.worth, hre, bind_some]
    rfl
  | none =>
    rw [(@check_of_none N .RBRACK 0x5d rfl p hbr).1, getNextNonWhitespaceToken_eq]
    rw [readToken_bracket, hbr, readElements_bind hrest] at hre
    have hsk := length_skipWhitespace rest
    refine .inl ⟨⟨hg.running, skipWhitespace_suffix hrest, ?_⟩, ?_, .inr (hsk.trans_lt hl)⟩
    · exact ⟨le_refl _, hg.nested⟩
    · simp only [finish_array (show (new .kArrayElement _).type = _ from rfl), Function.comp_def, p, Turn.worth, hre, readValue_skipWhitespace, bind_map, map_bind, Option.bind_assoc,
        Iteration.conts, Parser.frame, new_index, since_self, resize_self, nil_append]

/-- One round keeps what the state is worth. -/
theorem produce_keeps (hg : it.Good s) :
    Turn.Keeps s ν ((Turn.produce it).worth s ν) it.parser.cursor (it.produce s ν) := by
  have hsu := skipWhitespace_suffix hg.suffix
  cases hskip : skipWhitespace it.parser.cursor with
  | nil =>
    have hre := s.readValue_nil ν hskip
    simp only [produce, getNextNonWhitespaceToken_eq, hskip, show tokenAt [] = .EOS from rfl]
    exact .inr ⟨by simp only [Turn.worth, hre, bind_none], rfl, reportUnexpectedError_isSome _ _⟩
  | cons c rest =>
    have hre := s.readValue_cons ν hskip
    have hrunning : it.parser.getNextNonWhitespaceToken.exception = none := by
      rw [getNextNonWhitespaceToken_eq]
      exact hg.running
    have hcu : it.parser.getNextNonWhitespaceToken.cursor = c :: rest := by
      rw [getNextNonWhitespaceToken_eq, hskip]
    have hnext : it.parser.getNextNonWhitespaceToken.next = getTokenForCharacter c := by
      rw [getNextNonWhitespaceToken_eq, hskip]
      rfl
    rw [hskip, ← hcu] at hsu
    cases hto : getTokenForCharacter c with
    | STRING =>
      simp only [produce, hnext, hto]
      exact scans_keeps hg (hre ▸ scans_string hrunning hcu hsu hto)
    | NUMBER =>
      simp only [produce, hnext, hto]
      exact scans_keeps hg (hre ▸ scans_number hrunning hcu hto)
    | TRUE_LITERAL =>
      simp only [produce, hnext, hto]
      exact scans_keeps hg (hre ▸ scans_boolean hrunning hcu true hto)
    | FALSE_LITERAL =>
      simp only [produce, hnext, hto]
      exact scans_keeps hg (hre ▸ scans_boolean hrunning hcu false hto)
    | NULL_LITERAL =>
      simp only [produce, hnext, hto]
      exact scans_keeps hg (hre ▸ scans_null hrunning hcu hto)
    | LBRACE =>
      obtain rfl : c = 0x7b := token_character (by rw [hto]; rfl)
      exact produce_object hg hskip
    | LBRACK =>
      obtain rfl : c = 0x5b := token_character (by rw [hto]; rfl)
      exact produce_array hg hskip
    | COLON | COMMA | ILLEGAL | RBRACE | RBRACK | EOS | WHITESPACE =>
      simp only [produce, hnext, hto]
      refine .inr ⟨?_, rfl, reportUnexpectedError_isSome _ _⟩
      simp only [Turn.worth, hre, readToken, hto, bind_none]

/-! ### The loop that consumes a value -/

theorem length_storeValue (v : Value N) (stack : List (JsonProperty N)) : (storeValue v stack).length = stack.length := by
  cases stack <;> rfl

theorem resize_storeValue (v : Value N) {stack : List (JsonProperty N)} {index : Nat} (h : index < stack.length) :
    resize (storeValue v stack) index = resize stack index := by
  cases stack with
  | nil => cases h
  | cons property stack =>
    rw [storeValue, resize_cons (le_of_lt_succ h), resize_cons (le_of_lt_succ h)]

/-- The value of the innermost list is handed to the one around it. -/
theorem pop_keeps {p : Parser N} {contStack : List JsonContinuation} (hrunning : p.exception = none)
    (hsu : p.cursor <:+ s.chars) (hnested : Nested contStack p.elementStack.length p.propertyStack.length)
    (v : Value N) {cursor : Cursor} (hlt : p.cursor.length < cursor.length) :
    Turn.Keeps s ν (finish s ν contStack v p.frame) cursor (pop p v contStack) := by
  cases contStack with
  | nil => cases hnested
  | cons cont contStack => exact .inl ⟨⟨hrunning, hsu, hnested⟩, rfl, .inr hlt⟩

theorem consume_array (hg : it.Good s) (hty : it.cont.type = .kArrayElement) (v : Value N) :
    Turn.Keeps s ν ((Turn.consume v it).worth s ν) it.parser.cursor (it.consume s v) := by
  have hnested := hg.nested
  simp only [conts, Nested, hty] at hnested
  obtain ⟨hin, hnested⟩ := hnested
  let p : Parser N := {it.parser with elementStack := v :: it.parser.elementStack}
  rw [Turn.worth, conts, finish_array hty]
  simp only [consume, hty]
  cases hco : punctuator 0x2c it.parser.cursor with
  | some rest =>
    obtain ⟨next, hch⟩ := @check_of_some N .COMMA 0x2c rfl p rest hco
    have hrest := punctuator_suffix hg.suffix hco
    have hel : s.readElementsRest ν it.parser.frame.cursor = s.readElements ν rest := by
      simp only [readElementsRest, Parser.frame, hco]
    rw [hch]
    refine .inl ⟨⟨hg.running, hrest, ?_⟩, ?_, .inr (length_punctuator hco)⟩
    · simp only [conts, Nested, hty]
      exact ⟨hin.trans (le_succ _), hnested⟩
    · rw [hel, readElements_bind hrest]
      simp only [Turn.worth, conts, finish_array hty, Parser.frame, p, since_cons hin, resize_cons hin,
        Option.bind_assoc, bind_map, Function.comp_def, append_assoc, singleton_append]
  | none =>
    have hel : s.readElementsRest ν it.parser.frame.cursor = (punctuator 0x5d it.parser.cursor).map ([], ·) := by
      simp only [readElementsRest, Parser.frame, hco]
    rw [(@check_of_none N .COMMA 0x2c rfl p hco).1, hel]
    cases hbr : punctuator 0x5d it.parser.cursor with
    | none =>
      obtain ⟨q, hex, hso⟩ :=
        @expect_getNext_of_none N s .RBRACK 0x5d rfl .kJsonParseExpectedCommaOrRBrack p hbr
      dsimp only
      rw [hex]
      exact .inr ⟨rfl, rfl, hso⟩
    | some rest =>
      dsimp only
      rw [@expect_getNext_of_some N s .RBRACK 0x5d rfl .kJsonParseExpectedCommaOrRBrack p rest hbr]
      have hst : p.getNextNonWhitespaceToken.elementStack = v :: it.parser.elementStack := by
        rw [getNextNonWhitespaceToken_eq]
      let q : Parser N :=
        {p with cursor := rest, next := .RBRACK, elementStack := resize it.parser.elementStack it.cont.index}
      have hke := @pop_keeps N s ν q it.contStack hg.running
        (punctuator_suffix hg.suffix hbr) (by rw [length_resize hin]; exact hnested)
        (.array (since it.parser.elementStack it.cont.index ++ [v])) it.parser.cursor (length_punctuator hbr)
      simp only [hst, since_cons hin, resize_cons hin, map_some, bind_some, p]
      exact hke

theorem consume_object (hg : it.Good s) (hty : it.cont.type = .kObjectProperty) (v : Value N) :
    Turn.Keeps s ν ((Turn.consume v it).worth s ν) it.parser.cursor (it.consume s v) := by
  have hnested := hg.nested
  simp only [conts, Nested, hty] at hnested
  obtain ⟨hin, hnested⟩ := hnested
  let p : Parser N := {it.parser with propertyStack := storeValue v it.parser.propertyStack}
  let it' : Iteration N := {it with parser := p}
  have hst : it.cont.index ≤ p.propertyStack.length := by
    rw [length_storeValue]
    exact hin.le
  rw [Turn.worth, conts, finish_object hty]
  simp only [consume, hty]
  cases hco : punctuator 0x2c it.parser.cursor with
  | some rest =>
    obtain ⟨next, hch⟩ := @check_of_some N .COMMA 0x2c rfl p rest hco
    have hrest := punctuator_suffix hg.suffix hco
    have hme : s.readMembersRest ν it.parser.frame.cursor = s.readMembers ν rest := by
      simp only [readMembersRest, Parser.frame, hco]
    have hwo := @keyWorth_members N s ν it' rest hrest
    simp only [it', p, resize_storeValue v hin] at hwo
    rw [hme, hch]
    dsimp only
    refine Eq.mpr (congrArg (Turn.Keeps s ν · it.parser.cursor _) hwo) ?_
    let p' : Parser N := {p with cursor := rest, next := next}
    cases hqu : punctuator 0x22 rest with
    | none =>
      obtain ⟨q, hex, hso⟩ :=
        @expectNext_of_none N s .STRING 0x22 rfl .kJsonParseExpectedDoubleQuotedPropertyName p' hqu
      rw [hex]
      exact .inr ⟨rfl, rfl, hso⟩
    | some start =>
      obtain ⟨next', hex⟩ :=
        @expectNext_of_some N s .STRING 0x22 rfl .kJsonParseExpectedDoubleQuotedPropertyName p' start hqu
      have hl := length_punctuator hqu
      rw [hex]
      exact (@parsePropertyKey_keeps N s ν {it with parser := {p' with cursor := start, next := next'}} hg.running
        (punctuator_suffix hrest hqu) hty hst hnested).of_le
        (hl.trans (length_punctuator hco)).le
  | none =>
    have hme : s.readMembersRest ν it.parser.frame.cursor = (punctuator 0x7d it.parser.cursor).map ([], ·) := by
      simp only [readMembersRest, Parser.frame, hco]
    rw [(@check_of_none N .COMMA 0x2c rfl p hco).1, hme]
    cases hbr : punctuator 0x7d it.parser.cursor with
    | none =>
      obtain ⟨q, hex, hso⟩ :=
        @expect_getNext_of_none N s .RBRACE 0x7d rfl .kJsonParseExpectedCommaOrRBrace p hbr
      dsimp only
      rw [hex]
      exact .inr ⟨rfl, rfl, hso⟩
    | some rest =>
      dsimp only
      rw [@expect_getNext_of_some N s .RBRACE 0x7d rfl .kJsonParseExpectedCommaOrRBrace p rest hbr]
      have hsta : p.getNextNonWhitespaceToken.propertyStack = p.propertyStack := by
        rw [getNextNonWhitespaceToken_eq]
      let q : Parser N :=
        {p with cursor := rest, next := .RBRACE, propertyStack := resize it.parser.propertyStack it.cont.index}
      have hke := @pop_keeps N s ν q it.contStack hg.running
        (punctuator_suffix hg.suffix hbr) (by rw [length_resize hin.le]; exact hnested)
        (s.buildJsonObject (since p.propertyStack it.cont.index)) it.parser.cursor (length_punctuator hbr)
      simp only [hsta, resize_storeValue v hin, map_some, bind_some, append_nil, p] at hke ⊢
      exact hke

theorem consume_keeps (hg : it.Good s) (v : Value N) :
    Turn.Keeps s ν ((Turn.consume v it).worth s ν) it.parser.cursor (it.consume s v) := by
  cases hty : it.cont.type with
  | kArrayElement => exact consume_array hg hty v
  | kObjectProperty => exact consume_object hg hty v
  | kReturn =>
    simp only [Turn.worth, conts, finish, consume, hty]
    exact .inl ⟨⟨rfl, hg.running⟩, rfl, .inl ⟨_, _, rfl⟩⟩

/-- A value that will not do ends the loops. -/
theorem consume_doomed {it : Iteration N} (hdo : it.parser.Doomed) (v : Value N) :
    ∃ result p, it.consume s v = .done result p ∧ Fails (result, p) := by
  cases hty : it.cont.type with
  | kReturn =>
    simp only [consume, hty]
    exact ⟨_, _, rfl, .inr ⟨rfl, hdo⟩⟩
  | kArrayElement =>
    let p : Parser N := {it.parser with elementStack := v :: it.parser.elementStack}
    have hp : p.Doomed := hdo
    obtain ⟨q, hex, hso⟩ := @expect_getNext_of_none N s .RBRACK 0x5d rfl .kJsonParseExpectedCommaOrRBrack p
      (hp.punctuator .RBRACK rfl)
    simp only [consume, hty]
    rw [hp.check .COMMA rfl]
    dsimp only
    rw [hex]
    exact ⟨_, _, rfl, .inl ⟨rfl, hso⟩⟩
  | kObjectProperty =>
    let p : Parser N := {it.parser with propertyStack := storeValue v it.parser.propertyStack}
    have hp : p.Doomed := hdo
    obtain ⟨q, hex, hso⟩ := @expect_getNext_of_none N s .RBRACE 0x7d rfl .kJsonParseExpectedCommaOrRBrace p
      (hp.punctuator .RBRACE rfl)
    simp only [consume, hty]
    rw [hp.check .COMMA rfl]
    dsimp only
    rw [hex]
    exact ⟨_, _, rfl, .inl ⟨rfl, hso⟩⟩

end Iteration

/-! ### The two loops -/

theorem Turn.run_done (rounds : Nat) (result : Option (Value N)) (p : Parser N) :
    (Turn.done result p).run s ν rounds = (result, p) := by
  cases rounds <;> rfl

theorem Turn.run_bad {turn : Turn N} (hbad : turn.Bad) (rounds : Nat) : Fails (turn.run s ν (rounds + 1)) := by
  cases turn with
  | produce it => cases hbad
  | done result p =>
    rw [run_done]
    exact .inl hbad
  | consume v it =>
    obtain ⟨result, p, hdo, hfa⟩ := @Iteration.consume_doomed N s it hbad v
    rw [run, hdo, run_done]
    exact hfa

theorem Turn.run_yields {turn : Turn N} (rounds : Nat) (hg : turn.Good s) (hro : turn.cursor.length + 1 < rounds) :
    Yields (turn.worth s ν) (turn.run s ν rounds) := by
  induction rounds generalizing turn with
  | zero => omega
  | succ rounds ih =>
    -- a round is good again, with fewer characters left, or it is the last but one
    have hround : ∀ next : Turn N, Turn.Keeps s ν (turn.worth s ν) turn.cursor next →
        Yields (turn.worth s ν) (next.run s ν rounds) := by
      intro next hke
      rcases hke with ⟨hnext, hwo, ⟨result, p, hdo⟩ | hlt⟩ | ⟨hno, hbad⟩
      · subst hdo
        obtain ⟨hre, hrunning⟩ := hnext
        obtain ⟨v, hv⟩ := isSome_iff_exists.mp hre
        rw [← hwo, run_done, hv]
        exact ⟨rfl, rfl, hrunning⟩
      · rw [← hwo]
        exact ih hnext (by omega)
      · rw [hno]
        obtain ⟨k, hk⟩ : ∃ k, rounds = k + 1 := ⟨rounds - 1, by omega⟩
        rw [hk]
        exact run_bad hbad k
    cases turn with
    | produce it => exact hround _ (Iteration.produce_keeps hg)
    | consume v it => exact hround _ (Iteration.consume_keeps hg v)
    | done result p =>
      obtain ⟨hre, hrunning⟩ := hg
      obtain ⟨v, hv⟩ := isSome_iff_exists.mp hre
      subst hv
      exact ⟨rfl, rfl, hrunning⟩

/-- The iterative parser reads a value. -/
theorem Parser.parseJsonValue_yields (hrunning : p.exception = none) (hsu : p.cursor <:+ s.chars) :
    Yields (p.expected s ν) (p.parseJsonValue s ν) := by
  have hg : (Turn.produce ⟨p, new .kReturn 0, []⟩ : Turn N).Good s := ⟨hrunning, hsu, trivial⟩
  have hy := @Turn.run_yields N s ν _ (p.cursor.length + 2) hg (lt_succ_self _)
  have hwo : (Turn.produce ⟨p, new .kReturn 0, []⟩ : Turn N).worth s ν = p.expected s ν := by
    rw [Turn.worth, Parser.expected]
    cases s.readValue ν p.cursor <;> rfl
  rw [hwo] at hy
  exact hy

end

end V8Multithread.Json
