import V8Multithread.Json.IterativeParser

/-! The recursive parser reads what the grammar's reader reads, whatever maps it is given to guess the
keys of an object from, and wherever it hands over to the iterative one. -/
namespace V8Multithread.Json
open Nat List Option Source

/-! ### Keys that are guessed -/

/-- Plain characters are written as they are. -/
theorem written_plain {chars : List Nat} (h : ∀ c ∈ chars, Plain c) :
    ∃ pieces, written pieces = chars ∧ units pieces = chars := by
  induction chars with
  | nil => exact ⟨[], rfl, rfl⟩
  | cons c chars ih =>
    obtain ⟨pieces, hwr, hu⟩ := ih fun c' hc' => h c' (mem_cons_of_mem c hc')
    refine ⟨.plain c (h c mem_cons_self) :: pieces, ?_, ?_⟩
    · rw [written_cons, hwr]
      rfl
    · rw [units_cons, hu]
      rfl

section
variable {N : Type} {s : Source} {ν : Numbers N}

variable {rest : Cursor} {p : Parser N} {bound : Nat}

theorem key_plain {chars : List Nat} (hsu : chars ++ 0x22 :: rest <:+ s.chars) :
    s.key (.string (s.position (chars ++ 0x22 :: rest)) chars.length false true false) = .name chars := by
  have hbo : ∀ c ∈ chars, c ≤ s.width.maxChar :=
    fun c hc => s.bounded c (hsu.subset (mem_append_left _ hc))
  have hsi : (if (s.width = .one) = True then Width.one else Width.two) = s.width := by
    cases s.width <;> simp
  have hma : s.makeString (.string (s.position (chars ++ 0x22 :: rest)) chars.length false true false) = some chars := by
    simp only [makeString, drop_position hsu]
    split
    · next hzero => rw [length_eq_zero_iff.mp hzero]
    split
    · next hone =>
      obtain ⟨u, hu⟩ := length_eq_one_iff.mp hone
      rw [hu]
      rfl
    · rw [if_neg (by decide), if_pos (by simp), take_left, hsi, map_store hbo]
  simp only [Source.key, hma, getD_some]

/-- A fast key that is there is the one that would have been read. -/
theorem fastKeyMatch_key {d : Descriptor} (hfa : d.Fast) (hsu : p.cursor <:+ s.chars)
    (hma : p.fastKeyMatch (Parser.PropertyName.fastKeyChars d.name)) :
    let chars := Parser.PropertyName.fastKeyChars d.name
    s.readKey p.cursor = some (.name chars, p.cursor.drop (chars.length + 1)) ∧
      s.key (.string (s.position p.cursor) chars.length false true false) = .name chars := by
  obtain ⟨chars, hna, hp, hin⟩ := hfa
  rw [hna] at hma ⊢
  simp only [Parser.PropertyName.fastKeyChars, Parser.fastKeyMatch, Bool.and_eq_true] at hma ⊢
  obtain ⟨⟨hl, hqu⟩, hta⟩ := hma
  replace hl := of_decide_eq_true hl
  replace hqu := of_decide_eq_true hqu
  replace hta := of_decide_eq_true hta
  have hcu : p.cursor = chars ++ 0x22 :: p.cursor.drop (chars.length + 1) := by
    conv_lhs => rw [← take_append_drop chars.length p.cursor, hta]
    rw [drop_eq_getElem_cons hl]
    rw [getElem?_eq_getElem hl, some_inj] at hqu
    rw [hqu]
  obtain ⟨pieces, hwr, hu⟩ := written_plain hp
  rw [hcu] at hsu
  constructor
  · have hre := @readKey_written _ pieces s (by rw [hwr]; exact hsu)
    rw [hwr, hu, Key.ofUnits_name fun ⟨i, heq, hi⟩ => hin i hi heq, ← hcu] at hre
    exact hre
  · have hkey := key_plain hsu
    rw [← hcu] at hkey
    exact hkey

/-! ### One property -/

/-- A parser of values that reads the texts with fewer characters than this. -/
def ReadsBelow (s : Source) (ν : Numbers N) (bound : Nat)
    (parseValue : Option Feedback → Parser N → Option (Value N) × Parser N) : Prop :=
  ∀ feedback (p : Parser N), p.exception = none → p.cursor <:+ s.chars → p.cursor.length < bound →
    Yields (p.expected s ν) (parseValue feedback p)

section
variable {parseValue : Option Feedback → Parser N → Option (Value N) × Parser N}

theorem ReadsBelow.mono {bound' : Nat} (h : ReadsBelow s ν bound parseValue) (hle : bound' ≤ bound) :
    ReadsBelow s ν bound' parseValue :=
  fun feedback p hrunning hsu hlt => h feedback p hrunning hsu (hlt.trans_le hle)

/-- Parsing a value ends with an error, with a value and a state that will not do, or with what is read. -/
theorem ReadsBelow.cases (h : ReadsBelow s ν bound parseValue) (feedback : Option Feedback) (p : Parser N)
    (hrunning : p.exception = none) (hsu : p.cursor <:+ s.chars) (hlt : p.cursor.length < bound) :
    (∃ p' : Parser N, parseValue feedback p = (none, p') ∧ s.readValue ν p.cursor = none ∧ p'.exception.isSome) ∨
    (∃ v p', parseValue feedback p = (some v, p') ∧ s.readValue ν p.cursor = none ∧ p'.Doomed) ∨
    (∃ v rest next, parseValue feedback p = (some v, {p with cursor := rest, next := next}) ∧
      s.readValue ν p.cursor = some (v, rest)) := by
  have hy := h feedback p hrunning hsu hlt
  rw [Parser.expected] at hy
  generalize parseValue feedback p = r at hy
  obtain ⟨result, p'⟩ := r
  cases hrea : s.readValue ν p.cursor with
  | none =>
    rw [hrea] at hy
    rcases hy with ⟨hre, hex⟩ | ⟨hre, hdo⟩
    · exact .inl ⟨p', by rw [show result = none from hre], rfl, hex⟩
    · obtain ⟨v, hv⟩ := isSome_iff_exists.mp hre
      exact .inr (.inl ⟨v, p', by rw [show result = some v from hv], rfl, hdo⟩)
  | some read =>
    obtain ⟨v, rest⟩ := read
    rw [hrea] at hy
    obtain ⟨hre, hframe, hex⟩ := hy
    obtain ⟨cursor, next, exception, elements, properties⟩ := p'
    dsimp only at hre hex
    cases hframe
    subst hre hex
    exact .inr (.inr ⟨v, _, next, by rw [hrunning], rfl⟩)

end

def Source.readMember (s : Source) (ν : Numbers N) (cursor : Cursor) : Option ((Key × Value N) × Cursor) :=
  ((punctuator 0x22 cursor).bind s.readKeyColon).bind fun (key, value) =>
    (s.readValue ν value).map fun (v, rest) => ((key, v), rest)

theorem readMembers_member {cursor : Cursor} (hsu : cursor <:+ s.chars) :
    s.readMembers ν cursor = (s.readMember ν cursor).bind fun (property, rest) =>
      (s.readMembersRest ν rest).map fun (ps, rest) => (property :: ps, rest) := by
  rw [readMembers_bind hsu, readMember]
  simp only [Option.bind_assoc, bind_map, Function.comp_def]

namespace Parser

def KeyScanned (s : Source) (p : Parser N) (token : JsonString) (q : Parser N) : Prop :=
  (∃ rest, s.readKey p.cursor = some (s.key token, rest) ∧ q = {p with cursor := rest}) ∨
    (s.readKey p.cursor = none ∧ q.Doomed)

theorem scanJsonPropertyKey_scanned {p : Parser N} (hrunning : p.exception = none) (hsu : p.cursor <:+ s.chars)
    (cont : Elements) :
    ∃ token cont' q, p.scanJsonPropertyKey s cont = (token, cont', q) ∧ KeyScanned s p token q := by
  cases hkey : s.readKey p.cursor with
  | none =>
    obtain ⟨token, cont', q, hscan, hdo⟩ := scanJsonPropertyKey_none hrunning hsu cont hkey
    exact ⟨token, cont', q, hscan, .inr ⟨hkey, hdo⟩⟩
  | some result =>
    obtain ⟨key, rest⟩ := result
    obtain ⟨token, cont', hscan, hto⟩ := scanJsonPropertyKey_some hsu cont hkey
    exact ⟨token, cont', _, hscan, .inl ⟨rest, by rw [hkey, hto], rfl⟩⟩

theorem fastKeyMatch_scanned {d : Descriptor} (hfa : d.Fast) {p : Parser N} (hsu : p.cursor <:+ s.chars)
    (hma : p.fastKeyMatch (PropertyName.fastKeyChars d.name)) :
    KeyScanned s p (.string (s.position p.cursor) (PropertyName.fastKeyChars d.name).length false true false)
      {p with cursor := p.cursor.drop ((PropertyName.fastKeyChars d.name).length + 1)} := by
  obtain ⟨hre, hkey⟩ := fastKeyMatch_key hfa hsu hma
  exact .inl ⟨_, by rw [hkey]; exact hre, rfl⟩

variable {parseValue : Option Feedback → Parser N → Option (Value N) × Parser N}

/-- The properties were pushed and the brace is next, or there is an error or no brace. -/
def Lists (s : Source) (expected : Option (List (Key × Value N) × Cursor)) (p : Parser N) (r : Bool × Parser N) : Prop :=
  match expected with
  | some (ps, rest) => ∃ properties : List (JsonProperty N), properties.map s.property = ps ∧
      r = (true, {p with cursor := 0x7d :: rest, next := .RBRACE, propertyStack := properties.reverse ++ p.propertyStack})
  | none => (r.1 = false ∧ r.2.exception.isSome = true) ∨ (r.1 = true ∧ r.2.next ≠ .RBRACE)

theorem Lists.cons {p : Parser N} {token : JsonString} {v : Value N} {rest : Cursor} {next : JsonToken} {r : Bool × Parser N}
    (hsu : p.cursor <:+ s.chars) (hme : s.readMember ν p.cursor = some ((s.key token, v), rest))
    (h : Lists s (s.readMembersRest ν rest)
      {p with cursor := rest, next := next, propertyStack := ⟨token, v⟩ :: p.propertyStack} r) :
    Lists s (s.readMembers ν p.cursor) p r := by
  rw [readMembers_member hsu, hme, bind_some]
  dsimp only
  cases hrest : s.readMembersRest ν rest with
  | none =>
    rw [hrest] at h
    exact h
  | some result =>
    obtain ⟨ps, rest'⟩ := result
    rw [hrest] at h
    obtain ⟨properties, hmap, heq⟩ := h
    refine ⟨⟨token, v⟩ :: properties, ?_, ?_⟩
    · rw [map_cons, hmap]
      rfl
    · rw [heq, reverse_cons, append_assoc]
      rfl

/-- What comes after a property: the properties that are read there, or nothing if the state will not do. -/
def Follows (s : Source) (ν : Numbers N) (bound : Nat) (p : Parser N) (r : Bool × Parser N) : Prop :=
  (p.exception = none → p.cursor <:+ s.chars → p.cursor.length < bound → Lists s (s.readMembersRest ν p.cursor) p r) ∧
    (p.Doomed → r = (true, p.getNextNonWhitespaceToken))

variable {q : Parser N}

/-- The value of a property ends with an error, or what follows it decides. -/
theorem parseJsonPropertyValue_outcome {start : Cursor} {token : JsonString}
    (hrea : ReadsBelow s ν bound parseValue) (hrunning : p.exception = none) (hsu : p.cursor <:+ s.chars)
    (hle : p.cursor.length ≤ bound) (hqu : punctuator 0x22 p.cursor = some start) {next : JsonToken}
    (hsc : KeyScanned s {p with cursor := start, next := next} token q) :
    (∃ p' : Parser N, q.parseJsonPropertyValue s parseValue token = (false, p') ∧
      Lists s (s.readMembers ν p.cursor) p (false, p')) ∨
    (∃ p' : Parser N, q.parseJsonPropertyValue s parseValue token = (true, p') ∧
      ∀ r, Follows s ν p.cursor.length p' r → Lists s (s.readMembers ν p.cursor) p r) := by
  have hst := punctuator_suffix hsu hqu
  have hl := length_punctuator hqu
  have hno : s.readMember ν p.cursor = none → s.readMembers ν p.cursor = none := by
    intro h
    rw [readMembers_member hsu, h, bind_none]
  have hfa : ∀ {p' : Parser N}, s.readMember ν p.cursor = none → p'.exception.isSome = true →
      Lists s (s.readMembers ν p.cursor) p (false, p') := by
    intro p' h hexc
    rw [hno h]
    exact .inl ⟨rfl, hexc⟩
  rcases hsc with ⟨rest, hkey, heq⟩ | ⟨hkey, hdo⟩
  · subst heq
    let q : Parser N := {p with cursor := rest, next := next}
    cases hco : punctuator 0x3a rest with
    | none =>
      obtain ⟨q', hex, hso⟩ :=
        @expectNext_of_none N s .COLON 0x3a rfl .kJsonParseExpectedColonAfterPropertyName q hco
      refine .inl ⟨q', ?_, hfa ?_ hso⟩
      · rw [parseJsonPropertyValue, hex]
      · simp only [readMember, hqu, readKeyColon, hkey, hco, bind_some, map_none, bind_none]
    | some value =>
      obtain ⟨next', hex⟩ :=
        @expectNext_of_some N s .COLON 0x3a rfl .kJsonParseExpectedColonAfterPropertyName q value hco
      have hke : s.readKeyColon start = some (s.key token, value) := by
        simp only [readKeyColon, hkey, hco, bind_some, map_some]
      obtain ⟨hval, hva⟩ := readKeyColon_suffix hst hke
      have hme : s.readMember ν p.cursor = (s.readValue ν value).map fun (v, rest) => ((s.key token, v), rest) := by
        simp only [readMember, hqu, hke, bind_some]
      rw [parseJsonPropertyValue, hex]
      dsimp only
      rcases hrea.cases none {q with cursor := value, next := next'} hrunning hval (by dsimp only; omega) with
        ⟨p', hp, hread, hexc⟩ | ⟨v, p', hp, hread, hdo⟩ | ⟨v, rest', next'', hp, hread⟩
      · rw [hp]
        exact .inl ⟨p', rfl, hfa (by rw [hme, hread]; rfl) hexc⟩
      · rw [hp]
        refine .inr ⟨_, rfl, fun r hfo => ?_⟩
        rw [hno (by rw [hme, hread]; rfl), hfo.2 hdo]
        exact .inr ⟨rfl, Doomed.next_ne hdo .RBRACE rfl⟩
      · obtain ⟨hrest, hre⟩ := readValue_suffix hval hread
        rw [hp]
        refine .inr ⟨_, rfl, fun r hfo => ?_⟩
        have hli := hfo.1 hrunning hrest ((hre.trans hva).trans hl)
        exact hli.cons hsu (by rw [hme, hread]; rfl)
  · obtain ⟨q', hex, hso⟩ := @expectNext_of_none N s .COLON 0x3a rfl .kJsonParseExpectedColonAfterPropertyName q
      (hdo.punctuator .COLON rfl)
    refine .inl ⟨q', ?_, hfa ?_ hso⟩
    · rw [parseJsonPropertyValue, hex]
    · dsimp only at hkey
      simp only [readMember, hqu, readKeyColon, hkey, bind_some, bind_none]

/-! ### The properties of an object -/

def ReadsMembers (s : Source) (ν : Numbers N) (bound : Nat) (loop : Parser N → Bool × Elements × Parser N) : Prop :=
  ∀ p : Parser N, p.exception = none → p.cursor <:+ s.chars → p.cursor.length < bound →
    Lists s (s.readMembers ν p.cursor) p ((loop p).1, (loop p).2.2)

/-- A property starts with a quote. -/
theorem expectNext_quote {p : Parser N} (hsu : p.cursor <:+ s.chars) (message : MessageTemplate) :
    (∃ q : Parser N, p.expectNext s .STRING message = (false, q) ∧ Lists s (s.readMembers ν p.cursor) p (false, q)) ∨
    (∃ start next, p.expectNext s .STRING message = (true, {p with cursor := start, next := next}) ∧
      punctuator 0x22 p.cursor = some start ∧ start <:+ s.chars) := by
  cases hqu : punctuator 0x22 p.cursor with
  | none =>
    obtain ⟨q, hex, hso⟩ := @expectNext_of_none N s .STRING 0x22 rfl message p hqu
    refine .inl ⟨q, hex, ?_⟩
    rw [readMembers_member hsu, readMember, hqu]
    exact .inl ⟨rfl, hso⟩
  | some start =>
    obtain ⟨next, hex⟩ := @expectNext_of_some N s .STRING 0x22 rfl message p start hqu
    exact .inr ⟨start, next, hex, rfl, punctuator_suffix hsu hqu⟩

/-- A comma has the loop go on, and without one the properties are over. -/
theorem follows_comma {bound' : Nat} {loop : Parser N → Bool × Elements × Parser N}
    (hloop : ReadsMembers s ν bound loop) (hle : bound' ≤ bound + 1) {r : Bool × Parser N}
    (hco : ∀ q, p.check .COMMA = (true, q) → r = ((loop q).1, (loop q).2.2))
    (hend : ∀ q, p.check .COMMA = (false, q) → r = (true, q)) : Follows s ν bound' p r := by
  refine ⟨fun hrunning hsu hlt => ?_, fun hdo => ?_⟩
  · cases hrest : punctuator 0x2c p.cursor with
    | none =>
      rw [hend _ (@check_of_none N .COMMA 0x2c rfl p hrest).1]
      simp only [readMembersRest, hrest]
      cases hbr : punctuator 0x7d p.cursor with
      | none => exact .inr ⟨rfl, (@check_of_none N .RBRACE 0x7d rfl p hbr).2⟩
      | some rest =>
        refine ⟨[], rfl, ?_⟩
        rw [@getNext_of_some N .RBRACE 0x7d rfl p rest hbr]
        rfl
    | some rest =>
      obtain ⟨next, hch⟩ := @check_of_some N .COMMA 0x2c rfl p rest hrest
      have hl := length_punctuator hrest
      rw [hco _ hch]
      simp only [readMembersRest, hrest]
      exact hloop {p with cursor := rest, next := next} hrunning (punctuator_suffix hsu hrest) (by dsimp only; omega)
  · exact hend _ (hdo.check .COMMA rfl)

/-- After a comma that was looked for and is not there, nothing follows. -/
theorem continueSlow_of_check (hch : p.check .COMMA = (false, q)) (rounds : Nat) (cont : Elements) :
    q.continueSlow s parseValue rounds cont = (true, cont, q) := by
  cases hco : punctuator 0x2c p.cursor with
  | some rest =>
    obtain ⟨next, hc'⟩ := @check_of_some N .COMMA 0x2c rfl p rest hco
    cases hch.symm.trans hc'
  | none =>
    cases hch.symm.trans (@check_of_none N .COMMA 0x2c rfl p hco).1
    have hag : p.getNextNonWhitespaceToken.getNextNonWhitespaceToken = p.getNextNonWhitespaceToken := by
      simp only [getNextNonWhitespaceToken_eq, skipWhitespace_skipWhitespace]
    have hco' : punctuator 0x2c p.getNextNonWhitespaceToken.cursor = none := by
      rw [getNextNonWhitespaceToken_eq, punctuator_skipWhitespace]
      exact hco
    rw [continueSlow, (@check_of_none N .COMMA 0x2c rfl _ hco').1, hag]

theorem parsePropertiesSlow_lists (hre : ReadsBelow s ν bound parseValue) (rounds : Nat) (hle : rounds ≤ bound)
    (cont : Elements) (message : MessageTemplate) :
    ReadsMembers s ν rounds (parsePropertiesSlow s parseValue rounds cont message) := by
  induction rounds generalizing cont message with
  | zero =>
    intro p hrunning hsu hlt
    omega
  | succ rounds ih =>
    intro p hrunning hsu hlt
    rw [parsePropertiesSlow.eq_def]
    dsimp only
    rcases @expectNext_quote N s ν p hsu message with
      ⟨q, hex, hfa⟩ | ⟨start, next, hex, hqu, hst⟩
    · rw [hex]
      exact hfa
    · obtain ⟨token, cont', q, hscan, hsc⟩ :=
        @scanJsonPropertyKey_scanned N s {p with cursor := start, next := next} hrunning hst cont
      rw [hex]
      dsimp only
      rw [hscan]
      dsimp only
      rcases parseJsonPropertyValue_outcome hre hrunning hsu (by omega) hqu hsc with
        ⟨p', hva, hfa⟩ | ⟨p', hva, hl⟩
      · rw [hva]
        exact hfa
      · rw [hva]
        refine hl _ (follows_comma (ih (by omega) cont' .kJsonParseExpectedDoubleQuotedPropertyName) (by omega) ?_ ?_)
        all_goals
          intro q hch
          simp only [hch]

theorem follows_continueSlow {bound rounds : Nat} (hre : ReadsBelow s ν bound parseValue) (hle : rounds ≤ bound)
    (cont : Elements) {bound' : Nat} (hle' : bound' ≤ rounds + 1) (p : Parser N) :
    let r := p.continueSlow s parseValue rounds cont
    Follows s ν bound' p (r.1, r.2.2) := by
  refine follows_comma (parsePropertiesSlow_lists hre rounds hle cont .kJsonParseExpectedDoubleQuotedPropertyName) hle' ?_ ?_
  all_goals
    intro q hch
    simp only [continueSlow, hch]

theorem parsePropertiesFast_lists (hre : ReadsBelow s ν bound parseValue) (rounds : Nat) (hle : rounds ≤ bound)
    (d : Descriptor) (descriptors : List Descriptor) (hfas : ∀ d' ∈ d :: descriptors, d'.Fast) (cont : Elements)
    (message : MessageTemplate) :
    ReadsMembers s ν rounds (parsePropertiesFast s parseValue rounds (d :: descriptors) cont message) := by
  induction rounds generalizing d descriptors cont message with
  | zero =>
    intro p hrunning hsu hlt
    omega
  | succ rounds ih =>
    intro p hrunning hsu hlt
    have hsl := fun cont => @follows_continueSlow N s ν parseValue bound rounds hre (by omega) cont p.cursor.length (by omega)
    rw [parsePropertiesFast.eq_def]
    dsimp only
    rcases @expectNext_quote N s ν p hsu message with
      ⟨q, hex, hfa⟩ | ⟨start, next, hex, hqu, hst⟩
    · rw [hex]
      exact hfa
    rw [hex]
    dsimp only [head?_cons, map_some, getD_some, tail_cons]
    by_cases hma :
      ({p with cursor := start, next := next} : Parser N).fastKeyMatch (PropertyName.fastKeyChars d.name) = true
    · have hsc := @fastKeyMatch_scanned N s d (hfas d mem_cons_self) {p with cursor := start, next := next} hst hma
      simp only [hma, if_true]
      rcases parseJsonPropertyValue_outcome hre hrunning hsu (by omega) hqu hsc with
        ⟨p', hva, hfa⟩ | ⟨p', hva, hl⟩
      · rw [hva]
        exact hfa
      rw [hva]
      cases descriptors with
      | nil => exact hl _ (hsl cont p')
      | cons d' descriptors =>
        have hloop := ih (by omega) d' descriptors (fun d'' hd'' => hfas d'' (mem_cons_of_mem d hd'')) cont
          .kJsonParseExpectedDoubleQuotedPropertyName
        refine hl _ (follows_comma hloop (by omega) (fun q hch => by simp [hch]) ?_)
        intro q hch
        simp [hch, continueSlow_of_check hch]
    · obtain ⟨token, cont', q, hscan, hsc⟩ :=
        @scanJsonPropertyKey_scanned N s {p with cursor := start, next := next} hrunning hst cont
      simp only [hma, hscan]
      rcases parseJsonPropertyValue_outcome hre hrunning hsu (by omega) hqu hsc with
        ⟨p', hva, hfa⟩ | ⟨p', hva, hl⟩
      · rw [hva]
        exact hfa
      rw [hva]
      cases token with
      | string => exact hl _ (hsl cont' p')
      | index i =>
        have hloop := ih (by omega) d descriptors hfas cont' .kJsonParseExpectedDoubleQuotedPropertyName
        refine hl _ (follows_comma hloop (by omega) (fun q hch => by simp [hch]) ?_)
        intro q hch
        simp [hch, continueSlow_of_check hch]

theorem parsePropertiesUnknown_lists (hre : ReadsBelow s ν bound parseValue) (last : Bool) (rounds : Nat)
    (hle : rounds ≤ bound) (descriptors : List Descriptor) (cont : Elements) (message : MessageTemplate) :
    ReadsMembers s ν rounds fun p => (parsePropertiesUnknown s parseValue last rounds descriptors cont message p).1 := by
  induction rounds generalizing descriptors cont message with
  | zero =>
    intro p hrunning hsu hlt
    omega
  | succ rounds ih =>
    intro p hrunning hsu hlt
    have hsl := fun cont => @follows_continueSlow N s ν parseValue bound rounds hre (by omega) cont p.cursor.length (by omega)
    dsimp only
    rw [parsePropertiesUnknown.eq_def]
    dsimp only
    rcases @expectNext_quote N s ν p hsu message with
      ⟨q, hex, hfa⟩ | ⟨start, next, hex, hqu, hst⟩
    · rw [hex]
      exact hfa
    obtain ⟨token, cont', q, hscan, hsc⟩ :=
      @scanJsonPropertyKey_scanned N s {p with cursor := start, next := next} hrunning hst cont
    have ho := parseJsonPropertyValue_outcome hre hrunning hsu (by omega) hqu hsc
    -- the loop goes on with the same descriptors after an index, and with the next one after a match
    have hloop := fun descriptors' => ih (by omega) descriptors' cont' .kJsonParseExpectedDoubleQuotedPropertyName
    rw [hex]
    dsimp only
    rw [hscan]
    cases token with
    | index i =>
      rcases ho with ⟨p', hva, hfa⟩ | ⟨p', hva, hl⟩
      · simp only [hva]
        exact hfa
      · simp only [hva]
        refine hl _ (follows_comma (hloop descriptors) (by omega) (fun q hch => by simp [hch]) ?_)
        intro q hch
        simp [hch, continueSlow_of_check hch]
    | string start' length needsConversion internalize hasEscape =>
      dsimp only
      generalize (Option.map (keyFeedback s _) descriptors.head?).getD (true, false) = feedback
      obtain ⟨isSlow, keyMatch⟩ := feedback
      rcases ho with ⟨p', hva, hfa⟩ | ⟨p', hva, hl⟩
      · simp only [hva]
        exact hfa
      · simp only [hva]
        split
        · exact hl _ (hsl cont' p')
        split
        · exact hl _ (hsl cont' p')
        refine hl _ (follows_comma (hloop descriptors.tail) (by omega) (fun q hch => by simp [hch]) ?_)
        intro q hch
        simp [hch, continueSlow_of_check hch]

/-! ### Marking a descriptor array

An array is marked as fast only after each of its keys was found in the text as it is stored. -/

/-- Whichever of the loops is chosen. -/
theorem parseJsonObjectProperties_lists (hre : ReadsBelow s ν (p.cursor.length + 1) parseValue)
    (hrunning : p.exception = none) (hsu : p.cursor <:+ s.chars) (feedback : Option Feedback) :
    let r := p.parseJsonObjectProperties s parseValue feedback
    Lists s (s.readMembers ν p.cursor) p (r.1, r.2.2) := by
  have hsl := parsePropertiesSlow_lists hre _ (le_refl _) ⟨0, 0⟩ .kJsonParseExpectedPropNameOrRBrace p hrunning
    hsu (lt_succ_self _)
  unfold parseJsonObjectProperties
  cases feedback with
  | none => exact hsl
  | some feedback =>
    dsimp only
    split
    · exact hsl
    · next hown =>
      split
      · next hfa =>
        cases hta : feedback.descriptors.take feedback.ownDescriptors with
        | nil =>
          have hle := feedback.own_le
          have hl := congrArg List.length hta
          rw [length_take, length_nil] at hl
          omega
        | cons d descriptors =>
          refine parsePropertiesFast_lists hre _ (le_refl _) d descriptors ?_ _ _ p hrunning hsu (lt_succ_self _)
          intro d' hd'
          rw [← hta] at hd'
          exact feedback.fast hfa d' (mem_of_mem_take hd')
      · exact hsl
      · exact parsePropertiesUnknown_lists hre _ _ (le_refl _) _ _ _ p hrunning hsu (lt_succ_self _)

/-! ### Objects -/

theorem since_append {α : Type} (xs stack : List α) : since (xs.reverse ++ stack) stack.length = xs := by
  rw [since, length_append, Nat.add_sub_cancel, take_left, reverse_reverse]

theorem resize_append {α : Type} (xs stack : List α) : resize (xs.reverse ++ stack) stack.length = stack := by
  rw [resize, length_append, Nat.add_sub_cancel, drop_left]

/-- An object, from its brace on. -/
theorem parseJsonObject_yields (env : Environment) (hrea : ReadsBelow s ν p.cursor.length parseValue)
    (hrunning : p.exception = none) (hsu : p.cursor <:+ s.chars) (hcu : p.cursor = 0x7b :: rest)
    (feedback : Option Feedback) :
    Yields (p.expected s ν) (p.parseJsonObject s ν env parseValue feedback) := by
  have hrest : rest <:+ s.chars := (suffix_cons _ _).trans (hcu ▸ hsu)
  have hskip : skipWhitespace p.cursor = 0x7b :: rest := by
    rw [hcu]
    exact skipWhitespace_of_ne rfl rest
  have hread := s.readValue_cons ν hskip
  rw [parseJsonObject]
  split
  · exact parseJsonValue_yields hrunning hsu
  · have had : p.advance = {p with cursor := rest} := by
      rw [advance, hcu]
      rfl
    let q : Parser N := {p with cursor := rest}
    rw [had, expected]
    cases hbr : punctuator 0x7d rest with
    | some after =>
      obtain ⟨next, hch⟩ := @check_of_some N .RBRACE 0x7d rfl q after hbr
      rw [readToken_brace, hbr] at hread
      rw [hch, hread]
      exact ⟨rfl, rfl, hrunning⟩
    | none =>
      rw [readToken_brace, hbr] at hread
      let start : Parser N := {q with cursor := skipWhitespace rest, next := tokenAt (skipWhitespace rest)}
      have hst : start.cursor <:+ s.chars := skipWhitespace_suffix hrest
      have hbe : ReadsBelow s ν (start.cursor.length + 1) parseValue :=
        hrea.mono (by rw [hcu]; exact succ_le_succ (length_skipWhitespace rest))
      have hl := parseJsonObjectProperties_lists hbe hrunning hst feedback
      rw [(@check_of_none N .RBRACE 0x7d rfl q hbr).1, getNextNonWhitespaceToken_eq, hread]
      rw [show start.cursor = skipWhitespace rest from rfl, readMembers_skipWhitespace hrest] at hl
      dsimp only at hl ⊢
      generalize start.parseJsonObjectProperties s parseValue feedback = r at hl
      obtain ⟨result, cont, p'⟩ := r
      cases hme : s.readMembers ν rest with
      | none =>
        rw [hme] at hl
        rcases hl with ⟨hre, hex⟩ | ⟨hre, hnext⟩
        · cases hre
          exact .inl ⟨rfl, hex⟩
        · cases hre
          obtain ⟨q', hexp, hex⟩ := @expect_of_ne N s .RBRACE .kJsonParseExpectedCommaOrRBrace p' hnext
          dsimp only
          rw [hexp]
          exact .inl ⟨rfl, hex⟩
      | some members =>
        obtain ⟨ps, after⟩ := members
        rw [hme] at hl
        obtain ⟨properties, hmap, heq⟩ := hl
        cases heq
        dsimp only
        rw [@expect_of_eq N s .RBRACE .kJsonParseExpectedCommaOrRBrace ⟨_, .RBRACE, _, _, _⟩ rfl, ← hmap]
        refine ⟨?_, ?_, hrunning⟩
        · exact congrArg (fun l => some (Value.object (l.map s.property))) (since_append properties p.propertyStack)
        · exact congrArg (Frame.mk after p.elementStack) (resize_append properties p.propertyStack)

/-! ### Arrays -/

/-- The elements were pushed and the bracket is next, or there is an error or no bracket. -/
def ListsElements (expected : Option (List (Value N) × Cursor)) (p : Parser N) (r : Bool × Parser N) : Prop :=
  match expected with
  | some (vs, rest) =>
      r = (true, {p with cursor := 0x5d :: rest, next := .RBRACK, elementStack := vs.reverse ++ p.elementStack})
  | none => (r.1 = false ∧ r.2.exception.isSome = true) ∨ (r.1 = true ∧ r.2.next ≠ .RBRACK)

theorem parseElements_doomed {p : Parser N} (hdo : p.Doomed) (env : Environment) (rounds : Nat) (value : Value N) :
    p.parseElements s env parseValue (rounds + 1) value = (true, p.getNextNonWhitespaceToken) := by
  rw [parseElements, hdo.check .COMMA rfl]

theorem parseElements_lists {bound : Nat} (hrea : ReadsBelow s ν bound parseValue) (env : Environment) (rounds : Nat)
    (value : Value N) {p : Parser N} (hrunning : p.exception = none) (hsu : p.cursor <:+ s.chars)
    (hbo : p.cursor.length ≤ bound) (hlt : p.cursor.length < rounds) :
    ListsElements (s.readElementsRest ν p.cursor) p (p.parseElements s env parseValue rounds value) := by
  induction rounds generalizing value p with
  | zero => omega
  | succ rounds ih =>
    rw [parseElements]
    cases hco : punctuator 0x2c p.cursor with
    | none =>
      have hrest : s.readElementsRest ν p.cursor = (punctuator 0x5d p.cursor).map ([], ·) := by
        simp only [readElementsRest, hco]
      rw [(@check_of_none N .COMMA 0x2c rfl p hco).1, hrest]
      cases hbr : punctuator 0x5d p.cursor with
      | none => exact .inr ⟨rfl, (@check_of_none N .RBRACK 0x5d rfl p hbr).2⟩
      | some rest =>
        dsimp only
        rw [@getNext_of_some N .RBRACK 0x5d rfl p rest hbr]
        rfl
    | some rest =>
      obtain ⟨next, hch⟩ := @check_of_some N .COMMA 0x2c rfl p rest hco
      have hre := punctuator_suffix hsu hco
      have hlen := length_punctuator hco
      have hrest : s.readElementsRest ν p.cursor = s.readElements ν rest := by
        simp only [readElementsRest, hco]
      rw [hch, hrest, readElements_bind hre]
      dsimp only
      generalize (if isJSObject value = true then env.feedback (s.position rest) else none) = feedback
      rcases hrea.cases feedback {p with cursor := rest, next := next} hrunning hre (hlen.trans_le hbo) with
        ⟨p', hp, hread, hex⟩ | ⟨v, p', hp, hread, hdo⟩ | ⟨v, after, next', hp, hread⟩
      · rw [hp, hread]
        exact .inl ⟨rfl, hex⟩
      · obtain ⟨k, hk⟩ : ∃ k, rounds = k + 1 := ⟨rounds - 1, by omega⟩
        have hd' : ({p' with elementStack := v :: p'.elementStack} : Parser N).Doomed := hdo
        rw [hp, hread, hk]
        dsimp only
        rw [parseElements_doomed hd']
        exact .inr ⟨rfl, hd'.next_ne .RBRACK rfl⟩
      · obtain ⟨hafter, haf⟩ := readValue_suffix hre hread
        have hl := @ih v {p with cursor := after, next := next', elementStack := v :: p.elementStack} hrunning hafter
          (by dsimp only; omega) (by dsimp only; omega)
        rw [hp, hread, bind_some]
        dsimp only at hl ⊢
        cases hel : s.readElementsRest ν after with
        | none =>
          rw [hel] at hl
          exact hl
        | some more =>
          rw [hel, ListsElements] at hl
          rw [hl]
          simp [ListsElements]

def numbers (ν : Numbers N) (smis : List Int) (doubles : List N) : List (Value N) := (smis.map ν.ofInt ++ doubles).map .number

def NumbersRead (s : Source) (ν : Numbers N) (before : List (Value N)) (p : Parser N)
    (r : Numbered × List Int × List N × Bool × Parser N) : Prop :=
  let (ending, smis, doubles, sawDouble, q) := r
  match ending with
  | .failed => s.readElements ν p.cursor = none ∧ q.exception.isSome = true
  | .closed => ∃ vs rest next, s.readElements ν p.cursor = some (vs, rest) ∧ numbers ν smis doubles = before ++ vs ∧
      (sawDouble = false → doubles = []) ∧ q = {p with cursor := rest, next := next}
  | .open => ∃ vs cursor next, s.readElements ν p.cursor = (s.readElements ν cursor).map (fun (more, rest) => (vs ++ more, rest)) ∧
      numbers ν smis doubles = before ++ vs ∧ cursor <:+ s.chars ∧ cursor.length ≤ p.cursor.length ∧
      q = {p with cursor := cursor, next := next}

theorem NumbersRead.cons {before : List (Value N)} {v : Value N} {p : Parser N} {rest after : Cursor} {next : JsonToken}
    {r : Numbered × List Int × List N × Bool × Parser N} (hsu : p.cursor <:+ s.chars)
    (hrea : s.readValue ν p.cursor = some (v, rest)) (hco : punctuator 0x2c rest = some after)
    (h : NumbersRead s ν (before ++ [v]) {p with cursor := skipWhitespace after, next := next} r) :
    NumbersRead s ν before p r := by
  obtain ⟨hrest, hre⟩ := readValue_suffix hsu hrea
  have hafter := punctuator_suffix hrest hco
  have haf := length_punctuator hco
  have hel : s.readElements ν p.cursor =
      (s.readElements ν (skipWhitespace after)).map fun (vs, rest) => (v :: vs, rest) := by
    rw [readElements_skipWhitespace hafter, readElements_bind hsu, hrea, bind_some]
    simp only [readElementsRest, hco]
  obtain ⟨ending, smis, doubles, sawDouble, q⟩ := r
  cases ending with
  | failed =>
    obtain ⟨hno, hex⟩ := h
    exact ⟨by rw [hel, hno]; rfl, hex⟩
  | closed =>
    obtain ⟨vs, rest', next', hso, hnu, hdo, heq⟩ := h
    refine ⟨v :: vs, rest', next', ?_, ?_, hdo, heq⟩
    · rw [hel, hso]
      rfl
    · rw [hnu, append_assoc]
      rfl
  | «open» =>
    obtain ⟨vs, cursor, next', hmap, hnu, hcu, hle, heq⟩ := h
    refine ⟨v :: vs, cursor, next', ?_, ?_, hcu, ?_, heq⟩
    · rw [hel, hmap, Option.map_map]
      rfl
    · rw [hnu, append_assoc]
      rfl
    · have hskip := length_skipWhitespace after
      dsimp only at hle
      omega

/-- Whichever list a number goes to, it comes after those so far. -/
theorem numbers_push (n : ScannedNumber N) (smis : List Int) {doubles : List N} {sawDouble : Bool}
    (hdo : sawDouble = false → doubles = []) :
    let pushed := match n with
      | .double d => (smis, doubles ++ [d], true)
      | .smi i => if sawDouble then (smis, doubles ++ [ν.ofInt i], true) else (smis ++ [i], doubles, false)
    numbers ν pushed.1 pushed.2.1 = numbers ν smis doubles ++ [.number (n.value ν)] ∧
      (pushed.2.2 = false → pushed.2.1 = []) := by
  cases n with
  | double d => exact ⟨by simp [numbers, ScannedNumber.value], by simp⟩
  | smi i =>
    cases sawDouble with
    | true => exact ⟨by simp [numbers, ScannedNumber.value], by simp⟩
    | false => exact ⟨by simp [numbers, ScannedNumber.value, hdo rfl], fun _ => hdo rfl⟩

theorem parseNumberElements_read (rounds : Nat) {smis : List Int} {doubles : List N} {sawDouble : Bool}
    (hdou : sawDouble = false → doubles = []) {p : Parser N} (hrunning : p.exception = none)
    (hsu : p.cursor <:+ s.chars) (hskip : skipWhitespace p.cursor = p.cursor) (hnext : p.next = tokenAt p.cursor)
    (hlt : p.cursor.length < rounds) :
    NumbersRead s ν (numbers ν smis doubles) p (p.parseNumberElements s ν rounds smis doubles sawDouble) := by
  induction rounds generalizing smis doubles sawDouble p with
  | zero => omega
  | succ rounds ih =>
    rw [parseNumberElements]
    split
    · next hto =>
      have hsc : p.Scans (s.readValue ν p.cursor) (p.parseJsonNumber s ν) := by
        rw [hnext] at hto
        cases hcu : p.cursor with
        | nil =>
          rw [hcu] at hto
          cases hto
        | cons c rest =>
          rw [hcu] at hto hskip
          rw [s.readValue_cons ν hskip]
          exact scans_number hrunning hcu hto
      rw [parseJsonNumber] at hsc
      generalize p.parseJsonNumberAsDoubleOrSmi s ν = scanned at hsc ⊢
      obtain ⟨n, q⟩ := scanned
      obtain ⟨hnu, hd'⟩ := @numbers_push N ν n smis doubles sawDouble hdou
      dsimp only at hsc ⊢
      cases hrea : s.readValue ν p.cursor with
      | none =>
        rw [hrea] at hsc
        have hdo : q.Doomed := hsc
        obtain ⟨q', hexp, hex⟩ :=
          @expect_getNext_of_none N s .RBRACK 0x5d rfl .kJsonParseExpectedCommaOrRBrack q
          (hdo.punctuator .RBRACK rfl)
        rw [hdo.check .COMMA rfl]
        dsimp only
        rw [hexp]
        refine ⟨?_, hex⟩
        rw [readElements_bind hsu, hrea, bind_none]
      | some read =>
        obtain ⟨v, rest⟩ := read
        obtain ⟨hrest, hre⟩ := readValue_suffix hsu hrea
        rw [hrea] at hsc
        cases hsc
        let q : Parser N := {p with cursor := rest}
        cases hco : punctuator 0x2c rest with
        | some after =>
          obtain ⟨next, hch⟩ := @check_of_some N .COMMA 0x2c rfl q after hco
          have haf := length_punctuator hco
          have hsk := length_skipWhitespace after
          rw [hch]
          dsimp only
          rw [getNextNonWhitespaceToken_eq]
          refine @NumbersRead.cons N s ν _ _ p rest after (tokenAt (skipWhitespace after)) _ hsu hrea hco ?_
          rw [← hnu]
          exact ih hd' hrunning (skipWhitespace_suffix (punctuator_suffix hrest hco))
            (skipWhitespace_skipWhitespace after) rfl (by dsimp only; omega)
        | none =>
          have hel : s.readElements ν p.cursor =
              (punctuator 0x5d rest).map fun rest => ([.number (n.value ν)], rest) := by
            rw [readElements_bind hsu, hrea, bind_some]
            simp only [readElementsRest, hco, Option.map_map]
            rfl
          rw [(@check_of_none N .COMMA 0x2c rfl q hco).1]
          cases hbr : punctuator 0x5d rest with
          | none =>
            obtain ⟨q', hexp, hex⟩ :=
              @expect_getNext_of_none N s .RBRACK 0x5d rfl .kJsonParseExpectedCommaOrRBrack q hbr
            dsimp only
            rw [hexp]
            exact ⟨by rw [hel, hbr]; rfl, hex⟩
          | some after =>
            dsimp only
            rw [@expect_getNext_of_some N s .RBRACK 0x5d rfl .kJsonParseExpectedCommaOrRBrack q after hbr]
            exact ⟨_, after, .RBRACK, by rw [hel, hbr]; rfl, hnu, hd', rfl⟩
    · refine ⟨[], p.cursor, p.next, ?_, (append_nil _).symm, hsu, le_refl _, rfl⟩
      cases s.readElements ν p.cursor <;> rfl

/-- The elements of an array after its numbers: the stack holds what the array held before. -/
theorem parseJsonArray_open (hrea : ReadsBelow s ν (p.cursor.length + 1) parseValue) (env : Environment)
    (hrunning : p.exception = none) (hsu : p.cursor <:+ s.chars) (before stack : List (Value N))
    (hst : p.elementStack = before.reverse ++ stack) :
    Yields ((s.readElements ν p.cursor).map fun (vs, rest) => (.array (before ++ vs), ⟨rest, stack, p.propertyStack⟩))
      (match parseValue none p with
        | (none, p) => (none, p)
        | (some value, p) =>
          match parseElements s env parseValue (p.cursor.length + 1) value {p with elementStack := value :: p.elementStack} with
          | (false, p) => (none, p)
          | (true, p) =>
            match p.expect s .RBRACK .kJsonParseExpectedCommaOrRBrack with
            | (false, p) => (none, p)
            | (true, p) =>
              (some (.array (since p.elementStack stack.length)), {p with elementStack := resize p.elementStack stack.length})) := by
  rw [readElements_bind hsu]
  rcases hrea.cases none p hrunning hsu (lt_succ_self _) with
    ⟨p', hp, hread, hex⟩ | ⟨v, p', hp, hread, hdo⟩ | ⟨v, rest, next, hp, hread⟩
  · rw [hp, hread]
    exact .inl ⟨rfl, hex⟩
  · let q : Parser N := {p' with elementStack := v :: p'.elementStack}
    have hd' : q.Doomed := hdo
    obtain ⟨q', hexp, hex⟩ := @expect_of_ne N s .RBRACK .kJsonParseExpectedCommaOrRBrack q.getNextNonWhitespaceToken
      (hd'.next_ne .RBRACK rfl)
    rw [hp, hread]
    dsimp only
    rw [@parseElements_doomed N s parseValue q hd' env p'.cursor.length v]
    dsimp only
    rw [hexp]
    exact .inl ⟨rfl, hex⟩
  · obtain ⟨hrest, hres⟩ := readValue_suffix hsu hread
    let q : Parser N := {p with cursor := rest, next := next, elementStack := v :: p.elementStack}
    have hl := @parseElements_lists N s ν parseValue _ hrea env (rest.length + 1) v q hrunning hrest
      (by dsimp only [q]; omega) (lt_succ_self _)
    rw [hp, hread, bind_some]
    dsimp only [q] at hl ⊢
    generalize parseElements s env parseValue (rest.length + 1) v _ = r at hl ⊢
    obtain ⟨result, p'⟩ := r
    cases hel : s.readElementsRest ν rest with
    | none =>
      rw [hel] at hl
      rcases hl with ⟨hre, hex⟩ | ⟨hre, hnext⟩
      · cases hre
        exact .inl ⟨rfl, hex⟩
      · cases hre
        obtain ⟨q', hexp, hex⟩ := @expect_of_ne N s .RBRACK .kJsonParseExpectedCommaOrRBrack p' hnext
        dsimp only
        rw [hexp]
        exact .inl ⟨rfl, hex⟩
    | some more =>
      obtain ⟨vs, after⟩ := more
      rw [hel] at hl
      cases hl
      have hpu : vs.reverse ++ v :: p.elementStack = (before ++ v :: vs).reverse ++ stack := by
        rw [hst]
        simp
      dsimp only
      rw [hpu, @expect_of_eq N s .RBRACK .kJsonParseExpectedCommaOrRBrack ⟨_, .RBRACK, _, _, _⟩ rfl]
      refine ⟨?_, ?_, hrunning⟩
      · exact congrArg (fun l => some (Value.array l)) (since_append (before ++ v :: vs) stack)
      · exact congrArg (fun l => Frame.mk after l p.propertyStack) (resize_append (before ++ v :: vs) stack)

/-- An array, from its bracket on. -/
theorem parseJsonArray_yields (env : Environment) (hre : ReadsBelow s ν p.cursor.length parseValue)
    (hrunning : p.exception = none) (hsu : p.cursor <:+ s.chars) (hcu : p.cursor = 0x5b :: rest) :
    Yields (p.expected s ν) (p.parseJsonArray s ν env parseValue) := by
  have hrest : rest <:+ s.chars := (suffix_cons _ _).trans (hcu ▸ hsu)
  have hskip : skipWhitespace p.cursor = 0x5b :: rest := by
    rw [hcu]
    exact skipWhitespace_of_ne rfl rest
  have hrea := s.readValue_cons ν hskip
  rw [parseJsonArray]
  split
  · exact parseJsonValue_yields hrunning hsu
  · have had : p.advance = {p with cursor := rest} := by
      rw [advance, hcu]
      rfl
    let q : Parser N := {p with cursor := rest}
    rw [had, expected]
    cases hbr : punctuator 0x5d rest with
    | some after =>
      obtain ⟨next, hch⟩ := @check_of_some N .RBRACK 0x5d rfl q after hbr
      rw [readToken_bracket, hbr] at hrea
      rw [hch, hrea]
      exact ⟨rfl, rfl, hrunning⟩
    | none =>
      rw [readToken_bracket, hbr] at hrea
      let start : Parser N := {q with cursor := skipWhitespace rest, next := tokenAt (skipWhitespace rest)}
      have hl := length_skipWhitespace rest
      have hnu := @parseNumberElements_read N s ν (start.cursor.length + 1) [] [] false (fun _ => rfl) start hrunning
        (skipWhitespace_suffix hrest) (skipWhitespace_skipWhitespace rest) rfl (lt_succ_self _)
      rw [(@check_of_none N .RBRACK 0x5d rfl q hbr).1, getNextNonWhitespaceToken_eq, hrea]
      dsimp only
      generalize parseNumberElements s ν (start.cursor.length + 1) [] [] false start = r at hnu
      obtain ⟨ending, smis, doubles, sawDouble, p'⟩ := r
      rw [← readElements_skipWhitespace hrest]
      cases ending with
      | failed =>
        obtain ⟨hno, hex⟩ := hnu
        rw [show s.readElements ν (skipWhitespace rest) = none from hno]
        exact .inl ⟨rfl, hex⟩
      | closed =>
        obtain ⟨vs, after, next, hso, hvs, hdo, heq⟩ := hnu
        rw [show s.readElements ν (skipWhitespace rest) = some (vs, after) from hso]
        replace hvs : numbers ν smis doubles = vs := hvs
        subst heq
        dsimp only
        split
        · exact ⟨congrArg (fun l => some (Value.array l)) hvs, rfl, hrunning⟩
        · next hsaw =>
          rw [hdo (Bool.eq_false_iff.mpr hsaw), numbers, append_nil, List.map_map] at hvs
          exact ⟨congrArg (fun l => some (Value.array l)) hvs, rfl, hrunning⟩
      | «open» =>
        obtain ⟨vs, cursor, next, hmap, hvs, hcur, hle, heq⟩ := hnu
        replace hvs : numbers ν smis doubles = vs := hvs
        rw [show s.readElements ν (skipWhitespace rest) = _ from hmap]
        subst heq
        let opened : Parser N := ⟨cursor, next, p.exception, (numbers ν smis doubles).reverse ++ p.elementStack, p.propertyStack⟩
        have hbe : ReadsBelow s ν (opened.cursor.length + 1) parseValue :=
          hre.mono (by rw [hcu]; exact succ_le_succ (hle.trans hl))
        have ho := parseJsonArray_open hbe env hrunning hcur (numbers ν smis doubles) p.elementStack rfl
        rw [hvs] at ho
        simp only [Option.map_map, Function.comp_def] at ho ⊢
        exact ho

/-! ### Values -/

theorem Scans.yields {r : Value N × Parser N} {read : Option (Value N × Cursor)} (h : q.Scans read r)
    (hq : q.elementStack = p.elementStack ∧ q.propertyStack = p.propertyStack) (hrunning : q.exception = none) :
    Yields (read.map fun (v, rest) => (v, {p.frame with cursor := rest})) (some r.1, r.2) := by
  cases read with
  | none => exact .inr ⟨rfl, h⟩
  | some read =>
    obtain ⟨v, rest⟩ := read
    cases h
    refine ⟨rfl, ?_, hrunning⟩
    simp only [frame, hq]

/-- The recursive parser reads a value, and does not reach its bound on the depth. -/
theorem parseJsonValueRecursive_reads (env : Environment) (depth : Nat) :
    ReadsBelow s ν depth (parseJsonValueRecursive s ν env depth) := by
  induction depth with
  | zero =>
    intro feedback p hrunning hsu hlt
    cases hlt
  | succ depth ih =>
    intro feedback p hrunning hsu hlt
    have hsk := skipWhitespace_suffix hsu
    have hski := length_skipWhitespace p.cursor
    have hex : p.getNextNonWhitespaceToken.expected s ν = p.expected s ν := by
      rw [getNextNonWhitespaceToken_eq, expected, expected, readValue_skipWhitespace]
      rfl
    have hru' : p.getNextNonWhitespaceToken.exception = none := by
      rw [getNextNonWhitespaceToken_eq]
      exact hrunning
    have hst : p.getNextNonWhitespaceToken.elementStack = p.elementStack ∧
        p.getNextNonWhitespaceToken.propertyStack = p.propertyStack := by
      rw [getNextNonWhitespaceToken_eq]
      exact ⟨rfl, rfl⟩
    cases hskip : skipWhitespace p.cursor with
    | nil =>
      have hre := s.readValue_nil ν hskip
      simp only [parseJsonValueRecursive, getNextNonWhitespaceToken_eq, hskip, show tokenAt [] = .EOS from rfl]
      rw [expected, hre]
      exact .inl ⟨rfl, reportUnexpectedError_isSome _ _⟩
    | cons c rest =>
      have hre := s.readValue_cons ν hskip
      have hcu : p.getNextNonWhitespaceToken.cursor = c :: rest := by
        rw [getNextNonWhitespaceToken_eq, hskip]
      have hnext : p.getNextNonWhitespaceToken.next = getTokenForCharacter c := by
        rw [getNextNonWhitespaceToken_eq, hskip]
        rfl
      have hbe : ReadsBelow s ν p.getNextNonWhitespaceToken.cursor.length (parseJsonValueRecursive s ν env depth) :=
        ih.mono (by rw [hcu, ← hskip]; omega)
      have hy : ∀ {r}, p.getNextNonWhitespaceToken.Scans (s.readToken ν c rest) r →
          Yields (p.expected s ν) (some r.1, r.2) := by
        intro r hsc
        rw [expected, hre]
        exact hsc.yields hst hru'
      rw [hskip, ← hcu] at hsk
      simp only [parseJsonValueRecursive, hnext]
      cases hto : getTokenForCharacter c with
      | STRING => exact hy (scans_string hru' hcu hsk hto)
      | NUMBER => exact hy (scans_number hru' hcu hto)
      | TRUE_LITERAL => exact hy (scans_boolean hru' hcu true hto)
      | FALSE_LITERAL => exact hy (scans_boolean hru' hcu false hto)
      | NULL_LITERAL => exact hy (scans_null hru' hcu hto)
      | LBRACE =>
        obtain rfl : c = 0x7b := token_character (by rw [hto]; rfl)
        rw [← hex]
        exact parseJsonObject_yields env hbe hru' hsk hcu feedback
      | LBRACK =>
        obtain rfl : c = 0x5b := token_character (by rw [hto]; rfl)
        rw [← hex]
        exact parseJsonArray_yields env hbe hru' hsk hcu
      | COLON | COMMA | ILLEGAL | RBRACE | RBRACK | EOS | WHITESPACE =>
        rw [expected, hre]
        simp only [readToken, hto, map_none]
        exact .inl ⟨rfl, reportUnexpectedError_isSome _ _⟩

end Parser

/-! ### Whole texts -/

/-- The end of the text is expected, after spaces. -/
theorem Parser.expectNext_end (message : MessageTemplate) (p : Parser N) :
    (skipWhitespace p.cursor = [] ∧ ∃ q : Parser N, p.expectNext s .EOS message = (true, q) ∧ q.exception = p.exception) ∨
    (skipWhitespace p.cursor ≠ [] ∧ ∃ q : Parser N, p.expectNext s .EOS message = (false, q) ∧ q.exception.isSome) := by
  rw [expectNext, check]
  by_cases hem : p.cursor = []
  · refine .inl ⟨by rw [hem]; rfl, p.advance, ?_, rfl⟩
    rw [if_pos (by rw [isNextToken, hem]; rfl)]
  · rw [if_neg (by rw [isNextToken, List.isEmpty_iff]; exact hem), getNextNonWhitespaceToken_eq]
    cases hskip : skipWhitespace p.cursor with
    | nil =>
      refine .inl ⟨rfl, {p with cursor := [], next := .EOS}, ?_, rfl⟩
      rw [if_pos (by rfl)]
      rfl
    | cons c rest =>
      let q : Parser N := {p with cursor := c :: rest, next := tokenAt (c :: rest)}
      refine .inr ⟨by simp, q.reportUnexpectedToken s q.next (some message), ?_, reportUnexpectedError_isSome _ _⟩
      have hnext : tokenAt (c :: rest) ≠ .EOS := token_ne_end c
      dsimp only
      rw [if_neg hnext]

theorem Parser.Doomed.skipWhitespace (h : p.Doomed) : p.exception.isSome ∨ Json.skipWhitespace p.cursor ≠ [] := by
  rcases h with ⟨hex, -⟩ | hnu
  · exact .inl hex
  · refine .inr ?_
    cases hcu : p.cursor with
    | nil =>
      rw [hcu] at hnu
      cases hnu
    | cons c rest =>
      rw [hcu, currentCharacter, head?_cons, partOfNumber_eq] at hnu
      rw [skipWhitespace_of_ne (isWhitespace_of_part hnu)]
      simp

/-- A value with nothing but spaces after it is the result, and everything else is an error. -/
theorem parseJson_cases (s : Source) (ν : Numbers N) (env : Environment) :
    (∃ v rest, s.readValue ν s.chars = some (v, rest) ∧ skipWhitespace rest = [] ∧ s.parseJson ν env = ⟨some v, none⟩) ∨
    ((∀ v rest, s.readValue ν s.chars = some (v, rest) → skipWhitespace rest ≠ []) ∧
      (s.parseJson ν env).result = none ∧ (s.parseJson ν env).exception.isSome) := by
  let start : Parser N := ⟨s.chars, .EOS, none, [], []⟩
  rw [parseJson]
  rcases (@Parser.parseJsonValueRecursive_reads N s ν env (s.chars.length + 1)).cases none start rfl suffix_rfl
    (lt_succ_self _) with
    ⟨p, hp, hre, hex⟩ | ⟨v, p, hp, hre, hdo⟩ | ⟨v, rest, next, hp, hre⟩
  · refine .inr ⟨by simp [show s.readValue ν s.chars = none from hre], ?_⟩
    rw [hp]
    exact ⟨rfl, hex⟩
  · refine .inr ⟨by simp [show s.readValue ν s.chars = none from hre], ?_⟩
    rw [hp]
    dsimp only
    rcases @Parser.expectNext_end N s .kJsonParseUnexpectedNonWhiteSpaceCharacter p with
      ⟨hskip, q, hexp, hex⟩ | ⟨-, q, hexp, hex⟩
    · have hso : q.exception.isSome = true := by
        rw [hex]
        exact hdo.skipWhitespace.resolve_right fun hne => hne hskip
      rw [hexp]
      dsimp only
      rw [if_pos hso]
      exact ⟨rfl, hso⟩
    · rw [hexp]
      exact ⟨rfl, hex⟩
  · rw [hp]
    dsimp only
    rcases @Parser.expectNext_end N s .kJsonParseUnexpectedNonWhiteSpaceCharacter {start with cursor := rest, next := next} with
      ⟨hskip, q, hexp, hex⟩ | ⟨hskip, q, hexp, hex⟩
    · refine .inl ⟨v, rest, hre, hskip, ?_⟩
      rw [hexp]
      dsimp only
      rw [hex]
      rfl
    · refine .inr ⟨?_, ?_⟩
      · intro v' rest' hre'
        cases hre.symm.trans hre'
        exact hskip
      · rw [hexp]
        exact ⟨rfl, hex⟩

end

/-- A text is parsed exactly if the grammar derives it, and then to the value that it stands for; every
other text is reported as an error. -/
theorem texts_parsed_exactly {N : Type} (s : Source) (ν : Numbers N) (env : Environment) :
    (∀ v, s.parseJson ν env = ⟨some v, none⟩ ↔ IsText ν s.chars v) ∧
      ((s.parseJson ν env).result = none ∧ (s.parseJson ν env).exception.isSome = true ↔ ¬∃ v, IsText ν s.chars v) := by
  rcases parseJson_cases s ν env with ⟨v, rest, hread, hskip, hparse⟩ | ⟨hread, hresult, hexception⟩
  · have htext : IsText ν s.chars v := (isText_iff v).mpr ⟨rest, hread, hskip⟩
    refine ⟨fun v' => ?_, ?_⟩
    · rw [hparse]
      constructor
      · intro heq
        cases heq
        exact htext
      · intro htext'
        obtain ⟨rest', hread', -⟩ := (isText_iff v').mp htext'
        cases hread.symm.trans hread'
        rfl
    · rw [hparse]
      exact iff_of_false (fun h => by cases h.1) fun h => h ⟨v, htext⟩
  · have hnone : ¬∃ v, IsText ν s.chars v := by
      intro ⟨v, htext⟩
      obtain ⟨rest, hread', hskip⟩ := (isText_iff v).mp htext
      exact hread v rest hread' hskip
    refine ⟨fun v => ?_, iff_of_true ⟨hresult, hexception⟩ hnone⟩
    refine iff_of_false ?_ fun htext => hnone ⟨v, htext⟩
    intro heq
    rw [heq] at hresult
    cases hresult

end V8Multithread.Json
