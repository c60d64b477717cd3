import V8Multithread.Objects.ObjectsBack

/-! Reading back the entries of maps and sets, the elements of arrays, and properties.

Properties are read in two ways. The fast one gathers the values as long as the keys follow
a chain of maps, and looks at a key without making a string of it; the slow one defines each
property as it comes. How far the fast one gets makes no difference. -/
namespace V8Multithread.Objects
open Option List Base Scan Reads Varint

section
variable {E : Engine} {I : Isolate} {D : Option ReadDelegate} {H : Hosts} {good : Receiver → Prop}
  {write : Value → Writer → Option Writer} {rd : Read Value} {w w' : Writer}

theorem ne_of_opening {t u : SerializationTag} (ht : t.opening) (hu : u.opening = false) : t.byte ≠ u.byte := by
  intro h
  rw [SerializationTag.byte_injective h, hu] at ht
  cases ht

/-! ### Maps and sets -/

theorem setEntry_mirrors (hcarries : Carries E I H good write rd) {v : Value} (hv : Sendable E good v)
    (hwr : write v w = some w') :
    EntryMirrors E I H (setEntry rd) 1 (fun ids o => o.setAdd (v.image E (place ids))) w w' := by
  obtain ⟨bytes, new, hwro, ho, hre⟩ := hcarries v w w' hv hwr
  refine ⟨bytes, new, hwro, ho, ?_⟩
  intro final heap o o' post reads count hfi hsm hh hadd
  obtain ⟨t, ht, htag⟩ := ho
  refine peekTag_reads htag ?_
  dsimp only
  rw [if_neg (ne_of_opening ht rfl)]
  have hva := (hre final _ reads hfi hsm hh).mono fun tail (h : NoView tail) => h.fits v
  rw [grown_cons] at hva ⊢
  exact after hva (Reads.skip (updateObject_reads hadd) Reads.pure)

variable {e : Value × Value} {key : PropertyKey} {bytes : List UInt8} {k : Value}

/-- Two values one after the other. -/
theorem writeProperty_mirrors (hcarries : Carries E I H good write rd) (hkey : Sendable E good e.1)
    (hva : Sendable E good e.2) (hwr : writeProperty write e w = some w') :
    ∃ bytes₁ bytes₂ new₁ new₂, Wrote w w' (bytes₁ ++ bytes₂) (new₁ ++ new₂) ∧ Opening bytes₁ ∧
      ∀ final heap reads, w'.ids <+: final → final.length < 2 ^ 32 → Heads I w.ids heap →
        ReadsBack NoView rd (inStep heap reads) bytes₁ (e.1.image E (place final)) (grown E I H final heap reads new₁) ∧
        (∀ tail, NoView (bytes₂ ++ tail)) ∧
        ReadsBack NoView rd (grown E I H final heap reads new₁) bytes₂ (e.2.image E (place final))
          (grown E I H final heap reads (new₁ ++ new₂)) := by
  obtain ⟨w₁, hwr₁, hwr₂⟩ := bind_eq_some_iff.mp hwr
  obtain ⟨bytes₁, new₁, hw₁, ho₁, hr₁⟩ := hcarries e.1 w w₁ hkey hwr₁
  obtain ⟨bytes₂, new₂, hw₂, ho₂, hr₂⟩ := hcarries e.2 w₁ w' hva hwr₂
  refine ⟨bytes₁, bytes₂, new₁, new₂, hw₁.trans hw₂, ho₁, ?_⟩
  intro final heap reads hfi hsm hh
  have hse := hr₂ final _ (reads ++ new₁.flatMap (readsOf I H)) hfi hsm
    (hw₁.heads (E := E) (H := H) hh final)
  rw [grown_append] at hse
  exact ⟨(hr₁ final heap reads (hw₂.extends.trans hfi) hsm hh).mono fun _ h => NoView.fits h _,
    ho₂.noView, hse.mono fun _ h => NoView.fits h _⟩

theorem mapEntry_mirrors (hcarries : Carries E I H good write rd) (hkey : Sendable E good e.1)
    (hva : Sendable E good e.2) (hwr : writeProperty write e w = some w') :
    EntryMirrors E I H (mapEntry rd) 2
      (fun ids o => o.mapSet (e.1.image E (place ids)) (e.2.image E (place ids))) w w' := by
  obtain ⟨bytes₁, bytes₂, new₁, new₂, hwro, ho, hre⟩ := writeProperty_mirrors hcarries hkey hva hwr
  refine ⟨bytes₁ ++ bytes₂, new₁ ++ new₂, hwro, ho.append _, ?_⟩
  intro final heap o o' post reads count hfi hsm hh hadd
  obtain ⟨t, ht, htag⟩ := ho.append bytes₂
  refine peekTag_reads htag ?_
  dsimp only
  rw [if_neg (ne_of_opening ht rfl)]
  obtain ⟨hfir, hno, hse⟩ := hre final _ reads hfi hsm hh
  rw [grown_cons _ _ _ _ _ (new₁ ++ new₂)] at hse ⊢
  exact Reads.bind hfir (after hse (Reads.skip (updateObject_reads hadd) Reads.pure))
    fun tail _ => hno tail

/-! ### Properties, the slow way -/

theorem slowProperty_mirrors (hcarries : Carries E I H good write rd) {endTag : SerializationTag}
    (hend : endTag.opening = false) (hkey : Sendable E good e.1) (hva : Sendable E good e.2)
    (hwr : writeProperty write e w = some w') :
    EntryMirrors E I H (fun a => slowProperty E rd a endTag) 1 (fun ids o => addProperty E (place ids) o e) w w' := by
  obtain ⟨bytes₁, bytes₂, new₁, new₂, hwro, ho, hre⟩ := writeProperty_mirrors hcarries hkey hva hwr
  refine ⟨bytes₁ ++ bytes₂, new₁ ++ new₂, hwro, ho.append _, ?_⟩
  intro final heap o o' post reads count hfi hsm hh hadd
  obtain ⟨t, ht, htag⟩ := ho.append bytes₂
  obtain ⟨key, hp, hde⟩ := bind_eq_some_iff.mp hadd
  refine peekTag_reads htag ?_
  dsimp only
  rw [if_neg (ne_of_opening ht hend)]
  obtain ⟨hfir, hno, hse⟩ := hre final _ reads hfi hsm hh
  rw [grown_cons _ _ _ _ _ (new₁ ++ new₂)] at hse ⊢
  refine Reads.bind hfir ?_ fun tail _ => hno tail
  rw [hp]
  exact after hse (Reads.skip (updateObject_reads hde) Reads.pure)

theorem slowProperty_end {endTag : SerializationTag} (hend : endTag ≠ .padding) (a count : Nat) (s : ReaderState) :
    ReadsBack Any (slowProperty E rd a endTag count) s [endTag.byte] (.inr count) s := by
  refine peekTag_reads (nextTag_tag hend []) ?_
  dsimp only
  rw [if_pos rfl]
  exact after (consumeTag_reads hend) Reads.pure

theorem Obj.head_define {v : Value} {o o' : Obj} (h : o.define key v = some o') : o'.head = o.head := by
  cases o with
  | jsObject field p =>
    obtain ⟨p', -, rfl⟩ := map_eq_some_iff.mp h
    rfl
  | jsArray packed length p =>
    simp only [Obj.define] at h
    split at h
    · cases h
    · obtain ⟨p', -, rfl⟩ := map_eq_some_iff.mp h
      rfl
  | _ => cases h

theorem head_addProperty {φ : Receiver → Receiver} {o o' : Obj} (h : addProperty E φ o e = some o') : o'.head = o.head := by
  obtain ⟨key, -, hde⟩ := bind_eq_some_iff.mp h
  exact Obj.head_define hde

theorem slowProperties_reads (hcarries : Carries E I H good write rd) {endTag : SerializationTag}
    (hend : endTag.opening = false) (hp : endTag ≠ .padding) (hvi : endTag ≠ .arrayBufferView)
    {properties : List (Value × Value)} (hg : ∀ e ∈ properties, Sendable E good e.1 ∧ Sendable E good e.2)
    (hwr : writeProperties write properties w = some w') :
    ∃ bytes new, Wrote w w' bytes new ∧ (∀ tail, NoView tail → NoView (bytes ++ tail)) ∧
      ∀ final heap o o' post reads count, w'.ids <+: final → final.length < 2 ^ 32 →
        Heads I w.ids (heap ++ o :: post) → properties.foldlM (addProperty E (place final)) o = some o' →
        count < 2 ^ 32 →
        ReadsBack Any (slowProperties E rd heap.length endTag count) (inStep (heap ++ o :: post) reads)
          (bytes ++ [endTag.byte]) ((count + properties.length) % 2 ^ 32)
          (grown E I H final (heap ++ o' :: post) reads new) := by
  obtain ⟨bytes, new, hwro, hno, hre⟩ :=
    (@entries_reads _ _ _ _ _ _ _ fun ids => addProperty E (place ids)) (slowProperty_end hp) hp
      hvi (fun ids o e o' => head_addProperty)
      (fun e he w w' hwr => slowProperty_mirrors hcarries hend (hg e he).1 (hg e he).2 hwr) hwr
  refine ⟨bytes, new, hwro, hno, ?_⟩
  intro final heap o o' post reads count hfi hsm hh hfo hco
  have h := hre final heap o o' post reads count hfi hsm hh hfo hco
  rwa [Nat.one_mul] at h

/-! ### Keys, as the fast way looks at them -/

section Keys
variable {T : List UInt8 → Prop} {s : ReaderState} {p : Nat} {keys : List Name}

/-- Bytes at an odd address are left alone. -/
theorem attempt_readRawTwoBytes (bytes : List UInt8) :
    Tries (2 ^ 32) T (Scan.attempt (readRawTwoBytes E bytes.length)) s bytes bytes := by
  intro c tail hs hlen hta hrest
  by_cases hch : (c.position % 2 = 0 ↔ E.aligned = true) ∧ bytes.length % 2 = 0
  · obtain ⟨c', hrun, hda, hpos, hs'⟩ := readRawBytes_reads (T := T) (s := s) bytes c tail hs hlen hta hrest
    have htwo : readRawTwoBytes E bytes.length c = (.ok bytes, c') := by
      show (Scan.check ((c.position % 2 = 0 ↔ E.aligned = true) ∧ bytes.length % 2 = 0) >>=
        fun _ => readRawBytes bytes.length) c = _
      rw [Scan.check, if_pos hch]
      exact hrun
    exact ⟨some bytes, c', by rw [Scan.attempt, htwo], hda, hs', .inr ⟨rfl, hpos⟩⟩
  · have htwo : readRawTwoBytes E bytes.length c = (.error .invalid, c) := by
      show (Scan.check ((c.position % 2 = 0 ↔ E.aligned = true) ∧ bytes.length % 2 = 0) >>=
        fun _ => readRawBytes bytes.length) c = _
      rw [Scan.check, if_neg hch]
      rfl
    exact ⟨none, c, by rw [Scan.attempt, htwo], rfl, hs, .inl rfl⟩

theorem keyChars_oneByte (chars : List UInt8) :
    Tries (2 ^ 32) T (keyChars E SerializationTag.oneByteString.byte chars.length) s chars (Str.oneByte chars).units :=
  Tries.of_reads (after (attempt (readRawBytes_reads chars)) Reads.pure) (.inr rfl)

theorem keyChars_twoByte (chars : List UInt16) :
    Tries (2 ^ 32) T (keyChars E SerializationTag.twoByteString.byte (2 * chars.length)) s
      ((chars.map UInt16.toNat).flatMap (littleEndian 2)) chars := by
  have h := attempt_readRawTwoBytes (E := E) (T := T) (s := s) ((chars.map UInt16.toNat).flatMap (littleEndian 2))
  rw [length_flatMap_littleEndian, length_map] at h
  refine Tries.filter (f := Option.map twoByteChars) h rfl (.inr ?_)
  rw [map_some, twoByteChars_flatMap]

/-- The characters are those of the expected key, or they are not. -/
theorem readExpectedKey_chars {pad bytes : List UInt8} {t : SerializationTag} {n : Nat} {chars : Name} (ht : t ≠ .padding)
    (hpad : ∀ b ∈ pad, b = SerializationTag.padding.byte) (hn : n < 2 ^ 32)
    (hch : Tries (2 ^ 32) T (keyChars E t.byte n) s bytes chars) :
    Tries (2 ^ 32) T (readExpectedKey E p keys) s (pad ++ [t.byte] ++ (varint32 n ++ bytes)) (.name chars, true) := by
  refine Tries.seq (readTag_reads pad ht hpad) (Tries.seq (readVarint32_reads hn) (Tries.filter hch rfl ?_))
  rw [bind_some]
  split
  · exact .inr rfl
  · exact .inl rfl

theorem readExpectedKey_string {str : Str} (h : str.Valid E) (size : Nat) :
    Tries (2 ^ 32) T (readExpectedKey E p keys) s (stringBytes size str) (.name str.units, true) := by
  have hmax := E.maxStringLength_lt
  cases str with
  | oneByte chars =>
    have hlt : chars.length < 2 ^ 32 := by
      rw [Str.Valid, Str.units, length_map] at h
      omega
    exact (@readExpectedKey_chars _ _ _ _ _ [] _ .oneByteString) (by simp) (by simp) hlt (keyChars_oneByte chars)
  | twoByte chars =>
    have hlt : 2 * chars.length < 2 ^ 32 := by
      rw [Str.Valid, Str.units] at h
      omega
    have hch := keyChars_twoByte (E := E) (T := T) (s := s) chars
    rw [stringBytes]
    split
    · exact (@readExpectedKey_chars _ _ _ _ _ [SerializationTag.padding.byte] _ .twoByteString) (by simp) (by simp) hlt hch
    · exact (@readExpectedKey_chars _ _ _ _ _ [] _ .twoByteString) (by simp) (by simp) hlt hch

/-- A number is taken for a string with some length, and then not for a string. -/
theorem readExpectedKey_number {t : SerializationTag} (ht : t = .int32 ∨ t = .double)
    (hde : ∀ tail, ∃ n k, decode 32 (bytes ++ tail) = (some n, k)) (a : PropertyKey × Bool) :
    Tries (2 ^ 32) T (readExpectedKey E p keys) s (t.byte :: bytes) a := by
  intro c tail hs hlen hta hrest
  have hp : t ≠ .padding := by
    rintro rfl
    rcases ht with ht | ht <;> cases ht
  obtain ⟨c₁, hrun₁, hd₁, hpos₁, hs₁⟩ :=
    readTag_reads (T := Any) (s := s) [] hp (by simp) c (bytes ++ tail) hs hlen trivial hrest
  have hr₁ : c₁.rest = bytes ++ tail := rest_of_position hd₁ hpos₁ hrest
  obtain ⟨n, k, hn⟩ := hde tail
  have hva : readVarint 32 c₁ = (.ok n, c₁.moveTo (c₁.position + k)) := by
    rw [readVarint, Scan.take, hr₁, hn]
  have hch : keyChars E t.byte n = pure none := by
    rcases ht with rfl | rfl <;> rfl
  refine ⟨none, c₁.moveTo (c₁.position + k), ?_, hd₁, hs₁, .inl rfl⟩
  rw [readExpectedKey, bind_ok hrun₁, bind_ok hva, hch]
  rfl

theorem decode_doubleBytes (d : Double) (tail : List UInt8) : ∃ n k, decode 32 (doubleBytes d ++ tail) = (some n, k) := by
  have hso : (decode 32 (doubleBytes d ++ tail)).1.isSome := by
    rw [decode_eq_loop (by decide), decodeLoop_isSome]
    right
    rw [length_append, doubleBytes, length_littleEndian]
    omega
  obtain ⟨n, hn⟩ := isSome_iff_exists.mp hso
  exact ⟨n, _, Prod.ext hn rfl⟩

end Keys

inductive OwnKey (E : Engine) : Value → PropertyKey → Prop
  | index {i : Nat} : i < 2 ^ 32 - 1 → OwnKey E (E.newNumberFromInt i) (.index i)
  | name {str : Str} : str.Valid E → arrayIndex str.units = none → OwnKey E (.string str) (.name str.units)

section
variable (h : OwnKey E k key)
include h

theorem OwnKey.valid : k.Valid E := by
  cases h with
  | index hi =>
    rw [Engine.newNumberFromInt]
    split
    · next hsmi => exact hsmi
    · trivial
  | name hstr _ => exact hstr

theorem OwnKey.primitive (r : Receiver) : k ≠ .object r := by
  cases h with
  | index hi =>
    rw [Engine.newNumberFromInt]
    split <;> simp
  | name _ _ => simp

theorem OwnKey.propertyKey (φ : Receiver → Receiver) : E.propertyKey (k.image E φ) = some key := by
  cases h with
  | index hi => exact propertyKey_index E φ hi
  | name _ hna => exact propertyKey_name E φ hna

theorem OwnKey.expected {size : Nat} (hby : primitiveBytes size k = some bytes) (s : ReaderState) (p : Nat)
    (keys : List Name) :
    Tries (2 ^ 32) Any (readExpectedKey E p keys) s bytes (key, true) := by
  cases h with
  | @index i hi =>
    rw [Engine.newNumberFromInt] at hby
    split at hby
    · cases hby
      exact readExpectedKey_number (.inl rfl)
        (fun tail => ⟨_, _, decode_encode (by decide) (by decide) (Nat.mod_lt _ (by decide)) tail⟩) _
    · cases hby
      exact readExpectedKey_number (.inr rfl) (decode_doubleBytes _) _
  | name hstr _ =>
    cases hby
    exact readExpectedKey_string hstr size

/-- A key is read, whatever it has to do with the transitions there are. -/
theorem OwnKey.reads {size : Nat} {bytes₂ : List UInt8} (hby : primitiveBytes size k = some bytes) {α : Type}
    {T : List UInt8 → Prop} {s s' : ReaderState} {stack p : Nat} {keys : List Name} {g : PropertyKey × Bool → Read α}
    {a : α} (hg : ∀ transitioning, ReadsBack T (g (key, transitioning)) s bytes₂ a s') :
    ReadsBack T (Scan.orBack (readExpectedKey E p keys) (readOtherKey E (readObject E D (stack + 1)) p keys) >>= g) s
      (bytes ++ bytes₂) a s' := by
  have ho : ∃ transitioning, ReadsBack Any (readOtherKey E (readObject E D (stack + 1)) p keys) s bytes
      (key, transitioning) s := by
    have hre := primitive_reads (D := D) (T := Any) (s := s) id hby h.valid stack
    cases key with
    | index i =>
      refine ⟨false, after hre ?_⟩
      rw [h.propertyKey id]
      exact Reads.pure
    | name n =>
      refine ⟨E.findTransition p keys n, after hre ?_⟩
      rw [h.propertyKey id]
      exact Reads.pure
  obtain ⟨transitioning, ho⟩ := ho
  exact orBack_bind (h.expected hby s p keys) ho (hg true) (hg transitioning)

end

/-! ### Properties, the fast way -/

theorem ownKey_sendable (h : ∃ key, OwnKey E k key) : Sendable E good k := by
  obtain ⟨key, hkey⟩ := h
  exact ⟨hkey.valid, fun r hr => absurd hr (hkey.primitive r)⟩

/-- Values that are not objects are written as such. -/
def WritesPrimitives (write : Value → Writer → Option Writer) : Prop :=
  ∀ v w w', (∀ r, v ≠ .object r) → write v w = some w' →
    ∃ bytes, primitiveBytes w.buffer.length v = some bytes ∧ w' = w.put bytes

theorem Wrote.unique {bytes' : List UInt8} {new new' : List Receiver} (h : Wrote w w' bytes new)
    (h' : Wrote w w' bytes' new') : bytes = bytes' ∧ new = new' :=
  ⟨append_cancel_left (h.buffer.symm.trans h'.buffer), append_cancel_left (h.ids.symm.trans h'.ids)⟩

/-- What is done when the fast way comes to an end. -/
def afterFast (E : Engine) (rd : Read Value) (a : Nat) (endTag : SerializationTag) (r : Nat × Bool) : Read Nat :=
  if r.2 then pure r.1 else slowProperties E rd a endTag r.1

section Fast
variable {stack : Nat} {endTag : SerializationTag}

/-- The end tag on the fast way: the properties that were gathered are those of the object. -/
theorem fastProperty_end (hp : endTag ≠ .padding) (heap post : List Obj) (done : List (Name × Value))
    (reads : List (Nat × Nat)) :
    ReadsBack Any (fastProperty E rd heap.length endTag done) (inStep (heap ++ .jsObject none {} :: post) reads)
      [endTag.byte] (.inr (done.length % 2 ^ 32, true)) (inStep (heap ++ .jsObject none {named := done} :: post) reads) := by
  refine peekTag_reads (nextTag_tag hp []) ?_
  dsimp only
  rw [if_pos rfl]
  exact (@Reads.seq _ _ _ _ _ _ _ _ _ _ []) (consumeTag_reads hp) (Reads.skip (updateObject_reads rfl) Reads.pure)

theorem fast_loop (hcarries : Carries E I H good write (readObject E D (stack + 1))) (hpr : WritesPrimitives write)
    (hend : endTag.opening = false) (hp : endTag ≠ .padding) (hvi : endTag ≠ .arrayBufferView)
    (properties : List (Value × Value)) (w w' : Writer)
    (hg : ∀ e ∈ properties, (∃ key, OwnKey E e.1 key) ∧ Sendable E good e.2)
    (hwri : writeProperties write properties w = some w') :
    ∃ bytes new, Wrote w w' bytes new ∧ properties.length ≤ bytes.length ∧
      ∀ final heap done o' post reads rounds, w'.ids <+: final → final.length < 2 ^ 32 →
        Heads I w.ids (heap ++ .jsObject none {} :: post) →
        properties.foldlM (addProperty E (place final)) (.jsObject none {named := done}) = some o' →
        properties.length ≤ rounds →
        ReadsBack Any (Scan.loop (fastProperty E (readObject E D (stack + 1)) heap.length endTag) (rounds + 1) done >>=
            afterFast E (readObject E D (stack + 1)) heap.length endTag)
          (inStep (heap ++ .jsObject none {} :: post) reads) (bytes ++ [endTag.byte])
          ((done.length + properties.length) % 2 ^ 32) (grown E I H final (heap ++ o' :: post) reads new) := by
  induction properties generalizing w with
  | nil =>
    cases hwri
    refine ⟨[], [], Wrote.nil _, Nat.le_refl _, ?_⟩
    intro final heap done o' post reads rounds _ _ _ hfo _
    cases hfo
    rw [grown_nil]
    exact after (loop_done rounds (fastProperty_end hp heap post done reads)) Reads.pure
  | cons e rest ih =>
    obtain ⟨w₁, hfir, hrest⟩ := bind_eq_some_iff.mp hwri
    obtain ⟨wk, hwritek, hwritev⟩ := bind_eq_some_iff.mp hfir
    obtain ⟨⟨key, hkey⟩, hva⟩ := hg e (by simp)
    obtain ⟨bytesk, hby, rfl⟩ := hpr e.1 w wk hkey.primitive hwritek
    obtain ⟨bytesv, newv, hwr, -, hre⟩ := hcarries e.2 _ w₁ hva hwritev
    obtain ⟨bytes₂, new₂, hw₂, hl₂, hr₂⟩ := ih w₁ (fun e he => hg e (by simp [he])) hrest
    obtain ⟨slowBytes, slowNew, hsl, hno, hslo⟩ :=
      slowProperties_reads hcarries hend hp hvi (fun e he => (hg e (by simp [he])).imp_left ownKey_sendable) hrest
    obtain ⟨rfl, rfl⟩ := hsl.unique hw₂
    have ho := opening_primitive hby
    refine ⟨bytesk ++ (bytesv ++ slowBytes), newv ++ slowNew, (hwr.trans hw₂).put_before, ?_, ?_⟩
    · have := ho.length_pos
      rw [length_cons, length_append, length_append]
      omega
    · intro final heap done o' post reads rounds hfi hsm hh hfo hro
      obtain ⟨o₁, hadd, hfo⟩ := bind_eq_some_iff.mp hfo
      rw [addProperty, hkey.propertyKey, bind_some] at hadd
      obtain ⟨k, rfl⟩ : ∃ k, rounds = k + 1 := ⟨rounds - 1, by rw [length_cons] at hro; omega⟩
      have hva := (hre final _ reads (hw₂.extends.trans hfi) hsm hh).mono
        fun tail (h : NoView tail) => h.fits e.2
      have hh₁ := hwr.heads_set (E := E) (H := H) hh rfl final
      have hhe : o₁.head = .other := Obj.head_define hadd
      have hco : ((done.length + 1) % 2 ^ 32 + rest.length) % 2 ^ 32 = (done.length + (e :: rest).length) % 2 ^ 32 := by
        rw [Nat.mod_add_mod, length_cons, Nat.add_right_comm, Nat.add_assoc]
      have hslo := hslo final heap o₁ o' _ (reads ++ newv.flatMap (readsOf I H)) _ hfi hsm
        (hh₁.set hhe) hfo (Nat.mod_lt (done.length + 1) (by decide))
      rw [hco, grown_after] at hslo
      rw [grown_cons] at hva
      rw [append_assoc, append_assoc, Scan.loop, Scan.bind_assoc, fastProperty, Scan.bind_assoc]
      obtain ⟨t, ht, htag⟩ := ho.append (bytesv ++ (slowBytes ++ [endTag.byte]))
      refine peekTag_reads htag ?_
      dsimp only
      rw [if_neg (ne_of_opening ht hend), Scan.bind_assoc]
      refine position fun p => ?_
      rw [Scan.bind_assoc]
      refine hkey.reads hby fun transitioning => ?_
      dsimp only
      rw [Scan.bind_assoc]
      refine Reads.bind hva ?_ fun tail _ => by rw [append_assoc]; exact hno _ (noView_tag tail hp hvi)
      -- a key that does not go on with the chain of maps is the first of the slow way
      have hl : ∀ next : List (Name × Value) ⊕ Nat × Bool → Read Nat,
          next (.inr ((done.length + 1) % 2 ^ 32, false)) =
            slowProperties E (readObject E D (stack + 1)) heap.length endTag ((done.length + 1) % 2 ^ 32) →
          ReadsBack Any ((updateObject heap.length (commit done) >>= fun _ =>
              updateObject heap.length (Obj.define key (e.2.image E (place final))) >>= fun _ =>
                pure (.inr ((done.length + 1) % 2 ^ 32, false))) >>= next)
            (inStep (heap ++ .jsObject none {} :: (post ++ newv.map (imageOf E I H final)))
              (reads ++ newv.flatMap (readsOf I H))) (slowBytes ++ [endTag.byte])
            ((done.length + (e :: rest).length) % 2 ^ 32)
            (grown E I H final (heap ++ o' :: post) reads (newv ++ slowNew)) := by
        intro next hnext
        rw [← hnext] at hslo
        rw [Scan.bind_assoc]
        refine Reads.skip (updateObject_reads rfl) ?_
        rw [Scan.bind_assoc]
        exact Reads.skip (updateObject_reads hadd) hslo
      cases key with
      | index i =>
        dsimp only
        exact hl _ rfl
      | name n =>
        cases hfit : transitioning && E.fits p (done.map Prod.fst) n (e.2.image E (place final)) with
        | false => exact hl _ rfl
        | true =>
          have ho₁ : o₁ = .jsObject none {named := done ++ [(n, e.2.image E (place final))]} := by
            simp only [Obj.define, Properties.define] at hadd
            split at hadd
            · cases hadd
            · injection hadd with hadd
              exact hadd.symm
          subst ho₁
          have hfa := hr₂ final heap _ o' _ (reads ++ newv.flatMap (readsOf I H)) k hfi hsm hh₁ hfo
            (by rw [length_cons] at hro; omega)
          rw [grown_after, length_append, length_singleton, Nat.add_assoc, Nat.add_comm 1] at hfa
          exact hfa

theorem readJSObjectProperties_reads (hcarries : Carries E I H good write (readObject E D (stack + 1)))
    (hp : WritesPrimitives write) (hend : endTag.opening = false) (hpa : endTag ≠ .padding)
    (hvi : endTag ≠ .arrayBufferView) {properties : List (Value × Value)}
    (hg : ∀ e ∈ properties, (∃ key, OwnKey E e.1 key) ∧ Sendable E good e.2)
    (hwr : writeProperties write properties w = some w') :
    ∃ bytes new, Wrote w w' bytes new ∧ ∀ final heap o' post reads, w'.ids <+: final → final.length < 2 ^ 32 →
        Heads I w.ids (heap ++ .jsObject none {} :: post) →
        properties.foldlM (addProperty E (place final)) (.jsObject none {}) = some o' →
        ReadsBack Any (readJSObjectProperties E (readObject E D (stack + 1)) heap.length endTag true)
          (inStep (heap ++ .jsObject none {} :: post) reads) (bytes ++ [endTag.byte])
          (properties.length % 2 ^ 32) (grown E I H final (heap ++ o' :: post) reads new) := by
  obtain ⟨bytes, new, hwro, hl, hre⟩ :=
    fast_loop hcarries hp hend hpa hvi properties w w' hg hwr
  refine ⟨bytes, new, hwro, ?_⟩
  intro final heap o' post reads hfi hsm hh hfo
  refine (sized (x := fun n => Scan.loop (fastProperty E (readObject E D (stack + 1)) heap.length endTag) (n + 1) [] >>=
    afterFast E (readObject E D (stack + 1)) heap.length endTag) fun n hn => ?_ :)
  have h := hre final heap [] o' post reads n hfi hsm hh hfo (by rw [length_append] at hn; omega)
  rwa [length_nil, Nat.zero_add] at h

end Fast

/-! ### Elements of a dense array -/

def elementImage (E : Engine) (φ : Receiver → Receiver) (e : Nat × Value) : Nat × Value := (e.1, e.2.image E φ)

/-- These elements are read back, at index `i` and after, into an array that has those before. -/
def ElementsMirror (E : Engine) (I : Isolate) (H : Hosts) (x : Nat → Nat → Read Unit) (elements : List (Option Value))
    (w w' : Writer) : Prop :=
  ∃ bytes new, Wrote w w' bytes new ∧ elements.length ≤ bytes.length ∧ (∀ tail, NoView tail → NoView (bytes ++ tail)) ∧
    ∀ final heap i length done post reads, w'.ids <+: final → final.length < 2 ^ 32 →
      Heads I w.ids (heap ++ .jsArray false length {elements := done} :: post) →
      (∀ j ∈ done.map Prod.fst, j < i) →
      ReadsBack NoView (x heap.length i) (inStep (heap ++ .jsArray false length {elements := done} :: post) reads) bytes ()
        (grown E I H final (heap ++ .jsArray false length
          {elements := done ++ (present i elements).map (elementImage E (place final))} :: post) reads new)

/-- A hole, or the element. -/
theorem element_mirrors (hcarries : Carries E I H good write rd) {element : Option Value}
    (hg : ∀ v ∈ element, Sendable E good v) (hwr : writeElement write element w = some w') :
    ElementsMirror E I H (readElement rd) [element] w w' := by
  cases element with
  | none =>
    cases hwr
    refine ⟨[SerializationTag.theHole.byte], [], Wrote.put _ _, Nat.one_pos, fun tail _ => noView_tag tail (by simp) (by simp), ?_⟩
    intro final heap i length done post reads _ _ _ _
    refine peekTag_reads (nextTag_tag (t := .theHole) (by simp) []) ?_
    rw [if_pos rfl, grown_nil, present, present, map_nil, append_nil]
    exact consumeTag_reads (t := .theHole) (by simp)
  | some v =>
    obtain ⟨bytes, new, hwro, ho, hre⟩ := hcarries v w w' (hg v rfl) hwr
    refine ⟨bytes, new, hwro, ho.length_pos, fun tail _ => ho.noView tail, ?_⟩
    intro final heap i length done post reads hfi hsm hh hdo
    have hva := (hre final _ reads hfi hsm hh).mono fun tail (h : NoView tail) => h.fits v
    obtain ⟨t, ht, htag⟩ := ho
    refine peekTag_reads htag ?_
    rw [if_neg fun h => ne_of_opening (u := .theHole) ht rfl (Option.some.inj h)]
    rw [grown_cons] at hva ⊢
    refine after hva (Reads.skip Reads.get ?_)
    have hve : ¬ latestVersion < 11 := by decide
    rw [if_neg fun h => hve h.1]
    refine updateObject_reads ?_
    rw [Obj.setElement, Properties.insertElement_append _ _ _ hdo]
    rfl

theorem present_cons (i : Nat) (element : Option Value) (rest : List (Option Value)) :
    present i (element :: rest) = present i [element] ++ present (i + 1) rest := by
  cases element <;> rfl

theorem elements_mirror (hcarries : Carries E I H good write rd) (elements : List (Option Value)) (w w' : Writer)
    (hg : ∀ element ∈ elements, ∀ v ∈ element, Sendable E good v)
    (hwr : writeElements write elements w = some w') :
    ElementsMirror E I H (fun a i => Scan.upFrom (readElement rd a) i elements.length) elements w w' := by
  induction elements generalizing w with
  | nil =>
    cases hwr
    refine ⟨[], [], Wrote.nil _, Nat.le_refl _, fun _ h => h, ?_⟩
    intro final heap i length done post reads _ _ _ _
    rw [grown_nil, present, map_nil, append_nil]
    exact Reads.pure
  | cons element rest ih =>
    obtain ⟨w₁, hfir, hrest⟩ := bind_eq_some_iff.mp hwr
    obtain ⟨bytes₁, new₁, hw₁, hpos₁, hn₁, hr₁⟩ := element_mirrors hcarries (hg element (by simp)) hfir
    obtain ⟨bytes₂, new₂, hw₂, hl₂, hn₂, hr₂⟩ := ih w₁ (fun x hx => hg x (by simp [hx])) hrest
    refine ⟨bytes₁ ++ bytes₂, new₁ ++ new₂, hw₁.trans hw₂, ?_, ?_, ?_⟩
    · rw [length_cons, length_append, Nat.add_comm]
      exact Nat.add_le_add hpos₁ hl₂
    · intro tail h
      rw [append_assoc]
      exact hn₁ _ (hn₂ tail h)
    · intro final heap i length done post reads hfi hsm hh hdo
      have hre := hr₁ final heap i length done post reads (hw₂.extends.trans hfi) hsm hh hdo
      have hd₁ : ∀ j ∈ (done ++ (present i [element]).map (elementImage E (place final))).map Prod.fst, j < i + 1 := by
        intro j hj
        rw [map_append, mem_append] at hj
        rcases hj with hj | hj
        · exact Nat.lt_succ_of_lt (hdo j hj)
        · cases element with
          | none => cases hj
          | some v =>
            rw [mem_singleton.mp hj]
            exact Nat.lt_succ_self i
      have hnext := hr₂ final heap (i + 1) length _ _ (reads ++ new₁.flatMap (readsOf I H)) hfi hsm
        (hw₁.heads_set (E := E) (H := H) hh (by rfl) final) hd₁
      have hel : done ++ (present i [element]).map (elementImage E (place final)) ++
          (present (i + 1) rest).map (elementImage E (place final)) =
            done ++ (present i (element :: rest)).map (elementImage E (place final)) := by
        rw [present_cons i element rest, map_append, append_assoc]
      rw [grown_cons] at hre
      rw [hel, grown_after] at hnext
      exact Reads.bind hre hnext hn₂

end

end V8Multithread.Objects
