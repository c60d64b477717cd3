import V8Multithread.Objects.ReadBack

/-! Reading back objects, when what they hold is read back.

A new object is put into the heap empty and filled step by step, while the objects it holds
are put in after it. So the heap is `heap ++ o :: post` all the time, with `o` on its way to
the image of the object that was written. Of objects that are not complete nothing is used
but their heads, and those are right from the start. -/
namespace V8Multithread.Objects
open List Base Scan

/-! ### What comes next in the bytes -/

def SerializationTag.opening : SerializationTag → Bool
  | .version | .padding | .verifyObjectCount | .theHole | .endJSObject | .endSparseJSArray | .endDenseJSArray
  | .endJSMap | .endJSSet | .arrayBufferView => Bool.false
  | _ => Bool.true

variable {t : SerializationTag} {bytes : List UInt8} {w w' : Writer} {new : List Receiver}

theorem SerializationTag.byte_injective {u : SerializationTag} (h : t.byte = u.byte) : t = u := by
  have ht := SerializationTag.ofByte_byte t
  rw [h, SerializationTag.ofByte_byte] at ht
  injection ht with ht
  exact ht.symm

def Opening (bytes : List UInt8) : Prop :=
  ∃ t : SerializationTag, t.opening = true ∧ ∀ tail, (nextTag (bytes ++ tail)).1 = some t.byte

def NoView (tail : List UInt8) : Prop := (nextTag tail).1 ≠ some SerializationTag.arrayBufferView.byte

theorem opening_padded (pad bytes : List UInt8) (ht : t.opening)
    (hpad : ∀ b ∈ pad, b = SerializationTag.padding.byte) : Opening (pad ++ t.byte :: bytes) := by
  refine ⟨t, ht, fun tail => ?_⟩
  rw [append_assoc, cons_append, nextTag_padded pad _ (by rintro rfl; cases ht) hpad]

theorem opening_tag (bytes : List UInt8) (ht : t.opening) : Opening (t.byte :: bytes) :=
  opening_padded [] bytes ht nofun

theorem Opening.append (h : Opening bytes) (more : List UInt8) : Opening (bytes ++ more) := by
  obtain ⟨t, ht, htag⟩ := h
  exact ⟨t, ht, fun tail => by rw [append_assoc]; exact htag _⟩

theorem Opening.noView (h : Opening bytes) (tail : List UInt8) : NoView (bytes ++ tail) := by
  obtain ⟨t, ht, htag⟩ := h
  intro hview
  rw [htag tail] at hview
  rw [SerializationTag.byte_injective (Option.some.inj hview)] at ht
  cases ht

theorem Opening.length_pos (h : Opening bytes) : 0 < bytes.length := by
  obtain ⟨t, -, htag⟩ := h
  rcases bytes with - | ⟨b, bytes⟩
  · cases htag []
  · exact Nat.succ_pos _

theorem opening_string (size : Nat) (str : Str) : Opening (stringBytes size str) := by
  cases str with
  | oneByte chars => exact opening_tag (t := .oneByteString) _ rfl
  | twoByte chars =>
    rw [stringBytes, append_assoc, cons_append]
    split
    · exact opening_padded (t := .twoByteString) [SerializationTag.padding.byte] _ rfl (by simp)
    · exact opening_tag (t := .twoByteString) _ rfl

theorem opening_primitive {size : Nat} {v : Value} (h : primitiveBytes size v = some bytes) : Opening bytes := by
  cases v with
  | undefined =>
    cases h
    exact opening_tag (t := .undefined) _ rfl
  | null =>
    cases h
    exact opening_tag (t := .null) _ rfl
  | boolean b =>
    cases b with
    | true =>
      cases h
      exact opening_tag (t := .true) _ rfl
    | false =>
      cases h
      exact opening_tag (t := .false) _ rfl
  | smi i =>
    cases h
    exact opening_tag (t := .int32) _ rfl
  | heapNumber d =>
    cases h
    exact opening_tag (t := .double) _ rfl
  | bigint b =>
    cases h
    exact opening_tag (t := .bigInt) _ rfl
  | string str =>
    cases h
    exact opening_string size str
  | symbol | object => cases h

theorem noView_tag (bytes : List UInt8) (hpad : t ≠ .padding) (ht : t ≠ .arrayBufferView) : NoView (t.byte :: bytes) := by
  have htag := nextTag_padded [] bytes hpad nofun
  intro hview
  rw [nil_append] at htag
  rw [htag] at hview
  exact ht (SerializationTag.byte_injective (Option.some.inj hview))

theorem peekTag_reads {α : Type} {T : List UInt8 → Prop} {f : Option UInt8 → Read α} {s s' : ReaderState} {a : α}
    (ht : ∀ tail, (nextTag (bytes ++ tail)).1 = some t.byte) (h : ReadsBack T (f (some t.byte)) s bytes a s') :
    ReadsBack T (peekTag >>= f) s bytes a s' :=
  (@Reads.before _ _ _ _ _ _ fun tail => (nextTag tail).1 = some t.byte) (Reads.peek fun _ h => h) h fun tail _ => ht tail

/-! ### Images of objects that were written -/

/-- What the delegate makes of host objects: the object, and the pairs it decodes on the way. -/
structure Hosts where
  image : Receiver → Obj
  reads : Receiver → List (Nat × Nat)
  head_image : ∀ r, (image r).head = .other

section
variable (E : Engine) (I : Isolate) (H : Hosts)

def imageOf (ids : List Receiver) (r : Receiver) : Obj :=
  if I.host r then H.image r else ((I.obj r).map (Obj.image E (place ids))).getD .uncloneable

def readsOf (r : Receiver) : List (Nat × Nat) := if I.host r then H.reads r else []

def grown (ids : List Receiver) (heap : List Obj) (reads : List (Nat × Nat)) (new : List Receiver) : ReaderState :=
  inStep (heap ++ new.map (imageOf E I H ids)) (reads ++ new.flatMap (readsOf I H))

/-- The objects in the heap are, as far as a view or a memory is concerned, those with the ids. -/
def Heads (ids : List Receiver) (heap : List Obj) : Prop := heap.map Obj.head = ids.map I.head

end

/-- From `w` to `w'` these bytes were written and these ids given: one id for a byte at most. -/
structure Wrote (w w' : Writer) (bytes : List UInt8) (new : List Receiver) : Prop where
  buffer : w'.buffer = w.buffer ++ bytes
  ids : w'.ids = w.ids ++ new
  paid : new.length ≤ bytes.length

theorem Wrote.put (w : Writer) (bytes : List UInt8) : Wrote w (w.put bytes) bytes [] :=
  ⟨rfl, (append_nil _).symm, Nat.zero_le _⟩

theorem Wrote.nil (w : Writer) : Wrote w w [] [] := ⟨by simp, by simp, le_refl _⟩

theorem Wrote.trans {w₁ w₂ w₃ : Writer} {bytes₁ bytes₂ : List UInt8} {new₁ new₂ : List Receiver}
    (h₁ : Wrote w₁ w₂ bytes₁ new₁) (h₂ : Wrote w₂ w₃ bytes₂ new₂) :
    Wrote w₁ w₃ (bytes₁ ++ bytes₂) (new₁ ++ new₂) := by
  constructor
  · rw [h₂.buffer, h₁.buffer, append_assoc]
  · rw [h₂.ids, h₁.ids, append_assoc]
  · rw [length_append, length_append]
    exact add_le_add h₁.paid h₂.paid

theorem Wrote.put_before {bytes₁ bytes₂ : List UInt8} (h : Wrote (w.put bytes₁) w' bytes₂ new) :
    Wrote w w' (bytes₁ ++ bytes₂) new :=
  (Wrote.put w bytes₁).trans h

theorem Wrote.put_after {w w' : Writer} {bytes₁ bytes₂ : List UInt8} {new : List Receiver}
    (h : Wrote w w' bytes₁ new) : Wrote w (w'.put bytes₂) (bytes₁ ++ bytes₂) new := by
  have htr := h.trans (Wrote.put w' bytes₂)
  rwa [append_nil] at htr

theorem Wrote.extends (h : Wrote w w' bytes new) : w.ids <+: w'.ids := ⟨new, h.ids.symm⟩

section
variable {E : Engine} {I : Isolate} {D : Option ReadDelegate} {H : Hosts}

variable {ids : List Receiver} {r : Receiver} {o : Obj} {heap : List Obj}

theorem imageOf_own (hh : I.host r = false) (hobj : I.obj r = some o) : imageOf E I H ids r = o.image E (place ids) := by
  rw [imageOf, hh, hobj]
  rfl

theorem readsOf_own (hh : I.host r = false) : readsOf I H r = [] := by
  rw [readsOf, hh]
  rfl

section
variable (ids)

theorem grown_nil (heap : List Obj) (reads : List (Nat × Nat)) : grown E I H ids heap reads [] = inStep heap reads := by
  simp [grown]

theorem grown_append (heap : List Obj) (reads : List (Nat × Nat)) (new₁ new₂ : List Receiver) :
    grown E I H ids (heap ++ new₁.map (imageOf E I H ids)) (reads ++ new₁.flatMap (readsOf I H)) new₂ =
      grown E I H ids heap reads (new₁ ++ new₂) := by
  simp [grown]

/-- An object of the heap and those after it. -/
theorem grown_cons (heap post : List Obj) (o : Obj) (reads : List (Nat × Nat))
    (new : List Receiver) : grown E I H ids (heap ++ o :: post) reads new =
      inStep (heap ++ o :: (post ++ new.map (imageOf E I H ids))) (reads ++ new.flatMap (readsOf I H)) := by
  simp [grown]

/-- Objects that come after others, which come after an object. -/
theorem grown_after (heap post : List Obj) (o : Obj) (reads : List (Nat × Nat)) (new₁ new₂ : List Receiver) :
    grown E I H ids (heap ++ o :: (post ++ new₁.map (imageOf E I H ids))) (reads ++ new₁.flatMap (readsOf I H)) new₂ =
      grown E I H ids (heap ++ o :: post) reads (new₁ ++ new₂) := by
  simp [grown]

end

/-- The object that was begun is complete. -/
theorem grown_new {reads : List (Nat × Nat)} (hh : I.host r = false) (ho : o = imageOf E I H ids r) :
    inStep (heap ++ o :: new.map (imageOf E I H ids)) (reads ++ new.flatMap (readsOf I H)) =
      grown E I H ids heap reads (r :: new) := by
  simp [grown, ho, readsOf_own hh]

theorem Heads.length (h : Heads I ids heap) : heap.length = ids.length := by
  simpa using congrArg List.length h

theorem Heads.set {post : List Obj} {o' : Obj} (h : Heads I ids (heap ++ o :: post)) (ho : o'.head = o.head) :
    Heads I ids (heap ++ o' :: post) := by
  rw [Heads, ← h]
  simp [ho]

theorem head_imageOf (ids : List Receiver) (r : Receiver) : (imageOf E I H ids r).head = I.head r := by
  rw [imageOf, Isolate.head]
  split
  · next hh =>
    rw [H.head_image]
    rw [Isolate.host] at hh
    split at hh <;> first | cases hh | skip
    · next hobj => rw [hobj]; rfl
    · next hobj => rw [hobj]; rfl
  · cases I.obj r with
    | none => rfl
    | some o => exact Obj.head_image E (place ids) o

theorem Heads.grow {ids : List Receiver} {heap : List Obj} (h : Heads I ids heap) (final new : List Receiver) :
    Heads I (ids ++ new) (heap ++ new.map (imageOf E I H final)) := by
  rw [Heads, map_append, map_append, h, map_map]
  exact congrArg _ (map_congr_left fun r _ => head_imageOf final r)

theorem Wrote.heads (h : Wrote w w' bytes new) (hh : Heads I w.ids heap) (final : List Receiver) :
    Heads I w'.ids (heap ++ new.map (imageOf E I H final)) := by
  rw [h.ids]
  exact hh.grow final new

/-- The same, when an object has changed in the meantime. -/
theorem Wrote.heads_set {post : List Obj} {o' : Obj} (h : Wrote w w' bytes new)
    (hh : Heads I w.ids (heap ++ o :: post)) (ho : o'.head = o.head) (final : List Receiver) :
    Heads I w'.ids (heap ++ o' :: (post ++ new.map (imageOf E I H final))) := by
  have hg := h.heads (E := E) (H := H) (hh.set ho) final
  rwa [append_assoc, cons_append] at hg

/-! ### What an object holds -/

/-- A view that comes after a buffer is a view of it. -/
def Fits (I : Isolate) (v : Value) (tail : List UInt8) : Prop :=
  ∀ r length resizable shared, v = .object r → I.head r = .buffer length resizable shared → NoView tail

theorem NoView.fits {tail : List UInt8} (h : NoView tail) (v : Value) : Fits I v tail := fun _ _ _ _ _ _ => h

variable (E I H)

/-- The bytes from `w` to `w'` are read as `a`, and the new objects in them become their images. -/
def Mirrors {α : Type} (T : List UInt8 → Prop) (x : Read α) (a : List Receiver → α) (w w' : Writer) : Prop :=
  ∃ bytes new, Wrote w w' bytes new ∧ Opening bytes ∧
    ∀ final heap reads, w'.ids <+: final → final.length < 2 ^ 32 → Heads I w.ids heap →
      ReadsBack T x (inStep heap reads) bytes (a final) (grown E I H final heap reads new)

/-- A value that can be read back, as far as this does not depend on what was written. -/
structure Sendable (good : Receiver → Prop) (v : Value) : Prop where
  valid : v.Valid E
  good : ∀ r, v = .object r → good r

/-- What `write` writes is what `rd` reads. -/
def Carries (good : Receiver → Prop) (write : Value → Writer → Option Writer) (rd : Read Value) : Prop :=
  ∀ v w w', Sendable E good v → write v w = some w' →
    Mirrors E I H (Fits I v) rd (fun final => v.image E (place final)) w w'

/-- An entry was written, and `body` adds it to the object. -/
def EntryMirrors (body : Nat → Nat → Read (Nat ⊕ Nat)) (step : Nat) (add : List Receiver → Obj → Option Obj)
    (w w' : Writer) : Prop :=
  ∃ bytes new, Wrote w w' bytes new ∧ Opening bytes ∧
    ∀ final heap o o' post reads count, w'.ids <+: final → final.length < 2 ^ 32 →
      Heads I w.ids (heap ++ o :: post) → add final o = some o' →
      ReadsBack NoView (body heap.length count) (inStep (heap ++ o :: post) reads) bytes
        (.inl ((count + step) % 2 ^ 32)) (grown E I H final (heap ++ o' :: post) reads new)

variable {E I H}

section Entries
variable {ε : Type} {body : Nat → Nat → Read (Nat ⊕ Nat)} {endTag : SerializationTag} {step : Nat}
  {add : List Receiver → Obj → ε → Option Obj} {write : ε → Writer → Option Writer}
  (hend : ∀ a count s, ReadsBack Any (body a count) s [endTag.byte] (.inr count) s)
  (hpadding : endTag ≠ .padding) (hview : endTag ≠ .arrayBufferView)
  (hhead : ∀ ids o e o', add ids o e = some o' → o'.head = o.head)
include hend hpadding hview hhead

/-- The loop over the entries, up to the end tag: the object is folded together. -/
theorem entries_loop (entries : List ε) (w w' : Writer) (hen : ∀ e ∈ entries, ∀ w w', write e w = some w' →
      EntryMirrors E I H body step (fun ids o => add ids o e) w w')
    (hwr : writeAll write entries w = some w') :
    ∃ bytes new, Wrote w w' bytes new ∧ entries.length ≤ bytes.length ∧ (∀ tail, NoView tail → NoView (bytes ++ tail)) ∧
      ∀ final heap o o' post reads count rounds, w'.ids <+: final → final.length < 2 ^ 32 →
        Heads I w.ids (heap ++ o :: post) → entries.foldlM (add final) o = some o' → count < 2 ^ 32 →
        entries.length ≤ rounds →
        ReadsBack Any (Scan.loop (body heap.length) (rounds + 1) count) (inStep (heap ++ o :: post) reads)
          (bytes ++ [endTag.byte]) ((count + step * entries.length) % 2 ^ 32)
          (grown E I H final (heap ++ o' :: post) reads new) := by
  induction entries generalizing w with
  | nil =>
    cases hwr
    refine ⟨[], [], Wrote.nil _, le_refl _, fun tail h => h, ?_⟩
    intro final heap o o' post reads count rounds _ _ _ hfo hco _
    cases hfo
    have hsa : (count + step * ([] : List ε).length) % 2 ^ 32 = count := Nat.mod_eq_of_lt hco
    rw [grown_nil, hsa]
    exact Reads.loop_done rounds (hend _ _ _)
  | cons e rest ih =>
    obtain ⟨w₁, hfir, hrest⟩ := Option.bind_eq_some_iff.mp hwr
    obtain ⟨bytes₁, new₁, hw₁, ho₁, hr₁⟩ := hen e (by simp) w w₁ hfir
    obtain ⟨bytes₂, new₂, hw₂, hl₂, hn₂, hr₂⟩ := ih w₁ (fun e he => hen e (by simp [he])) hrest
    refine ⟨bytes₁ ++ bytes₂, new₁ ++ new₂, hw₁.trans hw₂, ?_, ?_, ?_⟩
    · have := ho₁.length_pos
      rw [length_cons, length_append]
      omega
    · intro tail _
      rw [append_assoc]
      exact ho₁.noView _
    · intro final heap o o' post reads count rounds hfi hsm hh hfo hco hro
      obtain ⟨o₁, hadd, hfo⟩ := Option.bind_eq_some_iff.mp hfo
      obtain ⟨k, rfl⟩ : ∃ k, rounds = k + 1 := ⟨rounds - 1, by rw [length_cons] at hro; omega⟩
      have hre := hr₁ final heap o o₁ post reads count (hw₂.extends.trans hfi) hsm hh hadd
      have hh₁ := hw₁.heads_set (E := E) (H := H) hh (hhead _ _ _ _ hadd) final
      have hnext := hr₂ final heap o₁ o' _ (reads ++ new₁.flatMap (readsOf I H)) ((count + step) % 2 ^ 32) k hfi
        hsm hh₁ hfo (Nat.mod_lt _ (by decide)) (by rw [length_cons] at hro; omega)
      have hcou : ((count + step) % 2 ^ 32 + step * rest.length) % 2 ^ 32 =
          (count + step * (e :: rest).length) % 2 ^ 32 := by
        rw [Nat.mod_add_mod, length_cons, Nat.mul_succ, add_right_comm, add_assoc]
      rw [grown_cons] at hre
      rw [hcou, grown_after] at hnext
      rw [append_assoc]
      refine Reads.loop_next hre hnext fun tail _ => ?_
      rw [append_assoc]
      exact hn₂ _ (noView_tag tail hpadding hview)

/-- The same for the loop as the reader has it. -/
theorem entries_reads {entries : List ε} {w w' : Writer} (hen : ∀ e ∈ entries, ∀ w w', write e w = some w' →
      EntryMirrors E I H body step (fun ids o => add ids o e) w w')
    (hwr : writeAll write entries w = some w') :
    ∃ bytes new, Wrote w w' bytes new ∧ (∀ tail, NoView tail → NoView (bytes ++ tail)) ∧
      ∀ final heap o o' post reads count, w'.ids <+: final → final.length < 2 ^ 32 →
        Heads I w.ids (heap ++ o :: post) → entries.foldlM (add final) o = some o' → count < 2 ^ 32 →
        ReadsBack Any (Scan.forever (body heap.length) count) (inStep (heap ++ o :: post) reads)
          (bytes ++ [endTag.byte]) ((count + step * entries.length) % 2 ^ 32)
          (grown E I H final (heap ++ o' :: post) reads new) := by
  obtain ⟨bytes, new, hwro, hl, hno, hre⟩ :=
    entries_loop hend hpadding hview hhead entries w w' hen hwr
  refine ⟨bytes, new, hwro, hno, ?_⟩
  intro final heap o o' post reads count hfi hsm hh hfo hco
  refine Reads.forever entries.length (by rw [length_append]; omega) fun rounds hro => ?_
  exact hre final heap o o' post reads count rounds hfi hsm hh hfo hco hro

end Entries

end

end V8Multithread.Objects
