import V8Multithread.Objects.DelegatesBack

/-! A graph that was written is read back as its image.

The writer and the reader are followed down together, by induction on the room that the writer
has on its stack. A view is the one thing that is not an object of its own in the bytes: it
comes after its buffer, and is new after it, since a buffer only brings buffers and memories. -/
namespace V8Multithread.Objects
open List Option Base Scan Reads
open Reads (skip seq)

section
variable {E : Engine} {I : Isolate} {D : Option ReadDelegate} {H : Hosts} {good : Receiver → Prop} {w w' : Writer}
  {r : Receiver}

/-! ### Views -/

variable {a : Nat}

theorem readViewOf_reads {ids final : List Receiver} {heap : List Obj} {reads : List (Nat × Nat)}
    (h : Heads I ids heap) (hfi : ids <+: final) (hmem : .own a ∈ ids) :
    ReadsBack (Fits I (.object (.own a))) (readViewOf E (.object (place final (.own a)))) (inStep heap reads) []
      (.object (place final (.own a))) (inStep heap reads) := by
  have hh := @headOf_place _ _ _ _ reads h hfi _ hmem Any
  refine skip hh ?_
  cases hki : I.head (.own a) with
  | buffer length resizable shared =>
    refine peek_bind fun tail hta => ?_
    have hno : NoView tail := hta _ _ _ _ rfl hki
    rw [nil_append, if_neg hno]
    exact Reads.pure
  | wasmMemory | other => exact Reads.pure

theorem readJSArrayBufferView_reads {v : View} {length : Nat} {resizable shared : Bool}
    (hv : v.Valid E length resizable shared) (hin : v.outOfBounds length = false) (buffer : Receiver) {heap : List Obj}
    {reads : List (Nat × Nat)} (hroom : heap.length + 1 < 2 ^ 32) {T : List UInt8 → Prop} :
    ReadsBack T (readJSArrayBufferView E buffer length resizable shared) (inStep heap reads)
      (varint8 v.type.tag ++ (varint64 v.byteOffset ++ (varint64 v.byteLength ++ varint32 (viewFlags v))))
      (.object (.own heap.length)) (inStep (heap ++ [.view {v with buffer := buffer}]) reads) := by
  have hbo : v.byteOffset ≤ length ∧ v.byteLength ≤ length - v.byteOffset := by
    rw [View.outOfBounds] at hin
    by_cases hrab : v.backedByRab = true
    · rw [hrab, Bool.true_and] at hin
      split at hin
      · next htr =>
        have := of_decide_eq_false hin
        rw [hv.tracking htr]
        omega
      · have := of_decide_eq_false hin
        omega
    · have := hv.inside (Bool.not_eq_true _ ▸ hrab)
      omega
  have hfl : viewFlags v < 2 ^ 32 ∧ (viewFlags v).testBit 0 = v.lengthTracking ∧
      (viewFlags v).testBit 1 = v.backedByRab := by
    rw [viewFlags]
    cases v.lengthTracking <;> cases v.backedByRab <;> decide
  have hl : (if v.lengthTracking then 0 else v.byteLength) = v.byteLength := by
    split
    · next htr => exact (hv.tracking htr).symm
    · rfl
  refine seq (readUint8_reads _) (seq (readVarint64_reads hv.byteOffset_lt)
    (seq (readVarint64_reads hv.byteLength_lt) (skip (check hbo) ?_)))
  have hre : ReadsBack T readViewFlags (inStep heap reads) (varint32 (viewFlags v)) (viewFlags v) (inStep heap reads) := by
    refine skip Reads.get ?_
    rw [if_pos (.inl (show latestVersion ≥ 14 by decide))]
    exact readVarint32_reads hfl.1
  refine after hre (skip (newId_reads hroom) ?_)
  have hvi : ⟨v.type, buffer, v.byteOffset, if (viewFlags v).testBit 0 then 0 else v.byteLength,
      (viewFlags v).testBit 0, (viewFlags v).testBit 1⟩ = {v with buffer := buffer} := by
    rw [hfl.2.1, hfl.2.2, hl]
  rw [ViewType.ofTag_tag, ← hvi]
  refine skip (check ⟨hv.float16, hv.aligned.1, hv.aligned.2, ?_⟩) (createObject_reads _)
  rw [hfl.2.1, hfl.2.2]
  exact hv.flags

/-! ### Buffers bring only buffers and memories -/

theorem head_shared (k : Nat) : I.head (.shared k) = .other := rfl

theorem writeJSReceiver_heads (hG : GoodGraph E I good) (stack : Nat) (hr : good r) (hh : I.head r ≠ .other)
    (hwri : writeJSReceiver E I stack r w = some w') {x : Receiver} (hx : x ∈ w'.ids) :
    x ∈ w.ids ∨ I.head x ≠ .other := by
  induction stack generalizing r w w' x with
  | zero =>
    rw [writeJSReceiver] at hwri
    split at hwri
    · cases hwri
      exact .inl hx
    · cases hwri
  | succ stack ih =>
    rw [writeJSReceiver] at hwri
    split at hwri
    · cases hwri
      exact .inl hx
    · -- what comes with the object, and the object itself
      have hse : x ∈ w.ids ++ [r] → x ∈ w.ids ∨ I.head x ≠ .other := by
        intro hx
        rcases mem_append.mp hx with hx | hx
        · exact .inl hx
        · rw [mem_singleton.mp hx]
          exact .inr hh
      have hnext : ∀ y bytes, good y → I.head y ≠ .other →
          writeJSReceiver E I stack y ({w with ids := w.ids ++ [r]} |>.put bytes) = some w' →
          x ∈ w.ids ∨ I.head x ≠ .other := by
        intro y bytes hy hyh hwr
        rcases ih hy hyh hwr hx with hx | hx
        · exact hse hx
        · exact .inr hx
      cases r with
      | shared k => exact absurd (head_shared k) hh
      | own a =>
        obtain ⟨o, hobj, ⟨hho, hwri⟩ | ⟨hho, hwri⟩⟩ := writeNewReceiver_own hwri
        · have hids : w'.ids = w.ids ++ [.own a] := writeHostObject_ids hwri
          exact hse (hids ▸ hx)
        obtain ⟨hva, -⟩ := hG.valid _ o hr hobj
        have hhe : ∀ y, .object y ∈ o.held → good y := fun y hy => hG.held _ y hr (by rwa [held_own hho hobj])
        have hki : o.head ≠ .other := by rwa [head_own hobj] at hh
        cases o with
        | arrayBuffer b =>
          have hids : w'.ids = w.ids ++ [.own a] := writeJSArrayBuffer_ids hwri
          exact hse (hids ▸ hx)
        | sharedArrayBuffer b =>
          obtain ⟨id, -, hwr⟩ := bind_eq_some_iff.mp hwri
          dsimp only at hwr
          split at hwr
          · split at hwr
            · obtain ⟨m, hm, hwr⟩ := bind_eq_some_iff.mp hwr
              rw [put_put] at hwr
              refine hnext m _ (hhe m (by simp [Obj.held, hm])) ?_ hwr
              rw [hva.memory m hm]
              simp
            · cases hwr
              exact hse hx
          · cases hwr
            exact hse hx
        | wasmMemory maximumPages memory64 buffer =>
          obtain ⟨y, rfl, hwr⟩ := bind_eq_some_iff.mp hwri
          split at hwr
          · next hy =>
            refine hnext y _ (hhe y (by simp [Obj.held])) ?_ hwr
            rw [Isolate.head, hy]
            simp
          · cases hwr
        | _ => exact absurd rfl hki

/-! ### Objects -/

/-- The object that got its id last. -/
theorem place_last {ids final : List Receiver} (hnot : .own a ∉ ids) (hfi : ids ++ [.own a] <+: final) :
    place final (.own a) = .own ids.length := by
  rw [place, idxOf_final hfi (by simp), idxOf_append_of_notMem hnot, idxOf_cons_self, add_zero]

theorem NewMirrors.mirrors {x : Read Value} (hnot : .own a ∉ w.ids)
    (h : NewMirrors E I H x (.own a) {w with ids := w.ids ++ [.own a]} w') :
    Mirrors E I H Any x (fun final => .object (place final (.own a))) w w' := by
  obtain ⟨bytes, new, hwr, hpa, ho, hre⟩ := h
  have hids : w'.ids = w.ids ++ (.own a :: new) := by rw [hwr.ids, append_assoc, singleton_append]
  refine ⟨bytes, .own a :: new, ⟨hwr.buffer, hids, hpa⟩, ho, ?_⟩
  intro final heap reads hfi hsm hh
  have hp := place_last hnot (List.IsPrefix.trans hwr.extends hfi)
  dsimp only
  rw [hp, ← hh.length]
  exact hre w.ids final heap reads rfl hfi hsm hh

/-- An object that was met before. -/
theorem reference_mirrors {rd : Read Value} {depth : Nat} (hmem : .own a ∈ w.ids) :
    Mirrors E I H Any (readObjectInternal E D rd (depth + 1)) (fun final => .object (place final (.own a))) w
      (w.put (SerializationTag.objectReference.byte :: varint32 (w.ids.idxOf (.own a)))) := by
  refine ⟨_, [], Wrote.put _ _, opening_tag (t := .objectReference) _ rfl, ?_⟩
  intro final heap reads hfi hsm hh
  have hidx := idxOf_lt_length_of_mem hmem
  have hle := hfi.length_le
  have hids : w.ids <+: final := hfi
  have hp : place final (.own a) = .own (w.ids.idxOf (.own a)) := by rw [place, idxOf_final hids hmem]
  dsimp only
  rw [grown_nil, hp]
  refine internal_reads (t := .objectReference) (by simp) (after (readVarint32_reads ?_) (getObjectWithID_reads ?_))
  · exact hidx.trans_le (hle.trans hsm.le)
  · rw [hh.length]
    exact hidx

/-- What a good object holds can be sent. -/
theorem GoodGraph.sendable (hG : GoodGraph E I good) {o : Obj} (hr : good r) (hh : I.host r = false)
    (hobj : I.obj r = some o) {v : Value} (hv : v ∈ o.held) : Sendable E good v := by
  refine ⟨(hG.valid r o hr hobj).2 v hv, ?_⟩
  rintro x rfl
  exact hG.held r x hr (by rw [held_own hh hobj]; exact hv)

/-- An object that has just got its id, if what it holds is read back. -/
theorem writeNewReceiver_mirrors (hG : GoodGraph E I good) (hD : Delivers I D H good)
    {write : Value → Writer → Option Writer} {writeReceiver : Receiver → Writer → Option Writer} {stack depth : Nat}
    (hcarries : Carries E I H good write (readObject E D (stack + 1))) (hp : WritesPrimitives write)
    (hre : Registers I good write)
    (hme : CarriesKind E I H good writeReceiver (readObject E D (stack + 1)) (· = .wasmMemory))
    (hbu : ∀ depth, CarriesKind E I H good writeReceiver
      (readObjectInternal E D (readObject E D (stack + 1)) (depth + 1)) Head.isSharedBuffer) (hr : good (.own a))
    (hvi : ∀ v, I.obj (.own a) ≠ some (.view v)) (hde : I.head (.own a) = .wasmMemory → 1 ≤ depth)
    (hwr : writeNewReceiver E I write writeReceiver (.own a) w = some w') :
    NewMirrors E I H (readObjectInternal E D (readObject E D (stack + 1)) (depth + 1)) (.own a) w w' := by
  obtain ⟨o, hobj, ⟨hh, hwr⟩ | ⟨hh, hwr⟩⟩ := writeNewReceiver_own hwr
  · exact host_mirrors hD hr hh hwr
  have h : Stands E I good (.own a) o := ⟨hr, hh, hobj, (hG.valid _ o hr hobj).1, fun v => hG.sendable hr hh hobj⟩
  cases o with
  | jsObject field p => exact jsObject_mirrors hcarries hp h hwr
  | error e => exact error_mirrors hcarries h hwr
  | jsArray packed length p =>
    cases packed with
    | true => exact denseArray_mirrors hcarries h hwr
    | false => exact sparseArray_mirrors hcarries h hwr
  | date d =>
    cases hwr
    exact date_mirrors h
  | primitiveWrapper v => exact primitiveWrapper_mirrors h hwr
  | regExp source flags =>
    cases hwr
    exact regExp_mirrors h
  | map entries => exact map_mirrors hcarries hre h hwr
  | set entries => exact set_mirrors hcarries hre h hwr
  | arrayBuffer b => exact arrayBuffer_mirrors h hwr
  | sharedArrayBuffer b => exact sharedArrayBuffer_mirrors hD h hme hwr
  | view v => exact absurd hobj (hvi v)
  | wasmModule m => exact wasmModule_mirrors hD h hwr
  | wasmMemory maximumPages memory64 buffer =>
    obtain ⟨depth, rfl⟩ : ∃ k, depth = k + 1 := ⟨depth - 1, by have := hde (head_own hobj); omega⟩
    exact wasmMemory_mirrors h (hbu depth) hwr
  | uncloneable => cases hwr

/-! ### The induction -/

/-- What `writeReceiver` writes of an object is what the reader reads. A view that is not new
is not among the objects here, and the bytes of a memory hold another object. -/
def CarriesReceivers (E : Engine) (I : Isolate) (D : Option ReadDelegate) (H : Hosts) (good : Receiver → Prop)
    (writeReceiver : Receiver → Writer → Option Writer) (rd : Read Value) : Prop :=
  ∀ depth r w w', good r → (∀ v, I.obj r = some (.view v) → r ∈ w.ids) → (I.head r = .wasmMemory → 1 ≤ depth) →
    writeReceiver r w = some w' →
    Mirrors E I H Any (readObjectInternal E D rd (depth + 1)) (fun final => .object (place final r)) w w'

variable {stack stack' : Nat}

/-- An object is passed on by `ReadObject` as it is, unless a view comes after it. -/
theorem CarriesReceivers.readObject {writeReceiver : Receiver → Writer → Option Writer}
    (hcarries : CarriesReceivers E I D H good writeReceiver (readObject E D stack)) (hr : good (.own a))
    (hvi : ∀ v, I.obj (.own a) = some (.view v) → .own a ∈ w.ids) (hwri : writeReceiver (.own a) w = some w')
    (hmem : .own a ∈ w'.ids) :
    Mirrors E I H (Fits I (.object (.own a))) (readObject E D (stack + 1)) (fun final => .object (place final (.own a))) w w' := by
  obtain ⟨bytes, new, hwr, ho, -⟩ := hcarries 1 (.own a) w w' hr hvi (fun _ => le_refl _) hwri
  refine ⟨bytes, new, hwr, ho, ?_⟩
  intro final heap reads hfi hsm hh
  refine after (sized fun n hn => ?_) (readViewOf_reads (hwr.heads hh final) hfi hmem)
  -- there is at least one byte, and so room for the buffer of a memory
  have hpos := ho.length_pos
  obtain ⟨bytes', new', hw', -, hre⟩ := hcarries n (.own a) w w' hr hvi (fun _ => by omega) hwri
  obtain ⟨rfl, rfl⟩ := hw'.unique hwr
  exact (hre final heap reads hfi hsm hh).any

section
variable (hG : GoodGraph E I good) (hown : ∀ r, good r → ∃ a, r = .own a)
include hG hown

section
variable (hcarries : CarriesReceivers E I D H good (writeJSReceiver E I stack) (readObject E D stack'))
include hcarries

/-- A new view, after its buffer. -/
theorem view_mirrors {view : View} (hr : good (.own a)) (hobj : I.obj (.own a) = some (.view view)) (hnot : .own a ∉ w.ids)
    (hwri : (writeJSReceiver E I stack view.buffer w).bind (writeJSReceiver E I stack (.own a)) = some w') :
    Mirrors E I H Any (readObject E D (stack' + 1)) (fun final => .object (place final (.own a))) w w' := by
  have hho : I.host (.own a) = false := by rw [Isolate.host, hobj]
  have hbu : good view.buffer := hG.held _ _ hr (by rw [held_own hho hobj]; simp [Obj.held])
  obtain ⟨b, hb⟩ := hown _ hbu
  obtain ⟨length, resizable, shared, hhe, hva⟩ := (hG.valid _ _ hr hobj).1
  have ho : I.head view.buffer ≠ .other := by
    rw [hhe]
    simp
  have hno : ∀ v, I.obj view.buffer = some (.view v) → view.buffer ∈ w.ids := fun v hv =>
    absurd hv (not_view_of_head ho v)
  obtain ⟨w₁, hw₁, hw₂⟩ := bind_eq_some_iff.mp hwri
  obtain ⟨bytes, new, hwr, hop, -⟩ :=
    hcarries 0 view.buffer w w₁ hbu hno (by rw [hhe]; simp) hw₁
  have hmem₁ : view.buffer ∈ w₁.ids :=
    (writeJSReceiver_registers hG stack _ w w₁ hbu (fun v hv _ => absurd hv (not_view_of_head ho v)) hw₁).2
  have hnot₁ : .own a ∉ w₁.ids := by
    intro hmem
    rcases writeJSReceiver_heads hG stack hbu ho hw₁ hmem with h | h
    · exact hnot h
    · exact h (head_own hobj)
  rw [writeJSReceiver, if_neg hnot₁] at hw₂
  rcases stack with - | stack
  · cases hw₂
  · have hbuf : (I.obj view.buffer).map Obj.head = some (.buffer length resizable shared) := by
      rw [Isolate.head] at hhe
      rcases hmap : (I.obj view.buffer).map Obj.head with - | head
      · rw [hmap] at hhe
        cases hhe
      · rw [hmap, getD_some] at hhe
        rw [hhe]
    simp only [writeNewReceiver, hobj, writeJSArrayBufferView, hbuf] at hw₂
    split at hw₂
    · cases hw₂
    · next hin =>
      injection hw₂ with hw₂
      simp only [cons_append, append_assoc] at hw₂
      subst hw₂
      refine ⟨_, new ++ [.own a], hwr.trans ⟨rfl, rfl, by simp⟩, hop.append _, ?_⟩
      intro final heap reads hfi hsm hh
      have hids : w₁.ids ++ [.own a] <+: final := hfi
      have hf₁ : w₁.ids <+: final := (prefix_append _ _).trans hids
      have hh₁ := hwr.heads (E := E) (H := H) hh final
      have hroom : (heap ++ new.map (imageOf E I H final)).length + 1 < 2 ^ 32 := by
        have hle := hids.length_le
        rw [length_append, length_singleton] at hle
        rw [hh₁.length]
        omega
      have hki := @headOf_place _ _ _ _ (reads ++ new.flatMap (readsOf I H)) hh₁ hf₁ _ (hb ▸ hmem₁) Any
      rw [← hb, hhe] at hki
      have hp := place_last hnot₁ hids
      have him : imageOf E I H final (.own a) = .view {view with buffer := place final view.buffer} :=
        imageOf_own hho hobj
      have hg : grown E I H final heap reads (new ++ [.own a]) = inStep (heap ++ new.map (imageOf E I H final) ++
          [.view {view with buffer := place final view.buffer}]) (reads ++ new.flatMap (readsOf I H)) := by
        simp [grown, him, readsOf_own hho]
      dsimp only
      rw [hp, ← hh₁.length, hg]
      refine seq (sized fun n hn => ?_) (skip hki ?_)
      · obtain ⟨bytes', new', hw'', -, hre⟩ :=
          hcarries n view.buffer w w₁ hbu hno (by rw [hhe]; simp) hw₁
        obtain ⟨rfl, rfl⟩ := hw''.unique hwr
        exact hre final heap reads hf₁ hsm hh
      · refine peekTag_reads (t := .arrayBufferView) (nextTag_tag (t := .arrayBufferView) (by simp) _) ?_
        rw [if_pos rfl]
        have hre := @readJSArrayBufferView_reads E _ _ _ _ hva (Bool.not_eq_true _ ▸ hin)
          (place final view.buffer) _ (reads ++ new.flatMap (readsOf I H)) hroom Any
        exact seq (consumeTag_reads (t := .arrayBufferView) (by simp)) hre

theorem writeObject_carries :
    Carries E I H good (writeObject I (writeJSReceiver E I stack)) (readObject E D (stack' + 1)) := by
  intro v w w' hv hwr
  have hre := writeObject_registers hG (writeJSReceiver_registers hG stack) v w w' hv.good hwr
  by_cases ho : ∃ r, v = .object r
  · obtain ⟨r, rfl⟩ := ho
    have hr := hv.good r rfl
    obtain ⟨a, rfl⟩ := hown r hr
    have hmem := hre.2 _ rfl
    rw [writeObject] at hwr
    split at hwr
    · next view hobj =>
      split at hwr
      · next hbefore => exact hcarries.readObject hr (fun _ _ => hbefore) hwr hmem
      · next hnot =>
        obtain ⟨bytes, new, hwro, hop, hrea⟩ := view_mirrors hG hown hcarries hr hobj hnot hwr
        exact ⟨bytes, new, hwro, hop, fun final heap reads h₁ h₂ h₃ => (hrea final heap reads h₁ h₂ h₃).any⟩
    · next hnot => exact hcarries.readObject hr (fun view hvi => absurd hvi (hnot view)) hwr hmem
  · have hp : ∀ r, v ≠ .object r := fun r hr => ho ⟨r, hr⟩
    rw [writeObject_primitive hp] at hwr
    obtain ⟨bytes, hby, rfl⟩ := map_eq_some_iff.mp hwr
    refine ⟨bytes, [], Wrote.put _ _, opening_primitive hby, ?_⟩
    intro final heap reads _ _ _
    rw [grown_nil]
    exact primitive_reads (place final) hby hv.valid stack'

end

theorem writeJSReceiver_carries (hD : Delivers I D H good) (hst : stack ≤ stack') :
    CarriesReceivers E I D H good (writeJSReceiver E I stack) (readObject E D stack') := by
  induction stack generalizing stack' with
  | zero =>
    intro depth r w w' hr _ _ hwri
    obtain ⟨a, rfl⟩ := hown r hr
    rw [writeJSReceiver] at hwri
    split at hwri
    · next hmem =>
      cases hwri
      exact reference_mirrors hmem
    · cases hwri
  | succ stack ih =>
    intro depth r w w' hr hvi hde hwri
    obtain ⟨a, rfl⟩ := hown r hr
    obtain ⟨stack', rfl⟩ : ∃ k, stack' = k + 1 := ⟨stack' - 1, by omega⟩
    have hnested := @ih stack' (by omega)
    have hin := @ih (stack' + 1) (by omega)
    have hre := writeJSReceiver_registers hG stack
    rw [writeJSReceiver] at hwri
    split at hwri
    · next hmem =>
      cases hwri
      exact reference_mirrors hmem
    · next hnot =>
      refine NewMirrors.mirrors hnot (writeNewReceiver_mirrors hG hD (writeObject_carries hG hown hnested) ?_
        (writeObject_registers hG hre) ?_ ?_ hr (fun v hv => hnot (hvi v hv)) hde hwri)
      · intro v w w' hv hwr
        rw [writeObject_primitive hv] at hwr
        obtain ⟨bytes, hby, rfl⟩ := map_eq_some_iff.mp hwr
        exact ⟨bytes, hby, rfl⟩
      · intro m w w' hm hh hwr
        obtain ⟨b, rfl⟩ := hown m hm
        have hno : ∀ v, I.obj (.own b) ≠ some (.view v) := not_view_of_head (by rw [hh]; simp)
        have hmem := (hre _ w w' hm (fun v hv => absurd hv (hno v)) hwr).2
        obtain ⟨bytes, new, hwro, ho, hrea⟩ :=
          hnested.readObject hm (fun v hv => absurd hv (hno v)) hwr hmem
        refine ⟨⟨bytes, new, hwro, ho, fun final heap reads h₁ h₂ h₃ => (hrea final heap reads h₁ h₂ h₃).mono ?_⟩,
          b, rfl, hmem⟩
        intro tail _ x length resizable shared hx hbu
        injection hx with hx
        rw [← hx, hh] at hbu
        cases hbu
      · intro depth x w w' hx hki hwr
        obtain ⟨b, rfl⟩ := hown x hx
        have hno : ∀ v, I.obj (.own b) ≠ some (.view v) := not_view_of_head fun h => by rw [h] at hki; exact hki
        refine ⟨hin depth _ w w' hx (fun v hv => absurd hv (hno v)) (fun h => ?_) hwr, b, rfl, ?_⟩
        · rw [h] at hki
          exact hki.elim
        · exact (hre _ w w' hx (fun v hv => absurd hv (hno v)) hwr).2

end

/-! ### Whole messages -/

theorem readHeader_reads : ReadsBack Any readHeader {} headerBytes () (inStep [] []) := by
  have hve : ReadsBack Any (Scan.attempt (Scan.take (Varint.decodeLoop 32 0 0))) {} (varint32 latestVersion)
      (some latestVersion) {} := attempt (take fun tail _ => rfl)
  refine peek_bind fun tail _ => ?_
  rw [if_pos (show (headerBytes ++ tail).head? = some SerializationTag.version.byte from rfl)]
  refine seq (consumeTag_reads (t := .version) (by simp)) (after hve ?_)
  exact modify _

/-- A message is read to its end, and every object becomes its image, in the order of the ids. -/
theorem deserialize_serialize (hG : GoodGraph E I good) (hown : ∀ r, good r → ∃ a, r = .own a) (hD : Delivers I D H good)
    {v : Value} (hv : Sendable E good v) (hwri : serialize E I stack v = some w) (hsize : w.buffer.length < 2 ^ 32)
    (hst : stack < stack') :
    ∃ c, deserialize E D stack' w.buffer = (.ok (v.image E (place w.ids)), c) ∧ c.position = w.buffer.length ∧
      c.state = inStep (w.ids.map (imageOf E I H w.ids)) (w.ids.flatMap (readsOf I H)) := by
  obtain ⟨stack', rfl⟩ : ∃ k, stack' = k + 1 := ⟨stack' - 1, by omega⟩
  have hcarries := writeJSReceiver_carries hG hown hD (Nat.le_of_lt_succ hst)
  obtain ⟨bytes, new, hwr, -, hre⟩ := writeObject_carries hG hown hcarries v _ w hv hwri
  have hids : w.ids = new := hwr.ids
  have hbu : w.buffer = headerBytes ++ bytes := hwr.buffer
  have hsm : w.ids.length < 2 ^ 32 := by
    have hpa := hwr.paid
    rw [hbu, length_append] at hsize
    rw [hids]
    omega
  have hva : ReadsBack (Fits I v) (readObjectWrapper E D (stack' + 1)) (inStep [] []) bytes (v.image E (place w.ids))
      (grown E I H w.ids [] [] w.ids) := by
    refine skip Reads.get ?_
    rw [if_neg (by decide)]
    rw [← hids] at hre
    exact hre w.ids [] [] (prefix_refl _) hsm rfl
  have hall := seq (f := fun _ => readObjectWrapper E D (stack' + 1)) readHeader_reads hva
  have hend : NoView [] := fun h => by cases h
  obtain ⟨c, hrun, -, hp, hsta⟩ := hall (Cursor.start w.buffer) [] rfl hsize (hend.fits v) (by
    rw [append_nil, ← hbu]
    rfl)
  refine ⟨c, hrun, ?_, ?_⟩
  · rw [hp, ← hbu]
    exact zero_add _
  · rw [hsta, grown, nil_append, nil_append]

end

end V8Multithread.Objects
