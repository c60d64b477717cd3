import V8Multithread.Objects.RoundTrip

/-! The round trip, as a script sees it, and the numbering of the objects. -/
namespace V8Multithread.Objects
open Base Scan

section
variable {E : Engine} {I : Isolate} {D : Option ReadDelegate} {H : Hosts} {v : Value} {w : Writer} {stack stack' : Nat}

/-- The images of the objects with ids, at the addresses that their ids say. -/
theorem heap_place {heap : List Obj} {ids : List Receiver} (hh : heap = ids.map (imageOf E I H ids)) {a : Nat}
    (hmem : .own a ∈ ids) :
    place ids (.own a) = .own (ids.idxOf (.own a)) ∧ heap[ids.idxOf (.own a)]? = some (imageOf E I H ids (.own a)) := by
  refine ⟨rfl, ?_⟩
  rw [hh, List.getElem?_map, List.getElem?_idxOf hmem, Option.map_some]

/-! ### Graphs without help from the delegate -/

/-- The objects that need no delegate. Of an error only the message, the stack and the cause
are written. -/
def Obj.Plain : Obj → Prop
  | .sharedArrayBuffer _ | .wasmModule _ | .wasmMemory .. | .uncloneable => False
  | .error e => e.others = {}
  | _ => True

theorem Obj.Plain.cloned {o : Obj} (h : o.Plain) : o.cloned = o := by
  cases o with
  | error e =>
    rw [Obj.cloned, ← show e.others = {} from h]
  | _ => rfl

/-- A plain object of this isolate that is not left to the delegate. -/
def PlainObject (I : Isolate) (r : Receiver) : Prop := ∃ o, I.obj r = some o ∧ I.host r = false ∧ o.Plain

theorem PlainObject.own {r : Receiver} (h : PlainObject I r) : ∃ a, r = .own a := by
  obtain ⟨o, hobj, -⟩ := h
  cases r with
  | own a => exact ⟨a, rfl⟩
  | shared k => cases hobj

def Hosts.none : Hosts where
  image _ := .uncloneable
  reads _ := []
  head_image _ := rfl

theorem delivers_plain {good : Receiver → Prop} (hp : ∀ r, good r → PlainObject I r) : Delivers I D Hosts.none good where
  host r payload hr hh _ := by
    obtain ⟨o, -, hnot, -⟩ := hp r hr
    rw [hnot] at hh
    cases hh
  buffer r b id hr hobj _ := by
    obtain ⟨o, ho, -, hki⟩ := hp r hr
    rw [hobj] at ho
    cases ho
    exact hki.elim
  module r m d hr hobj _ := by
    obtain ⟨o, ho, -, hki⟩ := hp r hr
    rw [hobj] at ho
    cases ho
    exact hki.elim

/-- What `WriteHeader` and `WriteObject` wrote of a graph of plain objects, `ReadHeader` and
`ReadObjectWrapper` read to the end, as an isomorphic graph. -/
theorem deserialize_isomorphic (hG : ValidGraph E I v) (hplain : ∀ r, Reachable I v r → PlainObject I r)
    (hwrite : serialize E I stack v = some w) (hsize : w.buffer.length < 2 ^ 32) (hstack : stack < stack') :
    ∃ v' c φ, deserialize E D stack' w.buffer = (.ok v', c) ∧ c.position = w.buffer.length ∧
      Isomorphic I v c.state.heap v' φ := by
  have hsendable : Sendable E (Reachable I v) v := ⟨hG.root, fun r hr => .root hr⟩
  obtain ⟨c, hrun, hposition, hstate⟩ := deserialize_serialize (H := Hosts.none) hG.good (fun r hr => (hplain r hr).own)
    (delivers_plain hplain) hsendable hwrite hsize hstack
  have hids : ∀ r, Reachable I v r → r ∈ w.ids := fun r hr => ((serialize_ids hG hwrite).2 r).mpr hr
  refine ⟨v.image E (place w.ids), c, place w.ids, hrun, hposition, v.observe_image E _, ?_, ?_⟩
  · intro r x hr _ heq
    exact place_injective (hids r hr) heq
  · intro r hr
    obtain ⟨o, hobj, hhost, hkind⟩ := hplain r hr
    obtain ⟨a, rfl⟩ := (hplain r hr).own
    obtain ⟨hplace, hheap⟩ := (@heap_place _ _ _ c.state.heap) (by rw [hstate]; rfl) (hids _ hr)
    refine ⟨_, o, _, hplace, hobj, hheap, ?_⟩
    rw [imageOf_own hhost hobj, Obj.observe_image, hkind.cloned]

/-- An array that holds itself, a hole and a string. -/
def cyclicIsolate : Isolate where
  heap := [.jsArray true 3 {elements := [(0, .object (.own 0)), (2, .string (.oneByte [118, 56]))]}]
  internalized n := .twoByte n
  internalized_units _ := rfl

theorem cyclic_valid (v : Value) (hv : v.Valid Engine.plain) : ValidGraph Engine.plain cyclicIsolate v := by
  refine ⟨hv, fun r o _ hobj => ?_⟩
  cases r with
  | shared k => cases hobj
  | own a =>
    rcases a with - | a
    · cases hobj
      refine ⟨⟨⟨?_, ?_, ?_, ?_⟩, ?_, ?_, ?_, ?_⟩, ?_⟩ <;> simp [Obj.held, Value.Valid, Str.Valid, Str.units, Engine.plain]
    · cases hobj

theorem cyclic_plain {r : Receiver} (hr : Reachable cyclicIsolate (.object (.own 0)) r) : PlainObject cyclicIsolate r := by
  have hro : r = .own 0 := by
    refine hr.mem_of_closed (S := fun x => x = .own 0) (fun x hx => ?_) fun x y hx hy => ?_
    · injection hx with hx
      exact hx.symm
    · rw [hx] at hy
      simpa [Isolate.held, Isolate.host, Isolate.obj, cyclicIsolate, Obj.held] using hy
  rw [hro]
  exact ⟨_, rfl, rfl, trivial⟩

theorem deserialize_cyclic : ∃ w v' c φ, serialize .plain cyclicIsolate 1 (.object (.own 0)) = some w ∧
    deserialize .plain none 2 w.buffer = (.ok v', c) ∧ c.position = w.buffer.length ∧
    Isomorphic cyclicIsolate (.object (.own 0)) c.state.heap v' φ := by
  obtain ⟨w, hwrite, hsize⟩ : ∃ w, serialize .plain cyclicIsolate 1 (.object (.own 0)) = some w ∧
      w.buffer.length < 2 ^ 32 := ⟨_, rfl, by decide⟩
  obtain ⟨v', c, φ, h⟩ := (@deserialize_isomorphic _ _ none _ _ _ 2) (cyclic_valid (.object (.own 0)) trivial)
    (fun r hr => cyclic_plain hr) hwrite hsize (by decide)
  exact ⟨w, v', c, φ, hwrite, h⟩

/-! ### The numbers of the objects -/

end

end V8Multithread.Objects
