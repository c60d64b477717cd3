import Mathlib

/-! UTF-8 and UTF-16.

The decoder is the one of the WHATWG encoding standard, with its bytes needed and its lower and
upper boundary: a byte out of bounds ends the sequence before it with an error and is then
looked at again as the first byte of the next. It also decodes generalized UTF-8, in which
surrogates may be encoded. Octets and code units are numbers. -/
namespace V8Multithread.Base.Utf8
open List Option

/-! ### Encoding -/

def encode (c : Nat) : List Nat :=
  if c < 0x80 then [c]
  else if c < 0x800 then [0xC0 + c / 64, 0x80 + c % 64]
  else if c < 0x10000 then [0xE0 + c / 4096, 0x80 + c / 64 % 64, 0x80 + c % 64]
  else [0xF0 + c / 262144, 0x80 + c / 4096 % 64, 0x80 + c / 64 % 64, 0x80 + c % 64]

def utf16 (c : Nat) : List Nat :=
  if c ≤ 0xFFFF then [c] else [0xD800 + (c - 0x10000) / 1024, 0xDC00 + c % 1024]

def IsLead (c : Nat) : Prop := 0xD800 ≤ c ∧ c < 0xDC00

def IsTrail (c : Nat) : Prop := 0xDC00 ≤ c ∧ c < 0xE000

instance (c : Nat) : Decidable (IsLead c) := inferInstanceAs (Decidable (_ ∧ _))

instance (c : Nat) : Decidable (IsTrail c) := inferInstanceAs (Decidable (_ ∧ _))

/-- A code point; a surrogate only if those are encoded as well. -/
def Encodable (surrogates : Bool) (c : Nat) : Prop :=
  c ≤ 0x10FFFF ∧ (surrogates = false → ¬ IsLead c ∧ ¬ IsTrail c)

def WellFormed (bytes : List Nat) : Prop := ∃ cs : List Nat, (∀ c ∈ cs, Encodable false c) ∧ bytes = cs.flatMap encode

def HasPair (cs : List Nat) : Prop := ∃ before lead trail after, cs = before ++ lead :: trail :: after ∧ IsLead lead ∧ IsTrail trail

/-- The bytes of a sequence of code points without surrogate pairs. -/
def WellFormedWtf8 (bytes : List Nat) : Prop :=
  ∃ cs : List Nat, (∀ c ∈ cs, Encodable true c) ∧ ¬ HasPair cs ∧ bytes = cs.flatMap encode

/-! ### Decoding -/

structure Tail where
  needed : Nat
  lower : Nat
  upper : Nat
  deriving DecidableEq, Repr

/-- Inside a sequence: what it needs, and the bits so far. -/
abbrev State := Option (Tail × Nat)

/-- The first byte of a sequence. An error is `none`. -/
def start (surrogates : Bool) (b : Nat) : List (Option Nat) × State :=
  if b < 0x80 then ([some b], none)
  else if b < 0xC2 then ([none], none)
  else if b < 0xE0 then ([], some (⟨1, 0x80, 0xBF⟩, b % 32))
  else if b < 0xF0 then
    ([], some (⟨2, if b = 0xE0 then 0xA0 else 0x80, if b = 0xED ∧ surrogates = false then 0x9F else 0xBF⟩, b % 16))
  else if b < 0xF5 then
    ([], some (⟨3, if b = 0xF0 then 0x90 else 0x80, if b = 0xF4 then 0x8F else 0xBF⟩, b % 8))
  else ([none], none)

def step (surrogates : Bool) : State → Nat → List (Option Nat) × State
  | none, b => start surrogates b
  | some (t, value), b =>
    if t.lower ≤ b ∧ b ≤ t.upper then
      if t.needed = 1 then ([some (value * 64 + b % 64)], none)
      else ([], some (⟨t.needed - 1, 0x80, 0xBF⟩, value * 64 + b % 64))
    else (none :: (start surrogates b).1, (start surrogates b).2)

def decode (surrogates : Bool) : State → List Nat → List (Option Nat)
  | none, [] => []
  | some _, [] => [none]
  | st, b :: rest => (step surrogates st b).1 ++ decode surrogates (step surrogates st b).2 rest

/-- The decoding in which an error is a replacement character. -/
def replaced (bytes : List Nat) : List Nat := (decode false none bytes).map fun c => c.getD 0xFFFD

section
variable {surrogates : Bool} {b value : Nat} {rest : List Nat}

theorem decode_cons (st : State) : decode surrogates st (b :: rest) =
    (step surrogates st b).1 ++ decode surrogates (step surrogates st b).2 rest := by
  cases st <;> rfl

/-! One lemma for each kind of byte. -/

theorem decode_ascii (h : b < 0x80) : decode surrogates none (b :: rest) = some b :: decode surrogates none rest := by
  rw [decode_cons, step, start, if_pos h]
  rfl

theorem decode_two (hlow : 0xC2 ≤ b) (hh : b < 0xE0) :
    decode surrogates none (b :: rest) = decode surrogates (some (⟨1, 0x80, 0xBF⟩, b % 32)) rest := by
  rw [decode_cons, step, start, if_neg (by omega), if_neg (by omega), if_pos hh]
  rfl

theorem decode_three (hlow : 0xE0 ≤ b) (hh : b < 0xF0) :
    decode surrogates none (b :: rest) = decode surrogates (some (⟨2, if b = 0xE0 then 0xA0 else 0x80,
      if b = 0xED ∧ surrogates = false then 0x9F else 0xBF⟩, b % 16)) rest := by
  rw [decode_cons, step, start, if_neg (by omega), if_neg (by omega), if_neg (by omega), if_pos hh]
  rfl

theorem decode_four (hlow : 0xF0 ≤ b) (hh : b < 0xF5) :
    decode surrogates none (b :: rest) = decode surrogates (some (⟨3, if b = 0xF0 then 0x90 else 0x80,
      if b = 0xF4 then 0x8F else 0xBF⟩, b % 8)) rest := by
  rw [decode_cons, step, start, if_neg (by omega), if_neg (by omega), if_neg (by omega), if_neg (by omega), if_pos hh]
  rfl

theorem decode_bad (h : 0x80 ≤ b ∧ b < 0xC2 ∨ 0xF5 ≤ b) :
    decode surrogates none (b :: rest) = none :: decode surrogates none rest := by
  rw [decode_cons, step, start]
  rcases h with h | h
  · rw [if_neg (by omega), if_pos h.2]
    rfl
  · rw [if_neg (by omega), if_neg (by omega), if_neg (by omega), if_neg (by omega), if_neg (by omega)]
    rfl

theorem decode_last {lower upper : Nat} (h : lower ≤ b ∧ b ≤ upper) :
    decode surrogates (some (⟨1, lower, upper⟩, value)) (b :: rest) =
      some (value * 64 + b % 64) :: decode surrogates none rest := by
  rw [decode_cons, step, if_pos h, if_pos rfl]
  rfl

theorem decode_more {n lower upper : Nat} (h : lower ≤ b ∧ b ≤ upper) :
    decode surrogates (some (⟨n + 2, lower, upper⟩, value)) (b :: rest) =
      decode surrogates (some (⟨n + 1, 0x80, 0xBF⟩, value * 64 + b % 64)) rest := by
  rw [decode_cons, step, if_pos h, if_neg (show n + 2 ≠ 1 by omega)]
  rfl

/-! ### Decoding what was encoded -/

variable {c : Nat} {cs bytes : List Nat}

theorem decode_encode (hc : Encodable surrogates c) (rest : List Nat) :
    decode surrogates none (encode c ++ rest) = some c :: decode surrogates none rest := by
  obtain ⟨hmax, hsu⟩ := hc
  rw [encode]
  split
  · next h => exact decode_ascii h
  split
  · next h1 h2 =>
    rw [cons_append, decode_two (by omega) (by omega), cons_append, decode_last (by omega), nil_append]
    congr 2
    omega
  split
  · next h1 h2 h3 =>
    have hu : c / 4096 = 0xD → surrogates = false → c / 64 % 64 < 0x20 := by
      intro hd hs
      obtain ⟨hl, htr⟩ := hsu hs
      rw [IsLead] at hl
      rw [IsTrail] at htr
      omega
    rw [cons_append, decode_three (by omega) (by omega), cons_append, decode_more, cons_append,
      decode_last (by omega), nil_append]
    · congr 2
      omega
    · refine ⟨by split <;> omega, ?_⟩
      split
      · next h =>
        have := hu (by omega) h.2
        omega
      · omega
  · next h1 h2 h3 =>
    rw [cons_append, decode_four (by omega) (by omega), cons_append, decode_more, cons_append,
      decode_more (by omega), cons_append, decode_last (by omega), nil_append]
    · congr 2
      omega
    · split <;> split <;> omega

theorem decode_flatMap_encode (hcs : ∀ c ∈ cs, Encodable surrogates c) :
    decode surrogates none (cs.flatMap encode) = cs.map some := by
  induction cs with
  | nil => rfl
  | cons c cs ih =>
    rw [flatMap_cons, decode_encode (hcs c (by simp)), ih fun x hx => hcs x (by simp [hx]), map_cons]

/-! ### Decoding without an error -/

/-- A sequence goes on with a byte in bounds. -/
theorem exists_of_decode_tail {t : Tail} (h : none ∉ decode surrogates (some (t, value)) bytes) :
    ∃ b rest, bytes = b :: rest ∧ t.lower ≤ b ∧ b ≤ t.upper := by
  rcases bytes with - | ⟨b, rest⟩
  · simp [decode] at h
  · by_cases hb : t.lower ≤ b ∧ b ≤ t.upper
    · exact ⟨b, rest, rfl, hb⟩
    · rw [decode_cons, step, if_neg hb] at h
      simp at h

theorem flatMap_encode_of_decode (n : Nat) (bytes : List Nat) (hn : bytes.length ≤ n)
    (h : none ∉ decode surrogates none bytes) :
    ∃ cs : List Nat, decode surrogates none bytes = cs.map some ∧ bytes = cs.flatMap encode ∧ ∀ c ∈ cs, Encodable surrogates c := by
  induction n generalizing bytes with
  | zero =>
    rw [length_eq_zero_iff.mp (Nat.le_zero.mp hn)]
    exact ⟨[], rfl, rfl, nofun⟩
  | succ n ih =>
    rcases bytes with - | ⟨b, rest⟩
    · exact ⟨[], rfl, rfl, nofun⟩
    -- a character and what comes after it
    have hnext : ∀ c rest', decode surrogates none (b :: rest) = some c :: decode surrogates none rest' →
        b :: rest = encode c ++ rest' → rest'.length ≤ n → Encodable surrogates c →
        ∃ cs : List Nat, decode surrogates none (b :: rest) = cs.map some ∧ b :: rest = cs.flatMap encode ∧
          ∀ c ∈ cs, Encodable surrogates c := by
      intro c rest' hde hby hl hc
      rw [hde] at h
      obtain ⟨cs, hcs, hrest, hall⟩ := ih rest' hl fun hmem => h (mem_cons_of_mem _ hmem)
      refine ⟨c :: cs, by rw [hde, hcs, map_cons], by rw [hby, flatMap_cons, ← hrest], ?_⟩
      intro x hx
      rcases mem_cons.mp hx with rfl | hx
      · exact hc
      · exact hall x hx
    rw [length_cons] at hn
    by_cases hascii : b < 0x80
    · refine hnext b rest (decode_ascii hascii) ?_ (by omega) ⟨by omega, fun _ => ?_⟩
      · rw [encode, if_pos hascii]
        rfl
      · rw [IsLead, IsTrail]
        omega
    by_cases hbad : b < 0xC2 ∨ 0xF5 ≤ b
    · rw [decode_bad (by omega)] at h
      simp at h
    by_cases htwo : b < 0xE0
    · rw [decode_two (by omega) htwo] at h
      obtain ⟨b₁, rest₁, rfl, hb₁⟩ := exists_of_decode_tail h
      dsimp only at hb₁
      refine hnext (b % 32 * 64 + b₁ % 64) rest₁ ?_ ?_ (by rw [length_cons] at hn; omega) ⟨by omega, fun _ => ?_⟩
      · rw [decode_two (by omega) htwo, decode_last hb₁]
      · rw [encode, if_neg (by omega), if_pos (by omega), cons_append, singleton_append]
        congr 2 <;> omega
      · rw [IsLead, IsTrail]
        omega
    by_cases hth : b < 0xF0
    · rw [decode_three (by omega) hth] at h
      obtain ⟨b₁, rest₁, rfl, hb₁⟩ := exists_of_decode_tail h
      dsimp only at hb₁
      rw [decode_more hb₁] at h
      obtain ⟨b₂, rest₂, rfl, hb₂⟩ := exists_of_decode_tail h
      dsimp only at hb₂
      have hlow : 0x80 ≤ b₁ ∧ (b = 0xE0 → 0xA0 ≤ b₁) := by
        have := hb₁.1
        split at this <;> omega
      have hh : b₁ ≤ 0xBF ∧ (b = 0xED → surrogates = false → b₁ ≤ 0x9F) := by
        have hle := hb₁.2
        split at hle
        · exact ⟨by omega, fun _ _ => hle⟩
        · next hnot => exact ⟨hle, fun hb hs => absurd ⟨hb, hs⟩ hnot⟩
      refine hnext ((b % 16 * 64 + b₁ % 64) * 64 + b₂ % 64) rest₂ ?_ ?_ (by simp only [length_cons] at hn; omega)
        ⟨by omega, fun hs => ?_⟩
      · rw [decode_three (by omega) hth, decode_more hb₁, decode_last hb₂]
      · rw [encode, if_neg (by omega), if_neg (by omega), if_pos (by omega)]
        congr 3 <;> omega
      · have := hh.2
        rw [IsLead, IsTrail]
        by_cases hb : b = 0xED
        · have := hh.2 hb hs
          omega
        · omega
    · have hfo : b < 0xF5 := by omega
      rw [decode_four (by omega) hfo] at h
      obtain ⟨b₁, rest₁, rfl, hb₁⟩ := exists_of_decode_tail h
      dsimp only at hb₁
      rw [decode_more hb₁] at h
      obtain ⟨b₂, rest₂, rfl, hb₂⟩ := exists_of_decode_tail h
      dsimp only at hb₂
      rw [decode_more hb₂] at h
      obtain ⟨b₃, rest₃, rfl, hb₃⟩ := exists_of_decode_tail h
      dsimp only at hb₃
      have hlow : 0x80 ≤ b₁ ∧ (b = 0xF0 → 0x90 ≤ b₁) := by
        have := hb₁.1
        split at this <;> omega
      have hh : b₁ ≤ 0xBF ∧ (b = 0xF4 → b₁ ≤ 0x8F) := by
        have := hb₁.2
        split at this <;> omega
      refine hnext (((b % 8 * 64 + b₁ % 64) * 64 + b₂ % 64) * 64 + b₃ % 64) rest₃ ?_ ?_
        (by simp only [length_cons] at hn; omega) ⟨by omega, fun _ => ?_⟩
      · rw [decode_four (by omega) hfo, decode_more hb₁, decode_more hb₂, decode_last hb₃]
      · rw [encode, if_neg (by omega), if_neg (by omega), if_neg (by omega)]
        congr 4 <;> omega
      · rw [IsLead, IsTrail]
        omega

/-- The code points that bytes encode are those that the decoder finds in them. -/
theorem decode_eq_map_some :
    decode surrogates none bytes = cs.map some ↔ bytes = cs.flatMap encode ∧ ∀ c ∈ cs, Encodable surrogates c := by
  constructor
  · intro h
    obtain ⟨cs', hde, hby, hall⟩ := flatMap_encode_of_decode _ bytes (le_refl _) (by
      rw [h]
      simp)
    have hsa : cs' = cs := map_injective_iff.mpr (some_injective _) (hde.symm.trans h)
    rw [← hsa]
    exact ⟨hby, hall⟩
  · rintro ⟨rfl, hall⟩
    exact decode_flatMap_encode hall

theorem wellFormed_iff : WellFormed bytes ↔ none ∉ decode false none bytes := by
  constructor
  · rintro ⟨cs, hall, rfl⟩
    rw [decode_flatMap_encode hall]
    simp
  · intro h
    obtain ⟨cs, -, hby, hall⟩ := flatMap_encode_of_decode _ bytes (le_refl _) h
    exact ⟨cs, hall, hby⟩

/-! ### What a state can be -/

/-- The bytes that can be needed; only a surrogate is told apart by its second byte. -/
def tails (surrogates : Bool) : List Tail :=
  [⟨1, 0x80, 0xBF⟩, ⟨2, 0x80, 0xBF⟩, ⟨2, 0xA0, 0xBF⟩, ⟨3, 0x80, 0xBF⟩, ⟨3, 0x80, 0x8F⟩, ⟨3, 0x90, 0xBF⟩] ++
    if surrogates then [] else [⟨2, 0x80, 0x9F⟩]

/-- The bits so far leave the code point below its bound. -/
def Possible (surrogates : Bool) : State → Prop
  | none => True
  | some (t, value) => t ∈ tails surrogates ∧ (value * 64 + t.upper % 64 + 1) * 64 ^ (t.needed - 1) ≤ 0x110000

/-- The first byte of a sequence gives nothing yet, or is an error. -/
theorem start_fst (hb : 0x80 ≤ b) : (start surrogates b).1 = if (start surrogates b).2 = none then [none] else [] := by
  rw [start, if_neg (by omega)]
  split_ifs <;> simp_all

theorem start_possible (b : Nat) : Possible surrogates (start surrogates b).2 := by
  rw [start]
  split
  · trivial
  split
  · trivial
  split
  · next h => exact ⟨by simp [tails], show (b % 32 * 64 + 63 + 1) * 64 ^ 0 ≤ _ by omega⟩
  split
  · refine ⟨?_, ?_⟩
    · by_cases he0 : b = 0xE0
      · simp [tails, he0]
      · by_cases hed : b = 0xED ∧ surrogates = false
        · simp [tails, hed]
        · simp [tails, he0, hed]
    · dsimp only
      split
      · show (b % 16 * 64 + 31 + 1) * 64 ≤ _
        omega
      · show (b % 16 * 64 + 63 + 1) * 64 ≤ _
        omega
  split
  · refine ⟨?_, ?_⟩
    · by_cases hf0 : b = 0xF0
      · simp [tails, hf0]
      · by_cases hf4 : b = 0xF4
        · simp [tails, hf4]
        · simp [tails, hf0, hf4]
    · dsimp only
      split
      · show (b % 8 * 64 + 15 + 1) * 64 ^ 2 ≤ _
        omega
      · show (b % 8 * 64 + 63 + 1) * 64 ^ 2 ≤ _
        omega
  · trivial

theorem bounds_of_mem_tails {t : Tail} (h : t ∈ tails surrogates) :
    1 ≤ t.needed ∧ t.needed ≤ 3 ∧ 0x80 ≤ t.lower ∧ t.upper ≤ 0xBF := by
  revert t
  cases surrogates <;> decide

theorem le_of_mem_start (h : some c ∈ (start surrogates b).1) : c < 0x80 := by
  rw [start] at h
  split at h
  · simp only [mem_singleton, Option.some.injEq] at h
    omega
  split at h
  · simp at h
  split at h
  · simp at h
  split at h
  · simp at h
  split at h <;> simp at h

/-- A byte in bounds keeps the code point below its bound. -/
theorem bound_next {t : Tail} (ht : t ∈ tails surrogates)
    (hva : (value * 64 + t.upper % 64 + 1) * 64 ^ (t.needed - 1) ≤ 0x110000) (hb : t.lower ≤ b ∧ b ≤ t.upper) :
    (value * 64 + b % 64 + 1) * 64 ^ (t.needed - 1) ≤ 0x110000 := by
  obtain ⟨-, -, hl, hu⟩ := bounds_of_mem_tails ht
  refine le_trans (Nat.mul_le_mul_right _ ?_) hva
  omega

theorem step_possible {st : State} (h : Possible surrogates st) (b : Nat) :
    Possible surrogates (step surrogates st b).2 ∧ ∀ c, some c ∈ (step surrogates st b).1 → c ≤ 0x10FFFF := by
  cases st with
  | none => exact ⟨start_possible b, fun c hc => (le_of_mem_start hc).le.trans (by decide)⟩
  | some st =>
    obtain ⟨t, value⟩ := st
    obtain ⟨ht, hva⟩ := h
    obtain ⟨hone, hth, -, -⟩ := bounds_of_mem_tails ht
    rw [step]
    split
    · next hb =>
      have hnext := bound_next ht hva hb
      split
      · next hl =>
        rw [hl] at hnext
        refine ⟨trivial, fun c hc => ?_⟩
        simp only [mem_singleton, Option.some.injEq] at hc
        omega
      · refine ⟨⟨?_, ?_⟩, by simp⟩
        · have : t.needed = 2 ∨ t.needed = 3 := by omega
          rcases this with h | h <;> simp [tails, h]
        · obtain ⟨k, hk⟩ : ∃ k, t.needed = k + 2 := ⟨t.needed - 2, by omega⟩
          rw [hk, show k + 2 - 1 = k + 1 by omega] at hnext ⊢
          refine le_trans (le_of_eq ?_) hnext
          have hu : 0xBF % 64 = 63 := rfl
          dsimp only
          rw [Nat.add_sub_cancel, pow_succ, hu]
          ring
    · refine ⟨start_possible b, fun c hc => ?_⟩
      rcases mem_cons.mp hc with hc | hc
      · cases hc
      · exact (le_of_mem_start hc).le.trans (by decide)

theorem le_of_mem_decode {st : State} (h : Possible surrogates st) {bytes : List Nat} {c : Nat}
    (hc : some c ∈ decode surrogates st bytes) : c ≤ 0x10FFFF := by
  induction bytes generalizing st with
  | nil => cases st <;> simp [decode] at hc
  | cons b rest ih =>
    obtain ⟨hnext, hout⟩ := step_possible h b
    rw [decode_cons, mem_append] at hc
    rcases hc with hc | hc
    · exact hout c hc
    · exact ih hnext hc

/-! ### Maximal subparts -/

def Begins (part : List Nat) : Prop := ∃ c more, Encodable false c ∧ encode c = part ++ more

/-- No scalar value is encoded here, and `part` is the longest sequence that begins one, or a
single byte. -/
structure MaximalSubpart (part rest : List Nat) : Prop where
  ne_nil : part ≠ []
  unconvertible : ∀ c more, Encodable false c → part ++ rest ≠ encode c ++ more
  begins : part.length = 1 ∨ Begins part
  longest : ∀ more after, rest = more ++ after → Begins (part ++ more) → more = []

/-- The code points of bytes in which each maximal subpart that is ill-formed stands for a
replacement character. -/
inductive Replaced : List Nat → List Nat → Prop
  | nil : Replaced [] []
  | char {c : Nat} {rest cs : List Nat} (hc : Encodable false c) (h : Replaced rest cs) :
      Replaced (encode c ++ rest) (c :: cs)
  | subpart {part rest cs : List Nat} (hpart : MaximalSubpart part rest) (h : Replaced rest cs) :
      Replaced (part ++ rest) (0xFFFD :: cs)

/-- The bytes bring the decoder into a sequence. -/
def Leads (part : List Nat) (t : Tail) (value : Nat) : Prop :=
  ∀ rest, decode false none (part ++ rest) = decode false (some (t, value)) rest

variable {part : List Nat} {t : Tail}

theorem not_mem_decode_encode (hc : Encodable false c) : none ∉ decode false none (encode c) := by
  have h := decode_encode hc []
  rw [append_nil] at h
  simp [h, decode]

/-- A sequence that the decoder ends without an error is a character. -/
theorem encode_of_decode (h : decode false none bytes = [some c]) : Encodable false c ∧ encode c = bytes := by
  obtain ⟨hby, hall⟩ := decode_eq_map_some.mp (show _ = [c].map some from h)
  refine ⟨hall c (by simp), ?_⟩
  rw [hby, flatMap_singleton]

theorem lower_le_upper (h : t ∈ tails surrogates) : t.lower ≤ t.upper := by
  revert t
  cases surrogates <;> decide

/-- Every sequence can be brought to an end. -/
theorem exists_decode_tail (n : Nat) (hne : t.needed = n + 1) (hle : t.lower ≤ t.upper) (value : Nat) :
    ∃ more c, decode surrogates (some (t, value)) more = [some c] := by
  induction n generalizing t value with
  | zero =>
    refine ⟨[t.lower], value * 64 + t.lower % 64, ?_⟩
    rw [decode_cons, step, if_pos ⟨le_refl _, hle⟩, if_pos hne]
    rfl
  | succ n ih =>
    obtain ⟨more, c, hmo⟩ := ih (t := ⟨t.needed - 1, 0x80, 0xBF⟩) (by dsimp only; omega)
      (show 0x80 ≤ 0xBF by decide) (value * 64 + t.lower % 64)
    refine ⟨t.lower :: more, c, ?_⟩
    rw [decode_cons, step, if_pos ⟨le_refl _, hle⟩, if_neg (by omega)]
    exact hmo

theorem Leads.begins (hl : Leads part t value) (ht : t ∈ tails false) : Begins part := by
  obtain ⟨hone, -, -, -⟩ := bounds_of_mem_tails ht
  obtain ⟨more, c, hmo⟩ := exists_decode_tail (t.needed - 1) (by omega) (lower_le_upper ht) value
  obtain ⟨hc, hen⟩ := encode_of_decode ((hl more).trans hmo)
  exact ⟨c, more, hc, hen⟩

/-- The next byte of a character is in bounds. -/
theorem Leads.of_begins (hl : Leads part t value) {b : Nat} {more : List Nat} (h : Begins (part ++ b :: more)) :
    t.lower ≤ b ∧ b ≤ t.upper := by
  obtain ⟨c, after, hc, hen⟩ := h
  have hde := not_mem_decode_encode hc
  rw [hen, append_assoc, hl] at hde
  obtain ⟨b', rest, hco, hb⟩ := exists_of_decode_tail hde
  rw [cons_append, List.cons.injEq] at hco
  exact hco.1 ▸ hb

/-- An error is not the beginning of a character. -/
theorem unconvertible_of_decode {outs : List (Option Nat)} (h : decode false none bytes = none :: outs) (c : Nat)
    (more : List Nat) (hc : Encodable false c) : bytes ≠ encode c ++ more := by
  rintro rfl
  rw [decode_encode hc] at h
  cases h

/-- The sequence ends where the bytes do, or before a byte that is out of bounds. -/
theorem Leads.maximalSubpart (hl : Leads part t value) (ht : t ∈ tails false) (hne : part ≠ []) {rest : List Nat}
    (hrest : ∀ b after, rest = b :: after → ¬ (t.lower ≤ b ∧ b ≤ t.upper)) :
    MaximalSubpart part rest ∧ decode false none (part ++ rest) = none :: decode false none rest := by
  have hde : decode false none (part ++ rest) = none :: decode false none rest := by
    rw [hl]
    rcases rest with - | ⟨b, rest⟩
    · rfl
    · rw [decode_cons, step, if_neg (hrest b rest rfl), decode_cons]
      rfl
  refine ⟨⟨hne, unconvertible_of_decode hde, .inr (hl.begins ht), ?_⟩, hde⟩
  intro more after hmo hbe
  rcases more with - | ⟨b, more⟩
  · rfl
  · exact absurd (hl.of_begins hbe) (hrest b (more ++ after) hmo)

/-- What the decoder finds first: a character, or a maximal subpart. -/
def Next (bytes : List Nat) : Prop :=
  (∃ c rest, Encodable false c ∧ bytes = encode c ++ rest) ∨
    ∃ part rest, MaximalSubpart part rest ∧ bytes = part ++ rest ∧ decode false none bytes = none :: decode false none rest

theorem Leads.next (hl : Leads part t value) (ht : Possible false (some (t, value))) (hne : part ≠ [])
    (bytes : List Nat) : Next (part ++ bytes) := by
  induction bytes generalizing part t value with
  | nil =>
    obtain ⟨hma, hde⟩ := (@Leads.maximalSubpart _ _ _ hl ht.1 hne []) nofun
    exact .inr ⟨part, [], hma, rfl, hde⟩
  | cons b bytes ih =>
    by_cases hb : t.lower ≤ b ∧ b ≤ t.upper
    · have hnext := (step_possible ht b).1
      have hst : ∀ rest, decode false none ((part ++ [b]) ++ rest) =
          (step false (some (t, value)) b).1 ++ decode false (step false (some (t, value)) b).2 rest := by
        intro rest
        rw [append_assoc, hl]
        exact decode_cons _
      rw [step, if_pos hb] at hnext hst
      by_cases hla : t.needed = 1
      · rw [if_pos hla] at hst
        obtain ⟨hc, hen⟩ := encode_of_decode (append_nil (part ++ [b]) ▸ hst [])
        refine .inl ⟨_, bytes, hc, ?_⟩
        rw [hen, append_assoc]
        rfl
      · rw [if_neg hla] at hnext hst
        have hrest : Next (part ++ [b] ++ bytes) := ih hst hnext (by simp)
        rwa [append_assoc] at hrest
    · obtain ⟨hma, hde⟩ := (@Leads.maximalSubpart _ _ _ hl ht.1 hne (b :: bytes)) (by
        rintro b' after ⟨rfl, rfl⟩
        exact hb)
      exact .inr ⟨part, b :: bytes, hma, rfl, hde⟩

theorem next_cons (b : Nat) (bytes : List Nat) : Next (b :: bytes) := by
  by_cases hascii : b < 0x80
  · refine .inl ⟨b, bytes, ⟨by omega, fun _ => ?_⟩, ?_⟩
    · rw [IsLead, IsTrail]
      omega
    · rw [encode, if_pos hascii]
      rfl
  have hout := @start_fst false _ (Nat.not_lt.mp hascii)
  cases hst : (start false b).2 with
  | none =>
    have hde : ∀ rest, decode false none (b :: rest) = none :: decode false none rest := by
      intro rest
      rw [decode_cons, step, hout, hst]
      rfl
    refine .inr ⟨[b], bytes, ⟨nofun, unconvertible_of_decode (hde bytes), .inl rfl, ?_⟩, rfl, hde bytes⟩
    rintro more after - ⟨c, rest, hc, hen⟩
    have hno := not_mem_decode_encode hc
    rw [hen, append_assoc, singleton_append, hde] at hno
    exact absurd mem_cons_self hno
  | some st =>
    have hl : Leads [b] st.1 st.2 := by
      intro rest
      rw [singleton_append, decode_cons, step, hout, hst]
      rfl
    exact hl.next (hst ▸ start_possible b) (by simp) bytes

/-- The decoder replaces each maximal subpart that is ill-formed. -/
theorem replaced_of_length (n : Nat) (bytes : List Nat) (hn : bytes.length ≤ n) : Replaced bytes (replaced bytes) := by
  induction n generalizing bytes with
  | zero =>
    rw [length_eq_zero_iff.mp (Nat.le_zero.mp hn)]
    exact .nil
  | succ n ih =>
    rcases bytes with - | ⟨b, bytes⟩
    · exact .nil
    rcases next_cons b bytes with ⟨c, rest, hc, hby⟩ | ⟨part, rest, hpart, hby, hde⟩
    · have hl := congrArg List.length hby
      have hpos : 0 < (encode c).length := by
        rw [encode]
        split_ifs <;> exact Nat.succ_pos _
      rw [length_append] at hl
      rw [hby, replaced, decode_encode hc]
      exact .char hc (ih rest (by omega))
    · have hl := congrArg List.length hby
      have hpos := length_pos_iff.mpr hpart.ne_nil
      rw [length_append] at hl
      rw [replaced, hde, hby]
      exact .subpart hpart (ih rest (by omega))

theorem replaced_spec (bytes : List Nat) : Replaced bytes (replaced bytes) :=
  replaced_of_length _ bytes (le_refl _)

/-! ### Surrogate pairs -/

theorem hasPair_cons_cons {c₁ c₂ : Nat} : HasPair (c₁ :: c₂ :: cs) ↔ IsLead c₁ ∧ IsTrail c₂ ∨ HasPair (c₂ :: cs) := by
  constructor
  · rintro ⟨before, lead, trail, after, hcs, hl, htr⟩
    rcases before with - | ⟨c, before⟩
    · cases hcs
      exact .inl ⟨hl, htr⟩
    · rw [cons_append, List.cons.injEq] at hcs
      exact .inr ⟨before, lead, trail, after, hcs.2, hl, htr⟩
  · rintro (⟨hl, htr⟩ | ⟨before, lead, trail, after, hcs, hl, htr⟩)
    · exact ⟨[], c₁, c₂, cs, rfl, hl, htr⟩
    · exact ⟨c₁ :: before, lead, trail, after, by rw [hcs, cons_append], hl, htr⟩

theorem not_hasPair_singleton (c : Nat) : ¬ HasPair [c] := by
  rintro ⟨before, lead, trail, after, hcs, -⟩
  have hl := congrArg List.length hcs
  simp only [length_append, length_cons, length_nil] at hl
  omega

/-! ### UTF-16 -/

/-- A surrogate that has no other half beside it. -/
def Unpaired (before : List Nat) (c : Nat) (after : List Nat) : Prop :=
  (IsLead c ∧ ∀ trail ∈ after.head?, ¬ IsTrail trail) ∨ (IsTrail c ∧ ∀ lead ∈ before.getLast?, ¬ IsLead lead)

def HasUnpaired (units : List Nat) : Prop := ∃ before c after, units = before ++ c :: after ∧ Unpaired before c after

/-- A scalar value is one unit that is no surrogate, or a pair of them. -/
theorem utf16_cases (hc : Encodable false c) : (utf16 c = [c] ∧ ¬ IsLead c ∧ ¬ IsTrail c) ∨
      ∃ lead trail, utf16 c = [lead, trail] ∧ IsLead lead ∧ IsTrail trail ∧
        c = 0x10000 + (lead - 0xD800) * 1024 + (trail - 0xDC00) := by
  obtain ⟨hmax, hnot⟩ := hc
  rw [utf16]
  split
  · exact .inl ⟨rfl, hnot rfl⟩
  · refine .inr ⟨_, _, rfl, ?_, ?_, by omega⟩
    · rw [IsLead]
      omega
    · rw [IsTrail]
      omega

/-- The scalar value of a pair. -/
theorem exists_utf16_eq {lead trail : Nat} (hl : IsLead lead) (htr : IsTrail trail) :
    ∃ c, Encodable false c ∧ utf16 c = [lead, trail] := by
  rw [IsLead] at hl
  rw [IsTrail] at htr
  refine ⟨0x10000 + (lead - 0xD800) * 1024 + (trail - 0xDC00), ⟨by omega, fun _ => ?_⟩, ?_⟩
  · rw [IsLead, IsTrail]
    omega
  · rw [utf16, if_neg (by omega), List.cons.injEq, List.cons.injEq]
    exact ⟨by omega, by omega, rfl⟩

theorem not_isLead_of_isTrail (h : IsTrail c) : ¬ IsLead c := by
  rw [IsTrail] at h
  rw [IsLead]
  omega

theorem HasUnpaired.of_utf16_append {units : List Nat} (hc : Encodable false c) (h : HasUnpaired (utf16 c ++ units)) :
    HasUnpaired units := by
  obtain ⟨before, x, after, hu, hx⟩ := h
  -- behind the units of the character, what comes before matters no more
  have hdr : ∀ front tail : List Nat, before = front ++ tail → units = tail ++ x :: after →
      HasUnpaired units := by
    rintro front tail rfl rfl
    refine ⟨tail, x, after, rfl, hx.imp id fun hx => ⟨hx.1, fun lead hl => hx.2 lead ?_⟩⟩
    rcases tail.eq_nil_or_concat with rfl | ⟨tail, last, rfl⟩
    · cases hl
    · simpa using hl
  rcases utf16_cases hc with ⟨hutf, hnot, hno⟩ | ⟨lead, trail, hutf, hl, htr, -⟩
  · rw [hutf] at hu
    rcases before with - | ⟨_, before⟩
    · cases hu
      rcases hx with hx | hx
      · exact absurd hx.1 hnot
      · exact absurd hx.1 hno
    · simp only [cons_append, nil_append, List.cons.injEq] at hu
      exact hdr [_] before rfl hu.2
  · rw [hutf] at hu
    rcases before with - | ⟨_, - | ⟨_, before⟩⟩
    · cases hu
      rcases hx with hx | hx
      · exact absurd htr (hx.2 trail rfl)
      · exact absurd hl (not_isLead_of_isTrail hx.1)
    · cases hu
      rcases hx with hx | hx
      · exact absurd hx.1 (not_isLead_of_isTrail htr)
      · exact absurd hl (hx.2 lead rfl)
    · simp only [cons_append, nil_append, List.cons.injEq] at hu
      exact hdr [_, _] before rfl hu.2.2

theorem not_hasUnpaired_flatMap (hcs : ∀ c ∈ cs, Encodable false c) : ¬ HasUnpaired (cs.flatMap utf16) := by
  induction cs with
  | nil =>
    rintro ⟨before, c, after, h, -⟩
    simp at h
  | cons c cs ih =>
    intro h
    exact ih (fun x hx => hcs x (by simp [hx])) (HasUnpaired.of_utf16_append (hcs c (by simp)) h)

/-- The characters before the first unpaired surrogate, if there is one. -/
theorem exists_flatMap_utf16 (n : Nat) (units : List Nat) (hn : units.length ≤ n) (hun : ∀ u ∈ units, u < 0x10000) :
    ∃ cs : List Nat, (∀ c ∈ cs, Encodable false c) ∧ (units = cs.flatMap utf16 ∨
      ∃ c after, units = cs.flatMap utf16 ++ c :: after ∧ Unpaired [] c after) := by
  induction n generalizing units with
  | zero => exact ⟨[], nofun, .inl (length_eq_zero_iff.mp (Nat.le_zero.mp hn))⟩
  | succ n ih =>
    rcases units with - | ⟨u, units⟩
    · exact ⟨[], nofun, .inl rfl⟩
    rw [length_cons] at hn
    have hco : ∀ c rest, Encodable false c → u :: units = utf16 c ++ rest → rest.length ≤ n →
        ∃ cs : List Nat, (∀ c ∈ cs, Encodable false c) ∧ (u :: units = cs.flatMap utf16 ∨
          ∃ c after, u :: units = cs.flatMap utf16 ++ c :: after ∧ Unpaired [] c after) := by
      intro c rest hc hrest hl
      obtain ⟨cs, hcs, h⟩ := ih rest hl fun x hx => hun x (hrest ▸ mem_append_right _ hx)
      refine ⟨c :: cs, forall_mem_cons.mpr ⟨hc, hcs⟩, ?_⟩
      rw [hrest, flatMap_cons]
      rcases h with rfl | ⟨x, after, rfl, hx⟩
      · exact .inl rfl
      · exact .inr ⟨x, after, by rw [append_assoc], hx⟩
    by_cases hlea : IsLead u
    · by_cases htr : ∃ trail rest, units = trail :: rest ∧ IsTrail trail
      · obtain ⟨trail, rest, rfl, htr⟩ := htr
        obtain ⟨c, hc, hutf⟩ := exists_utf16_eq hlea htr
        rw [length_cons] at hn
        exact hco c rest hc (by rw [hutf]; rfl) (by omega)
      · refine ⟨[], nofun, .inr ⟨u, units, rfl, .inl ⟨hlea, ?_⟩⟩⟩
        intro trail hmem hnot
        rcases units with - | ⟨_, rest⟩
        · cases hmem
        · cases hmem
          exact htr ⟨trail, rest, rfl, hnot⟩
    · by_cases htr : IsTrail u
      · exact ⟨[], nofun, .inr ⟨u, units, rfl, .inr ⟨htr, nofun⟩⟩⟩
      · have hu := hun u (by simp)
        exact hco u units ⟨by omega, fun _ => ⟨hlea, htr⟩⟩ (by rw [utf16, if_pos (by omega)]; rfl) (by omega)

theorem getLast_flatMap_utf16 (hcs : ∀ c ∈ cs, Encodable false c) :
    ∀ lead ∈ (cs.flatMap utf16).getLast?, ¬ IsLead lead := by
  rcases cs.eq_nil_or_concat with rfl | ⟨cs, c, rfl⟩
  · intro lead h
    cases h
  · intro lead h
    rw [concat_eq_append, flatMap_append, flatMap_singleton] at h
    rcases utf16_cases (hcs c (by simp)) with ⟨hutf, hnot, -⟩ | ⟨_, trail, hutf, -, htr, -⟩
    · rw [hutf] at h
      simp only [getLast?_append, getLast?_singleton, some_or, mem_some_iff] at h
      exact h ▸ hnot
    · rw [hutf] at h
      simp only [getLast?_append, getLast?_cons_cons, getLast?_singleton, some_or, mem_some_iff] at h
      exact h ▸ not_isLead_of_isTrail htr

/-- After whole characters, a surrogate is unpaired as it is in front of the rest. -/
theorem unpaired_flatMap {after : List Nat} (hcs : ∀ c ∈ cs, Encodable false c) :
    Unpaired (cs.flatMap utf16) c after ↔ Unpaired [] c after := by
  refine or_congr_right (and_congr_right fun _ => ?_)
  exact iff_of_true (getLast_flatMap_utf16 hcs) nofun

end

end V8Multithread.Base.Utf8
