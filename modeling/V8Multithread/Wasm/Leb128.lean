import Mathlib

/-! LEB128 integers, as `Decoder::read_leb` reads them with validation.

The template is instantiated for a type of the result and a number of bits that it may use. Bytes are read
up to one without the continuation bit, and no more than those bits need. The bits of a last possible byte
that are too many must be zero, or copies of the sign. -/
namespace V8Multithread.Wasm.Leb128
open BitVec (ofNat toNat_ofNat)

/-- What `read_leb` is instantiated with; the width is that of the type. -/
structure IntType where
  isSigned : Bool
  width : Nat
  sizeInBits : Nat
  long : 7 < sizeInBits
  fits : sizeInBits ≤ width

def u32 : IntType := ⟨false, 32, 32, by decide, by decide⟩
def u64 : IntType := ⟨false, 64, 64, by decide, by decide⟩
def i32 : IntType := ⟨true, 32, 32, by decide, by decide⟩
def i33 : IntType := ⟨true, 64, 33, by decide, by decide⟩
def i64 : IntType := ⟨true, 64, 64, by decide, by decide⟩

inductive Message where
  | reachedEnd | lengthOverflow | extraBits
  deriving DecidableEq, Repr

/-- The value and the length, and the error with the place of the byte that it is reported for. -/
structure Result where
  value : Int
  length : Nat
  error : Option (Nat × Message)
  deriving DecidableEq, Repr

namespace IntType
variable (t : IntType)

def kMaxLength : Nat := (t.sizeInBits + 6) / 7

def value (x : BitVec t.width) : Int := if t.isSigned then x.toInt else x.toNat

/-- `(x << shift) >> shift`, for a signed type. -/
def extendSign (shift : Nat) (x : BitVec t.width) : BitVec t.width :=
  if t.isSigned then (x <<< shift).sshiftRight shift else x

def kSignExtBits : Nat := t.sizeInBits - (t.kMaxLength - 1) * 7 - if t.isSigned then 1 else 0

def validExtraBits (b : Nat) : Bool :=
  let checkedBits := b &&& (0xFF <<< t.kSignExtBits)
  checkedBits = 0 || (t.isSigned && checkedBits = 0x7f &&& (0xFF <<< t.kSignExtBits))

/-- Nothing is left to be read at the end of the bytes. -/
def readLebTail (byteIndex : Nat) (intermediateResult : BitVec t.width) : (bytes : List UInt8) → Result
  | [] => ⟨0, 0, some (byteIndex, .reachedEnd)⟩
  | b :: bytes =>
    let intermediateResult := intermediateResult ||| ofNat t.width (b.toNat &&& 0x7f) <<< (byteIndex * 7)
    if byteIndex ≠ t.kMaxLength - 1 ∧ b.toNat &&& 0x80 ≠ 0 then readLebTail (byteIndex + 1) intermediateResult bytes
    else if b.toNat &&& 0x80 ≠ 0 then ⟨0, 0, some (byteIndex, .lengthOverflow)⟩
    else if byteIndex = t.kMaxLength - 1 ∧ t.validExtraBits b.toNat = false then ⟨0, 0, some (byteIndex, .extraBits)⟩
    else ⟨t.value (t.extendSign (t.width - byteIndex * 7 - 7) intermediateResult), byteIndex + 1, none⟩

def readLeb : (bytes : List UInt8) → Result
  | [] => t.readLebTail 0 0 []
  | b :: bytes =>
    if b.toNat &&& 0x80 = 0 then ⟨t.value (t.extendSign (t.width - 7) (ofNat t.width b.toNat)), 1, none⟩
    else t.readLebTail 0 0 (b :: bytes)

/-! ### What the bytes encode -/

end IntType

/-- The number that the groups of seven bits make, the lowest first. -/
def groups : List UInt8 → Nat
  | [] => 0
  | b :: bytes => b.toNat % 128 + 128 * groups bytes

namespace IntType
variable (t : IntType)

/-- The integer with these groups: in two's complement, if the type is signed. -/
def encoded (bytes : List UInt8) : Int :=
  if t.isSigned then (groups bytes : Int).bmod (128 ^ bytes.length) else groups bytes

def Representable (v : Int) : Prop :=
  if t.isSigned then -2 ^ (t.sizeInBits - 1) ≤ v ∧ v < 2 ^ (t.sizeInBits - 1) else 0 ≤ v ∧ v < 2 ^ t.sizeInBits

/-- Bytes that are continued, and one that is not, encode an integer of the type and are not too many. -/
structure Encodes (bytes : List UInt8) (last : UInt8) : Prop where
  continued : ∀ b ∈ bytes, 128 ≤ b.toNat
  ends : last.toNat < 128
  short : bytes.length < t.kMaxLength
  representable : t.Representable (t.encoded (bytes ++ [last]))

end IntType
open IntType

theorem groups_append (bytes : List UInt8) (b : UInt8) :
    groups (bytes ++ [b]) = groups bytes + 128 ^ bytes.length * (b.toNat % 128) := by
  induction bytes with
  | nil => simp [groups]
  | cons a bytes ih =>
    rw [List.cons_append, groups, ih, groups, List.length_cons, pow_succ']
    ring

theorem groups_lt (bytes : List UInt8) : groups bytes < 128 ^ bytes.length := by
  induction bytes with
  | nil => exact Nat.one_pos
  | cons a bytes ih =>
    rw [groups, List.length_cons, pow_succ']
    have := Nat.mod_lt a.toNat (show 0 < 128 by decide)
    omega

theorem and_0x80 (b : UInt8) : b.toNat &&& 0x80 = 0 ↔ b.toNat < 128 := by
  have hall : ∀ b < 256, b &&& 0x80 = 0 ↔ b < 128 := by decide +kernel
  exact hall _ b.toNat_lt

section
variable {t : IntType} {done : List UInt8} {last : UInt8}

/-- A byte puts its group above those before it. -/
theorem or_group (w : Nat) (done : List UInt8) (b : UInt8) :
    ofNat w (groups done) ||| ofNat w (b.toNat &&& 0x7f) <<< (done.length * 7) =
      ofNat w (groups (done ++ [b])) := by
  have hpow : 2 ^ (done.length * 7) = 128 ^ done.length := by rw [mul_comm, pow_mul]; rfl
  have hlt : groups done < 2 ^ (done.length * 7) := hpow ▸ groups_lt done
  have hor : groups done ||| (b.toNat % 128) <<< (done.length * 7) = groups (done ++ [b]) := by
    rw [Nat.or_comm, ← Nat.shiftLeft_add_eq_or_of_lt hlt, Nat.shiftLeft_eq, hpow, groups_append]
    ring
  apply BitVec.eq_of_toNat_eq
  rw [BitVec.toNat_or, BitVec.toNat_shiftLeft, toNat_ofNat, toNat_ofNat, toNat_ofNat, ← hor,
    Nat.and_two_pow_sub_one_eq_mod _ 7, Nat.or_mod_two_pow]
  simp [Nat.shiftLeft_eq]

theorem extraBits_eq (t : IntType) :
    ∃ extra, 1 ≤ extra ∧ extra ≤ 7 ∧ t.sizeInBits = 7 * (t.kMaxLength - 1) + extra ∧ 1 < t.kMaxLength ∧
      t.kSignExtBits = extra - if t.isSigned then 1 else 0 := by
  have := t.long
  refine ⟨t.sizeInBits - (t.kMaxLength - 1) * 7, ?_, ?_, ?_, ?_, rfl⟩ <;> rw [kMaxLength] <;> omega

/-- What the test of the extra bits is about. -/
theorem validExtraBits_iff (t : IntType) {b : Nat} (hb : b < 128) :
    t.validExtraBits b = true ↔ b < 2 ^ t.kSignExtBits ∨ t.isSigned = true ∧ 128 ≤ b + 2 ^ t.kSignExtBits := by
  have hall : ∀ e < 8, ∀ b < 128, (b &&& (0xFF <<< e) = 0 ↔ b < 2 ^ e) ∧
      (b &&& (0xFF <<< e) = 0x7f &&& (0xFF <<< e) ↔ 128 ≤ b + 2 ^ e) := by decide +kernel
  obtain ⟨extra, -, hle, -, -, hbi⟩ := extraBits_eq t
  obtain ⟨hzero, ho⟩ := hall t.kSignExtBits (by omega) b hb
  rw [validExtraBits, Bool.or_eq_true, Bool.and_eq_true, decide_eq_true_eq, decide_eq_true_eq, hzero, ho]

/-- A number below a group does not matter for a bound on the group. -/
theorem add_mul_lt_iff {l p b q : Nat} (hl : l < p) : l + p * b < p * q ↔ b < q := by
  have hdiv : (l + p * b) / p = b := by rw [Nat.add_mul_div_left _ _ (by omega), Nat.div_eq_of_lt hl, zero_add]
  rw [mul_comm p q, ← Nat.div_lt_iff_lt_mul (by omega), hdiv]

/-- The last group has the sign. -/
theorem encoded_eq (hl : last.toNat < 128) :
    t.encoded (done ++ [last]) = (groups done + 128 ^ done.length * last.toNat : Nat) -
      if t.isSigned ∧ 64 ≤ last.toNat then ((128 ^ done.length * 128 : Nat) : Int) else 0 := by
  have hlt := groups_lt (done ++ [last])
  have hhalf := @add_mul_lt_iff _ _ last.toNat 64 (groups_lt done)
  rw [encoded, Int.bmod_def]
  rw [List.length_append, List.length_singleton, pow_succ, groups_append, Nat.mod_eq_of_lt hl] at hlt ⊢
  generalize groups done + 128 ^ done.length * last.toNat = g at *
  rw [Int.emod_eq_of_lt (by positivity) (by exact_mod_cast hlt)]
  cases t.isSigned <;> simp only [Bool.false_eq_true, false_and, true_and, if_true, if_false] <;> omega

/-- An integer of the type, by the bits that the last possible group has for it. -/
theorem representable_def (t : IntType) (v : Int) :
    t.Representable v ↔ (t.isSigned = false → 0 ≤ v) ∧
      -((128 ^ (t.kMaxLength - 1) * 2 ^ t.kSignExtBits : Nat) : Int) ≤ v ∧
        v < (128 ^ (t.kMaxLength - 1) * 2 ^ t.kSignExtBits : Nat) := by
  obtain ⟨extra, hex, -, hsize, -, hbi⟩ := extraBits_eq t
  have hpow : ∀ k, (2 : Int) ^ (7 * (t.kMaxLength - 1) + k) = (128 ^ (t.kMaxLength - 1) * 2 ^ k : Nat) := fun k => by
    rw [pow_add, pow_mul]
    norm_num
  rw [Representable, hsize, Nat.add_sub_assoc hex, hpow, hpow, hbi]
  cases t.isSigned <;> simp
  omega

/-- What bytes that are not too many encode can be represented unless there are as many as possible; then the extra bits
decide. -/
theorem representable_iff (hlen : done.length < t.kMaxLength) (hl : last.toNat < 128) :
    t.Representable (t.encoded (done ++ [last])) ↔
      (done.length = t.kMaxLength - 1 → t.validExtraBits last.toNat) := by
  obtain ⟨extra, -, hle, -, -, hbi⟩ := extraBits_eq t
  have hbe := fun q => @add_mul_lt_iff _ _ last.toNat q (groups_lt done)
  have hab := @add_mul_lt_iff _ _ (last.toNat + 2 ^ t.kSignExtBits) 128 (groups_lt done)
  have hlt := (hbe 128).mpr hl
  have hhalf := hbe 64
  have hbe := hbe (2 ^ t.kSignExtBits)
  rw [mul_add, ← add_assoc] at hab
  rw [representable_def, encoded_eq hl, validExtraBits_iff t hl]
  generalize groups done + 128 ^ done.length * last.toNat = g at *
  have hbi : t.isSigned = true → 2 ^ t.kSignExtBits ≤ 2 ^ 6 := fun ht =>
    Nat.pow_le_pow_right (by decide) (by rw [hbi, ht, if_pos rfl]; omega)
  by_cases hmax : done.length = t.kMaxLength - 1
  · rw [← hmax]
    cases ht : t.isSigned
    · simp only [Bool.false_eq_true, false_and, if_false, or_false, forall_true_left]
      omega
    · have := hbi ht
      simp only [true_and, forall_true_left, Bool.true_eq_false, false_imp_iff]
      omega
  · -- Where more bytes could come, all that is encoded is small.
    have hsm : 128 ^ done.length * 128 ≤ 128 ^ (t.kMaxLength - 1) * 2 ^ t.kSignExtBits :=
      calc 128 ^ done.length * 128 ≤ 128 ^ (t.kMaxLength - 1) * 1 := by
            rw [← pow_succ, mul_one]
            exact Nat.pow_le_pow_right (by decide) (by omega)
        _ ≤ _ := Nat.mul_le_mul_left _ (Nat.two_pow_pos _)
    cases t.isSigned <;>
      simp only [Bool.false_eq_true, Bool.true_eq_false, false_and, true_and, if_false, false_imp_iff] <;> omega

/-- The bits of an integer of the type are those of its groups. -/
theorem value_extendSign (h : t.Representable (t.encoded (done ++ [last]))) :
    t.value (t.extendSign (t.width - done.length * 7 - 7) (ofNat t.width (groups (done ++ [last])))) =
      t.encoded (done ++ [last]) := by
  have hfi := t.fits
  have hl := t.long
  rw [Representable] at h
  rw [value, extendSign]
  cases ht : t.isSigned with
  | false =>
    have hen : t.encoded (done ++ [last]) = groups (done ++ [last]) := by rw [encoded, ht, if_neg (by decide)]
    rw [ht, if_neg (by decide), hen] at h
    have hle : 2 ^ t.sizeInBits ≤ 2 ^ t.width := Nat.pow_le_pow_right (by decide) hfi
    have hlt : groups (done ++ [last]) < 2 ^ t.sizeInBits := by exact_mod_cast h.2
    rw [if_neg (by decide), if_neg (by decide), hen, toNat_ofNat, Nat.mod_eq_of_lt (hlt.trans_le hle)]
  | true =>
    obtain ⟨s, hs⟩ : ∃ s, s = t.width - done.length * 7 - 7 := ⟨_, rfl⟩
    obtain ⟨n, hn⟩ : ∃ n, n + 1 = done.length * 7 + 7 := ⟨_, rfl⟩
    have hpow : 128 ^ (done ++ [last]).length = 2 ^ (n + 1) := by
      rw [List.length_append, List.length_singleton, hn, ← Nat.succ_mul, mul_comm, pow_mul]
      rfl
    rw [ht, if_pos rfl] at h
    rw [if_pos rfl, if_pos rfl, ← hs, BitVec.toInt_sshiftRight, BitVec.toInt_shiftLeft, toNat_ofNat, Nat.shiftLeft_eq]
    rw [encoded, ht, if_pos rfl, hpow] at h ⊢
    obtain ⟨c, hc⟩ := @Int.dvd_self_sub_bmod (groups (done ++ [last])) (2 ^ (n + 1))
    have hlow := @Int.le_bmod (groups (done ++ [last])) (2 ^ (n + 1)) (Nat.two_pow_pos _)
    have hh := @Int.bmod_lt (groups (done ++ [last])) (2 ^ (n + 1)) (Nat.two_pow_pos _)
    generalize Int.bmod (groups (done ++ [last])) (2 ^ (n + 1)) = v at *
    -- Shifted up, the sign of the groups is the sign of the word.
    have hra : -((2 ^ t.width : Nat) : Int) ≤ v * 2 ^ s * 2 ∧ v * 2 ^ s * 2 < (2 ^ t.width : Nat) := by
      by_cases hzero : s = 0
      · have hle : (2 : Int) ^ (t.sizeInBits - 1) * 2 ≤ 2 ^ t.width := by
          rw [← pow_succ]
          exact pow_le_pow_right₀ (by decide) (by omega)
        rw [hzero]
        push_cast
        omega
      · have hpos : (0 : Int) < 2 ^ s := by positivity
        push_cast [pow_succ] at hlow hh
        have hdo : -2 ^ n ≤ v := by omega
        have hup : v < 2 ^ n := by omega
        push_cast
        rw [show t.width = n + s + 1 by omega, pow_succ, pow_add]
        constructor <;> nlinarith
    have hshift : ((2 ^ (n + 1) : Nat) : Int) * c * 2 ^ s = (2 ^ t.width : Nat) * (2 ^ (n + 1 + s - t.width) * c) := by
      rw [mul_right_comm, ← mul_assoc]
      push_cast
      rw [← pow_add, ← pow_add, Nat.add_sub_cancel' (by omega)]
    rw [Nat.cast_mul, Int.natCast_emod, Int.emod_mul_bmod, Nat.cast_pow 2 s, Nat.cast_two, show (groups (done ++ [last]) : Int) = v + (2 ^ (n + 1) : Nat) * c by omega, add_mul, hshift,
      Int.add_mul_bmod_self_left, Int.bmod_eq_of_le_mul_two hra.1 hra.2, Int.shiftRight_eq_div_pow]
    exact Int.mul_ediv_cancel _ (by positivity)

/-- The shorter way for a single byte gives the same. -/
theorem readLeb_eq (t : IntType) (bytes : List UInt8) : t.readLeb bytes = t.readLebTail 0 0 bytes := by
  obtain ⟨-, -, -, -, hmax, -⟩ := extraBits_eq t
  cases bytes with
  | nil => rfl
  | cons b bytes =>
    rw [readLeb]
    split
    · next hb =>
      have hlt := (and_0x80 b).mp hb
      rw [readLebTail, if_neg fun h => h.2 hb, if_neg (not_not.mpr hb), if_neg (by omega)]
      simp [Nat.and_two_pow_sub_one_eq_mod _ 7, Nat.mod_eq_of_lt hlt]
    · rfl

/-- What is encoded is read. -/
theorem readLebTail_encodes (bytes rest : List UInt8) (h : t.Encodes (done ++ bytes) last) :
    t.readLebTail done.length (ofNat t.width (groups done)) (bytes ++ last :: rest) =
      ⟨t.encoded (done ++ bytes ++ [last]), (done ++ bytes).length + 1, none⟩ := by
  induction bytes generalizing done with
  | nil =>
    rw [List.append_nil] at h ⊢
    have hbit := (and_0x80 last).mpr h.ends
    rw [List.nil_append, readLebTail, if_neg fun hne => hne.2 hbit, if_neg (not_not.mpr hbit), if_neg, or_group,
      value_extendSign h.representable]
    rintro ⟨hmax, hin⟩
    rw [(representable_iff h.short h.ends).mp h.representable hmax] at hin
    cases hin
  | cons b bytes ih =>
    have hsh := h.short
    have hb := h.continued b (by simp)
    rw [List.length_append, List.length_cons] at hsh
    rw [List.cons_append, readLebTail, if_pos ⟨by omega, (and_0x80 b).not.mpr (by omega)⟩, or_group]
    have hnext := @ih (done ++ [b]) (by simpa using h)
    simpa using hnext

/-- Where nothing is encoded, there is an error. -/
theorem readLebTail_fails (bytes : List UInt8) (hlen : done.length < t.kMaxLength) (hdo : ∀ b ∈ done, 128 ≤ b.toNat)
    (h : ∀ more last rest, bytes = more ++ last :: rest → ¬t.Encodes (done ++ more) last) :
    ∃ error, t.readLebTail done.length (ofNat t.width (groups done)) bytes = ⟨0, 0, some error⟩ := by
  induction bytes generalizing done with
  | nil => exact ⟨_, rfl⟩
  | cons b bytes ih =>
    rw [readLebTail, or_group]
    by_cases hb : b.toNat < 128
    · have hbit := (and_0x80 b).mpr hb
      rw [if_neg fun hne => hne.2 hbit, if_neg (not_not.mpr hbit), if_pos]
      · exact ⟨_, rfl⟩
      · have hnot := h [] b bytes rfl
        rw [List.append_nil] at hnot
        have hre := fun hr => hnot ⟨hdo, hb, hlen, hr⟩
        rw [representable_iff hlen hb] at hre
        simpa using hre
    · have hbit := (and_0x80 b).not.mpr hb
      by_cases hmax : done.length = t.kMaxLength - 1
      · rw [if_neg fun hne => hne.1 hmax, if_pos hbit]
        exact ⟨_, rfl⟩
      · rw [if_pos ⟨hmax, hbit⟩]
        have hnext := @ih (done ++ [b]) (by simp; omega) (by simpa [or_imp, forall_and] using ⟨hdo, by omega⟩)
          fun more last rest heq => by simpa using h (b :: more) last rest (by rw [heq]; rfl)
        simpa using hnext

end

/-- A call succeeds exactly if the bytes begin with an encoding of an integer of the type; it returns this integer and the
length of the encoding. -/
theorem leb128_decoded_exactly (t : IntType) (bytes : List UInt8) :
    (∀ continued last rest, bytes = continued ++ last :: rest → t.Encodes continued last →
      t.readLeb bytes = ⟨t.encoded (continued ++ [last]), continued.length + 1, none⟩) ∧
    ((∀ continued last rest, bytes = continued ++ last :: rest → ¬t.Encodes continued last) →
      ∃ error, t.readLeb bytes = ⟨0, 0, some error⟩) := by
  obtain ⟨-, -, -, -, hmax, -⟩ := extraBits_eq t
  rw [readLeb_eq]
  constructor
  · rintro continued last rest rfl h
    exact @readLebTail_encodes t [] last continued rest h
  · exact fun h => @readLebTail_fails t [] bytes (by simpa using hmax.trans' Nat.one_pos) (by simp) h

theorem leb128_decoded_exactly_minus_two :
    i33.Encodes [0xfe] 0x7f ∧ i33.readLeb [0xfe, 0x7f, 0x00] = ⟨-2, 2, none⟩ := by
  have hvalue : i33.encoded ([0xfe] ++ [0x7f]) = -2 := by decide
  have h : i33.Encodes [0xfe] 0x7f := by
    refine ⟨by simp, by decide, by decide, ?_⟩
    rw [hvalue]
    exact show (-2 ^ 32 : Int) ≤ -2 ∧ (-2 : Int) < 2 ^ 32 by decide
  exact ⟨h, hvalue ▸ (leb128_decoded_exactly i33 [0xfe, 0x7f, 0x00]).1 [0xfe] 0x7f [0x00] rfl h⟩

end V8Multithread.Wasm.Leb128
