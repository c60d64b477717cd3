import Mathlib

/-! Numbers as bytes: base-128 varints, zigzag and little endian.

A varint has seven bits in a byte, the least significant first, and the most significant
bit of every byte but the last is set. There are two decoders, a loop and one that is
unrolled and does not look for the end; they agree where the second may be used. -/
namespace V8Multithread.Base
open List

/-! ### Varints -/

namespace Varint

/-- The most bytes that a number of `width` bits takes. -/
def limit (width : Nat) : Nat := width / 7 + 1

/-- The bytes of a number, at most `bytes` of them. -/
def encode : (bytes value : Nat) → List UInt8
  | 0, _ => []
  | bytes + 1, value =>
    if value < 128 then [UInt8.ofNat value]
    else UInt8.ofNat (value % 128 + 128) :: encode bytes (value / 128)

/-- The loop: the number, unless the bytes end too early, and how many bytes were taken.
Bits past `width` are dropped; that there is no room for more bits is seen at the next
byte, which is not taken. -/
def decodeLoop (width : Nat) : (shift value : Nat) → List UInt8 → Option Nat × Nat
  | _, _, [] => (none, 0)
  | shift, value, byte :: rest =>
    if shift < width then
      -- the bits of `value` are all below `shift`
      let value := (value + byte.toNat % 128 * 2 ^ shift) % 2 ^ width
      if byte.toNat < 128 then (some value, 1)
      else
        let next := decodeLoop width (shift + 7) value rest
        (next.1, next.2 + 1)
    else (some value, 0)

/-- The unrolled loop: after the last byte there is room for it does not look further. -/
def decodeUnrolled (width : Nat) : (shift value : Nat) → List UInt8 → Option Nat × Nat
  | shift, value, [] => (if shift < width then none else some value, 0)
  | shift, value, byte :: rest =>
    if shift < width then
      let value := (value + byte.toNat % 128 * 2 ^ shift) % 2 ^ width
      if byte.toNat < 128 then (some value, 1)
      else
        let next := decodeUnrolled width (shift + 7) value rest
        (next.1, next.2 + 1)
    else (some value, 0)

/-- The unrolled loop is for narrow numbers with enough bytes ahead. -/
def decode (width : Nat) (bytes : List UInt8) : Option Nat × Nat :=
  if 32 < width ∨ bytes.length ≤ width / 8 + 1 then decodeLoop width 0 0 bytes
  else decodeUnrolled width 0 0 bytes

theorem toNat_ofNat_of_lt {n : Nat} (h : n < 256) : (UInt8.ofNat n).toNat = n := by
  simpa using h

/-- Whatever comes after them, the bytes of a number are read as that number. -/
theorem decodeLoop_encode {width : Nat} (k shift value n : Nat) (rest : List UInt8)
    (hn : n < 128 ^ k) (hshift : shift < width) (hk : 0 < k)
    (hfit : value + n * 2 ^ shift < 2 ^ width) :
    decodeLoop width shift value (encode k n ++ rest) = (some (value + n * 2 ^ shift), (encode k n).length) := by
  induction k generalizing shift value n with
  | zero => omega
  | succ k ih =>
    by_cases hl : n < 128
    · have hby : (UInt8.ofNat n).toNat = n := toNat_ofNat_of_lt (by omega)
      simp only [encode, if_pos hl, singleton_append, decodeLoop, hshift, ↓reduceIte, hby,
        Nat.mod_eq_of_lt hl, Nat.mod_eq_of_lt hfit, length_singleton]
    · have hby : (UInt8.ofNat (n % 128 + 128)).toNat = n % 128 + 128 := toNat_ofNat_of_lt (by omega)
      have hlow : (n % 128 + 128) % 128 = n % 128 := by omega
      have hsp : n % 128 * 2 ^ shift + n / 128 * 2 ^ (shift + 7) = n * 2 ^ shift := by
        calc n % 128 * 2 ^ shift + n / 128 * 2 ^ (shift + 7)
            = (n % 128 + 128 * (n / 128)) * 2 ^ shift := by rw [pow_add]; ring
          _ = n * 2 ^ shift := by rw [Nat.mod_add_div]
      have hh : 2 ^ (shift + 7) ≤ n / 128 * 2 ^ (shift + 7) :=
        Nat.le_mul_of_pos_left _ (Nat.div_pos (by omega) (by omega))
      have hnext : shift + 7 < width :=
        (Nat.pow_lt_pow_iff_right Nat.one_lt_two).mp (show 2 ^ (shift + 7) < 2 ^ width by omega)
      have hpow : n / 128 < 128 ^ k := by
        rw [pow_succ] at hn
        exact Nat.div_lt_of_lt_mul (by omega)
      have hk' : 0 < k := by
        rcases k with - | k
        · simp at hpow
          omega
        · omega
      have hva : value + n % 128 * 2 ^ shift < 2 ^ width := by omega
      simp only [encode, if_neg hl, cons_append, decodeLoop, hshift, ↓reduceIte, hby, hlow,
        Nat.mod_eq_of_lt hva, length_cons]
      rw [if_neg (by omega), ih (shift + 7) _ _ hpow hnext hk' (by omega), ← hsp, add_assoc]

/-- The loop looks one byte past a number that fills its width, so the two agree when there
is such a byte. -/
theorem decodeUnrolled_eq (width shift value : Nat) (bytes : List UInt8) (hne : bytes ≠ [])
    (hlen : width + 7 ≤ shift + 7 * bytes.length) :
    decodeUnrolled width shift value bytes = decodeLoop width shift value bytes := by
  induction bytes generalizing shift value with
  | nil => exact absurd rfl hne
  | cons byte rest ih =>
    by_cases hshift : shift < width
    · simp only [length_cons] at hlen
      have hrest : rest ≠ [] := by
        rintro rfl
        simp at hlen
        omega
      simp only [decodeUnrolled, decodeLoop, hshift, ↓reduceIte]
      rw [ih (shift + 7) _ hrest (by omega)]
    · simp only [decodeUnrolled, decodeLoop, hshift, ↓reduceIte]

/-- The widths that are read: bytes, 32 bits and 64 bits. -/
def Width (width : Nat) : Prop := width = 8 ∨ width = 32 ∨ width = 64

/-- Whole bytes are read the same way, however many there are. -/
theorem decode_eq_loop {width : Nat} (h : 8 ∣ width) (bytes : List UInt8) :
    decode width bytes = decodeLoop width 0 0 bytes := by
  rw [decode]
  split
  · rfl
  · next h =>
    push Not at h
    exact decodeUnrolled_eq _ 0 0 bytes (ne_nil_of_length_pos (by omega)) (by omega)

theorem lt_pow_limit {width n : Nat} (hn : n < 2 ^ width) : n < 128 ^ limit width := by
  rw [show 128 = 2 ^ 7 from rfl, ← pow_mul, limit]
  exact hn.trans_le (Nat.pow_le_pow_right (by decide) (by omega))

theorem decode_encode {width n : Nat} (h : 8 ∣ width) (hpos : 0 < width) (hn : n < 2 ^ width) (rest : List UInt8) :
    decode width (encode (limit width) n ++ rest) = (some n, (encode (limit width) n).length) := by
  have hloop := decodeLoop_encode (limit width) 0 0 n rest (lt_pow_limit hn) hpos (Nat.succ_pos _) (by simpa using hn)
  rw [decode_eq_loop h, hloop]
  simp

theorem decodeLoop_isSome (width shift value : Nat) (bytes : List UInt8) : (decodeLoop width shift value bytes).1.isSome ↔
      (∃ byte ∈ bytes.take ((width - shift + 6) / 7), byte.toNat < 128) ∨ (width - shift + 6) / 7 < bytes.length := by
  induction bytes generalizing shift value with
  | nil => simp [decodeLoop]
  | cons byte rest ih =>
    by_cases hshift : shift < width
    · have hk : (width - shift + 6) / 7 = (width - (shift + 7) + 6) / 7 + 1 := by omega
      simp only [decodeLoop, hshift, ↓reduceIte, hk, take_succ_cons, length_cons, exists_mem_cons_iff]
      by_cases hby : byte.toNat < 128
      · simp [hby]
      · simp only [hby, ↓reduceIte, ih, false_or, add_lt_add_iff_right]
    · simp [decodeLoop, hshift]
      omega

end Varint

/-! ### Zigzag -/

namespace ZigZag

/-- 0, -1, 1, -2, … as 0, 1, 2, 3, …, in 32 bits. -/
def encode (value : Int) : Nat :=
  (BitVec.ofInt 32 value <<< 1 ^^^ (BitVec.ofInt 32 value).sshiftRight 31).toNat

def decode (value : Nat) : Int :=
  ((BitVec.ofNat 32 value >>> 1) ^^^ -(BitVec.ofNat 32 value &&& 1#32)).toInt

theorem encode_lt (value : Int) : encode value < 2 ^ 32 := BitVec.isLt _

/-- The sign, in every bit. -/
theorem sshiftRight_last {w : Nat} (x : BitVec (w + 1)) :
    x.sshiftRight w = if x.msb then BitVec.allOnes (w + 1) else 0#(w + 1) := by
  apply BitVec.eq_of_getLsbD_eq
  intro i hi
  rw [BitVec.getLsbD_sshiftRight]
  have hbit : (if w + i < w + 1 then x.getLsbD (w + i) else x.msb) = x.msb := by
    split
    · rw [BitVec.msb_eq_getLsbD_last, show w + i = w by omega, Nat.add_sub_cancel]
    · rfl
  rw [hbit]
  cases x.msb <;> simp [Nat.le_of_lt_succ hi, -BitVec.reduceAllOnes]

theorem unzig {w : Nat} (x : BitVec (w + 1)) :
    ((x <<< 1 ^^^ x.sshiftRight w) >>> 1) ^^^ -((x <<< 1 ^^^ x.sshiftRight w) &&& 1#(w + 1)) = x := by
  have hlow : -((x <<< 1 ^^^ x.sshiftRight w) &&& 1#(w + 1)) = if x.msb then BitVec.allOnes (w + 1) else 0#(w + 1) := by
    have hbit : (x <<< 1 ^^^ x.sshiftRight w) &&& 1#(w + 1) = if x.msb then 1#(w + 1) else 0#(w + 1) := by
      apply BitVec.eq_of_getLsbD_eq
      intro i hi
      rw [sshiftRight_last]
      rcases eq_zero_or_pos i with rfl | hpos
      · cases x.msb <;> simp
      · cases x.msb <;> simp [BitVec.getLsbD_one, hpos.ne']
    rw [hbit]
    cases x.msb <;> simp [BitVec.neg_one_eq_allOnes, -BitVec.reduceAllOnes]
  rw [hlow, sshiftRight_last]
  apply BitVec.eq_of_getLsbD_eq
  intro i hi
  by_cases hl : i = w
  · have hmsb : x.getLsbD i = x.msb := by rw [BitVec.msb_eq_getLsbD_last, hl, Nat.add_sub_cancel]
    rw [hmsb]
    cases x.msb <;> simp [hl]
  · cases x.msb <;> simp [show 1 + i < w + 1 by omega, hi, -BitVec.reduceAllOnes]

theorem decode_encode {value : Int} (hlow : -2 ^ 31 ≤ value) (hh : value < 2 ^ 31) : decode (encode value) = value := by
  rw [decode, encode, BitVec.ofNat_toNat, BitVec.setWidth_eq, unzig (w := 31), BitVec.toInt_ofInt]
  exact Int.bmod_eq_of_le hlow hh

end ZigZag

/-! ### Little endian -/

/-- The `k` low bytes, the least significant first. -/
def littleEndian : (k value : Nat) → List UInt8
  | 0, _ => []
  | k + 1, value => UInt8.ofNat value :: littleEndian k (value / 256)

def ofLittleEndian : List UInt8 → Nat
  | [] => 0
  | byte :: rest => byte.toNat + 256 * ofLittleEndian rest

/-- So many numbers of `k` bytes each; a last one that is cut short has zeros on top. -/
def unpack (k : Nat) : (count : Nat) → List UInt8 → List Nat
  | 0, _ => []
  | count + 1, bytes => ofLittleEndian (bytes.take k) :: unpack k count (bytes.drop k)

@[simp] theorem length_littleEndian (k value : Nat) : (littleEndian k value).length = k := by
  induction k generalizing value with
  | zero => rfl
  | succ k ih => simp [littleEndian, ih]

theorem ofLittleEndian_littleEndian {k value : Nat} (h : value < 256 ^ k) :
    ofLittleEndian (littleEndian k value) = value := by
  induction k generalizing value with
  | zero =>
    simp at h
    simp [littleEndian, ofLittleEndian, h]
  | succ k ih =>
    have hdiv : value / 256 < 256 ^ k := Nat.div_lt_of_lt_mul (by rw [pow_succ] at h; omega)
    simp only [littleEndian, ofLittleEndian, ih hdiv, UInt8.toNat_ofNat']
    omega

theorem length_flatMap_littleEndian (k : Nat) (values : List Nat) :
    (values.flatMap (littleEndian k)).length = k * values.length := by
  induction values with
  | nil => simp
  | cons v rest ih => simp [ih, mul_add, add_comm]

theorem unpack_flatMap (k : Nat) (values : List Nat) (h : ∀ v ∈ values, v < 256 ^ k) :
    unpack k values.length (values.flatMap (littleEndian k)) = values := by
  induction values with
  | nil => rfl
  | cons v rest ih =>
    have hv := ofLittleEndian_littleEndian (h v (mem_cons_self ..))
    have hrest := ih fun x hx => h x (mem_cons_of_mem v hx)
    simp [unpack, flatMap_cons, hv, hrest]

end V8Multithread.Base
