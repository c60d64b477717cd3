import V8Multithread.Bigint.VectorArithmetic

/-! Karatsuba multiplication. -/
namespace V8Multithread.Bigint
open Base.Limbs Digits
open Nat (shiftRight_one two_pow_pos pow_le_pow_right mod_lt succ_mul)

variable {t : Target}

def kKaratsubaThreshold : Nat := 34

/-! ### Lengths -/

def bitLength (n : Nat) : Nat := Nat.size n

/-- How many low bits `RoundUpLen` clears. -/
def roundUpShift (len : Nat) : Nat :=
  let shift := bitLength len - 5
  if 0x18 ≤ len >>> shift then shift + 1 else shift

def roundUpLen (len : Nat) : Nat :=
  if len ≤ 36 then (len + 1) / 2 * 2
  else
    let shift := roundUpShift len
    let additive := (1 <<< shift) - 1
    if 2 ≤ shift ∧ len &&& additive < 1 <<< (shift - 2) then len
    else ((len + additive) >>> shift) <<< shift

/-- The loop of `KaratsubaLength`. -/
def halveLength (n i : Nat) : Nat :=
  if kKaratsubaThreshold < n then halveLength (n >>> 1) (i + 1) else n <<< i
termination_by n
decreasing_by
  rw [shiftRight_one]
  simp only [kKaratsubaThreshold] at *
  omega

def karatsubaLength (n : Nat) : Nat := halveLength (roundUpLen n) 0

/-! ### The multiplication -/

def karatsubaSubtractionHelper (result X Y : Digits) (sign : Int) (m : Memory t) : Option (Memory t × Int) := do
  let X := X.normalize m
  let Y := Y.normalize m
  if greaterThanOrEqual X Y m then
    let m ← subtractLoops result X Y m
    return (m, sign)
  let m ← subtractLoops result Y X m
  return (m, -sign)

/-- `for (uint32_t i = 0; i < count; i++) Z[i] = P[i]`. -/
def copyDigits (Z P : Digits) (count : Nat) (m : Memory t) : Memory t :=
  (sweep Z.start (fun m i c => (P.get m i, c)) 0 count (m, ())).1

/-- `KaratsubaMain` for a length that is not halved. -/
def karatsubaLeaf (Z X Y : Digits) (n : Nat) (m : Memory t) : Option (Memory t) :=
  let X := X.normalize m
  let Y := Y.normalize m
  if Y.len ≤ X.len then multiplySchoolbook (Z.slice 0 (2 * n)) X Y m else multiplySchoolbook (Z.slice 0 (2 * n)) Y X m

section
variable (recurse : Digits → Digits → Digits → Memory t → Option (Memory t)) (Z X Y scratch : Digits) (n : Nat)

/-- The products of the low and of the high halves are put in their places. -/
def karatsubaProducts (m : Memory t) : Option (Memory t) := do
  let n2 := n >>> 1
  let P0 := scratch.slice 0 n
  let m ← recurse P0 (X.slice 0 n2) (Y.slice 0 n2) m
  let m := copyDigits Z P0 n m
  let P2 := scratch.slice n n
  let m ← recurse P2 (X.slice n2 n2) (Y.slice n2 n2) m
  let Z2 := Z.drop n
  let last := min Z2.len P2.len
  let m := copyDigits Z2 P2 last m
  dcheck (∀ i < n, last ≤ i → (P2.get m i : Nat) = 0)
  return m

/-- The product of the differences of the halves, and its sign. -/
def karatsubaDifferences (m : Memory t) : Option (Memory t × Int) := do
  let n2 := n >>> 1
  let xDiff := scratch.slice 0 n2
  let yDiff := scratch.slice n2 n2
  let (m, sign) ← karatsubaSubtractionHelper xDiff (X.slice n2 n2) (X.slice 0 n2) 1 m
  let (m, sign) ← karatsubaSubtractionHelper yDiff (Y.slice 0 n2) (Y.slice n2 n2) sign m
  let m ← recurse (scratch.slice n n) xDiff yDiff m
  return (m, sign)

def karatsubaCorrect (sign : Int) (overflow : Digit t) (m : Memory t) : Option (Memory t × Digit t) := do
  let P1 := scratch.slice n n
  if 0 < sign then
    let (m, c) ← addAndReturnOverflow (Z.drop (n >>> 1)) P1 m
    return (m, overflow + c)
  let (m, c) ← subAndReturnBorrow (Z.drop (n >>> 1)) P1 m
  return (m, overflow - c)

/-- All that is added up, and what is carried out of it. -/
def karatsubaSum (m : Memory t) : Option (Memory t × Digit t) := do
  let n2 := n >>> 1
  let m ← karatsubaProducts recurse Z X Y scratch n m
  let (m, overflow) ← addAndReturnOverflow (Z.drop n2) (scratch.slice 0 n) m
  let (m, c) ← addAndReturnOverflow (Z.drop n2) (scratch.slice n n) m
  let overflow := overflow + c
  let (m, sign) ← karatsubaDifferences recurse X Y scratch n m
  karatsubaCorrect Z scratch n sign overflow m

/-- `KaratsubaMain` for a length that is halved. -/
def karatsubaStep (m : Memory t) : Option (Memory t) := do
  dcheck (4 * n ≤ scratch.len)
  dcheck (n &&& 1 = 0)
  let (m, overflow) ← karatsubaSum recurse Z X Y scratch n m
  dcheck (overflow = 0)
  return m

end

def karatsubaMain (Z X Y scratch : Digits) (n : Nat) (m : Memory t) : Option (Memory t) :=
  if n < kKaratsubaThreshold then karatsubaLeaf Z X Y n m
  else karatsubaStep (fun Z X Y m => karatsubaMain Z X Y (scratch.slice (2 * n) (2 * n)) (n >>> 1) m) Z X Y scratch n m
termination_by n
decreasing_by
  rw [shiftRight_one]
  simp only [kKaratsubaThreshold] at *
  omega

section
variable (chunk : Digits → Digits → Digits → Memory t → Option (Memory t)) (free : Nat) (Z X Y : Digits) (k : Nat)

/-- A round of the loop of `KaratsubaStart`. -/
def karatsubaRound (i : Nat) (m : Memory t) : Option (Memory t) := do
  let T := scratchDigits free (2 * k)
  let Y1 := Y.drop (min k Y.len)
  let m ← chunk T (X.slice i k) (Y.slice 0 k) m
  let (m, _) ← addAndReturnOverflow (Z.drop i) T m
  if 0 < Y1.len then
    let m ← chunk T (X.slice i k) Y1 m
    let (m, _) ← addAndReturnOverflow (Z.drop (i + k)) T m
    return m
  return m

/-- The rounds for `i = k`, `2 * k`, …, `count * k`. -/
def karatsubaRounds : (count : Nat) → Memory t → Option (Memory t)
  | 0, m => some m
  | count + 1, m => do
    let m ← karatsubaRounds count m
    karatsubaRound chunk free Z X Y k ((count + 1) * k) m

/-- The part of `KaratsubaStart` for factors of unequal lengths. -/
def karatsubaChunks (m : Memory t) : Option (Memory t) := do
  let T := scratchDigits free (2 * k)
  let Y1 := Y.drop (min k Y.len)
  if 0 < Y1.len then
    let m ← chunk T (X.slice 0 k) Y1 m
    let (m, _) ← addAndReturnOverflow (Z.drop k) T m
    karatsubaRounds chunk free Z X Y k ((X.len - 1) / k) m
  else karatsubaRounds chunk free Z X Y k ((X.len - 1) / k) m

def karatsubaStart (scratch : Digits) (m : Memory t) : Option (Memory t) := do
  let m ← karatsubaMain Z X Y scratch k m
  let m := Z.clearFrom (2 * k) m
  if k < Y.len ∨ X.len ≠ Y.len then karatsubaChunks chunk free Z X Y k m else return m

end

/-- `KaratsubaChunk` and `KaratsubaStart` call each other; `fuel` bounds how often. -/
def karatsubaChunk (scratch : Digits) : (fuel : Nat) → (free : Nat) → (Z X Y : Digits) → Memory t → Option (Memory t)
  | 0, _, _, _, _, _ => none
  | fuel + 1, free, Z, X, Y, m => do
    let X := X.normalize m
    let Y := Y.normalize m
    if X.len = 0 ∨ Y.len = 0 then return Z.clear m
    let (X, Y) := if X.len < Y.len then (Y, X) else (X, Y)
    if Y.len = 1 then multiplySingle Z X (Y.get m 0) m
    else if Y.len < kKaratsubaThreshold then multiplySchoolbook Z X Y m
    else do
      let k := karatsubaLength Y.len
      dcheck (4 * k ≤ scratch.len)
      karatsubaStart (karatsubaChunk scratch fuel (free + 2 * k)) free Z X Y k scratch m

def multiplyKaratsuba (free : Nat) (Z X Y : Digits) (m : Memory t) : Option (Memory t) := do
  dcheck (Y.len ≤ X.len)
  dcheck (kKaratsubaThreshold ≤ Y.len)
  dcheck (X.len + Y.len ≤ Z.len)
  let k := karatsubaLength Y.len
  let scratch := scratchDigits free (4 * k)
  karatsubaStart (karatsubaChunk scratch (X.len + Y.len) (free + 4 * k + 2 * k)) (free + 4 * k) Z X Y k scratch m

/-! ### The lengths that are taken -/

/-- A length that can be halved down to one that is multiplied by the schoolbook method. -/
inductive Halvable : Nat → Prop where
  | small {n : Nat} (h : n < kKaratsubaThreshold) : Halvable n
  | even {n : Nat} (h : Halvable n) : Halvable (2 * n)

theorem halveLength_spec (n i : Nat) :
    ∃ j, halveLength n i = n / 2 ^ j * 2 ^ (i + j) ∧ n / 2 ^ j ≤ 34 ∧ (j = 0 ∨ 34 < n / 2 ^ (j - 1)) := by
  induction n, i using halveLength.induct with
  | case1 n i hlt ih =>
    obtain ⟨j, heq, hle, hl⟩ := ih
    rw [shiftRight_one, Nat.div_div_eq_div_mul, ← pow_succ'] at heq hle
    refine ⟨j + 1, ?_, hle, .inr ?_⟩
    · rw [halveLength, if_pos hlt, shiftRight_one, heq]
      congr 2
      omega
    · rw [Nat.add_sub_cancel]
      rcases hl with hzero | hgt
      · rw [hzero, pow_zero, Nat.div_one]
        exact hlt
      · cases j with
        | zero => simpa [kKaratsubaThreshold] using hlt
        | succ j =>
          rw [Nat.add_sub_cancel, shiftRight_one, Nat.div_div_eq_div_mul, ← pow_succ'] at hgt
          exact hgt
  | case2 n i hle =>
    refine ⟨0, ?_, ?_, .inl rfl⟩
    · rw [halveLength, if_neg hle, Nat.shiftLeft_eq, pow_zero, Nat.div_one, add_zero]
    · simpa [kKaratsubaThreshold] using hle

variable {c : Nat} {run : Digits → Digits → Digits → Memory t → Option (Memory t)}

/-- Powers of two are cleared as long as what is left is above the threshold. -/
theorem halveLength_eq {s r : Nat} (hc : c ≤ 34) (hr : r = 0 ∨ 2 ≤ s ∧ 9 ≤ c ∧ r < 2 ^ (s - 2)) :
    halveLength (c * 2 ^ s + r) 0 = c * 2 ^ s := by
  obtain ⟨j, heq, hle, hl⟩ := halveLength_spec (c * 2 ^ s + r) 0
  have hrlt : r < 2 ^ s := by
    rcases hr with hzero | ⟨_, _, hlt⟩
    · rw [hzero]
      exact two_pow_pos s
    · exact hlt.trans_le (pow_le_pow_right (by decide) (Nat.sub_le _ _))
  have hdiv : (c * 2 ^ s + r) / 2 ^ s = c := by
    rw [mul_comm, Nat.mul_add_div (two_pow_pos s), Nat.div_eq_of_lt hrlt, add_zero]
  -- No more than `s` bits are cleared: that is enough to be at the threshold.
  have hj : j ≤ s := by
    by_contra hlt
    have hmo : (c * 2 ^ s + r) / 2 ^ (j - 1) ≤ (c * 2 ^ s + r) / 2 ^ s :=
      Nat.div_le_div_left (pow_le_pow_right (by decide) (by omega)) (two_pow_pos s)
    omega
  rw [heq, zero_add]
  have hsp : c * 2 ^ s = c * 2 ^ (s - j) * 2 ^ j := by
    rw [mul_assoc, ← pow_add, Nat.sub_add_cancel hj]
  -- The low bits that are left over, if any, are among those cleared.
  have hlow : r < 2 ^ j := by
    rcases hr with hzero | ⟨hs, hc', hlt⟩
    · rw [hzero]
      exact two_pow_pos j
    · refine hlt.trans_le (pow_le_pow_right (by decide) ?_)
      by_contra hles
      have hlarge : c * 2 ^ (s - j) ≤ 34 := by
        refine le_trans ?_ hle
        rw [Nat.le_div_iff_mul_le (two_pow_pos j), ← hsp]
        exact Nat.le_add_right _ _
      have hpow : 2 ^ 2 ≤ 2 ^ (s - j) := pow_le_pow_right (by decide) (by omega)
      have := Nat.mul_le_mul hc' hpow
      omega
  rw [hsp, add_comm, Nat.add_mul_div_right _ _ (two_pow_pos j), Nat.div_eq_of_lt hlow, zero_add]

variable {len : Nat} {m m' : Memory t}

/-- A length above 36 is rounded to a multiple of a power of two that keeps four or five bits of it. -/
theorem roundUpShift_spec (h : 36 < len) :
    1 ≤ roundUpShift len ∧ 12 ≤ len / 2 ^ roundUpShift len ∧ len / 2 ^ roundUpShift len < 24 := by
  have hsize : 6 ≤ bitLength len := Nat.lt_size.mpr (by omega)
  have hlt : len < 2 ^ bitLength len := Nat.lt_size_self len
  have hge : 2 ^ (bitLength len - 1) ≤ len := Nat.lt_size.mp (by rw [bitLength] at hsize ⊢; omega)
  obtain ⟨s, hs⟩ : ∃ s, bitLength len = s + 5 := ⟨bitLength len - 5, by omega⟩
  rw [hs] at hlt hge
  have hlow : 16 ≤ len / 2 ^ s := by
    rw [Nat.le_div_iff_mul_le (two_pow_pos s)]
    refine le_trans (le_of_eq ?_) hge
    rw [show s + 5 - 1 = 4 + s by omega, pow_add]
    norm_num
  have hh : len / 2 ^ s < 32 := by
    rw [Nat.div_lt_iff_lt_mul (two_pow_pos s)]
    refine lt_of_lt_of_le hlt (le_of_eq ?_)
    rw [add_comm, pow_add]
    norm_num
  rw [roundUpShift, hs, Nat.add_sub_cancel, Nat.shiftRight_eq_div_pow]
  split
  · next hlarge =>
    rw [pow_succ, ← Nat.div_div_eq_div_mul]
    omega
  · omega

/-- What is taken for a length: the next multiple of a power of two, unless the one before is close. -/
structure Taken (len s c : Nat) : Prop where
  pos : 1 ≤ s
  ge : 12 ≤ c
  le : c ≤ 24
  eq : karatsubaLength len = c * 2 ^ s
  floor : 12 * 2 ^ s ≤ len
  lt_add : c * 2 ^ s < len + 2 ^ s
  lt : len < c * 2 ^ s + 2 ^ s
  close : c * 2 ^ s < len → 2 ≤ s

theorem karatsubaLength_taken (h : 34 ≤ len) : ∃ s c, Taken len s c := by
  rcases lt_or_ge 36 len with hlarge | hsm
  · obtain ⟨hs, hlow, hhi⟩ := roundUpShift_spec hlarge
    set s := roundUpShift len with hseq
    have hpos : 0 < 2 ^ s := two_pow_pos s
    have hdiv := Nat.div_add_mod len (2 ^ s)
    rw [mul_comm] at hdiv
    have hfl : 12 * 2 ^ s ≤ len := (Nat.mul_le_mul_right _ hlow).trans (Nat.div_mul_le_self len _)
    have hround : karatsubaLength len = halveLength (if 2 ≤ s ∧ len % 2 ^ s < 2 ^ (s - 2) then len
        else (len + (2 ^ s - 1)) / 2 ^ s * 2 ^ s) 0 := by
      rw [karatsubaLength, roundUpLen, if_neg (by omega), ← hseq]
      dsimp only
      rw [Nat.one_shiftLeft, Nat.and_two_pow_sub_one_eq_mod, Nat.one_shiftLeft, Nat.shiftRight_eq_div_pow, Nat.shiftLeft_eq]
    by_cases hcl : 2 ≤ s ∧ len % 2 ^ s < 2 ^ (s - 2)
    · rw [if_pos hcl] at hround
      have heq := @halveLength_eq (len / 2 ^ s) s (len % 2 ^ s) (by omega) (.inr ⟨hcl.1, by omega, hcl.2⟩)
      rw [hdiv] at heq
      exact ⟨s, len / 2 ^ s, hs, hlow, by omega, hround.trans heq, hfl, by omega, by omega, fun _ => hcl.1⟩
    · rw [if_neg hcl] at hround
      have hup := Nat.div_add_mod (len + (2 ^ s - 1)) (2 ^ s)
      rw [mul_comm] at hup
      have hle : (len + (2 ^ s - 1)) / 2 ^ s ≤ 24 := by
        refine Nat.le_of_lt_succ ((Nat.div_lt_iff_lt_mul hpos).mpr ?_)
        rw [Nat.div_lt_iff_lt_mul hpos] at hhi
        omega
      have heq := @halveLength_eq ((len + (2 ^ s - 1)) / 2 ^ s) s 0 (by omega) (.inl rfl)
      refine ⟨s, (len + (2 ^ s - 1)) / 2 ^ s, hs, ?_, hle, hround.trans heq, hfl, by omega, by omega, by omega⟩
      exact hlow.trans (Nat.div_le_div_right (Nat.le_add_right _ _))
  · have hca : len = 34 ∨ len = 35 ∨ len = 36 := by omega
    have hh := fun c hc => @halveLength_eq c 1 0 hc (.inl rfl)
    rcases hca with rfl | rfl | rfl
    · exact ⟨1, 17, by decide, by decide, by decide, hh 17 (by decide), by decide, by decide, by decide, by decide⟩
    · exact ⟨1, 18, by decide, by decide, by decide, hh 18 (by decide), by decide, by decide, by decide, by decide⟩
    · exact ⟨1, 18, by decide, by decide, by decide, hh 18 (by decide), by decide, by decide, by decide, by decide⟩

theorem Halvable.mul_pow (h : Halvable c) (s : Nat) : Halvable (c * 2 ^ s) := by
  induction s with
  | zero => rwa [pow_zero, mul_one]
  | succ s ih =>
    rw [pow_succ', mul_left_comm]
    exact .even ih

/-- The length that is taken can be halved down to the schoolbook method. -/
theorem karatsubaLength_halvable (h : 34 ≤ len) : Halvable (karatsubaLength len) := by
  obtain ⟨s, c, hta⟩ := karatsubaLength_taken h
  have hle := hta.le
  rw [hta.eq]
  exact (Halvable.small (by rw [kKaratsubaThreshold]; omega)).mul_pow s

theorem le_karatsubaLength (h : 34 ≤ len) : 34 ≤ karatsubaLength len := by
  obtain ⟨s, c, hta⟩ := karatsubaLength_taken h
  rw [hta.eq]
  by_contra hlt
  have hpow : 2 ^ 2 ≤ 2 ^ s := pow_le_pow_right (by decide) (hta.close (by omega))
  have := Nat.mul_le_mul hta.ge hpow
  omega

/-- It is not much larger than the length. -/
theorem karatsubaLength_le (h : 34 ≤ len) : 3 * karatsubaLength len ≤ 4 * len := by
  obtain ⟨s, c, hta⟩ := karatsubaLength_taken h
  have hfl := hta.floor
  have hlt := hta.lt_add
  rw [hta.eq]
  omega

theorem le_two_karatsubaLength (h : 34 ≤ len) : len ≤ 2 * karatsubaLength len := by
  obtain ⟨s, c, hta⟩ := karatsubaLength_taken h
  have hfl := hta.floor
  have hlt := hta.lt
  rw [hta.eq]
  omega

/-- Of all lengths up to one that is taken, none is taken to be larger. -/
theorem karatsubaLength_mono {len' : Nat} (h : 34 ≤ len) (h' : 34 ≤ len') (hle : len' ≤ karatsubaLength len) :
    karatsubaLength len' ≤ karatsubaLength len := by
  obtain ⟨s, c, hta⟩ := karatsubaLength_taken h
  obtain ⟨s', c', ht'⟩ := karatsubaLength_taken h'
  have hfl := ht'.floor
  have hlt := ht'.lt_add
  have hc := hta.le
  rw [hta.eq] at hle ⊢
  rw [ht'.eq]
  -- The length that is taken is a multiple of the power of two that the other is rounded to.
  have hdvd : 2 ^ s' ∣ c * 2 ^ s := by
    rcases lt_or_ge s s' with hl | hge
    · have hpow : 2 ^ (s + 1) ≤ 2 ^ s' := pow_le_pow_right (by decide) hl
      rw [pow_succ] at hpow
      have hc24 : c = 24 := by
        by_contra hne
        have hl : c * 2 ^ s ≤ 23 * 2 ^ s := Nat.mul_le_mul_right _ (by omega)
        have := two_pow_pos s
        omega
      have hs : s' = s + 1 := by
        by_contra hne
        have hpow' : 2 ^ (s + 2) ≤ 2 ^ s' := pow_le_pow_right (by decide) (by omega)
        have := two_pow_pos s
        rw [pow_add] at hpow'
        rw [hc24] at hle
        omega
      rw [hc24, hs, pow_succ]
      exact ⟨12, by ring⟩
    · exact (pow_dvd_pow 2 hge).mul_left c
  obtain ⟨e, he⟩ := hdvd
  rw [he, mul_comm (2 ^ s') e]
  refine Nat.mul_le_mul_right _ ?_
  by_contra hgt
  have hmul : (e + 1) * 2 ^ s' ≤ c' * 2 ^ s' := Nat.mul_le_mul_right _ (by omega)
  rw [add_mul, one_mul, mul_comm e, ← he] at hmul
  omega

/-! ### A step -/

section
variable {Z P : Digits} {m : Memory t}

theorem copyDigits_spec {count : Nat} (hP : P.Ahead Z) (hco : count ≤ P.len) :
    Changes (Within Z.start count) m (copyDigits Z P count m) ∧
      value (copyDigits Z P count m) Z.start count = value m P.start count := by
  have hst : Swept Z.start m (fun _ : Unit => True) (fun _ => 0) (fun i => value m P.start i) 0 (m, ()) :=
    .start trivial (by simp)
  have hsw := hst.sweep (fun m i c => (P.get m i, c)) count (fun i => (P.get m i : Nat))
    fun i m' c _ hi hch _ => by
      rw [hP.get hch (by omega), value_succ]
      refine ⟨trivial, by simp, ?_⟩
      push_cast
      rfl
  rw [zero_add] at hsw
  obtain ⟨hch, -, hva⟩ := hsw
  rw [mul_zero, add_zero] at hva
  exact ⟨hch, Int.ofNat_inj.mp hva⟩

/-- A number is copied into a vector that has room for it, though it may not have as many digits. -/
theorem copyDigits_fits {last : Nat} (hP : P.Apart Z) (hl : last = min Z.len P.len) (hfit : P.value m < t.base ^ last) :
    Changes (Z.slice 0 last).Has m (copyDigits Z P last m) ∧ (Z.slice 0 last).value (copyDigits Z P last m) = P.value m ∧
      ∀ i < P.len, last ≤ i → (P.get (copyDigits Z P last m) i : Nat) = 0 := by
  have hsl : Z.slice 0 last = ⟨Z.start, last⟩ := by
    rw [Digits.slice, Nat.min_eq_left (by omega)]
    rfl
  obtain ⟨hch, hco⟩ : Changes (Within Z.start last) m (copyDigits Z P last m) ∧
      value (copyDigits Z P last m) Z.start last = value m P.start last := by
    by_cases hzero : last = 0
    · rw [hzero]
      exact ⟨.refl _ _, rfl⟩
    · exact copyDigits_spec (hP.ahead_drop (by omega) (Nat.zero_le _)) (by omega)
  generalize copyDigits Z P last m = m' at *
  have hlen : P.len = last + (P.len - last) := by omega
  rw [Digits.value, hlen] at hfit
  obtain ⟨hh, hlow⟩ := high_eq_zero hfit
  rw [← hlen] at hlow
  rw [hsl]
  refine ⟨hch, hco.trans hlow.symm, fun i hi hge => ?_⟩
  rw [hP.get (by omega) hch hi, Digits.get, show i = last + (i - last) by omega, ← Nat.add_assoc]
  exact eq_zero_of_value t.base_pos hh (by omega)

theorem karatsubaSubtractionHelper_spec {result X Y : Digits} {sign : Int} (hX : X.Apart result) (hY : Y.Apart result)
    (hXl : X.len ≤ result.len) (hYl : Y.len ≤ result.len) (hsi : sign = 1 ∨ sign = -1) :
    ∃ m' sign', karatsubaSubtractionHelper result X Y sign m = some (m', sign') ∧ (sign' = 1 ∨ sign' = -1) ∧
      Changes result.Has m m' ∧ sign' * result.value m' = sign * ((X.value m : ℤ) - Y.value m) := by
  have hXn := X.normalize_isDigitNormalized m
  have hYn := Y.normalize_isDigitNormalized m
  have hXle := X.normalize_len_le m
  have hYle := Y.normalize_len_le m
  rw [← X.normalize_value m, ← Y.normalize_value m]
  have hXa := (hX.ahead hXl).normalize (m := m)
  have hYa := (hY.ahead hYl).normalize (m := m)
  rw [karatsubaSubtractionHelper]
  generalize X.normalize m = X at *
  generalize Y.normalize m = Y at *
  by_cases hge : greaterThanOrEqual X Y m
  · have hle := greaterThanOrEqual_iff.mp hge
    have hlen : Y.len ≤ X.len := len_le_of_value_lt hYn (hle.trans_lt (X.value_lt m))
    obtain ⟨m', hrun, hch, hva⟩ := subtractLoops_spec hlen (by omega) hXa hYa hle
    refine ⟨m', sign, by rw [if_pos hge, hrun]; rfl, hsi, hch, ?_⟩
    rw [hva]
    push_cast [hle]
    ring
  · have hlt : X.value m < Y.value m := by
      by_contra hle
      exact hge (greaterThanOrEqual_iff.mpr (by omega))
    have hlen : X.len ≤ Y.len := len_le_of_value_lt hXn (hlt.trans (Y.value_lt m))
    obtain ⟨m', hrun, hch, hva⟩ := subtractLoops_spec hlen (by omega) hYa hXa hlt.le
    refine ⟨m', -sign, by rw [if_neg hge, hrun]; rfl, by omega, hch, ?_⟩
    rw [hva]
    push_cast [hlt.le]
    ring

end

/-- What `KaratsubaMain` does with the low `n` digits of its factors, if it may use `scratch`. -/
def MultipliesLow (run : Digits → Digits → Digits → Memory t → Option (Memory t)) (scratch : Digits) (n : Nat) : Prop :=
  ∀ Z X Y m, (n < kKaratsubaThreshold → X.len ≤ n ∧ Y.len ≤ n) → min n X.len + min n Y.len ≤ Z.len → 3 * n ≤ 2 * Z.len →
    X.Apart Z → Y.Apart Z → X.Apart scratch → Y.Apart scratch → Z.Apart scratch →
    ∃ m', run Z X Y m = some m' ∧ Changes (fun a => Z.Has a ∨ scratch.Has a) m m' ∧
      value m' Z.start (min Z.len (2 * n)) = X.low m n * Y.low m n

theorem MultipliesLow.halves {scratch : Digits}
    {n : Nat} (h : MultipliesLow run scratch n) {Z X Y : Digits} (hX : X.len ≤ n) (hY : Y.len ≤ n)
    (hZ : Z.len = 2 * n) (hXZ : X.Apart Z) (hYZ : Y.Apart Z) (hXs : X.Apart scratch)
    (hYs : Y.Apart scratch) (hZs : Z.Apart scratch) :
    ∃ m', run Z X Y m = some m' ∧ Changes (fun a => Z.Has a ∨ scratch.Has a) m m' ∧ Z.value m' = X.value m * Y.value m := by
  obtain ⟨m', hrun, hch, hva⟩ := h Z X Y m (fun _ => ⟨hX, hY⟩) (by omega) (by omega) hXZ hYZ hXs hYs
    hZs
  refine ⟨m', hrun, hch, ?_⟩
  rw [← hZ, min_self, X.low_of_ge m hX, Y.low_of_ge m hY] at hva
  exact hva

theorem karatsubaLeaf_spec {n : Nat} (hn : n < kKaratsubaThreshold) (scratch : Digits) :
    MultipliesLow (t := t) (fun Z X Y m => karatsubaLeaf Z X Y n m) scratch n := by
  intro Z X Y m hsm hfit _ hXZ hYZ _ _ _
  obtain ⟨hX, hY⟩ := hsm hn
  have hba := t.base_ge
  have hXle := X.normalize_len_le m
  have hYle := Y.normalize_len_le m
  have hap : ∀ {W : Digits}, W.Apart Z → (W.normalize m).Apart (Z.slice 0 (2 * n)) :=
    fun hW => (hW.normalize.symm.slice _ _).symm
  have hZ : ∀ m' : Memory t, (Z.slice 0 (2 * n)).value m' = value m' Z.start (min Z.len (2 * n)) := by
    intro m'
    rw [value_slice_zero, low, min_comm]
  have hcha : ∀ {m'}, Changes (Z.slice 0 (2 * n)).Has m m' → Changes (fun a => Z.Has a ∨ scratch.Has a) m m' :=
    fun h => h.mono fun a ha => .inl (slice_has ha)
  rw [kKaratsubaThreshold] at hn
  rw [X.low_of_ge m hX, Y.low_of_ge m hY, ← X.normalize_value m, ← Y.normalize_value m]
  by_cases hlen : (Y.normalize m).len ≤ (X.normalize m).len
  · obtain ⟨m', hrun, hch, hva⟩ := multiplySchoolbook_spec (Z := Z.slice 0 (2 * n)) (X.normalize_isDigitNormalized m)
      (Y.normalize_isDigitNormalized m) hlen (by rw [Digits.slice_len]; omega) (hap hXZ) (hap hYZ) (by omega)
    exact ⟨m', (if_pos hlen).trans hrun, hcha hch, by rw [← hZ, hva]⟩
  · obtain ⟨m', hrun, hch, hva⟩ := multiplySchoolbook_spec (Z := Z.slice 0 (2 * n)) (Y.normalize_isDigitNormalized m)
      (X.normalize_isDigitNormalized m) (by omega) (by rw [Digits.slice_len]; omega) (hap hYZ) (hap hXZ) (by omega)
    exact ⟨m', (if_neg hlen).trans hrun, hcha hch, by rw [← hZ, hva, mul_comm]⟩

section
variable {recurse : Digits → Digits → Digits → Memory t → Option (Memory t)} {Z X Y scratch : Digits} {n n2 : Nat}
  {m : Memory t}

/-- What a step needs: room for the product of the low digits, and scratch memory that is in no other vector. -/
structure StepReady (Z X Y scratch : Digits) (n n2 : Nat) : Prop where
  half : n = 2 * n2
  fits : min n X.len + min n Y.len ≤ Z.len
  room : 3 * n ≤ 2 * Z.len
  scratchLen : 4 * n ≤ scratch.len
  xz : X.Apart Z
  yz : Y.Apart Z
  xs : X.Apart scratch
  ys : Y.Apart scratch
  zs : Z.Apart scratch

theorem StepReady.shift (h : StepReady Z X Y scratch n n2) : n >>> 1 = n2 := by
  rw [shiftRight_one, h.half, Nat.mul_div_cancel_left _ (by decide)]

/-- A part of a factor is not changed. -/
theorem value_of_step {W : Digits} (hz : W.Apart Z) (hs : W.Apart scratch)
    (h : Changes (fun a => Z.Has a ∨ scratch.Has a) m m') (o l : Nat) :
    (W.slice o l).value m' = (W.slice o l).value m :=
  value_of_changes h fun _ ha hbad => hbad.elim ((hz.slice o l).not_has ha) ((hs.slice o l).not_has ha)

section
variable (h : StepReady Z X Y scratch n n2)
include h

section
variable (hrec : MultipliesLow recurse (scratch.slice (2 * n) (2 * n)) n2)
include hrec

/-- The halves of the factors are multiplied into a part of the scratch memory. -/
theorem StepReady.product {o : Nat} (ho : o ≤ n) (p : Nat) (m : Memory t) :
    ∃ m', recurse (scratch.slice o n) (X.slice p n2) (Y.slice p n2) m = some m' ∧ Changes scratch.Has m m' ∧
      (∀ o' l', o' + l' ≤ o → (scratch.slice o' l').value m' = (scratch.slice o' l').value m) ∧
      (scratch.slice o n).value m' = (X.slice p n2).value m * (Y.slice p n2).value m := by
  have hhalf := h.half
  have hlen := h.scratchLen
  obtain ⟨m', hrun, hch, hva⟩ := hrec.halves (m := m) (Z := scratch.slice o n) (X := X.slice p n2) (Y := Y.slice p n2)
    (by rw [Digits.slice_len]; omega) (by rw [Digits.slice_len]; omega) (by rw [Digits.slice_len]; omega)
    (h.xs.slices _ _ _ _) (h.ys.slices _ _ _ _) (h.xs.slices _ _ _ _) (h.ys.slices _ _ _ _)
    (slice_apart (by omega) _)
  refine ⟨m', hrun, hch.mono fun a ha => ha.elim slice_has slice_has, fun o' l' hle => ?_, hva⟩
  exact value_of_changes hch fun a ha hbad =>
    hbad.elim ((slice_apart hle n).not_has ha) ((slice_apart (by omega) _).not_has ha)

omit hrec in
/-- The product of the high halves has no digits past the end of the result. -/
theorem StepReady.high_lt (m : Memory t) :
    (X.slice n2 n2).value m * (Y.slice n2 n2).value m < t.base ^ min (Z.len - n) n := by
  obtain ⟨hhalf, hfi, hroom, -⟩ := h
  have hx := (X.slice n2 n2).value_lt m
  have hy := (Y.slice n2 n2).value_lt m
  rw [Digits.slice_len] at hx hy
  by_cases hem : min n2 (X.len - n2) = 0 ∨ min n2 (Y.len - n2) = 0
  · have hzero : (X.slice n2 n2).value m * (Y.slice n2 n2).value m = 0 := by
      rw [Nat.mul_eq_zero]
      exact hem.imp (fun hem => by simpa [hem] using hx) fun hem => by simpa [hem] using hy
    rw [hzero]
    exact Nat.pow_pos t.base_pos
  · calc (X.slice n2 n2).value m * (Y.slice n2 n2).value m
        < t.base ^ min n2 (X.len - n2) * t.base ^ min n2 (Y.len - n2) := Nat.mul_lt_mul_of_lt_of_lt hx hy
      _ = t.base ^ (min n2 (X.len - n2) + min n2 (Y.len - n2)) := (pow_add _ _ _).symm
      _ ≤ _ := Nat.pow_le_pow_right t.base_pos (by omega)

theorem karatsubaProducts_spec : ∃ m', karatsubaProducts recurse Z X Y scratch n m = some m' ∧
      Changes (fun a => Z.Has a ∨ scratch.Has a) m m' ∧
      (scratch.slice 0 n).value m' = (X.slice 0 n2).value m * (Y.slice 0 n2).value m ∧
      (scratch.slice n n).value m' = (X.slice n2 n2).value m * (Y.slice n2 n2).value m ∧
      Z.value m' = (X.slice 0 n2).value m * (Y.slice 0 n2).value m +
        t.base ^ n * ((X.slice n2 n2).value m * (Y.slice n2 n2).value m) + t.base ^ (2 * n) * (Z.drop (2 * n)).value m := by
  have hhalf := h.half
  have hroom := h.room
  have hlen := h.scratchLen
  have hzs := h.zs
  have hpart : ∀ o, o ≤ n → (scratch.slice o n).len = n := by
    intro o ho
    rw [Digits.slice_len]
    omega
  -- The product of the low halves goes to the low digits of the result.
  obtain ⟨m₁, hrun₁, hc₁, -, hP0⟩ := h.product hrec (Nat.zero_le n) 0 m
  obtain ⟨hc₂, hlow₂, -⟩ := @copyDigits_fits t Z (scratch.slice 0 n) m₁ n (hzs.symm.slice 0 n)
    (by rw [hpart 0 (Nat.zero_le n)]; omega) (by simpa only [hpart 0 (Nat.zero_le n)] using (scratch.slice 0 n).value_lt m₁)
  set m₂ := copyDigits Z (scratch.slice 0 n) n m₁ with hm₂
  have hch : Changes (fun a => Z.Has a ∨ scratch.Has a) m m₂ :=
    (hc₁.mono fun a => .inr).trans (hc₂.mono fun a ha => .inl (slice_has ha))
  -- That of the high halves goes to the digits above.
  obtain ⟨m₃, hrun₃, hc₃, hb₃, hP2⟩ := h.product hrec le_rfl n2 m₂
  rw [value_of_step h.xz h.xs hch, value_of_step h.yz h.ys hch] at hP2
  set last := min (Z.drop n).len (scratch.slice n n).len with hl
  have hl' : last = min (Z.len - n) n := by rw [hl, hpart n le_rfl, drop_len]
  obtain ⟨hc₄, hh₄, hz₄⟩ := copyDigits_fits (m := m₃) ((hzs.drop n).symm.slice n n) hl
    (by rw [hP2, hl']; exact h.high_lt m)
  set m₄ := copyDigits (Z.drop n) (scratch.slice n n) last m₃ with hm₄
  have hd₄ : Changes (Z.drop n).Has m₃ m₄ := hc₄.mono fun a => slice_has
  have hs₄ : ∀ o l, (scratch.slice o l).value m₄ = (scratch.slice o l).value m₃ := fun o l =>
    ((hzs.drop n).symm.slice o l).value hd₄
  refine ⟨m₄, ?_, ?_, ?_, by rw [hs₄, hP2], ?_⟩
  · rw [karatsubaProducts, h.shift]
    exact run_bind hrun₁ (run_bind hrun₃ (run_bind (dcheck_pos fun i hi => hz₄ i (hi.trans_eq (hpart n le_rfl).symm)) rfl))
  · exact hch.trans ((hc₃.mono fun a => .inr).trans (hd₄.mono fun a ha => .inl (drop_has ha)))
  · rw [hs₄, hb₃ 0 n (by omega), (hzs.symm.slices 0 n 0 n).value hc₂, hP0]
  · have hlow₄ : (Z.slice 0 n).value m₄ = (X.slice 0 n2).value m * (Y.slice 0 n2).value m := by
      rw [(slice_apart_drop le_rfl).value hd₄, (hzs.slice 0 n).value hc₃, hlow₂, hP0]
    have hrest : t.base ^ last * ((Z.drop n).drop last).value m₄ = t.base ^ n * (Z.drop (2 * n)).value m := by
      rw [(slice_apart_drop le_rfl).symm.value hc₄, drop_drop]
      rcases Nat.le_total (2 * n) Z.len with hle | hle
      · rw [show last = n by omega, ← Nat.two_mul, (hzs.drop _).value hc₃,
          (slice_apart_drop (by omega)).symm.value hc₂, (hzs.drop _).value hc₁]
      · rw [Z.value_drop_of_ge _ (by omega), Z.value_drop_of_ge _ hle, Nat.mul_zero, Nat.mul_zero]
    rw [Z.value_slice_add m₄ n, hlow₄, (Z.drop n).value_slice_add m₄ last, hh₄, hrest, hP2, show 2 * n = n + n by omega,
      pow_add]
    ring

theorem karatsubaDifferences_spec :
    ∃ m' sign, karatsubaDifferences recurse X Y scratch n m = some (m', sign) ∧ (sign = 1 ∨ sign = -1) ∧
      Changes scratch.Has m m' ∧
      sign * (scratch.slice n n).value m' = (((X.slice n2 n2).value m : ℤ) - (X.slice 0 n2).value m) *
        ((Y.slice 0 n2).value m - (Y.slice n2 n2).value m) := by
  have hhalf := h.half
  have hlen := h.scratchLen
  have hle : ∀ (W : Digits) (o o' : Nat), o' ≤ n2 → (W.slice o n2).len ≤ (scratch.slice o' n2).len := by
    intro W o o' ho
    rw [Digits.slice_len, Digits.slice_len]
    omega
  obtain ⟨m₁, sign₁, hrun₁, hs₁, hc₁, hv₁⟩ := @karatsubaSubtractionHelper_spec t m (scratch.slice 0 n2)
    (X.slice n2 n2) (X.slice 0 n2) 1 (h.xs.slices _ _ _ _) (h.xs.slices _ _ _ _) (hle _ _ _ (by omega)) (hle _ _ _ (by omega))
    (.inl rfl)
  obtain ⟨m₂, sign₂, hrun₂, hs₂, hc₂, hv₂⟩ := @karatsubaSubtractionHelper_spec t m₁ (scratch.slice n2 n2)
    (Y.slice 0 n2) (Y.slice n2 n2) sign₁ (h.ys.slices _ _ _ _) (h.ys.slices _ _ _ _) (hle _ _ _ le_rfl) (hle _ _ _ le_rfl) hs₁
  have hy : ∀ o l, (Y.slice o l).value m₁ = (Y.slice o l).value m := fun o l => (h.ys.slices o l 0 n2).value hc₁
  have hx : (scratch.slice 0 n2).value m₂ = (scratch.slice 0 n2).value m₁ :=
    (slice_apart (by omega) _).value hc₂
  rw [hy, hy] at hv₂
  obtain ⟨m₃, hrun₃, hc₃, hv₃⟩ := hrec.halves (m := m₂) (Z := scratch.slice n n) (X := scratch.slice 0 n2)
    (Y := scratch.slice n2 n2) (by rw [Digits.slice_len]; omega) (by rw [Digits.slice_len]; omega)
    (by rw [Digits.slice_len]; omega) (slice_apart (by omega) _) (slice_apart (by omega) _)
    (slice_apart (by omega) _) (slice_apart (by omega) _) (slice_apart (by omega) _)
  refine ⟨m₃, sign₂, ?_, hs₂, ?_, ?_⟩
  · rw [karatsubaDifferences, h.shift]
    exact run_bind hrun₁ (run_bind hrun₂ (run_bind hrun₃ rfl))
  · refine (hc₁.mono fun a => slice_has).trans ((hc₂.mono fun a => slice_has).trans ?_)
    exact hc₃.mono fun a ha => ha.elim slice_has slice_has
  · rw [hv₃, hx]
    push_cast
    have hone : sign₁ * sign₁ = 1 := by
      rcases hs₁ with rfl | rfl <;> rfl
    linear_combination ((scratch.slice 0 n2).value m₁ : ℤ) * hv₂ +
      ((Y.slice 0 n2).value m - (Y.slice n2 n2).value m : ℤ) * hv₁

end

end

theorem karatsubaCorrect_spec {sign : Int} (hsi : sign = 1 ∨ sign = -1) (overflow : Digit t) (hshift : n >>> 1 = n2)
    (hP1 : (scratch.slice n n).Ahead (Z.drop n2)) (hfit : (scratch.slice n n).value m < t.base ^ (Z.drop n2).len) :
    ∃ m' overflow' c, karatsubaCorrect Z scratch n sign overflow m = some (m', overflow') ∧
      Changes (Z.drop n2).Has m m' ∧ ((overflow' : Nat) : ℤ) ≡ (overflow : Nat) + c [ZMOD t.base] ∧
      ((Z.drop n2).value m' : ℤ) + t.base ^ (Z.drop n2).len * c =
        (Z.drop n2).value m + sign * (scratch.slice n n).value m := by
  rcases hsi with rfl | rfl
  · obtain ⟨m', c, hrun, hch, -, hva⟩ := addAndReturnOverflow_spec hP1 hfit
    refine ⟨m', overflow + c, (c : Nat), ?_, hch, digit_add_modEq overflow c, ?_⟩
    · rw [karatsubaCorrect, hshift, if_pos (by decide), hrun]
      rfl
    · zify at hva
      linarith
  · obtain ⟨m', c, hrun, hch, -, hva⟩ := subAndReturnBorrow_spec hP1 hfit
    refine ⟨m', overflow - c, -(c : Nat), ?_, hch, ?_, ?_⟩
    · rw [karatsubaCorrect, hshift, if_neg (by decide), hrun]
      rfl
    · exact digit_sub_modEq overflow c
    · zify at hva
      linarith

/-- The low digits of a factor are those of its halves. -/
theorem low_halves (X : Digits) (m : Memory t) (n2 : Nat) :
    X.low m (2 * n2) = (X.slice 0 n2).value m + t.base ^ n2 * (X.slice n2 n2).value m := by
  rw [two_mul, low_add, value_slice_zero]

/-- What is added up is the product of the low digits, above which the result keeps what it had. -/
theorem karatsubaSum_spec (h : StepReady Z X Y scratch n n2)
    (hrec : MultipliesLow recurse (scratch.slice (2 * n) (2 * n)) n2) :
    ∃ m' overflow c, karatsubaSum recurse Z X Y scratch n m = some (m', overflow) ∧
      Changes (fun a => Z.Has a ∨ scratch.Has a) m m' ∧ ((overflow : Nat) : ℤ) ≡ c [ZMOD t.base] ∧
      (Z.value m' : ℤ) + t.base ^ Z.len * c = X.low m n * Y.low m n + t.base ^ (2 * n) * (Z.drop (2 * n)).value m := by
  have hhalf := h.half
  have hroom := h.room
  have hap : ∀ o l, (scratch.slice o l).Apart (Z.drop n2) := fun o l => (h.zs.drop n2).symm.slice o l
  have hlen : ∀ o, (scratch.slice o n).len ≤ (Z.drop n2).len := by
    intro o
    rw [Digits.slice_len, drop_len]
    omega
  have hfit : ∀ o (m' : Memory t), (scratch.slice o n).value m' < t.base ^ (Z.drop n2).len := fun o m' =>
    ((scratch.slice o n).value_lt m').trans_le (pow_le_pow_right t.base_pos (hlen o))
  obtain ⟨m₁, hrun₁, hc₁, hP0, hP2, hZ₁⟩ := karatsubaProducts_spec (m := m) h hrec
  obtain ⟨m₂, c₁, hrun₂, hc₂, -, hv₂⟩ :=
    addAndReturnOverflow_spec (m := m₁) ((hap 0 n).ahead (hlen 0)) (hfit 0 m₁)
  obtain ⟨m₃, c₂, hrun₃, hc₃, -, hv₃⟩ :=
    addAndReturnOverflow_spec (m := m₂) ((hap n n).ahead (hlen n)) (hfit n m₂)
  obtain ⟨m₄, sign, hrun₄, hsi, hc₄, hP1⟩ := karatsubaDifferences_spec (m := m₃) h hrec
  obtain ⟨m₅, overflow, c, hrun₅, hc₅, ho, hv₅⟩ := karatsubaCorrect_spec (m := m₄) (Z := Z) hsi (c₁ + c₂)
    h.shift ((hap n n).ahead (hlen n)) (hfit n m₄)
  have hc₃' : Changes (fun a => Z.Has a ∨ scratch.Has a) m m₃ := hc₁.trans
    ((hc₂.mono fun a ha => .inl (drop_has ha)).trans (hc₃.mono fun a ha => .inl (drop_has ha)))
  have hx := value_of_step h.xz h.xs hc₃'
  have hy := value_of_step h.yz h.ys hc₃'
  have hlow : (Z.slice 0 n2).value m₅ = (Z.slice 0 n2).value m₁ := by
    have hke : ∀ {m' m'' : Memory t}, Changes (Z.drop n2).Has m' m'' →
        (Z.slice 0 n2).value m'' = (Z.slice 0 n2).value m' := fun hch => (slice_apart_drop le_rfl).value hch
    rw [hke hc₅, (h.zs.slice 0 n2).value hc₄, hke hc₃, hke hc₂]
  -- The whole of what is added up, in which the carries must cancel out.
  have hs₁ := Z.value_slice_add m₁ n2
  have hs₅ := Z.value_slice_add m₅ n2
  have hl := low_halves X m n2
  have hlo := low_halves Y m n2
  rw [hx, hx, hy, hy] at hP1
  rw [hP0] at hv₂
  rw [(hap n n).value hc₂, hP2] at hv₃
  rw [(h.zs.drop n2).value hc₄] at hv₅
  rw [hlow] at hs₅
  rw [← hhalf] at hl hlo
  have hpow : (t.base : ℤ) ^ Z.len = t.base ^ n2 * t.base ^ (Z.drop n2).len := by
    rw [← pow_add, drop_len, Nat.add_sub_cancel' (by omega)]
  have hp : (t.base : ℤ) ^ n = t.base ^ n2 * t.base ^ n2 := by
    rw [← pow_add, hhalf, two_mul]
  have hto : (Z.value m₅ : ℤ) + t.base ^ Z.len * ((c₁ : Nat) + (c₂ : Nat) + c) =
      X.low m n * Y.low m n + t.base ^ (2 * n) * (Z.drop (2 * n)).value m := by
    rw [hZ₁] at hs₁
    zify at hv₂ hv₃ hs₁ hs₅ hl hlo
    rw [hl, hlo, hs₅, hpow]
    rw [hp] at hs₁
    linear_combination (t.base : ℤ) ^ n2 * (hv₅ + hv₃ + hv₂ + hP1) - hs₁
  refine ⟨m₅, overflow, (c₁ : Nat) + (c₂ : Nat) + c, ?_, ?_, ?_, hto⟩
  · rw [karatsubaSum, h.shift]
    exact run_bind hrun₁ (run_bind hrun₂ (run_bind hrun₃ (run_bind hrun₄ hrun₅)))
  · exact hc₃'.trans ((hc₄.mono fun a => .inr).trans (hc₅.mono fun a ha => .inl (drop_has ha)))
  · exact ho.trans ((digit_add_modEq c₁ c₂).add_right c)

/-- The product of low digits fits where the digits themselves would. -/
theorem low_mul_lt (X Y : Digits) (m : Memory t) (n : Nat) {k : Nat} (hk : min n X.len + min n Y.len ≤ k) :
    X.low m n * Y.low m n < t.base ^ k := by
  calc X.low m n * Y.low m n < t.base ^ min n X.len * t.base ^ min n Y.len :=
        Nat.mul_lt_mul_of_lt_of_lt (X.low_lt m n) (Y.low_lt m n)
    _ = t.base ^ (min n X.len + min n Y.len) := (pow_add _ _ _).symm
    _ ≤ t.base ^ k := pow_le_pow_right t.base_pos hk

/-- The product and what is above it fit in the result. -/
theorem StepReady.sum_lt (h : StepReady Z X Y scratch n n2) (m : Memory t) :
    X.low m n * Y.low m n + t.base ^ (2 * n) * (Z.drop (2 * n)).value m < t.base ^ Z.len := by
  rcases le_total (2 * n) Z.len with hle | hle
  · have hdr := (Z.drop (2 * n)).value_lt m
    have hp := low_mul_lt X Y m n (show min n X.len + min n Y.len ≤ 2 * n by omega)
    rw [drop_len] at hdr
    calc X.low m n * Y.low m n + t.base ^ (2 * n) * (Z.drop (2 * n)).value m
        < t.base ^ (2 * n) + t.base ^ (2 * n) * (Z.drop (2 * n)).value m := by omega
      _ = t.base ^ (2 * n) * ((Z.drop (2 * n)).value m + 1) := by ring
      _ ≤ t.base ^ (2 * n) * t.base ^ (Z.len - 2 * n) := Nat.mul_le_mul_left _ hdr
      _ = t.base ^ Z.len := by rw [← pow_add, Nat.add_sub_cancel' hle]
  · rw [Z.value_drop_of_ge m hle, mul_zero, add_zero]
    exact low_mul_lt X Y m n h.fits

/-- A step multiplies numbers of twice the length. -/
theorem karatsubaStep_spec (h : StepReady Z X Y scratch n n2)
    (hrec : MultipliesLow recurse (scratch.slice (2 * n) (2 * n)) n2) :
    ∃ m', karatsubaStep recurse Z X Y scratch n m = some m' ∧ Changes (fun a => Z.Has a ∨ scratch.Has a) m m' ∧
      value m' Z.start (min Z.len (2 * n)) = X.low m n * Y.low m n := by
  obtain ⟨m', overflow, c, hrun, hch, ho, hto⟩ := karatsubaSum_spec (m := m) h hrec
  have hbo := h.sum_lt m
  have hlt := Z.value_lt m'
  zify at hbo hlt
  obtain ⟨hc, hva⟩ := carry_eq_zero hto (by positivity) hlt (by positivity) hbo
  have hzero : overflow = 0 := by
    rw [hc] at ho
    have := digit_eq_of_modEq ho le_rfl (by have := t.base_pos; omega)
    exact Fin.ext (by simpa using this)
  have hev : n &&& 1 = 0 := by
    rw [Nat.and_one_is_mod, h.half, Nat.mul_mod_right]
  refine ⟨m', ?_, hch, ?_⟩
  · exact run_bind (dcheck_pos h.scratchLen) (run_bind (dcheck_pos hev) (run_bind hrun (run_bind (dcheck_pos hzero) rfl)))
  · have hnat : Z.value m' = X.low m n * Y.low m n + t.base ^ (2 * n) * (Z.drop (2 * n)).value m := by
      exact_mod_cast hva
    have hlow : value m' Z.start (min Z.len (2 * n)) = Z.low m' (2 * n) := by rw [min_comm, low]
    rw [hlow, Z.low_eq_mod, hnat, Nat.add_mul_mod_self_left, Nat.mod_eq_of_lt (low_mul_lt X Y m n (by omega))]

end

/-! ### The recursion -/

theorem karatsubaMain_spec {n : Nat} (hn : Halvable n) (scratch : Digits)
    (hsc : kKaratsubaThreshold ≤ n → 4 * n ≤ scratch.len) :
    MultipliesLow (t := t) (fun Z X Y m => karatsubaMain Z X Y scratch n m) scratch n := by
  have hl : ∀ {n}, n < kKaratsubaThreshold → ∀ scratch,
      MultipliesLow (t := t) (fun Z X Y m => karatsubaMain Z X Y scratch n m) scratch n := by
    intro n h scratch Z X Y m
    dsimp only
    rw [karatsubaMain, if_pos h]
    exact karatsubaLeaf_spec h scratch Z X Y m
  induction hn generalizing scratch with
  | small h => exact hl h scratch
  | @even n' hn' ih =>
    by_cases hsm : 2 * n' < kKaratsubaThreshold
    · exact hl hsm scratch
    · have hlen := hsc (by omega)
      have hshift : (2 * n') >>> 1 = n' := by
        rw [shiftRight_one, Nat.mul_div_cancel_left _ (by decide)]
      have hrec := ih (scratch.slice (2 * (2 * n')) (2 * (2 * n'))) fun _ => by
        rw [Digits.slice_len]
        omega
      intro Z X Y m _ hfi hroom hxz hyz hxs hys hzs
      dsimp only
      rw [karatsubaMain, if_neg hsm]
      refine karatsubaStep_spec ⟨rfl, hfi, hroom, hlen, hxz, hyz, hxs, hys, hzs⟩ ?_
      rwa [hshift]

/-- The memory from `free` on is not part of a vector. -/
def Digits.Below (X : Digits) (free : Nat) : Prop := X.len = 0 ∨ X.start + X.len ≤ free

namespace Digits.Below
variable {X : Digits} {free : Nat}

section
variable (h : X.Below free)
include h

theorem slice (offset len : Nat) : (X.slice offset len).Below free := by
  unfold Digits.Below at *
  rw [slice_start, slice_len]
  omega

theorem mono {free' : Nat} (hle : free ≤ free') : X.Below free' := h.imp_right (·.trans hle)

theorem normalize (m : Memory t) : (X.normalize m).Below free := by
  have hle := X.normalize_len_le m
  unfold Digits.Below at *
  rw [normalize_start]
  omega

theorem not_has {a : Nat} (ha : X.Has a) : ¬free ≤ a := by
  have := ha.1
  have := ha.2
  unfold Digits.Below at h
  omega

theorem apart (len : Nat) : X.Apart (scratchDigits free len) :=
  h.imp_right fun h => .inr (.inl h)

end

end Digits.Below

/-- What `KaratsubaChunk` does: it multiplies factors of which one is not too long for the scratch memory. -/
def MultipliesChunks (run : Digits → Digits → Digits → Memory t → Option (Memory t)) (scratch : Digits) (free k bound : Nat) :
    Prop :=
  ∀ Z X Y m, X.len + Y.len < bound → X.len ≤ k ∨ Y.len ≤ k → X.len + Y.len ≤ Z.len →
    X.Apart Z → Y.Apart Z → X.Apart scratch → Y.Apart scratch → Z.Apart scratch →
    X.Below free → Y.Below free → Z.Below free → scratch.Below free →
    ∃ m', run Z X Y m = some m' ∧ Changes (fun a => Z.Has a ∨ scratch.Has a ∨ free ≤ a) m m' ∧
      Z.value m' = X.value m * Y.value m

section
variable {Z X Y T : Digits} {m : Memory t}

/-- Adding a product at its place in a result that has room for the sum. -/
theorem addAt_spec {i : Nat} (hpos : 0 < Z.len) (hi : i ≤ Z.len) (hT : T.Apart Z)
    (hfit : Z.value m + t.base ^ i * T.value m < t.base ^ Z.len) :
    ∃ m' c, addAndReturnOverflow (Z.drop i) T m = some (m', c) ∧ Changes Z.Has m m' ∧
      Z.value m' = Z.value m + t.base ^ i * T.value m := by
  have hpow : t.base ^ Z.len = t.base ^ i * t.base ^ (Z.drop i).len := by
    rw [← pow_add, drop_len, Nat.add_sub_cancel' hi]
  have hTlt : T.value m < t.base ^ (Z.drop i).len := by
    refine Nat.lt_of_mul_lt_mul_left (a := t.base ^ i) ?_
    rw [← hpow]
    omega
  have hah := hT.ahead_drop (by omega) hi
  obtain ⟨m', c, hrun, hch, -, hva⟩ := addAndReturnOverflow_spec hah hTlt
  have hlow : (Z.slice 0 i).value m' = (Z.slice 0 i).value m := (slice_apart_drop le_rfl).value hch
  have hsp := Z.value_slice_add m i
  have hs' := Z.value_slice_add m' i
  have hlt := Z.value_lt m'
  have hto : (Z.value m' : ℤ) + t.base ^ Z.len * (c : Nat) = Z.value m + t.base ^ i * T.value m := by
    rw [hlow] at hs'
    zify at hsp hs' hva hpow
    rw [hs', hsp, hpow]
    linear_combination (t.base : ℤ) ^ i * hva
  zify at hfit hlt
  obtain ⟨-, hre⟩ := carry_eq_zero hto (by positivity) hlt (by positivity) hfit
  exact ⟨m', c, hrun, hch.mono fun a => drop_has, by exact_mod_cast hre⟩

end

/-- What `KaratsubaStart` needs of its arguments. -/
structure StartReady (Z X Y scratch : Digits) (free k : Nat) : Prop where
  pos : 0 < Y.len
  order : Y.len ≤ X.len
  long : kKaratsubaThreshold ≤ k
  half : Y.len ≤ 2 * k
  fits : X.len + Y.len ≤ Z.len
  xz : X.Apart Z
  yz : Y.Apart Z
  xs : X.Apart scratch
  ys : Y.Apart scratch
  zs : Z.Apart scratch
  xf : X.Below free
  yf : Y.Below free
  zf : Z.Below free
  sf : scratch.Below free

def StartChanges (Z scratch : Digits) (free a : Nat) : Prop := Z.Has a ∨ scratch.Has a ∨ free ≤ a

section
variable {chunk : Digits → Digits → Digits → Memory t → Option (Memory t)} {Z X Y scratch : Digits} {free k bound : Nat}
  {m : Memory t}

variable {W : Digits}

/-- A factor is not changed. -/
theorem factor_value (hz : W.Apart Z) (hs : W.Apart scratch) (hf : W.Below free)
    (h : Changes (StartChanges Z scratch free) m m') : W.value m' = W.value m := by
  refine value_of_changes h fun a ha hbad => ?_
  rcases hbad with hbad | hbad | hbad
  · exact hz.not_has ha hbad
  · exact hs.not_has ha hbad
  · exact hf.not_has ha hbad

/-- A product of a chunk of one factor with a chunk of the other is added at its place. -/
theorem chunkAdd_spec (h : StartReady Z X Y scratch free k)
    (hchunk : MultipliesChunks chunk scratch (free + 2 * k) k bound) (oX lX oY lY i : Nat)
    (hbo : (X.slice oX lX).len + (Y.slice oY lY).len < bound) (hlX : lX ≤ k)
    (hlY : (Y.slice oY lY).len ≤ k) (hi : i ≤ Z.len)
    (hfit : Z.value m + t.base ^ i * ((X.slice oX lX).value m * (Y.slice oY lY).value m) < t.base ^ Z.len) :
    ∃ m₁ m₂ c, chunk (scratchDigits free (2 * k)) (X.slice oX lX) (Y.slice oY lY) m = some m₁ ∧
      addAndReturnOverflow (Z.drop i) (scratchDigits free (2 * k)) m₁ = some (m₂, c) ∧
      Changes (StartChanges Z scratch free) m m₂ ∧
      Z.value m₂ = Z.value m + t.base ^ i * ((X.slice oX lX).value m * (Y.slice oY lY).value m) := by
  have hl : 34 ≤ k := h.long
  have hlX' : (X.slice oX lX).len ≤ k := by
    rw [Digits.slice_len]
    omega
  have hle : free ≤ free + 2 * k := Nat.le_add_right _ _
  obtain ⟨m₁, hrun₁, hc₁, hv₁⟩ := hchunk (scratchDigits free (2 * k)) (X.slice oX lX) (Y.slice oY lY) m hbo
    (.inl hlX') (show _ ≤ 2 * k by omega) ((h.xf.slice _ _).apart _) ((h.yf.slice _ _).apart _) (h.xs.slice _ _)
    (h.ys.slice _ _) (h.sf.apart _).symm ((h.xf.slice _ _).mono hle) ((h.yf.slice _ _).mono hle) (.inr le_rfl) (h.sf.mono hle)
  have hZ : Z.value m₁ = Z.value m := value_of_changes hc₁ fun a ha hbad =>
    hbad.elim ((h.zf.apart _).not_has ha) fun hbad =>
      hbad.elim (h.zs.not_has ha) fun hbad => h.zf.not_has ha (hle.trans hbad)
  obtain ⟨m₂, c, hrun₂, hc₂, hv₂⟩ := addAt_spec (m := m₁) (lt_of_lt_of_le h.pos (by have := h.fits; omega)) hi
    (h.zf.apart _).symm (by rw [hZ, hv₁]; exact hfit)
  rw [hZ, hv₁] at hv₂
  refine ⟨m₁, m₂, c, hrun₁, hrun₂, (hc₁.mono fun a ha => ?_).trans (hc₂.mono fun a => .inl), hv₂⟩
  rcases ha with ha | ha | ha
  · exact .inr (.inr ha.1)
  · exact .inr (.inl ha)
  · exact .inr (.inr (hle.trans ha))

/-- The product of the low digits of one factor with the other fits. -/
theorem StartReady.fit (h : StartReady Z X Y scratch free k) (m : Memory t) (n : Nat) :
    X.low m n * Y.value m < t.base ^ Z.len := by
  have hX : X.low m n < t.base ^ X.len :=
    lt_of_lt_of_le (X.low_lt m n) (pow_le_pow_right t.base_pos (min_le_right _ _))
  calc X.low m n * Y.value m < t.base ^ X.len * t.base ^ Y.len := Nat.mul_lt_mul'' hX (Y.value_lt m)
    _ = t.base ^ (X.len + Y.len) := (pow_add _ _ _).symm
    _ ≤ t.base ^ Z.len := pow_le_pow_right t.base_pos h.fits

/-- A part of a factor is not changed. -/
theorem factor_slice (hz : W.Apart Z) (hs : W.Apart scratch) (hf : W.Below free)
    (h : Changes (StartChanges Z scratch free) m m') (o l : Nat) : (W.slice o l).value m' = (W.slice o l).value m :=
  factor_value (hz.slice o l) (hs.slice o l) (hf.slice o l) h

theorem factor_low (hz : W.Apart Z) (hs : W.Apart scratch) (hf : W.Below free)
    (h : Changes (StartChanges Z scratch free) m m') (n : Nat) : W.low m' n = W.low m n := by
  rw [← value_slice_zero, ← value_slice_zero, factor_slice hz hs hf h]

/-- The digits of a factor that are not in its first chunk. -/
theorem value_eq_low_add (Y : Digits) (k : Nat) (m : Memory t) :
    Y.value m = Y.low m k + t.base ^ k * (Y.slice k Y.len).value m := by
  rw [← low_add, Y.low_of_ge m (by omega)]

theorem drop_min_empty (hk : Y.len ≤ k) : ¬ 0 < (Y.drop (min k Y.len)).len := by
  rw [drop_len]
  omega

section
variable (h : StartReady Z X Y scratch free k)
include h

section
variable (hchunk : MultipliesChunks chunk scratch (free + 2 * k) k (X.len + Y.len))
include hchunk

/-- A round adds the product of a chunk with the other factor. -/
theorem karatsubaRound_spec {i : Nat} (hi : 0 < i) (hlt : i < X.len)
    (hfit : Z.value m + t.base ^ i * ((X.slice i k).value m * Y.value m) < t.base ^ Z.len) :
    ∃ m', karatsubaRound chunk free Z X Y k i m = some m' ∧ Changes (StartChanges Z scratch free) m m' ∧
      Z.value m' = Z.value m + t.base ^ i * ((X.slice i k).value m * Y.value m) := by
  have hfi := h.fits
  have hhalf := h.half
  have hXi : (X.slice i k).len < X.len := by
    rw [Digits.slice_len]
    omega
  have hY0 : (Y.slice 0 k).len ≤ k ∧ (Y.slice 0 k).len ≤ Y.len := by
    rw [Digits.slice_len]
    omega
  have hle : Z.value m + t.base ^ i * ((X.slice i k).value m * (Y.slice 0 k).value m) ≤
      Z.value m + t.base ^ i * ((X.slice i k).value m * Y.value m) := by
    rw [value_slice_zero, low_eq_mod]
    gcongr
    exact Nat.mod_le _ _
  obtain ⟨m₁, m₂, c, hrun₁, hrun₂, hch, hva⟩ := chunkAdd_spec (m := m) h hchunk i k 0 k i (by omega)
    (le_refl k) hY0.1 (by omega) (by omega)
  rw [value_slice_zero] at hva
  by_cases hl : k < Y.len
  · have hY1 : (Y.slice k Y.len).len ≤ k ∧ (Y.slice k Y.len).len < Y.len ∧ 0 < (Y.slice k Y.len).len := by
      have hk : 34 ≤ k := h.long
      rw [Digits.slice_len]
      omega
    have hXi₂ := factor_slice h.xz h.xs h.xf hch i k
    have hY1₂ := factor_slice h.yz h.ys h.yf hch k Y.len
    have hto : Z.value m₂ + t.base ^ (i + k) * ((X.slice i k).value m₂ * (Y.slice k Y.len).value m₂) =
        Z.value m + t.base ^ i * ((X.slice i k).value m * Y.value m) := by
      rw [hva, hXi₂, hY1₂, value_eq_low_add Y k, pow_add]
      ring
    obtain ⟨m₃, m₄, c', hrun₃, hrun₄, hc', hv'⟩ := chunkAdd_spec (m := m₂) h hchunk i k k Y.len (i + k)
      (by omega) (le_refl k) hY1.1 (by omega) (by omega)
    rw [karatsubaRound, min_eq_left hl.le, Y.drop_eq_slice]
    exact ⟨m₄, run_bind hrun₁ (run_bind hrun₂ ((if_pos hY1.2.2).trans (run_bind hrun₃ (run_bind hrun₄ rfl)))),
      hch.trans hc', by rw [hv', hto]⟩
  · rw [Y.low_of_ge m (by omega)] at hva
    exact ⟨m₂, run_bind hrun₁ (run_bind hrun₂ (if_neg (drop_min_empty (by omega)))), hch, hva⟩

/-- The rounds multiply one chunk after the other. -/
theorem karatsubaRounds_spec {count : Nat} (hco : count * k < X.len) (hZ : Z.value m = X.low m k * Y.value m) :
    ∃ m', karatsubaRounds chunk free Z X Y k count m = some m' ∧ Changes (StartChanges Z scratch free) m m' ∧
      Z.value m' = X.low m ((count + 1) * k) * Y.value m := by
  induction count with
  | zero => exact ⟨m, rfl, .refl _ _, by rw [hZ, zero_add, one_mul]⟩
  | succ count ih =>
    have hsu : (count + 1) * k = count * k + k := succ_mul count k
    have hk : 34 ≤ k := h.long
    obtain ⟨m₁, hrun₁, hc₁, hv₁⟩ := ih (by omega)
    have hXi := factor_slice h.xz h.xs h.xf hc₁ ((count + 1) * k) k
    have hY := factor_value h.yz h.ys h.yf hc₁
    have hsum : Z.value m₁ + t.base ^ ((count + 1) * k) * ((X.slice ((count + 1) * k) k).value m₁ * Y.value m₁) =
        X.low m ((count + 1 + 1) * k) * Y.value m := by
      rw [hv₁, hXi, hY, succ_mul (count + 1), low_add]
      ring
    obtain ⟨m₂, hrun₂, hc₂, hv₂⟩ := karatsubaRound_spec h hchunk (m := m₁) (i := (count + 1) * k) (by omega)
      hco (by rw [hsum]; exact h.fit m _)
    exact ⟨m₂, run_bind hrun₁ hrun₂, hc₁.trans hc₂, by rw [hv₂, hsum]⟩

/-- With the product of the low digits in place, the other chunks are multiplied and added. -/
theorem karatsubaChunks_spec (hZ : Z.value m = X.low m k * Y.low m k) :
    ∃ m', karatsubaChunks chunk free Z X Y k m = some m' ∧ Changes (StartChanges Z scratch free) m m' ∧
      Z.value m' = X.value m * Y.value m := by
  have hpos := h.pos
  have ho := h.order
  have hfi := h.fits
  have hhalf := h.half
  have hk : 34 ≤ k := h.long
  have hlt : (X.len - 1) / k * k < X.len := by
    have := Nat.div_mul_le_self (X.len - 1) k
    omega
  have hall : X.len ≤ ((X.len - 1) / k + 1) * k := by
    have := Nat.lt_div_mul_add (a := X.len - 1) (b := k) (by omega)
    rw [succ_mul]
    omega
  by_cases hl : k < Y.len
  · have hsum : Z.value m + t.base ^ k * ((X.slice 0 k).value m * (Y.slice k Y.len).value m) = X.low m k * Y.value m := by
      rw [hZ, value_eq_low_add Y k, value_slice_zero]
      ring
    obtain ⟨m₁, m₂, c, hrun₁, hrun₂, hch, hva⟩ := chunkAdd_spec (m := m) h hchunk 0 k k Y.len k
      (by rw [Digits.slice_len, Digits.slice_len]; omega) (le_refl k) (by rw [Digits.slice_len]; omega) (by omega)
      (by rw [hsum]; exact h.fit m k)
    have hX₂ := factor_low h.xz h.xs h.xf hch
    have hY₂ := factor_value h.yz h.ys h.yf hch
    obtain ⟨m₃, hrun₃, hc₃, hv₃⟩ := karatsubaRounds_spec (m := m₂) h hchunk hlt (by rw [hva, hsum, hX₂, hY₂])
    rw [hX₂, hY₂, X.low_of_ge m hall] at hv₃
    refine ⟨m₃, ?_, hch.trans hc₃, hv₃⟩
    rw [karatsubaChunks, min_eq_left hl.le, Y.drop_eq_slice]
    exact (if_pos (by rw [Digits.slice_len]; omega)).trans (run_bind hrun₁ (run_bind hrun₂ hrun₃))
  · rw [Y.low_of_ge m (by omega)] at hZ
    obtain ⟨m₃, hrun₃, hc₃, hv₃⟩ := karatsubaRounds_spec (m := m) h hchunk hlt hZ
    rw [X.low_of_ge m hall] at hv₃
    exact ⟨m₃, (if_neg (drop_min_empty (by omega))).trans hrun₃, hc₃, hv₃⟩

end

theorem karatsubaStart_spec (hk : Halvable k) (hroom : 3 * k ≤ 4 * Y.len) (hsc : 4 * k ≤ scratch.len)
    (hchunk : MultipliesChunks chunk scratch (free + 2 * k) k (X.len + Y.len)) :
    ∃ m', karatsubaStart chunk free Z X Y k scratch m = some m' ∧ Changes (StartChanges Z scratch free) m m' ∧
      Z.value m' = X.value m * Y.value m := by
  have ho := h.order
  have hfi := h.fits
  have hl := h.long
  obtain ⟨m₁, hrun₁, hc₁, hv₁⟩ := karatsubaMain_spec hk scratch (fun _ => hsc) Z X Y m (by omega) (by omega)
    (by omega) h.xz h.yz h.xs h.ys h.zs
  have hcl : Z.value (Z.clearFrom (2 * k) m₁) = X.low m k * Y.low m k := by
    rw [← hv₁]
    rcases le_total (2 * k) Z.len with hle | hle
    · rw [clearFrom_value m₁ hle, min_eq_right hle]
    · rw [clearFrom_of_ge m₁ hle, min_eq_left hle]
      rfl
  have hch : Changes (StartChanges Z scratch free) m (Z.clearFrom (2 * k) m₁) := by
    refine Changes.trans (hc₁.mono ?_) ((Z.clearFrom_changes (2 * k) m₁).mono ?_)
    · exact fun a ha => ha.elim .inl fun ha => .inr (.inl ha)
    · exact fun a ha => .inl (drop_has ha)
  have hX := factor_low h.xz h.xs h.xf hch
  have hY := factor_low h.yz h.ys h.yf hch
  by_cases hmo : k < Y.len ∨ X.len ≠ Y.len
  · obtain ⟨m₂, hrun₂, hc₂, hv₂⟩ := karatsubaChunks_spec h hchunk (by rw [hcl, hX, hY])
    refine ⟨m₂, run_bind hrun₁ ((if_pos hmo).trans hrun₂), hch.trans hc₂, ?_⟩
    rw [hv₂, factor_value h.xz h.xs h.xf hch, factor_value h.yz h.ys h.yf hch]
  · refine ⟨_, run_bind hrun₁ (if_neg hmo), hch, ?_⟩
    rw [hcl, X.low_of_ge m (by omega), Y.low_of_ge m (by omega)]

end

end

theorem MultipliesChunks.mono {scratch : Digits}
    {free k k' bound bound' : Nat} (h : MultipliesChunks run scratch free k bound) (hk : k' ≤ k) (hbo : bound' ≤ bound) :
    MultipliesChunks run scratch free k' bound' := by
  intro Z X Y m hl hsh
  exact h Z X Y m (by omega) (by omega)

/-- The lengths that a chunk can have, and the scratch memory that is enough for all of them. -/
structure ScratchSuffices (scratch : Digits) (k : Nat) : Prop where
  len : 4 * k ≤ scratch.len
  closed : ∀ n, kKaratsubaThreshold ≤ n → n ≤ k → karatsubaLength n ≤ k

section
variable {scratch X Y Z : Digits} {free k : Nat} {m : Memory t}

/-- `KaratsubaChunk` for normalized factors, the longer one first. -/
theorem karatsubaChunk_ordered (hsc : ScratchSuffices scratch k) {fuel : Nat}
    (ih : ∀ free, MultipliesChunks (karatsubaChunk (t := t) scratch fuel free) scratch free k fuel)
    (hfu : X.len + Y.len < fuel + 1) (hX : isDigitNormalized X m) (hY : isDigitNormalized Y m) (hpos : 0 < Y.len)
    (hlen : Y.len ≤ X.len) (hsh : Y.len ≤ k) (hfi : X.len + Y.len ≤ Z.len) (hxz : X.Apart Z) (hyz : Y.Apart Z)
    (hxs : X.Apart scratch) (hys : Y.Apart scratch) (hzs : Z.Apart scratch) (hxf : X.Below free) (hyf : Y.Below free)
    (hzf : Z.Below free) (hsf : scratch.Below free) :
    ∃ m', (if Y.len = 1 then multiplySingle Z X (Y.get m 0) m
      else if Y.len < kKaratsubaThreshold then multiplySchoolbook Z X Y m
      else do
        dcheck (4 * karatsubaLength Y.len ≤ scratch.len)
        karatsubaStart (karatsubaChunk scratch fuel (free + 2 * karatsubaLength Y.len)) free Z X Y (karatsubaLength Y.len)
          scratch m) = some m' ∧
      Changes (StartChanges Z scratch free) m m' ∧ Z.value m' = X.value m * Y.value m := by
  by_cases hone : Y.len = 1
  · have hmsd : Y.get m 0 ≠ 0 := by
      have hne : Y.len ≠ 0 := by omega
      have := hY
      rw [isDigitNormalized] at this
      simpa [msd, hone] using this
    obtain ⟨m', hrun, hch, hva⟩ := multiplySingle_spec (m := m) hmsd (hxz.ahead (by omega)) (show X.len < Z.len by omega)
    refine ⟨m', (if_pos hone).trans hrun, hch.mono fun a => .inl, ?_⟩
    rw [hva, Digits.value.eq_def Y, hone, value_one]
    rfl
  by_cases hsm : Y.len < kKaratsubaThreshold
  · have hba := t.base_ge
    rw [kKaratsubaThreshold] at hsm
    obtain ⟨m', hrun, hch, hva⟩ := multiplySchoolbook_spec hX hY hlen hfi hxz hyz (by omega)
    exact ⟨m', (if_neg hone).trans ((if_pos hsm).trans hrun), hch.mono fun a => .inl, hva⟩
  · have hlarge : 34 ≤ Y.len := Nat.le_of_not_lt hsm
    have hcl := hsc.closed Y.len (by omega) hsh
    have hroom := hsc.len
    have hre : StartReady Z X Y scratch free (karatsubaLength Y.len) :=
      ⟨hpos, hlen, le_karatsubaLength hlarge, le_two_karatsubaLength hlarge, hfi, hxz, hyz, hxs, hys, hzs, hxf, hyf, hzf,
        hsf⟩
    obtain ⟨m', hrun, hch, hva⟩ := karatsubaStart_spec hre (karatsubaLength_halvable hlarge)
      (karatsubaLength_le hlarge) (by omega) ((ih _).mono hcl (by omega)) (m := m)
    exact ⟨m', (if_neg hone).trans ((if_neg hsm).trans (run_bind (dcheck_pos (by omega)) hrun)), hch, hva⟩

theorem karatsubaChunk_spec (hsc : ScratchSuffices scratch k) (fuel : Nat) :
    ∀ free, MultipliesChunks (karatsubaChunk (t := t) scratch fuel free) scratch free k fuel := by
  induction fuel with
  | zero =>
    intro free Z X Y m hl
    omega
  | succ fuel ih =>
    intro free Z X Y m hfu hsh hfi hxz hyz hxs hys hzs hxf hyf hzf hsf
    have hXle := X.normalize_len_le m
    have hYle := Y.normalize_len_le m
    rw [karatsubaChunk]
    dsimp only
    by_cases hzero : (X.normalize m).len = 0 ∨ (Y.normalize m).len = 0
    · obtain ⟨hch, hva⟩ := @clearFrom_after t Z m 0 m (.refl _ _) (Nat.zero_le _)
      refine ⟨_, if_pos hzero, hch.mono fun a => .inl, ?_⟩
      rw [normalize_len_eq_zero, normalize_len_eq_zero] at hzero
      rw [clear, hva, value_zero]
      rcases hzero with hzero | hzero
      · rw [hzero, Nat.zero_mul]
      · rw [hzero, Nat.mul_zero]
    · rw [if_neg hzero, ← X.normalize_value m, ← Y.normalize_value m]
      have hX := X.normalize_isDigitNormalized m
      have hY := Y.normalize_isDigitNormalized m
      by_cases hsw : (X.normalize m).len < (Y.normalize m).len
      · rw [if_pos hsw]
        dsimp only
        rw [Nat.mul_comm ((X.normalize m).value m)]
        exact karatsubaChunk_ordered hsc ih (by omega) hY hX (by omega) (by omega) (by omega) (by omega) hyz.normalize
          hxz.normalize hys.normalize hxs.normalize hzs (hyf.normalize m) (hxf.normalize m) hzf hsf
      · rw [if_neg hsw]
        dsimp only
        exact karatsubaChunk_ordered hsc ih (by omega) hX hY (by omega) (by omega) (by omega) (by omega) hxz.normalize
          hyz.normalize hxs.normalize hys.normalize hzs (hxf.normalize m) (hyf.normalize m) hzf hsf

/-- Karatsuba multiplication is exact. It starts with a length that can be halved down to the schoolbook threshold. That it
returns says that all of its assertions hold: the scratch memory is long enough at each level, what would reach past the
result is zero, and nothing is carried out of a sum in the end. -/
theorem karatsuba_multiplication_exact (free : Nat) (hlen : Y.len ≤ X.len) (hY : kKaratsubaThreshold ≤ Y.len)
    (hfits : X.len + Y.len ≤ Z.len) (hxz : X.Apart Z) (hyz : Y.Apart Z) (hxf : X.Below free) (hyf : Y.Below free)
    (hzf : Z.Below free) :
    Halvable (karatsubaLength Y.len) ∧
    ∃ m', multiplyKaratsuba free Z X Y m = some m' ∧ Z.value m' = X.value m * Y.value m ∧
      Changes (fun a => Z.Has a ∨ free ≤ a) m m' := by
  rw [kKaratsubaThreshold] at hY
  have hk := karatsubaLength_halvable hY
  have hlong := le_karatsubaLength hY
  refine ⟨hk, ?_⟩
  set k := karatsubaLength Y.len
  have hle : free ≤ free + 4 * k := Nat.le_add_right _ _
  have hsuffices : ScratchSuffices (scratchDigits free (4 * k)) k :=
    ⟨le_refl _, fun n hn hle => karatsubaLength_mono hY hn hle⟩
  have hready : StartReady Z X Y (scratchDigits free (4 * k)) (free + 4 * k) k :=
    ⟨by omega, hlen, hlong, le_two_karatsubaLength hY, hfits, hxz, hyz, hxf.apart _,
      hyf.apart _, hzf.apart _, hxf.mono hle, hyf.mono hle, hzf.mono hle, .inr le_rfl⟩
  obtain ⟨m', hrun, hchanges, hvalue⟩ := karatsubaStart_spec hready hk (karatsubaLength_le hY) (le_refl _)
    (karatsubaChunk_spec hsuffices (X.len + Y.len) (free + 4 * k + 2 * k)) (m := m)
  refine ⟨m', ?_, hvalue, hchanges.mono fun a ha => ?_⟩
  · exact run_bind (dcheck_pos hlen) (run_bind (dcheck_pos hY) (run_bind (dcheck_pos hfits) hrun))
  · rcases ha with ha | ha | ha
    · exact .inl ha
    · exact .inr ha.1
    · exact .inr (hle.trans ha)

theorem karatsuba_multiplication_exact_ones : kKaratsubaThreshold ≤ (⟨0, 40⟩ : Digits).len ∧
      ∃ m', multiplyKaratsuba (t := .bits32) 300 ⟨100, 140⟩ ⟨40, 50⟩ ⟨0, 40⟩ (fun _ => 1) = some m' ∧
        (⟨100, 140⟩ : Digits).value m' =
          (⟨40, 50⟩ : Digits).value (t := .bits32) (fun _ => 1) * (⟨0, 40⟩ : Digits).value (t := .bits32) (fun _ => 1) := by
  obtain ⟨-, m', hrun, hvalue, -⟩ := @karatsuba_multiplication_exact .bits32 ⟨40, 50⟩ ⟨0, 40⟩ ⟨100, 140⟩ (fun _ => 1) 300
    (by decide) (by decide) (by decide) (by simp [Digits.Apart]) (by simp [Digits.Apart]) (by simp [Digits.Below])
    (by simp [Digits.Below]) (by simp [Digits.Below])
  exact ⟨by decide, m', hrun, hvalue⟩

end

end V8Multithread.Bigint
