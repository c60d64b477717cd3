import V8Multithread.Base.Bytes

/-! Scans: programs that read bytes from left to right, keep a state, and may fail.

What a failed scan did to its state stays done, so that its caller can go back and try
something else. Positions are numbers and nothing stops them at the end of the data; that
they stop there is proved, with the rules for `Safe`. The rules for `Reads` are for the
other question, what a scan makes of bytes that are known. -/
namespace V8Multithread.Base
open List

inductive Failure where
  | invalid
  | exception
  | diverged
  deriving DecidableEq, Repr

structure Cursor (σ ω : Type) where
  data : List UInt8
  position : Nat := 0
  /-- History: the furthest position there was. -/
  high : Nat := 0
  /-- History: what the scan reported. -/
  log : List ω := []
  state : σ

namespace Cursor
variable {σ ω : Type}

def rest (c : Cursor σ ω) : List UInt8 := c.data.drop c.position

def moveTo (c : Cursor σ ω) (p : Nat) : Cursor σ ω := {c with position := p, high := max c.high p}

theorem length_rest (c : Cursor σ ω) : c.rest.length = c.data.length - c.position := length_drop

end Cursor

def Scan (σ ω α : Type) : Type := Cursor σ ω → Except Failure α × Cursor σ ω

namespace Scan
variable {σ ω α β γ : Type}

instance : Monad (Scan σ ω) where
  pure a := fun c => (.ok a, c)
  bind x f := fun c =>
    match x c with
    | (.ok a, c') => f a c'
    | (.error e, c') => (.error e, c')

variable {x y : Scan σ ω α} {f : α → Scan σ ω β} {c c' : Cursor σ ω} {body : β → Scan σ ω (β ⊕ γ)}

theorem bind_ok {a : α} (h : x c = (.ok a, c')) : (x >>= f) c = f a c' := by
  show (match x c with | (.ok a, c') => f a c' | (.error e, c') => (.error e, c')) = f a c'
  rw [h]

theorem bind_error {e : Failure} (h : x c = (.error e, c')) : (x >>= f) c = (.error e, c') := by
  show (match x c with | (.ok a, c') => f a c' | (.error e, c') => (.error e, c')) = (.error e, c')
  rw [h]

theorem bind_assoc (x : Scan σ ω α) (f : α → Scan σ ω β) (g : β → Scan σ ω γ) :
    (x >>= f) >>= g = x >>= fun a => f a >>= g := by
  funext c
  rcases hx : x c with ⟨e | a, c'⟩
  · rw [bind_error hx, bind_error (bind_error hx)]
  · rw [bind_ok hx]
    show (match (x >>= f) c with | (.ok a, c') => g a c' | (.error e, c') => (.error e, c')) = _
    rw [bind_ok hx]
    rfl

def fail (e : Failure) : Scan σ ω α := fun c => (.error e, c)

def check (p : Prop) [Decidable p] : Scan σ ω Unit := if p then pure () else fail .invalid

def action (f : σ → Except Failure (α × σ × List ω)) : Scan σ ω α := fun c =>
  match f c.state with
  | .ok (a, s, events) => (.ok a, {c with state := s, log := c.log ++ events})
  | .error e => (.error e, c)

def get : Scan σ ω σ := action fun s => .ok (s, s, [])

def modify (f : σ → σ) : Scan σ ω Unit := action fun s => .ok ((), f s, [])

/-- Bytes are taken, also by one that fails. -/
def take (f : List UInt8 → Option α × Nat) : Scan σ ω α := fun c =>
  match (f c.rest).1 with
  | some a => (.ok a, c.moveTo (c.position + (f c.rest).2))
  | none => (.error .invalid, c.moveTo (c.position + (f c.rest).2))

def peek (f : List UInt8 → α) : Scan σ ω α := fun c => (.ok (f c.rest), c)

def remaining : Scan σ ω Nat := peek List.length

def position : Scan σ ω Nat := fun c => (.ok c.position, c)

def sized (x : Nat → Scan σ ω α) : Scan σ ω α := fun c => x c.data.length c

def unread : Scan σ ω Unit := fun c => (.ok (), c.moveTo (c.position - 1))

def attempt (x : Scan σ ω α) : Scan σ ω (Option α) := fun c =>
  match x c with
  | (.ok a, c') => (.ok (some a), c')
  | (.error .invalid, c') => (.ok none, c')
  | (.error e, c') => (.error e, c')

/-- If `x` has nothing, go back to where it began and do `y`. -/
def orBack (x : Scan σ ω (Option α)) (y : Scan σ ω α) : Scan σ ω α := fun c =>
  match x c with
  | (.ok (some a), c') => (.ok a, c')
  | (.ok none, c') => y (c'.moveTo c.position)
  | (.error e, c') => (.error e, c')

def loop (body : β → Scan σ ω (β ⊕ γ)) : Nat → β → Scan σ ω γ
  | 0, _ => fail .diverged
  | rounds + 1, b => do
    match ← body b with
    | .inl b' => loop body rounds b'
    | .inr c => pure c

/-- A loop that takes a byte in every round but the last has no more rounds than this. -/
def forever (body : β → Scan σ ω (β ⊕ γ)) (b : β) : Scan σ ω γ := sized fun n => loop body (n + 1) b

def upFrom (body : Nat → Scan σ ω Unit) : (i count : Nat) → Scan σ ω Unit
  | _, 0 => pure ()
  | i, count + 1 => do
    body i
    upFrom body (i + 1) count

/-! ### What a scan makes of known bytes -/

/-- In the state `s`, at `bytes` with a tail that is as `T` says, the scan takes `bytes`,
gives `a` and leaves the state `s'`. The data is shorter than `bound`. -/
def Reads (bound : Nat) (T : List UInt8 → Prop) (x : Scan σ ω α) (s : σ) (bytes : List UInt8)
    (a : α) (s' : σ) : Prop :=
  ∀ (c : Cursor σ ω) (tail : List UInt8), c.state = s → c.data.length < bound → T tail →
    c.rest = bytes ++ tail →
      ∃ c', x c = (.ok a, c') ∧ c'.data = c.data ∧ c'.position = c.position + bytes.length ∧
        c'.state = s'

section Reads
variable {bound : Nat} {T T₁ : List UInt8 → Prop} {s s₁ s₂ : σ} {bytes bytes₁ bytes₂ : List UInt8}
  {a : α} {b : β}

theorem Reads.pure : Reads bound T (pure a : Scan σ ω α) s [] a s := by
  intro c tail hs _ _ _
  exact ⟨c, rfl, rfl, rfl, hs⟩

theorem rest_of_position {tail : List UInt8} (hda : c'.data = c.data)
    (hpos : c'.position = c.position + bytes.length) (hrest : c.rest = bytes ++ tail) :
    c'.rest = tail := by
  rw [Cursor.rest, hda, hpos, ← List.drop_drop]
  show c.rest.drop bytes.length = tail
  rw [hrest, drop_left]

theorem Reads.bind (hx : Reads bound T₁ x s bytes₁ a s₁) (hf : Reads bound T (f a) s₁ bytes₂ b s₂)
    (hT : ∀ tail, T tail → T₁ (bytes₂ ++ tail)) :
    Reads bound T (x >>= f) s (bytes₁ ++ bytes₂) b s₂ := by
  intro c tail hs hlen hta hrest
  rw [append_assoc] at hrest
  obtain ⟨c₁, hrun₁, hd₁, hpos₁, hs₁⟩ := hx c _ hs hlen (hT tail hta) hrest
  obtain ⟨c₂, hrun₂, hd₂, hpos₂, hs₂⟩ :=
    hf c₁ tail hs₁ (by rw [hd₁]; exact hlen) hta (rest_of_position hd₁ hpos₁ hrest)
  refine ⟨c₂, by rw [bind_ok hrun₁, hrun₂], hd₂.trans hd₁, ?_, hs₂⟩
  rw [hpos₂, hpos₁, length_append, add_assoc]

/-- A step that takes nothing. -/
theorem Reads.before {x : Scan σ ω α} {f : α → Scan σ ω β} (hx : Reads bound T₁ x s [] a s₁)
    (hf : Reads bound T (f a) s₁ bytes b s₂) (hT : ∀ tail, T tail → T₁ (bytes ++ tail)) :
    Reads bound T (x >>= f) s bytes b s₂ := Reads.bind hx hf hT

/-- A scan that does not look at what comes after its bytes. -/
def Any : List UInt8 → Prop := fun _ => True

theorem Reads.any (hx : Reads bound Any x s bytes a s₁) : Reads bound T x s bytes a s₁ :=
  fun c tail hs hlen _ hrest => hx c tail hs hlen trivial hrest

theorem Reads.seq {x : Scan σ ω α} {f : α → Scan σ ω β} (hx : Reads bound Any x s bytes₁ a s₁)
    (hf : Reads bound T (f a) s₁ bytes₂ b s₂) : Reads bound T (x >>= f) s (bytes₁ ++ bytes₂) b s₂ :=
  Reads.bind hx hf fun _ _ => trivial

theorem Reads.skip (hx : Reads bound Any x s [] a s₁) (hf : Reads bound T (f a) s₁ bytes b s₂) :
    Reads bound T (x >>= f) s bytes b s₂ :=
  Reads.seq hx hf

/-- The scan after it takes nothing. -/
theorem Reads.after (hx : Reads bound T x s bytes a s₁) (hf : Reads bound T (f a) s₁ [] b s₂) :
    Reads bound T (x >>= f) s bytes b s₂ := by
  simpa using Reads.bind hx hf fun _ h => h

theorem Reads.mono (hx : Reads bound T₁ x s bytes a s₁) (hT : ∀ tail, T tail → T₁ tail) :
    Reads bound T x s bytes a s₁ :=
  fun c tail hs hlen hta hrest => hx c tail hs hlen (hT tail hta) hrest

theorem Reads.action {f : σ → Except Failure (α × σ × List ω)} {events : List ω}
    (h : f s = .ok (a, s₁, events)) : Reads bound T (action f) s [] a s₁ := by
  rintro c tail rfl _ _ _
  refine ⟨{c with state := s₁, log := c.log ++ events}, ?_, rfl, rfl, rfl⟩
  rw [Scan.action, h]

theorem Reads.get : Reads bound T (Scan.get : Scan σ ω σ) s [] s s := Reads.action rfl

theorem Reads.modify (f : σ → σ) : Reads bound T (Scan.modify f : Scan σ ω Unit) s [] () (f s) :=
  Reads.action rfl

theorem Reads.check {p : Prop} [Decidable p] (h : p) : Reads bound T (Scan.check p : Scan σ ω Unit) s [] () s := by
  rw [Scan.check, if_pos h]
  exact Reads.pure

theorem Reads.take {f : List UInt8 → Option α × Nat}
    (h : ∀ tail, T tail → f (bytes ++ tail) = (some a, bytes.length)) :
    Reads bound T (Scan.take f : Scan σ ω α) s bytes a s := by
  intro c tail hs _ hta hrest
  refine ⟨c.moveTo (c.position + bytes.length), ?_, rfl, rfl, hs⟩
  rw [Scan.take, hrest, h tail hta]

theorem Reads.peek {f : List UInt8 → α} (h : ∀ tail, T tail → f tail = a) :
    Reads bound T (Scan.peek f : Scan σ ω α) s [] a s := by
  intro c tail hs _ hta hrest
  refine ⟨c, ?_, rfl, rfl, hs⟩
  rw [Scan.peek, hrest, nil_append, h tail hta]

/-- A look ahead, also at what comes after the bytes. -/
theorem Reads.peek_bind {f : List UInt8 → α} {g : α → Scan σ ω β}
    (h : ∀ tail, T tail → Reads bound T (g (f (bytes ++ tail))) s bytes b s₁) :
    Reads bound T (Scan.peek f >>= g) s bytes b s₁ := by
  intro c tail hs hlen hta hrest
  have hre := h tail hta c tail hs hlen hta hrest
  rw [← hrest] at hre
  exact hre

/-- Where the scan is makes no difference to it. -/
theorem Reads.position {f : Nat → Scan σ ω β} (h : ∀ p, Reads bound T (f p) s bytes b s₁) :
    Reads bound T (Scan.position >>= f) s bytes b s₁ :=
  fun c => h c.position c

/-- The data is at least as long as what is read from it. -/
theorem Reads.sized {x : Nat → Scan σ ω α} (h : ∀ n, bytes.length ≤ n → Reads bound T (x n) s bytes a s₁) :
    Reads bound T (Scan.sized x) s bytes a s₁ := by
  intro c tail hs hlen hta hrest
  have hby : bytes.length ≤ c.data.length := by
    have hl := congrArg List.length hrest
    rw [Cursor.length_rest, length_append] at hl
    omega
  exact h c.data.length hby c tail hs hlen hta hrest

theorem Reads.remaining {f : Nat → Scan σ ω β}
    (h : ∀ n, bytes.length ≤ n → Reads bound T (f n) s bytes b s₁) :
    Reads bound T (Scan.remaining >>= f) s bytes b s₁ := by
  intro c tail hs hlen hta hrest
  have hby : bytes.length ≤ c.rest.length := by
    rw [hrest, length_append]
    exact Nat.le_add_right _ _
  exact h c.rest.length hby c tail hs hlen hta hrest

/-- The last round of a loop. -/
theorem Reads.loop_done {r : γ} (rounds : Nat) (h : Reads bound T (body b) s bytes (.inr r) s₁) :
    Reads bound T (loop body (rounds + 1) b) s bytes r s₁ :=
  Reads.after h Reads.pure

/-- A round, and the rounds after it. -/
theorem Reads.loop_next {b' : β} {r : γ} {rounds : Nat} (h : Reads bound T₁ (body b) s bytes₁ (.inl b') s₁)
    (hnext : Reads bound T (loop body rounds b') s₁ bytes₂ r s₂) (hT : ∀ tail, T tail → T₁ (bytes₂ ++ tail)) :
    Reads bound T (loop body (rounds + 1) b) s (bytes₁ ++ bytes₂) r s₂ :=
  Reads.bind h hnext hT

/-- There are always enough rounds for a loop that takes at least as many bytes. -/
theorem Reads.forever {r : γ} (k : Nat) (hk : k ≤ bytes.length)
    (h : ∀ rounds, k ≤ rounds → Reads bound T (loop body (rounds + 1) b) s bytes r s₁) :
    Reads bound T (forever body b) s bytes r s₁ :=
  Reads.sized fun n hn => h n (hk.trans hn)

theorem Reads.attempt (hx : Reads bound T x s bytes a s₁) : Reads bound T (Scan.attempt x) s bytes (some a) s₁ := by
  intro c tail hs hlen hta hrest
  obtain ⟨c₁, hrun, hda, hpos, hs₁⟩ := hx c tail hs hlen hta hrest
  exact ⟨c₁, by rw [Scan.attempt, hrun], hda, hpos, hs₁⟩

/-- At `bytes`, the scan has nothing or has `a` and has taken `bytes`. The state stays as it is. -/
def Tries (bound : Nat) (T : List UInt8 → Prop) (x : Scan σ ω (Option α)) (s : σ) (bytes : List UInt8)
    (a : α) : Prop :=
  ∀ (c : Cursor σ ω) (tail : List UInt8), c.state = s → c.data.length < bound → T tail →
    c.rest = bytes ++ tail →
      ∃ o c', x c = (.ok o, c') ∧ c'.data = c.data ∧ c'.state = s ∧
        (o = none ∨ o = some a ∧ c'.position = c.position + bytes.length)

theorem Tries.of_reads {x : Scan σ ω (Option α)} {o : Option α} (hx : Reads bound T x s bytes o s)
    (ho : o = none ∨ o = some a) : Tries bound T x s bytes a := by
  intro c tail hs hlen hta hrest
  obtain ⟨c', hrun, hda, hpos, hs'⟩ := hx c tail hs hlen hta hrest
  exact ⟨o, c', hrun, hda, hs', ho.imp_right fun h => ⟨h, hpos⟩⟩

theorem Tries.seq {x : Scan σ ω β} {f : β → Scan σ ω (Option α)} (hx : Reads bound Any x s bytes₁ b s)
    (hf : Tries bound T (f b) s bytes₂ a) : Tries bound T (x >>= f) s (bytes₁ ++ bytes₂) a := by
  intro c tail hs hlen hta hrest
  rw [append_assoc] at hrest
  obtain ⟨c₁, hrun₁, hd₁, hpos₁, hs₁⟩ := hx c _ hs hlen trivial hrest
  obtain ⟨o, c₂, hrun₂, hd₂, hs₂, ho⟩ :=
    hf c₁ tail hs₁ (by rw [hd₁]; exact hlen) hta (rest_of_position hd₁ hpos₁ hrest)
  refine ⟨o, c₂, by rw [bind_ok hrun₁, hrun₂], hd₂.trans hd₁, hs₂, ho.imp_right fun h => ⟨h.1, ?_⟩⟩
  rw [h.2, hpos₁, length_append, add_assoc]

/-- What it has may still be rejected. -/
theorem Tries.filter {x : Scan σ ω (Option α)} {f : Option α → Option β} (hx : Tries bound T x s bytes a)
    (hno : f none = none) (hf : f (some a) = none ∨ f (some a) = some b) :
    Tries bound T (x >>= fun o => pure (f o)) s bytes b := by
  intro c tail hs hlen hta hrest
  obtain ⟨o, c₁, hrun, hda, hs₁, ho⟩ := hx c tail hs hlen hta hrest
  refine ⟨f o, c₁, by rw [bind_ok hrun]; rfl, hda, hs₁, ?_⟩
  rcases ho with rfl | ⟨rfl, hpos⟩
  · exact .inl hno
  · exact hf.imp_right fun h => ⟨h, hpos⟩

/-- Either way the same bytes are taken, so what comes after has to do with both results. -/
theorem Reads.orBack_bind {x : Scan σ ω (Option α)} {g : α → Scan σ ω β} {a' : α} (hx : Tries bound Any x s bytes₁ a)
    (hy : Reads bound Any y s bytes₁ a' s) (hg : Reads bound T (g a) s bytes₂ b s₂)
    (hg' : Reads bound T (g a') s bytes₂ b s₂) :
    Reads bound T (Scan.orBack x y >>= g) s (bytes₁ ++ bytes₂) b s₂ := by
  intro c tail hs hlen hta hrest
  rw [append_assoc] at hrest
  obtain ⟨o, c₁, hrun, hda, hs₁, ho⟩ := hx c _ hs hlen trivial hrest
  rcases ho with rfl | ⟨rfl, hpos⟩
  · have hba : Scan.orBack x y c = y (c₁.moveTo c.position) := by rw [Scan.orBack, hrun]
    have hr₁ : (c₁.moveTo c.position).rest = bytes₁ ++ (bytes₂ ++ tail) := by
      rw [← hrest, Cursor.rest, Cursor.rest, ← hda]
      rfl
    have hre := Reads.seq hy hg' (c₁.moveTo c.position) tail hs₁ (by rw [← hda] at hlen; exact hlen) hta
      (by rw [append_assoc]; exact hr₁)
    obtain ⟨c₂, hrun₂, hd₂, hpos₂, hs₂⟩ := hre
    refine ⟨c₂, ?_, hd₂.trans hda, hpos₂, hs₂⟩
    rw [← hrun₂]
    show (match Scan.orBack x y c with | (.ok a, c') => g a c' | (.error e, c') => (.error e, c')) = _
    rw [hba]
    rfl
  · have hok : Scan.orBack x y c = (.ok a, c₁) := by rw [Scan.orBack, hrun]
    obtain ⟨c₂, hrun₂, hd₂, hpos₂, hs₂⟩ :=
      hg c₁ tail hs₁ (by rw [hda]; exact hlen) hta (rest_of_position hda hpos hrest)
    refine ⟨c₂, by rw [bind_ok hok, hrun₂], hd₂.trans hda, ?_, hs₂⟩
    rw [hpos₂, hpos, length_append, add_assoc]

end Reads

/-! ### What holds of a scan on any bytes -/

/-- The position is not past the end and never was, and the state and the reports are as
`J` says. -/
structure Sound (J : σ → List ω → Prop) (c : Cursor σ ω) : Prop where
  inside : c.position ≤ c.data.length
  never : c.high ≤ c.data.length
  user : J c.state c.log

/-- From position `lo` or later, in at most `len` bytes, the scan keeps the cursor sound, is
not cut off, and when it has a result it has moved on by `k` bytes or more. -/
def Safe (J : σ → List ω → Prop) (lo len k : Nat) (x : Scan σ ω α) : Prop :=
  ∀ c, Sound J c → lo ≤ c.position → c.data.length ≤ len →
    Sound J (x c).2 ∧ (x c).2.data = c.data ∧ (x c).1 ≠ .error .diverged ∧
      ∀ a, (x c).1 = .ok a → c.position + k ≤ (x c).2.position

section Safe
variable {J : σ → List ω → Prop} {lo len k l : Nat} {x : Scan σ ω α}

theorem Sound.moveTo (hc : Sound J c) {p : Nat} (hp : p ≤ c.data.length) :
    Sound J (c.moveTo p) := ⟨hp, max_le hc.never hp, hc.user⟩

theorem Safe.mono (h : Safe J lo len k x) {lo' : Nat} (hlo : lo ≤ lo') (hl : l ≤ k) : Safe J lo' len l x := by
  intro c hc hlow hlen
  obtain ⟨hso, hda, hdiv, hpos⟩ := h c hc (hlo.trans hlow) hlen
  exact ⟨hso, hda, hdiv, fun a ha => (Nat.add_le_add_left hl _).trans (hpos a ha)⟩

theorem Safe.pure (a : α) : Safe J lo len 0 (pure a : Scan σ ω α) :=
  fun _ hc _ _ => ⟨hc, rfl, nofun, fun _ _ => le_refl _⟩

/-- There is no result, so any bound on the way it went is kept. -/
theorem Safe.fail {e : Failure} (he : e ≠ .diverged) : Safe J lo len k (Scan.fail e : Scan σ ω α) :=
  fun _ hc _ _ => ⟨hc, rfl, fun h => he (by injection h), nofun⟩

/-- What comes after `x` starts `k` bytes later. -/
theorem Safe.bind (hx : Safe J lo len k x) (hf : ∀ a, Safe J (lo + k) len l (f a)) :
    Safe J lo len (k + l) (x >>= f) := by
  intro c hc hlow hlen
  obtain ⟨hso, hda, hdiv, hpos⟩ := hx c hc hlow hlen
  rcases hrun : x c with ⟨e | a, c₁⟩
  · rw [hrun] at hso hda hdiv
    rw [bind_error hrun]
    exact ⟨hso, hda, fun h => hdiv (by injection h with h; rw [h]), nofun⟩
  · rw [hrun] at hso hda hpos
    rw [bind_ok hrun]
    have hd₁ : c₁.data = c.data := hda
    have hmo : c.position + k ≤ c₁.position := hpos a rfl
    obtain ⟨hs', hd', hdiv', hpos'⟩ := hf a c₁ hso (by omega) (by rw [hd₁]; exact hlen)
    refine ⟨hs', hd'.trans hd₁, hdiv', fun b hb => ?_⟩
    have := hpos' b hb
    omega

/-- The scan before moves on enough. -/
theorem Safe.bind_left (hx : Safe J lo len k x) (hf : ∀ a, Safe J lo len 0 (f a)) :
    Safe J lo len k (x >>= f) :=
  Safe.bind hx fun a => (hf a).mono (Nat.le_add_right _ _) (le_refl _)

theorem Safe.seq (hx : Safe J lo len k x) (hf : ∀ {a}, Safe J lo len 0 (f a)) : Safe J lo len k (x >>= f) :=
  hx.bind_left fun _ => hf

theorem Safe.check (p : Prop) [Decidable p] : Safe J lo len 0 (Scan.check p : Scan σ ω Unit) := by
  rw [Scan.check]
  split
  · exact Safe.pure ()
  · exact Safe.fail (by decide)

theorem Safe.action {f : σ → Except Failure (α × σ × List ω)}
    (hok : ∀ s log a s' events, J s log → f s = .ok (a, s', events) → J s' (log ++ events))
    (hdiv : ∀ s, f s ≠ .error .diverged) : Safe J lo len 0 (Scan.action f) := by
  intro c hc _ _
  rw [Scan.action]
  rcases h : f c.state with e | ⟨a, s, events⟩
  · exact ⟨hc, rfl, fun he => hdiv c.state (by rw [h]; injection he with he; rw [he]), nofun⟩
  · exact ⟨⟨hc.inside, hc.never, hok _ _ _ _ _ hc.user h⟩, rfl, nofun, fun _ _ => le_refl _⟩

theorem Safe.get : Safe J lo len 0 (Scan.get : Scan σ ω σ) := by
  refine Safe.action (fun s log a s' events hJ h => ?_) (fun s => nofun)
  cases h
  simpa using hJ

theorem Safe.modify {f : σ → σ} (hf : ∀ s log, J s log → J (f s) log) :
    Safe J lo len 0 (Scan.modify f : Scan σ ω Unit) := by
  refine Safe.action (fun s log a s' events hJ h => ?_) (fun s => nofun)
  cases h
  simpa using hf s log hJ

theorem Safe.peek (f : List UInt8 → α) : Safe J lo len 0 (Scan.peek f : Scan σ ω α) :=
  fun _ hc _ _ => ⟨hc, rfl, nofun, fun _ _ => le_refl _⟩

theorem Safe.position : Safe J lo len 0 (Scan.position : Scan σ ω Nat) :=
  fun _ hc _ _ => ⟨hc, rfl, nofun, fun _ _ => le_refl _⟩

theorem Safe.take {f : List UInt8 → Option α × Nat} (hle : ∀ bytes, (f bytes).2 ≤ bytes.length)
    (hpos : ∀ bytes a, (f bytes).1 = some a → k ≤ (f bytes).2) :
    Safe J lo len k (Scan.take f : Scan σ ω α) := by
  intro c hc _ _
  have hin : c.position + (f c.rest).2 ≤ c.data.length := by
    have h := hle c.rest
    rw [Cursor.length_rest] at h
    have := hc.inside
    omega
  rw [Scan.take]
  rcases h : (f c.rest).1 with - | a
  · exact ⟨hc.moveTo hin, rfl, nofun, nofun⟩
  · exact ⟨hc.moveTo hin, rfl, nofun, fun _ _ => Nat.add_le_add_left (hpos c.rest a h) _⟩

/-- A scan that goes back to its beginning when it fails, or stays there. -/
theorem Safe.attempt (hx : Safe J lo len 0 x)
    (hst : ∀ c, (x c).1 = .error .invalid → c.position ≤ (x c).2.position) :
    Safe J lo len 0 (Scan.attempt x) := by
  intro c hc hlow hlen
  obtain ⟨hso, hda, hdiv, hpos⟩ := hx c hc hlow hlen
  have hba := hst c
  rw [Scan.attempt]
  rcases hrun : x c with ⟨e | a, c₁⟩
  · rw [hrun] at hso hda hdiv hba
    cases e with
    | invalid => exact ⟨hso, hda, nofun, fun _ _ => hba rfl⟩
    | exception => exact ⟨hso, hda, nofun, nofun⟩
    | diverged => exact absurd rfl hdiv
  · rw [hrun] at hso hda hpos
    exact ⟨hso, hda, nofun, fun _ _ => hpos a rfl⟩

theorem Safe.orBack {x : Scan σ ω (Option α)} (hx : Safe J lo len k x) (hy : Safe J lo len k y) :
    Safe J lo len k (Scan.orBack x y) := by
  intro c hc hlow hlen
  obtain ⟨hso, hda, hdiv, hpos⟩ := hx c hc hlow hlen
  rw [Scan.orBack]
  rcases hrun : x c with ⟨e | a, c₁⟩
  · rw [hrun] at hso hda hdiv
    exact ⟨hso, hda, fun h => hdiv (by injection h with h; rw [h]), nofun⟩
  · rw [hrun] at hso hda hpos
    cases a with
    | some a => exact ⟨hso, hda, nofun, fun _ _ => hpos _ rfl⟩
    | none =>
      have hd₁ : c₁.data = c.data := hda
      have hba : c.position ≤ c₁.data.length := by rw [hd₁]; exact hc.inside
      obtain ⟨hs', hd', hdiv', hpos'⟩ :=
        hy _ (hso.moveTo hba) hlow (show c₁.data.length ≤ len by rw [hd₁]; exact hlen)
      exact ⟨hs', hd'.trans hd₁, hdiv', hpos'⟩

theorem Safe.sized {x : Nat → Scan σ ω α} (h : ∀ n, Safe J lo n k (x n)) : Safe J lo len k (Scan.sized x) :=
  fun c hc hlow _ => h c.data.length c hc hlow (le_refl _)

theorem Safe.upFrom {body : Nat → Scan σ ω Unit} (hbody : ∀ i, Safe J lo len 0 (body i)) (i count : Nat) :
    Safe J lo len 0 (Scan.upFrom body i count) := by
  induction count generalizing i with
  | zero => exact Safe.pure ()
  | succ count ih => exact Safe.bind_left (hbody i) fun _ => ih (i + 1)

/-- A round of a loop that goes on takes a byte. -/
def Moves (J : σ → List ω → Prop) (body : Scan σ ω (β ⊕ γ)) : Prop :=
  ∀ c b, Sound J c → (body c).1 = .ok (.inl b) → c.position < (body c).2.position

structure Turns (J : σ → List ω → Prop) (body : Scan σ ω (β ⊕ γ)) : Prop where
  safe : ∀ {lo len}, Safe J lo len 0 body
  moves : Moves J body

theorem Turns.fail {e : Failure} (he : e ≠ .diverged) : Turns J (Scan.fail e : Scan σ ω (β ⊕ γ)) :=
  ⟨Safe.fail he, nofun⟩

theorem Turns.bind {f : α → Scan σ ω (β ⊕ γ)} (hx : ∀ {lo len}, Safe J lo len 0 x) (hf : ∀ a, Turns J (f a)) :
    Turns J (x >>= f) := by
  refine ⟨hx.bind_left fun a => (hf a).safe, fun c b hc => ?_⟩
  obtain ⟨hso, hda, -, hpos⟩ := hx c hc (Nat.zero_le _) (Nat.le_refl _)
  rcases hrun : x c with ⟨e | a, c₁⟩
  · rw [bind_error hrun]
    nofun
  · rw [hrun] at hso hpos
    rw [bind_ok hrun]
    intro hb
    exact (hpos a rfl).trans_lt ((hf a).moves c₁ b hso hb)

/-- A loop is not cut off if every round but the last takes a byte: the bytes left are fewer
after each round. -/
theorem Safe.loop (hbody : ∀ b, Turns J (body b)) (rounds : Nat) (b : β) (h : len < lo + rounds) :
    Safe J lo len 0 (Scan.loop body rounds b) := by
  induction rounds generalizing b lo with
  | zero =>
    intro c hc hlow hlen
    have := hc.inside
    omega
  | succ rounds ih =>
    intro c hc hlow hlen
    obtain ⟨hso, hda, hdiv, hpos⟩ := (hbody b).safe c hc hlow hlen
    have hmo := (hbody b).moves c
    rw [Scan.loop]
    rcases hrun : body b c with ⟨e | (b' | r), c₁⟩
    · rw [hrun] at hso hda hdiv
      rw [bind_error hrun]
      exact ⟨hso, hda, fun h => hdiv (by injection h with h; rw [h]), nofun⟩
    · rw [hrun] at hso hda hmo
      rw [bind_ok hrun]
      have hd₁ : c₁.data = c.data := hda
      have hlt : c.position < c₁.position := hmo b' hc rfl
      obtain ⟨hs', hd', hdiv', hpos'⟩ :=
        @ih (lo + 1) b' (by omega) c₁ hso (by omega) (by rw [hd₁]; exact hlen)
      exact ⟨hs', hd'.trans hd₁, hdiv', fun r hr => hlt.le.trans (hpos' r hr)⟩
    · rw [hrun] at hso hda hpos
      rw [bind_ok hrun]
      exact ⟨hso, hda, nofun, fun _ _ => hpos _ rfl⟩

theorem Safe.forever (hbody : ∀ b, Turns J (body b)) (b : β) : Safe J lo len 0 (Scan.forever body b) :=
  Safe.sized fun n => Safe.loop hbody (n + 1) b (by omega)

end Safe

end Scan

end V8Multithread.Base
