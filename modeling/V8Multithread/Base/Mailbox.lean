import Mathlib

/-! A mailbox: messages in, requests for messages in, one message to each request.

The mailbox keeps either messages nobody has asked for or requests nobody has
answered. Beside them it keeps its history: what was sent, who asked, what each
request was handed, and which requests were refused because the mailbox is closed.

`delivered` is the sequence of messages in the order in which the requests that got
them *arrived*, not the order in which they were served. The law of a mailbox
(`Lawful`) is that this sequence followed by the queue is exactly what was sent. -/
namespace V8Multithread
open List

structure Mailbox (μ ρ : Type) where
  queue : List μ
  waiting : List ρ
  closed : Bool
  sent : List μ
  requests : List ρ
  handed : List (ρ × μ)
  refused : List ρ

namespace Mailbox
variable {μ ρ : Type}

def empty : Mailbox μ ρ := ⟨[], [], false, [], [], [], []⟩

/-- A message goes to the request that has waited longest, else to the queue. -/
def send (b : Mailbox μ ρ) (m : μ) : Mailbox μ ρ :=
  match b.waiting with
  | r :: rest =>
    {b with waiting := rest, sent := b.sent ++ [m], handed := b.handed ++ [(r, m)]}
  | [] => {b with queue := b.queue ++ [m], sent := b.sent ++ [m]}

/-- A request takes the oldest message, else is refused or waits. -/
def recv (b : Mailbox μ ρ) (r : ρ) : Mailbox μ ρ :=
  match b.queue with
  | m :: rest =>
    {b with queue := rest, requests := b.requests ++ [r], handed := b.handed ++ [(r, m)]}
  | [] =>
    if b.closed then {b with requests := b.requests ++ [r], refused := b.refused ++ [r]}
    else {b with waiting := b.waiting ++ [r], requests := b.requests ++ [r]}

def close (b : Mailbox μ ρ) : Mailbox μ ρ :=
  {b with closed := true, waiting := [], refused := b.refused ++ b.waiting}

section Branches
variable {b : Mailbox μ ρ} {m : μ} {r q : ρ} {messages : List μ} {requests : List ρ}

theorem send_handed (hw : b.waiting = q :: requests) : b.send m =
      {b with waiting := requests, sent := b.sent ++ [m], handed := b.handed ++ [(q, m)]} := by
  simp only [send, hw]

theorem send_queued (hw : b.waiting = []) : b.send m = {b with queue := b.queue ++ [m], sent := b.sent ++ [m]} := by
  simp only [send, hw]

theorem recv_handed (hq : b.queue = m :: messages) : b.recv r =
      {b with queue := messages, requests := b.requests ++ [r], handed := b.handed ++ [(r, m)]} := by
  simp only [recv, hq]

theorem recv_refused (hq : b.queue = []) (hc : b.closed) :
    b.recv r = {b with requests := b.requests ++ [r], refused := b.refused ++ [r]} := by
  unfold recv
  rw [hq]
  exact if_pos hc

theorem recv_waits (hq : b.queue = []) (hc : b.closed = false) :
    b.recv r = {b with waiting := b.waiting ++ [r], requests := b.requests ++ [r]} := by
  unfold recv
  rw [hq]
  exact if_neg (by rw [hc]; exact Bool.false_ne_true)

end Branches

variable [DecidableEq ρ]

/-- What the requests got, in the order in which they arrived. -/
def delivered (b : Mailbox μ ρ) : List μ := b.requests.filterMap fun r => b.handed.lookup r

/-- `served` is the requests that no longer wait, in order of arrival. -/
structure Lawful (b : Mailbox μ ρ) (served : List ρ) : Prop where
  requests : b.requests = served ++ b.waiting
  distinct : b.requests.Nodup
  unanswered : ∀ r ∈ b.waiting, b.handed.lookup r = none
  known : ∀ r, r ∉ b.requests → b.handed.lookup r = none
  idle : b.waiting ≠ [] → b.queue = []
  open_waits : b.closed = true → b.waiting = []
  law : served.filterMap (fun r => b.handed.lookup r) ++ b.queue = b.sent

theorem empty_lawful : (empty : Mailbox μ ρ).Lawful [] :=
  ⟨rfl, nodup_nil, fun _ h => absurd h not_mem_nil, fun _ _ => rfl, fun _ => rfl,
    fun _ => rfl, rfl⟩

variable {r : ρ} {b : Mailbox μ ρ} {served : List ρ}

section Lookup

variable {h : List (ρ × μ)}

theorem lookup_append_of_ne {q : ρ} {m : μ} (hne : q ≠ r) : (h ++ [(r, m)]).lookup q = h.lookup q := by
  rw [lookup_append]
  have hbeq : (q == r) = false := beq_eq_false_iff_ne.mpr hne
  simp [List.lookup, hbeq]

theorem lookup_append_self {m : μ} (hno : h.lookup r = none) : (h ++ [(r, m)]).lookup r = some m := by
  rw [lookup_append, hno]
  simp [List.lookup]

/-- Handing `m` to a request outside the list does not change what the list got. -/
theorem filterMap_lookup_append {m : μ} {l : List ρ} (hr : r ∉ l) :
    l.filterMap (fun q => (h ++ [(r, m)]).lookup q) = l.filterMap fun q => h.lookup q := by
  apply filterMap_congr
  intro q hq
  exact lookup_append_of_ne fun heq => hr (heq ▸ hq)

end Lookup

section
variable (h : b.Lawful served)
include h

/-- The requests that wait have got nothing. -/
theorem Lawful.delivered_eq : b.delivered = served.filterMap fun r => b.handed.lookup r := by
  have hwa : b.waiting.filterMap (fun r => b.handed.lookup r) = [] := by
    rw [filterMap_eq_nil_iff]
    exact h.unanswered
  rw [delivered, h.requests, filterMap_append, hwa, append_nil]

theorem Lawful.delivered_append : b.delivered ++ b.queue = b.sent := by
  rw [h.delivered_eq]
  exact h.law

theorem Lawful.send (m : μ) : ∃ served', (b.send m).Lawful served' := by
  cases hw : b.waiting with
  | nil =>
    refine ⟨served, ?_⟩
    rw [send_queued hw]
    refine ⟨h.requests, h.distinct, h.unanswered, h.known, ?_, h.open_waits, ?_⟩
    · intro hne
      exact absurd hw hne
    · show served.filterMap (fun r => b.handed.lookup r) ++ (b.queue ++ [m]) = b.sent ++ [m]
      rw [← append_assoc, h.law]
  | cons r rest =>
    refine ⟨served ++ [r], ?_⟩
    have hreq : b.requests = served ++ r :: rest := by rw [h.requests, hw]
    have hdi : (served ++ r :: rest).Nodup := hreq ▸ h.distinct
    have hqueue : b.queue = [] := h.idle (by rw [hw]; exact cons_ne_nil r rest)
    have hse : r ∉ served := by
      intro hmem
      exact (nodup_append.mp hdi).2.2 r hmem r (mem_cons_self ..) rfl
    have hrest : r ∉ rest := (nodup_cons.mp (nodup_append.mp hdi).2.1).1
    have hno : b.handed.lookup r = none := h.unanswered r (by rw [hw]; exact mem_cons_self ..)
    rw [send_handed hw]
    refine ⟨?_, h.distinct, ?_, ?_, fun _ => hqueue, ?_, ?_⟩
    · show b.requests = served ++ [r] ++ rest
      rw [hreq, append_assoc]
      rfl
    · intro q hq
      have hqr : q ≠ r := by
        rintro rfl
        exact hrest hq
      rw [lookup_append_of_ne hqr]
      exact h.unanswered q (by rw [hw]; exact mem_cons_of_mem r hq)
    · intro q hq
      have hqr : q ≠ r := by
        rintro rfl
        exact hq (by rw [hreq]; simp)
      rw [lookup_append_of_ne hqr]
      exact h.known q hq
    · intro hc
      exact absurd (h.open_waits hc) (by rw [hw]; exact cons_ne_nil r rest)
    · show (served ++ [r]).filterMap (fun q => (b.handed ++ [(r, m)]).lookup q) ++ b.queue = b.sent ++ [m]
      have hlaw := h.law
      rw [hqueue, append_nil] at hlaw
      rw [filterMap_append, filterMap_lookup_append hse, hlaw, hqueue, append_nil]
      simp [lookup_append_self hno]

theorem Lawful.recv (hr : r ∉ b.requests) : ∃ served', (b.recv r).Lawful served' := by
  have hno : b.handed.lookup r = none := h.known r hr
  have hdi : (b.requests ++ [r]).Nodup := by
    rw [nodup_append]
    refine ⟨h.distinct, nodup_singleton r, ?_⟩
    intro q hq p hp heq
    rw [mem_singleton.mp hp] at heq
    exact hr (heq ▸ hq)
  cases hq : b.queue with
  | cons m rest =>
    -- a message at hand: nobody waits, so `r` is the last of the served
    have hwa : b.waiting = [] := by
      by_contra hne
      rw [h.idle hne] at hq
      cases hq
    have hreq : b.requests = served := by rw [h.requests, hwa, append_nil]
    refine ⟨served ++ [r], ?_⟩
    rw [recv_handed hq]
    refine ⟨?_, hdi, ?_, ?_, ?_, fun _ => hwa, ?_⟩
    · show b.requests ++ [r] = served ++ [r] ++ b.waiting
      rw [hreq, hwa, append_nil]
    · intro q hmem
      rw [hwa] at hmem
      exact absurd hmem not_mem_nil
    · intro q hmem
      have hq' := mem_append.not.mp hmem
      show (b.handed ++ [(r, m)]).lookup q = none
      rw [lookup_append_of_ne fun heq => hq' (.inr (mem_singleton.mpr heq))]
      exact h.known q fun hin => hq' (.inl hin)
    · intro hne
      exact absurd hwa hne
    · show (served ++ [r]).filterMap (fun q => (b.handed ++ [(r, m)]).lookup q) ++ rest = b.sent
      rw [filterMap_append, filterMap_lookup_append (hreq ▸ hr), ← h.law, hq]
      simp [lookup_append_self hno]
  | nil =>
    cases hc : b.closed with
    | true =>
      have hwa : b.waiting = [] := h.open_waits hc
      have hreq : b.requests = served := by rw [h.requests, hwa, append_nil]
      refine ⟨served ++ [r], ?_⟩
      rw [recv_refused hq hc]
      refine ⟨?_, hdi, h.unanswered, ?_, h.idle, h.open_waits, ?_⟩
      · show b.requests ++ [r] = served ++ [r] ++ b.waiting
        rw [hreq, hwa, append_nil]
      · intro q hmem
        exact h.known q fun hin => hmem (mem_append_left _ hin)
      · show (served ++ [r]).filterMap (fun q => b.handed.lookup q) ++ b.queue = b.sent
        rw [filterMap_append, ← h.law]
        simp [hno]
    | false =>
      refine ⟨served, ?_⟩
      rw [recv_waits hq hc]
      refine ⟨?_, hdi, ?_, ?_, fun _ => hq, ?_, h.law⟩
      · show b.requests ++ [r] = served ++ (b.waiting ++ [r])
        rw [h.requests, append_assoc]
      · intro q hmem
        rcases mem_append.mp hmem with hin | hin
        · exact h.unanswered q hin
        · rw [mem_singleton.mp hin]
          exact hno
      · intro q hmem
        exact h.known q fun hin => hmem (mem_append_left _ hin)
      · intro hc'
        rw [show b.closed = false from hc] at hc'
        cases hc'

theorem Lawful.close : ∃ served', b.close.Lawful served' := by
  refine ⟨served ++ b.waiting, ?_⟩
  refine ⟨?_, h.distinct, ?_, h.known, ?_, fun _ => rfl, ?_⟩
  · show b.requests = served ++ b.waiting ++ []
    rw [h.requests, append_nil]
  · intro r hr
    exact absurd hr not_mem_nil
  · intro hne
    exact absurd rfl hne
  · show (served ++ b.waiting).filterMap (fun r => b.handed.lookup r) ++ b.queue = b.sent
    have hdel := h.delivered_eq
    rw [delivered, h.requests] at hdel
    rw [hdel, h.law]

end

/-- Every request was handed a message, was refused or waits, and only one of these. -/
def Answered (b : Mailbox μ ρ) : Prop :=
  ∀ r, (b.handed.map Prod.fst).count r + b.refused.count r + b.waiting.count r = b.requests.count r

section
variable (h : b.Answered)
include h

theorem Answered.send (m : μ) : (b.send m).Answered := by
  intro r
  have := h r
  cases hw : b.waiting with
  | nil => simpa [send_queued hw] using this
  | cons q rest =>
    simp only [hw, send_handed hw, map_append, map_singleton, count_append, count_cons, count_nil] at this ⊢
    omega

theorem Answered.recv (q : ρ) : (b.recv q).Answered := by
  intro r
  have := h r
  unfold Mailbox.recv
  split
  · simp
    omega
  · split <;> simp <;> omega

theorem Answered.close : b.close.Answered := by
  intro r
  have := h r
  simp [Mailbox.close]
  omega

end

end Mailbox
end V8Multithread
