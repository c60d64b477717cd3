import V8Multithread.Base.Mailbox
import V8Multithread.Threading.ChannelPressure

/-! The channel is a mailbox.

A message in the channel is in `messages` or in the payload of a parked sender. Read
as one queue, the two are the queue of a `Mailbox`, and the critical sections of
`Send`, `RecvInternal` and `Close` are its operations; capacity only decides on which
side of the seam a message stands. Every step of the channel's machine is one such
operation or none (`mailbox_effect`), so the law of the mailbox is a law of the
channel: first sent, first asked for, first served, whatever the route. -/
namespace V8Multithread.Threading.Channel.State
open List Mailbox
variable {V : Type}

/-- The channel and its history, read as a mailbox. -/
def mailbox (s : State V) : Mailbox ChannelMessage Resolver where
  queue := s.channel.messages ++ s.channel.pendingSenders.map (·.msg)
  waiting := s.parkedRequests
  closed := s.channel.closed
  sent := s.sends.map Prod.snd
  requests := s.requests
  handed := s.handed
  refused := s.refused

inductive MailboxStep (s : State V) : Mailbox ChannelMessage Resolver → Prop where
  | none : MailboxStep s s.mailbox
  | send (msg : ChannelMessage) : MailboxStep s (s.mailbox.send msg)
  | recv : MailboxStep s (s.mailbox.recv s.fresh)
  | close : MailboxStep s s.mailbox.close

variable {s : State V} {host : Host V}

theorem mailbox_waiting {receivers : List PendingReceiver} (hr : s.channel.pendingReceivers = receivers) :
    s.mailbox.waiting = receivers.map (·.resolver) := by
  simp only [mailbox, parkedRequests, hr]

theorem mailbox_queue_cons {msg : ChannelMessage} {rest : List ChannelMessage} (hm : s.channel.messages = msg :: rest) :
    s.mailbox.queue = msg :: (rest ++ s.channel.pendingSenders.map (·.msg)) := by
  simp only [mailbox, hm, cons_append]

/-- An empty `messages` is an empty mailbox: nobody is parked behind it. -/
theorem mailbox_queue_nil (h : s.channel.Pressed) (hm : s.channel.messages = []) : s.mailbox.queue = [] := by
  simp only [mailbox, hm, h.no_senders hm, map_nil, append_nil]

theorem mailbox_effect {s' : State V} {a : Action} (h : s.channel.Pressed) (he : Effect host s a s') :
    MailboxStep s s'.mailbox := by
  cases he with
  | off | run => exact .none
  | @handOff _ _ msg _ _ _ _ hr =>
    obtain ⟨tasks, deleted, hframe, _⟩ := dispatch_frame host _ _ _ _
    rw [hframe]
    have := MailboxStep.send (s := s) msg
    rw [send_handed (mailbox_waiting hr)] at this
    simpa only [mailbox, settle, parkedRequests, map_append, map_cons, map_nil] using this
  | @parkSender _ _ msg _ _ hr =>
    have := MailboxStep.send (s := s) msg
    rw [send_queued (mailbox_waiting hr)] at this
    simpa only [mailbox, parkedRequests, map_append, map_cons, map_nil, append_assoc] using this
  | @enqueue _ _ msg _ _ hr hroom =>
    -- room in the queue means that no sender is parked, so the end of `messages` is the end
    have hs : s.channel.pendingSenders = [] := by
      by_contra hne
      obtain ⟨hpos, hlen⟩ := h.full hne
      exact hroom ⟨hpos, le_of_eq hlen.symm⟩
    have := MailboxStep.send (s := s) msg
    rw [send_queued (mailbox_waiting hr)] at this
    simpa only [mailbox, settle, parkedRequests, hs, map_append, map_cons, map_nil, append_nil] using this
  | refuse hc hm =>
    have := MailboxStep.recv (s := s)
    rw [recv_refused (mailbox_queue_nil h hm) hc] at this
    exact this
  | take hm hs =>
    have := MailboxStep.recv (s := s)
    rw [recv_handed (mailbox_queue_cons hm)] at this
    exact this
  | @takeWaking _ _ _ rest pending others hm hs =>
    obtain ⟨tasks, deleted, hframe, _⟩ := dispatch_frame host _ _ _ _
    rw [hframe]
    have := MailboxStep.recv (s := s)
    rw [recv_handed (mailbox_queue_cons hm), hs] at this
    simpa only [mailbox, settle, parkedRequests, map_cons, append_assoc, singleton_append] using this
  | parkReceiver hc hm =>
    have := MailboxStep.recv (s := s)
    rw [recv_waits (mailbox_queue_nil h hm) hc] at this
    simpa only [mailbox, parkedRequests, map_append, map_cons, map_nil] using this
  | close =>
    obtain ⟨tasks, deleted, hframe, _⟩ := closeChannel_frame host s
    rw [hframe]
    exact .close

/-- Every step keeps the law of the mailbox. -/
theorem lawful_effect {s' : State V} {a : Action} (hs : s.Sound) (h : ∃ served, s.mailbox.Lawful served)
    (he : Effect host s a s') :
    ∃ served, s'.mailbox.Lawful served := by
  obtain ⟨served, hlaw⟩ := h
  have hst := mailbox_effect hs.pressed he
  generalize s'.mailbox = b at hst ⊢
  cases hst with
  | none => exact ⟨served, hlaw⟩
  | send msg => exact hlaw.send msg
  | recv => exact hlaw.recv fun hmem => lt_irrefl _ (hs.apart.requests_lt _ hmem)
  | close => exact hlaw.close

theorem run_lawful {capacity : Nat} {as : List Action} (hrun : (machine host).run (initial (.new capacity)) as = some s) :
    ∃ served, s.mailbox.Lawful served := by
  refine (Machine.invariant (I := fun s => s.Sound ∧ ∃ served, s.mailbox.Lawful served) ?_ ?_ hrun).2
  · intro s a s' h hst
    have he := step_effect hst
    exact ⟨h.1.effect he, lawful_effect h.1 h.2 he⟩
  · exact ⟨initial_sound capacity, [], empty_lawful⟩

/-- The messages the receive requests were given, in the order in which the requests
entered their critical sections; requests that wait or were refused are left out. -/
def delivered (s : State V) : List ChannelMessage :=
  s.requests.filterMap fun r => s.handed.lookup r

/-- **Exactly once, in order.** After any interleaving, what was delivered is what
was sent first, and the rest of what was sent is what the channel holds: the queue,
then the payloads of the parked senders. -/
theorem fifo_delivery (host : Host V) (capacity : Nat) (as : List Action) (s : State V)
    (hrun : (machine host).run (initial (.new capacity)) as = some s) :
    s.delivered <+: s.sends.map Prod.snd ∧
    s.sends.map Prod.snd = s.delivered ++ (s.channel.messages ++ s.channel.pendingSenders.map (·.msg)) := by
  obtain ⟨served, hlaw⟩ := run_lawful hrun
  have hsent : s.delivered ++ (s.channel.messages ++ s.channel.pendingSenders.map (·.msg)) =
      s.sends.map Prod.snd := hlaw.delivered_append
  exact ⟨⟨_, hsent⟩, hsent.symm⟩

/-- The run in which a parked message follows a queued one. -/
theorem fifo_delivery_wakingRun : ∃ s, (machine plainHost).run (initial (.new 1)) wakingRun = some s ∧
      s.delivered = [⟨[10], []⟩] ∧ s.delivered <+: s.sends.map Prod.snd :=
  ⟨_, rfl, by decide, (fifo_delivery plainHost 1 wakingRun _ rfl).1⟩

end V8Multithread.Threading.Channel.State
