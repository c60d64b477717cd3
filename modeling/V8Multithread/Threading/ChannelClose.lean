import V8Multithread.Threading.ChannelPressure

/-! Whether closing is final.

`RecvInternal` answers that the channel is closed when, under the mutex, `closed` is
set and `messages` is empty. `Send` tests `closed` too, but before it takes the
mutex: a sender that read an open channel may enter its critical section after the
close, and then `lateRun` happens — a receiver is told the end, and a later one is
given a message.

`InTime` is the missing test: no `Send` enters in a state that `RecvInternal` would
answer as closed. In a run that meets it, the first such answer is the last word. -/
namespace V8Multithread.Threading.Channel.State
open List
variable {V : Type}

/-- `RecvInternal`'s test for the end of the channel. -/
def Drained (s : State V) : Prop := s.channel.closed = true ∧ s.channel.messages = []

/-- A `Send` that gets as far as its critical section does not find the end there. -/
def InTime (s : State V) : Action → Prop
  | .sendEnter thread => s.entering thread ≠ none → ¬ s.Drained
  | _ => True

/-- Whoever has been told the end was told the truth, and it still is. -/
def Final (s : State V) : Prop := s.refused ≠ [] → s.Drained

variable {s s' : State V} {host : Host V} {a : Action}

theorem InTime.not_drained {thread : Nat} {args : SendArgs} {msg : ChannelMessage}
    (h : s.InTime (.sendEnter thread)) (he : s.entering thread = some (args, msg)) :
    ¬ s.Drained := by
  apply h
  rw [he]
  exact Option.some_ne_none _

theorem Final.effect (hp : s.channel.Pressed) (h : s.Final) (hok : s.InTime a) (he : Effect host s a s') : s'.Final := by
  intro hre
  cases he with
  | off | run => exact h hre
  | handOff _ _ hr =>
    -- a parked receiver means an open channel, so nobody has been refused
    obtain ⟨tasks, deleted, hframe, _⟩ := dispatch_frame host _ _ _ _
    rw [hframe] at hre
    have ho := (hp.starved (by rw [hr]; exact cons_ne_nil _ _)).2.2
    have hcl := (h hre).1
    rw [ho] at hcl
    cases hcl
  | parkSender _ he | enqueue _ he => exact absurd (h hre) (hok.not_drained he)
  | refuse hc hm => exact ⟨hc, hm⟩
  | take hm =>
    have hnil := (h hre).2
    rw [hm] at hnil
    cases hnil
  | takeWaking hm =>
    obtain ⟨tasks, deleted, hframe, _⟩ := dispatch_frame host _ _ _ _
    rw [hframe] at hre
    have hnil := (h hre).2
    rw [hm] at hnil
    cases hnil
  | parkReceiver hc =>
    have hcl := (h hre).1
    rw [hc] at hcl
    cases hcl
  | close =>
    obtain ⟨tasks, deleted, hframe, _⟩ := closeChannel_frame host s
    rw [hframe] at hre ⊢
    refine ⟨rfl, ?_⟩
    by_cases hpa : s.channel.pendingReceivers = []
    · refine (h ?_).2
      intro hnil
      apply hre
      simp only [hnil, hpa, map_nil, append_nil]
    · exact (hp.starved hpa).1

/-- After the end nothing is sent and nothing is handed out. -/
theorem Drained.quiet (h : s.Drained) (hok : s.InTime a) (he : Effect host s a s') :
    s'.sends = s.sends ∧ s'.handed = s.handed ∧ ∀ r ∈ s.refused, r ∈ s'.refused := by
  cases he with
  | handOff _ he | parkSender _ he | enqueue _ he => exact absurd h (hok.not_drained he)
  | take hm | takeWaking hm =>
    rw [h.2] at hm
    cases hm
  | refuse => exact ⟨rfl, rfl, fun _ hr => mem_append_left _ hr⟩
  | close =>
    obtain ⟨tasks, deleted, hframe, _⟩ := closeChannel_frame host s
    rw [hframe]
    exact ⟨rfl, rfl, fun _ hr => mem_append_left _ hr⟩
  | _ => exact ⟨rfl, rfl, fun _ hr => hr⟩

/-- What a run that meets `InTime` keeps. -/
theorem final_run {t : State V} {as : List Action} (hs : s.Sound ∧ s.Final)
    (hrun : (machine host).run s as = some t) (hme : (machine host).Meets InTime s as) :
    t.Sound ∧ t.Final := by
  refine Machine.invariant_of_meets (I := fun s => s.Sound ∧ s.Final) ?_ hs hrun hme
  intro s a s' h hok hst
  have he := step_effect hst
  exact ⟨h.1.effect he, h.2.effect h.1.pressed hok he⟩

/-- **Closing is final** in every run in which no `Send` enters a drained channel:
once a request has been answered as closed, no message is added and none delivered. -/
theorem close_final (host : Host V) (capacity : Nat) (before after : List Action) (s t : State V)
    (hbefore : (machine host).run (initial (.new capacity)) before = some s)
    (hafter : (machine host).run s after = some t)
    (hmeets : (machine host).Meets InTime (initial (.new capacity)) (before ++ after))
    (hrefused : s.refused ≠ []) :
    t.sends = s.sends ∧ t.handed = s.handed := by
  obtain ⟨hleft, hright⟩ := Machine.meets_append hmeets hbefore
  have hs := final_run ⟨initial_sound capacity, fun h => absurd rfl h⟩ hbefore hleft
  have hinv : (t.Sound ∧ t.Final) ∧ t.refused ≠ [] ∧ t.sends = s.sends ∧ t.handed = s.handed := by
    refine Machine.invariant_of_meets
      (I := fun t => (t.Sound ∧ t.Final) ∧ t.refused ≠ [] ∧ t.sends = s.sends ∧ t.handed = s.handed)
      ?_ ⟨hs, hrefused, rfl, rfl⟩ hafter hright
    rintro u a u' ⟨⟨hsound, hfinal⟩, hne, hsends, hhanded⟩ hok hstep
    have he := step_effect hstep
    obtain ⟨hsends', hhanded', hrefused'⟩ := (hfinal hne).quiet hok he
    refine ⟨⟨hsound.effect he, hfinal.effect hsound.pressed hok he⟩, ?_, ?_, ?_⟩
    · obtain ⟨r, hr⟩ := exists_mem_of_ne_nil _ hne
      exact ne_nil_of_mem (hrefused' r hr)
    · rw [hsends', hsends]
    · rw [hhanded', hhanded]
  exact hinv.2.2

/-- A send in time, a close, and two requests: one gets the message, one the end. -/
def timelyRun : List Action :=
  [.sendCheck 1 (workerSend 10), .sendEnter 1, .close 0 ⟨1, true⟩, .recv 0 outsideRecv, .recv 0 outsideRecv]

theorem close_final_timelyRun : ∃ s t, (machine plainHost).run (initial (.new 1)) timelyRun = some s ∧ s.refused = [2] ∧
      (machine plainHost).run s [.recv 0 outsideRecv] = some t ∧ t.handed = s.handed := by
  refine ⟨_, _, rfl, rfl, rfl, ?_⟩
  refine (close_final plainHost 1 timelyRun [.recv 0 outsideRecv] _ _ rfl rfl ?_ ?_).2
  · refine ⟨trivial, ?_, trivial, trivial, trivial, trivial, trivial⟩
    intro _ hdrained
    exact absurd hdrained.1 (by decide)
  · decide

/-- A sender reads an open channel; the channel is closed and a request is told so;
then the sender enters and a later request is given its message. -/
def lateRun : List Action :=
  [.sendCheck 1 (workerSend 10), .close 0 ⟨1, true⟩, .recv 0 outsideRecv]

theorem late_send_delivered : ∃ s t, (machine plainHost).run (initial (.new 1)) lateRun = some s ∧ s.refused ≠ [] ∧
      (machine plainHost).run s [.sendEnter 1, .recv 0 outsideRecv] = some t ∧
      s.sends = [] ∧ t.sends = [(1, ⟨[10], []⟩)] ∧ s.handed = [] ∧ t.handed = [(2, ⟨[10], []⟩)] :=
  ⟨_, _, rfl, by decide, rfl, rfl, rfl, rfl, rfl⟩

end V8Multithread.Threading.Channel.State
