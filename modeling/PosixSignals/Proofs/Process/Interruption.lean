import PosixSignals.Proofs.Process.Vigilance

/-!
# What interrupts a call

Three calls can be interrupted, and they find out in two ways. A sleep runs
check points and heeds what they deliver. A wait for signals with a timeout
and a wait for children look at what is pending and not blocked, before the
dispositions are looked at; what is there is delivered by the check point
at the end of the call. So the second kind is interrupted for nothing if
all that is there will be discarded. What others make pending is never of
that sort: a signal whose disposition is to discard it becomes pending only
where it is blocked. `Unserved` follows a call through all the places it
can be in while nothing has been delivered, and carries what is known there.
-/

namespace PosixSignals

/-- Whether delivery does nothing about a signal with this disposition. -/
def Disposition.discards {H : Type} (sig : Signal) : Disposition H → Bool
  | .default => sig.defaultAction.isIdle
  | .ignore => true
  | .handler _ => false

namespace SystemCall

variable {H : Type}

/-- The calls that signals can interrupt. -/
def isInterruptible : SystemCall H → Bool
  | .sigtimedwait _ (some _) | .wait4 .. | .nanosleep _ => true
  | _ => false

/-- Whether a call looks at what is pending and not blocked, and at nothing else, to
decide that it is interrupted. -/
def looksAhead : SystemCall H → Bool
  | .sigtimedwait .. | .wait4 .. => true
  | _ => false

/-- The signals that a call waits for, which do not interrupt it. -/
def awaited : SystemCall H → SignalSet
  | .sigtimedwait set _ => set \ .uncatchable
  | _ => ∅

end SystemCall

/-- Whether a signal is really delivered to a process: a handler starts, or a stop
is carried out. -/
def Event.delivers (pid : Pid) : Event → Bool
  | .entered .. => true
  | .stopped target _ => target == pid
  | _ => false

/-- What a call hands over is an interruption only if its body came to one. -/
theorem intr_of_handOver {call : SystemCall Handler} {r : Reply}
    (h : call.handOver (call.conclude r) = .error .intr) : r = .error .intr := by
  unfold SystemCall.handOver SystemCall.conclude at h
  split at h <;> simp_all
  split at h <;> simp_all

namespace Process

variable {p q r : Process} {pid : Pid} {now : Nat} {fs frames : List Frame} {c : Control}
  {m : SignalSet} {d : Bool} {sig : Signal} {info : SignalInfo} {call : SystemCall Handler}

/-- What goes on and does not block can go on. -/
theorem isRunnable_of_context? {frames : List Frame} (hx : p.context? = some ⟨frames, c, m⟩)
    (hc : c.isResting = false) : p.isRunnable now = true := by
  obtain ⟨root, ht, -⟩ := context?_eq_some.1 hx
  cases c <;> simp [isRunnable, ht, Control.isResting] at hc ⊢

/-! ## What there is to deliver -/

/-- Delivering the signal would do something. -/
def Effective (p : Process) (sig : Signal) : Prop := (p.dispositions.get sig).discards sig = false

/-- **Nothing that could be delivered would be discarded**, a set of signals aside. -/
def Clear (p : Process) (aside : SignalSet) : Prop :=
  ∀ sig ∈ p.inbox.pending, sig ∉ p.inbox.blocked → sig ∉ aside → p.Effective sig

/-- **A check point will find something to do**: the process has ended, or a signal is
there whose delivery does something. -/
def Pressed (p : Process) : Prop :=
  p.status.isExited = true ∨ ∃ sig ∈ p.inbox.pending, sig ∉ p.inbox.blocked ∧ p.Effective sig

/-- Where nothing would be discarded, whatever could be delivered is reason enough. -/
theorem Clear.pressed (h : p.Clear ∅) (hk : p.inbox.pending.Known)
    (hd : p.inbox.hasDeliverable = true) : p.Pressed := by
  obtain ⟨sig, hs, hb⟩ := Inbox.exists_of_hasDeliverable hk hd
  exact .inr ⟨sig, hs, hb, h sig hs hb (SignalSet.not_mem_empty sig)⟩

/-- The reason stays where at most the mask has become smaller. -/
theorem Pressed.mono (h : p.Pressed) (hs : q.status = p.status)
    (hd : q.dispositions = p.dispositions) (hp : q.inbox.pending = p.inbox.pending)
    (hb : ∀ sig ∈ q.inbox.blocked, sig ∈ p.inbox.blocked) : q.Pressed := by
  rcases h with he | ⟨sig, hsig, hnot, heff⟩
  · exact .inl (hs ▸ he)
  · refine .inr ⟨sig, hp ▸ hsig, fun hin => hnot (hb sig hin), ?_⟩
    unfold Effective
    rw [hd]
    exact heff

/-! ## What others send -/

/-- **What others do to a process**, as far as signals go: what becomes pending is
blocked, or its delivery does something. -/
structure Sent (p q : Process) : Prop extends Disturbed p q where
  news : ∀ sig ∈ q.inbox.pending,
    sig ∈ p.inbox.pending ∨ sig ∈ p.inbox.blocked ∨ p.Effective sig

theorem Sent.refl (p : Process) : p.Sent p := ⟨.refl p, fun _ h => .inl h⟩

theorem Sent.trans (h : p.Sent q) (h' : q.Sent r) : p.Sent r where
  toDisturbed := h.toDisturbed.trans h'.toDisturbed
  news sig hs := by
    rcases h'.news sig hs with hs | hb | he
    · exact h.news sig hs
    · exact .inr (.inl (h.blocked ▸ hb))
    · unfold Effective at he
      rw [h.dispositions] at he
      exact .inr (.inr he)

/-- A change that leaves the inbox alone. -/
theorem sent_of_inbox (hd : p.Disturbed q) (hi : q.inbox = p.inbox) : p.Sent q :=
  ⟨hd, fun _ hs => .inl (hi ▸ hs)⟩

theorem Shift.sent {c : Process × List Event} (h : p.Shift pid c) : p.Sent c.1 :=
  sent_of_inbox h.disturbed h.inbox

/-- **An inbox keeps nothing that would be discarded**, unless it is blocked. -/
theorem receive_news {outcome : Generated} {inbox : Inbox}
    (h : p.inbox.Reception info (p.dispositions.get info.signal) (outcome, inbox))
    (hs : sig ∈ inbox.pending) :
    sig ∈ p.inbox.pending ∨ sig ∈ p.inbox.blocked ∨ p.Effective sig := by
  rcases h.mem_pending hs with hold | rfl
  · exact .inl hold
  cases h with
  | atOnce | ignored | idle | acted => exact .inl hs
  | queued _ _ hb => exact .inr (.inl hb)
  | ready _ hd => exact .inr (.inr (by simp [Effective, hd, Disposition.discards]))

theorem sent_receive {outcome : Generated} {inbox : Inbox}
    (h : p.inbox.Reception info (p.dispositions.get info.signal) (outcome, inbox)) :
    p.Sent { p with inbox } where
  toDisturbed := ⟨rfl, rfl, rfl, rfl, rfl, h.grown, fun _ => rfl⟩
  news _ hs := receive_news h hs

theorem carried_sent : Carried pid info fun p c => p.Sent c.1 where
  append := .trans
  shift := Shift.sent
  receive := sent_receive
  wake p := sent_of_inbox (disturbed_wake p) rfl
  dropped := .refl

/-- **A signal generated against a process** becomes pending only if delivering it does
something, or if it is blocked. -/
theorem sent_generate : p.Sent (p.generate pid info).1 := carried_sent.generate p

theorem Clear.sent {aside : SignalSet} (h : p.Clear aside) (hs : p.Sent q) : q.Clear aside := by
  intro sig hpending hb ha
  unfold Effective
  rw [hs.dispositions]
  rw [hs.blocked] at hb
  rcases hs.news sig hpending with hold | hblocked | heff
  · exact h sig hold hb ha
  · exact absurd hblocked hb
  · exact heff

theorem Pressed.sent (h : p.Pressed) (hs : p.Sent q) : q.Pressed := by
  rcases h with he | ⟨sig, hsig, hb, heff⟩
  · exact .inl (hs.isExited he)
  · refine .inr ⟨sig, hs.inbox.mem_pending hsig, hs.blocked ▸ hb, ?_⟩
    unfold Effective
    rw [hs.dispositions]
    exact heff

/-! ## A turn of a check point -/

/-- **What a turn of a check point comes to**, for a call that nothing has been
delivered to: a delivery, the end of the check point, or another turn. -/
inductive Round (pid : Pid) (d : Bool) (p : Process) (fs : List Frame) (m : SignalSet)
    (r : Process × List Event) : Prop
  | delivers (h : ∃ e ∈ r.2, e.delivers pid = true)
  | ended (hx : r.1.context? = some ⟨fs, .reply (.error .mustExit), m⟩)
  | passed (hx : r.1.context? = some ⟨fs, .reply (.ok (.delivered d)), m⟩)
      (hn : p.status = .normal) (hd : p.Delivered)
  | goesOn {c : Control} {b : Bool} (hx : r.1.context? = some ⟨fs, c, m⟩)
      (hc : c.loop? = some (.check b)) (hb : b = true → d = true ∨ r.1.status.isExited = true)
      (he : p.status.isExited = true → r.1.status.isExited = true)
      (hp : p.Pressed → r.1.Pressed)

/-- A signal that a delivery discards can be taken: it was no reason to wake up. -/
theorem Pressed.without (h : p.Pressed) (hs : (p.dispositions.get sig).discards sig = true) :
    (p.without sig).Pressed := by
  rcases h with he | ⟨other, hother, hb, heff⟩
  · exact .inl he
  · refine .inr ⟨other, SignalSet.mem_sdiff.2 ⟨hother, fun hsame => ?_⟩, hb, heff⟩
    obtain rfl := SignalSet.mem_single.1 hsame
    simp [Effective, hs] at heff

/-- To take a signal is no change of the context. -/
theorem context?_without : (p.without sig).context? = p.context? := context?_congr rfl rfl

theorem round_act (hn : p.status = .normal) (hd : p.dispositions.get sig = .default)
    (hx : p.context? = some ⟨fs, .loop (.check d), m⟩) :
    p.Round pid d fs m (((p.without sig).act pid sig sig.defaultAction).1.goto
        (.loop (.check (d || !sig.defaultAction.isIdle))),
      .handling sig :: ((p.without sig).act pid sig sig.defaultAction).2) := by
  have hw : (p.without sig).context? = some ⟨fs, .loop (.check d), m⟩ := context?_without.trans hx
  have hnw : (p.without sig).status = .normal := hn
  cases hact : sig.defaultAction with
  | stop =>
    refine .delivers ⟨.stopped pid sig, ?_, by simp [Event.delivers]⟩
    simp [act_stop hnw]
  | ignore | «continue» =>
    refine .goesOn (c := .loop (.check d)) (b := d) (by simp [act, hw, DefaultAction.isIdle]) rfl
      .inl id fun hpressed => ?_
    have hwithout : (p.without sig).Pressed :=
      hpressed.without (by simp [hd, Disposition.discards, hact, DefaultAction.isIdle])
    exact hwithout.mono rfl rfl rfl fun _ h => h
  | terminate | coreDump =>
    have hends : ((p.without sig).act pid sig .terminate).1.status.isExited = true := by
      rw [act_terminate (hnw ▸ rfl)]
      rfl
    exact .goesOn (c := .loop (.check true)) (b := true) (by simp [hw, DefaultAction.isIdle]) rfl
      (fun _ => .inr hends) (fun _ => hends) fun _ => .inl hends

theorem round_check (hbox : p.inbox.Sound)
    (hx : p.context? = some ⟨fs, .loop (.check d), m⟩) :
    p.Round pid d fs m (p.check pid d) := by
  have hchecked := p.checked pid d
  generalize p.check pid d = r at hchecked ⊢
  cases hchecked with
  | ended => exact .ended (by simp [hx])
  | stopped =>
    exact .goesOn (c := .blocked (.check d) (p.listen .signal none)) (b := d) (by simp [hx]) rfl
      .inl id fun h => h.mono rfl rfl rfl fun _ h => h
  | passed hn hd => exact .passed (by simp [hx]) hn hd
  | @took sig _ hn _ h =>
    rw [hbox.take_signal] at h
    cases h with
    | ignored hd =>
      have hgoes : ((p.without sig).goto (.loop (.check d))).context? =
          some ⟨fs, .loop (.check d), m⟩ := by
        rw [context?_goto, context?_without, hx]
        rfl
      refine .goesOn (b := d) hgoes rfl .inl id fun hpressed => ?_
      rw [dispositions_without] at hd
      have hwithout : (p.without sig).Pressed := hpressed.without (by rw [hd]; rfl)
      exact hwithout.mono rfl rfl rfl fun _ h => h
    | default hd => exact round_act hn hd hx
    | entered => exact .delivers (by simp [deliver, Event.delivers])

/-! ## A call that nothing was delivered to -/

/-- **Where a call can be that nothing was delivered to**, since its body began over
the frames `fs`, with what is known there. -/
inductive Unserved (fs : List Frame) (call : SystemCall Handler) (p : Process) :
    List Frame → Control → Prop
  | starts (hi : call.isInterruptible = true) (h : call.looksAhead = true → p.Clear call.awaited) :
      Unserved fs call p (.callBody call :: fs) (.execute call)
  | waits {w : AnyWait} {c : Control} (hc : c.loop? = some (.waitAny w)) (hb : w.bounded = true)
      (hs : ∀ sig ∈ w.saved, sig ∈ p.inbox.blocked) (h : p.Clear ∅) :
      Unserved fs call p (.callBody call :: fs) c
  | expects {selector : Int} {noHang : Bool} {c : Control}
      (hc : c.loop? = some (.wait4 selector noHang)) (h : p.Clear ∅) :
      Unserved fs call p (.callBody call :: fs) c
  | sleeps {deadline : Option Nat} {c : Control} (hc : c.loop? = some (.sleep deadline)) :
      Unserved fs call p (.callBody call :: fs) c
  /-- The check point of a sleep has delivered nothing yet, or the process has ended. -/
  | naps {deadline : Option Nat} {n : Nat} {b : Bool} {c : Control}
      (hc : c.loop? = some (.check b)) (h : b = true → p.status.isExited = true) :
      Unserved fs call p (.asleep deadline n :: .callBody call :: fs) c
  | napped {deadline : Option Nat} {n : Nat} {r : Reply}
      (h : r = .error .mustExit ∨ r = .ok (.delivered false)) :
      Unserved fs call p (.asleep deadline n :: .callBody call :: fs) (.reply r)
  | comes {r : Reply} (h : r = .error .intr → p.Pressed) :
      Unserved fs call p (.callBody call :: fs) (.reply r)
  /-- The last check point of a call that was interrupted has a reason to deliver. -/
  | checks {result : Reply} {b : Bool} {c : Control} (hc : c.loop? = some (.check b))
      (h : result = .error .intr → p.Pressed) : Unserved fs call p (.callExit result :: fs) c
  | checked {result r : Reply}
      (h : r = .error .mustExit ∨ (∃ v, r = .ok v) ∧ result ≠ .error .intr) :
      Unserved fs call p (.callExit result :: fs) (.reply r)

/-- A call that has not come back has its frame on the stack. -/
theorem Unserved.length_lt (h : Unserved fs call p frames c) : fs.length < frames.length := by
  cases h <;> simp only [List.length_cons] <;> omega

/-- What others do leaves a call where it is, and what is known of it stays. -/
theorem Unserved.sent (h : Unserved fs call p frames c) (hs : p.Sent q) :
    Unserved fs call q frames c := by
  cases h with
  | starts hi h => exact .starts hi fun hl => (h hl).sent hs
  | waits hc hb hw h => exact .waits hc hb (fun sig hm => hs.blocked ▸ hw sig hm) (h.sent hs)
  | expects hc h => exact .expects hc (h.sent hs)
  | sleeps hc => exact .sleeps hc
  | naps hc h => exact .naps hc fun hb => hs.isExited (h hb)
  | napped h => exact .napped h
  | comes h => exact .comes fun hr => (h hr).sent hs
  | checks hc h => exact .checks hc fun hr => (h hr).sent hs
  | checked h => exact .checked h

/-- What comes of a step of such a call: a delivery, another place, or its return. -/
inductive Proceeds (fs : List Frame) (call : SystemCall Handler) (pid : Pid)
    (r : Process × List Event) : Prop
  | delivers (h : ∃ e ∈ r.2, e.delivers pid = true)
  | unserved {frames : List Frame} {c : Control} {m : SignalSet}
      (hx : r.1.context? = some ⟨frames, c, m⟩) (h : Unserved fs call r.1 frames c)
  | returned {reply : Reply} {m : SignalSet} (hx : r.1.context? = some ⟨fs, .reply reply, m⟩)
      (hr : reply ≠ .error .intr)

section Steps

variable {events : List Event} {f : Frame}

/-- The body comes to a result that is no interruption. -/
theorem proceeds_answer {reply : Reply} (hx : q.context? = some ⟨.callBody call :: fs, c, m⟩)
    (hr : reply ≠ .error .intr) : Proceeds fs call pid (q.answer reply, events) :=
  .unserved (by rw [context?_answer, hx]; rfl) (.comes fun h => absurd h hr)

/-- A wait is over. -/
theorem proceeds_leaveWait {w : AnyWait} {reply : Reply}
    (hx : q.context? = some ⟨.callBody call :: fs, c, m⟩)
    (hr : reply = .error .intr → (q.leaveWait w reply).Pressed) :
    Proceeds fs call pid (q.leaveWait w reply, events) :=
  .unserved (by rw [context?_leaveWait, hx]; rfl) (.comes hr)

/-- **A turn of a wait for signals with a timeout.** -/
theorem proceeds_waitAny {w : AnyWait} (hx : p.context? = some ⟨.callBody call :: fs, c, m⟩)
    (hk : p.inbox.pending.Known) (hb : w.bounded = true)
    (hs : ∀ sig ∈ w.saved, sig ∈ p.inbox.blocked) (h : p.Clear ∅) :
    Proceeds fs call pid (p.waitAny now w) := by
  have hwaited := p.waited now w
  generalize p.waitAny now w = r at hwaited ⊢
  cases hwaited with
  | ended | expired => exact proceeds_leaveWait hx (by simp)
  | stopped =>
    exact .unserved (c := .blocked (.waitAny w) (p.listen .signal none)) (by simp [hx]; rfl)
      (.waits rfl hb hs h)
  | interrupted _ _ hd =>
    -- the mask that is put back blocks no more than the one of the wait
    refine proceeds_leaveWait hx fun _ => (h.pressed hk hd).mono rfl rfl rfl fun sig hm => ?_
    exact hs sig (SignalSet.mem_sdiff.1 hm).1
  | serves _ _ _ hb' => simp [hb] at hb'
  | blocked =>
    exact .unserved (c := .blocked (.waitAny w) (p.listen .signal w.deadline)) (by simp [hx]; rfl)
      (.waits rfl hb hs h)
  | took => exact proceeds_leaveWait (context?_without.trans hx) (by simp)

/-- A sleep's check point is over. -/
theorem proceeds_finishSleep {deadline : Option Nat} {n : Nat} {reply : Reply}
    (hx : q.context? = some ⟨.callBody call :: fs, c, m⟩)
    (hr : reply = .error .mustExit ∨ reply = .ok (.delivered false)) :
    Proceeds fs call pid (q.finishSleep now deadline n reply, []) := by
  obtain rfl | rfl := hr
  · exact proceeds_answer hx (by simp)
  · simp only [finishSleep]
    split
    · exact proceeds_answer hx (by simp)
    · exact .unserved (c := .blocked (.sleep deadline) ⟨.signal, n, deadline⟩) (by simp [hx]; rfl)
        (.sleeps rfl)

/-- What blocks goes on blocking, looks again or has run out of time. -/
theorem proceeds_awaken {l : Loop} {y : Listener}
    (hx : p.context? = some ⟨frames, .blocked l y, m⟩)
    (hstays : Unserved fs call p frames (.blocked l y))
    (hlooks : Unserved fs call (p.goto (.loop l)) frames (.loop l))
    (hover : p.timeOut l = p.goto (.loop l) ∨ Proceeds fs call pid (p.timeOut l, [])) :
    Proceeds fs call pid (p.awaken now l y, []) := by
  have hagain : Proceeds fs call pid (p.goto (.loop l), []) :=
    .unserved (by rw [context?_goto, hx]; rfl) hlooks
  unfold awaken
  split
  · exact hagain
  split
  · rcases hover with hsame | hover
    · exact hsame ▸ hagain
    · exact hover
  · exact .unserved hx hstays

/-- **The check point of a sleep.** -/
theorem Round.naps {deadline : Option Nat} {n : Nat} {r : Process × List Event}
    (h : p.Round pid d (.asleep deadline n :: .callBody call :: fs) m r)
    (hd : d = true → p.status.isExited = true) : Proceeds fs call pid r := by
  cases h with
  | delivers h => exact .delivers h
  | ended hx => exact .unserved hx (.napped (.inl rfl))
  | passed hx hn =>
    have hfalse : d = false := by
      cases d with
      | false => rfl
      | true => simp [hn, Status.isExited] at hd
    exact .unserved hx (.napped (.inr (by rw [hfalse])))
  | goesOn hx hc hb he => exact .unserved hx (.naps hc fun h => (hb h).elim (fun h => he (hd h)) id)

/-- **The last check point of a call**: where there was a reason to deliver, it does
not come to its end without a delivery. -/
theorem Round.checks {result : Reply} {r : Process × List Event}
    (h : p.Round pid d (.callExit result :: fs) m r)
    (hp : result = .error .intr → p.Pressed) : Proceeds fs call pid r := by
  cases h with
  | delivers h => exact .delivers h
  | ended hx => exact .unserved hx (.checked (.inl rfl))
  | passed hx hn hd =>
    refine .unserved hx (.checked (.inr ⟨⟨_, rfl⟩, fun hintr => ?_⟩))
    rcases hp hintr with he | ⟨sig, hs, hb, -⟩
    · simp [hn, Status.isExited] at he
    · exact hb (hd sig hs)
  | goesOn hx hc _ _ hpressed => exact .unserved hx (.checks hc fun h => hpressed (hp h))

/-- **A step that the process takes alone.** -/
theorem Unserved.step {root : Bool} (h : Unserved fs call p frames c)
    (ht : p.task = some ⟨frames, c, root⟩) (hbox : p.inbox.Sound) (hk : p.inbox.pending.Known)
    (hl : c.isShared = false) : Proceeds fs call pid (p.step now pid ⟨frames, c, root⟩) := by
  have hx : p.context? = some ⟨frames, c, p.inbox.blocked⟩ := context?_eq_some.2 ⟨root, ht, rfl⟩
  cases h with
  | starts => simp [Control.isShared] at hl
  | waits hc hb hs h =>
    obtain rfl | ⟨y, rfl⟩ := Control.loop?_eq_some hc
    · exact proceeds_waitAny hx hk hb hs h
    · exact proceeds_awaken hx (.waits hc hb hs h) (.waits rfl hb hs h)
        (.inr (proceeds_leaveWait hx (by simp)))
  | expects hc h =>
    obtain rfl | ⟨y, rfl⟩ := Control.loop?_eq_some hc
    · simp [Control.isShared] at hl
    · exact proceeds_awaken hx (.expects hc h) (.expects rfl h) (.inl rfl)
  | sleeps hc =>
    obtain rfl | ⟨y, rfl⟩ := Control.loop?_eq_some hc
    · exact .unserved (c := .loop (.check false))
        (by simp [step, sleep, hx]; exact ⟨⟨rfl, rfl⟩, rfl⟩)
        (.naps rfl (by simp))
    · exact proceeds_awaken hx (.sleeps hc) (.sleeps rfl) (.inr (proceeds_answer hx (by simp)))
  | naps hc h =>
    obtain rfl | ⟨y, rfl⟩ := Control.loop?_eq_some hc
    · exact (round_check hbox hx).naps h
    · exact proceeds_awaken hx (.naps hc h) (.naps rfl h) (.inl rfl)
  | @napped deadline n r h =>
    have hpop : p.pop.context? = some ⟨.callBody call :: fs, .reply r, p.inbox.blocked⟩ := by
      rw [context?_pop, hx]
      rfl
    exact proceeds_finishSleep hpop h
  | comes h =>
    refine .unserved (by simp [step, accommodate, hx]; exact ⟨rfl, rfl, rfl⟩)
      (.checks rfl fun hr => ?_)
    exact (h (intr_of_handOver hr)).mono rfl rfl rfl fun _ h => h
  | checks hc h =>
    obtain rfl | ⟨y, rfl⟩ := Control.loop?_eq_some hc
    · exact (round_check hbox hx).checks h
    · exact proceeds_awaken hx (.checks hc h) (.checks rfl h) (.inl rfl)
  | checked h =>
    have hback : ∀ r, (p.pop.answer r).context? = some ⟨fs, .reply r, p.inbox.blocked⟩ := by
      intro r
      rw [context?_answer, context?_pop, hx]
      rfl
    rcases h with rfl | ⟨⟨v, rfl⟩, hresult⟩
    · exact .returned (hback _) (by simp)
    · exact .returned (hback _) hresult

/-! ## The body of a call -/

/-- A wait for signals begins, and blocks them as long as it lasts. -/
theorem proceeds_beginWaitAny {set : SignalSet} {timeout : Timeout} (hbox : p.inbox.Sound)
    (hx : p.context? = some ⟨.callBody call :: fs, c, m⟩)
    (h : p.Clear (set \ .uncatchable)) :
    Proceeds fs call pid (p.beginWaitAny now set (some timeout), []) := by
  let w : AnyWait := ⟨set \ .uncatchable, true, timeout.deadline? now, p.inbox.blocked⟩
  have hgoes : (p.beginWaitAny now set (some timeout)).context? = some ⟨.callBody call :: fs,
      .loop (.waitAny w), (p.inbox.changeMask .block (set \ .uncatchable)).blocked⟩ := by
    simp only [beginWaitAny, context?_goto, context?_inbox, hx, Option.map_some]
    rfl
  refine .unserved hgoes (.waits rfl rfl (fun sig hs => ?_) fun sig hs hb _ => ?_)
  · exact SignalSet.mem_sdiff_uncatchable (SignalSet.mem_union.2 (.inl hs))
      (hbox.blockable.catchable hs)
  · have hcatchable : sig.isUncatchable = false := hbox.catchable sig hs
    have hnot : sig ∉ p.inbox.blocked ∪ (set \ .uncatchable) := fun hm =>
      hb (SignalSet.mem_sdiff_uncatchable hm hcatchable)
    rw [SignalSet.mem_union, not_or] at hnot
    exact h sig hs hnot.1 hnot.2

/-- A wait for children is refused, or begins. -/
theorem proceeds_wait4 {selector : Int} {options : BitVec 32}
    (hx : p.context? = some ⟨.callBody call :: fs, c, m⟩) (h : p.Clear ∅) :
    Proceeds fs call pid (p.wait4 selector options) := by
  unfold wait4
  split
  · exact proceeds_answer hx (by simp)
  split
  · exact proceeds_answer hx (by simp)
  split
  · exact proceeds_answer hx (by simp)
  · exact .unserved (by rw [context?_goto, hx]; rfl) (.expects rfl h)

end Steps

end Process

end PosixSignals
