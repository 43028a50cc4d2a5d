import PosixSignals.Proofs.Process.Vigilance

/-!
# Waits for signals

A wait for the signals of a set is a loop. One turn of it looks at the status
first, then for a signal of the set, then for others that are to be
delivered, and last at the clock; so whatever ends the wait, the conditions
looked at before do not hold. If it blocks and its deadline passes without a
notification, they still do not, because nothing has been missed.
-/

namespace PosixSignals

namespace Process

variable {p q : Process} {pid : Pid} {now : Nat} {fs : List Frame} {m : SignalSet} {w : AnyWait}
  {y : Listener} {info : SignalInfo} {sig : Signal} {failed : Errno → Prop} {r : Reply}

/-! ## What a wait comes to -/

/-- No signal that a wait is for is pending. -/
def Lacks (p : Process) (w : AnyWait) : Prop := ∀ sig ∈ p.inbox.pending, sig ∉ w.set

/-- **A wait takes a signal**: the lowest of its set that is pending, with what is recorded for
it, and nothing else. -/
structure Picks (w : AnyWait) (info : SignalInfo) (p q : Process) : Prop where
  pending : info.signal ∈ p.inbox.pending
  wanted : info.signal ∈ w.set
  least : ∀ sig ∈ p.inbox.pending, sig ∈ w.set → info.signal.number ≤ sig.number
  recorded : (p.inbox.take info.signal).1 = info
  left : ∀ sig, sig ∈ q.inbox.pending ↔ sig ∈ p.inbox.pending ∧ sig ≠ info.signal
  others : ∀ sig, sig ≠ info.signal → q.inbox.info? sig = p.inbox.info? sig

/-- **How a wait ends** by the step of a process from `p` to `q` at the time `now`, with the errors
of handlers that `failed`: whatever it is not, nothing is taken, and but for an end and a failed
handler the process was normal. -/
inductive WaitEnds (w : AnyWait) (now : Nat) (failed : Errno → Prop) (p q : Process) (r : Reply) :
    Prop
  | takes {info : SignalInfo} (hr : r = .ok (.taken (some info))) (hn : p.status = .normal)
      (h : Picks w info p q)
  | ended (hr : r = .error .mustExit) (he : p.status.isExited = true)
  /-- Only a wait with a timeout is interrupted, by a signal outside its set. -/
  | interrupted (hr : r = .error .intr) (hb : w.bounded = true) (hn : p.status = .normal)
      (hl : p.Lacks w) (hout : ∃ sig ∈ p.inbox.pending, sig ∉ w.set ∧ sig ∉ p.inbox.blocked)
      (hq : q.inbox = p.inbox.withMask w.saved)
  | expired {d : Nat} (hr : r = .ok (.taken none)) (hd : w.deadline = some d) (hlate : d ≤ now)
      (hn : p.status = .normal) (hl : p.Lacks w) (hdelivered : p.Delivered)
      (hq : q.inbox = p.inbox.withMask w.saved)
  /-- A handler that a wait without a timeout has run comes back with an error. -/
  | broken {e : Errno} (hr : r = .error e) (hb : w.bounded = false) (he : failed e)

theorem WaitEnds.mono {failed' : Errno → Prop} (h : WaitEnds w now failed p q r)
    (hf : ∀ e, failed e → failed' e) : WaitEnds w now failed' p q r := by
  cases h with
  | takes hr hn h => exact .takes hr hn h
  | ended hr he => exact .ended hr he
  | interrupted hr hb hn hl hout hq => exact .interrupted hr hb hn hl hout hq
  | expired hr hd hlate hn hl hdelivered hq => exact .expired hr hd hlate hn hl hdelivered hq
  | broken hr hb he => exact .broken hr hb (hf _ he)

/-- **Who has ended is told so**, unless a handler has failed. -/
theorem WaitEnds.of_isExited (h : WaitEnds w now failed p q r) (he : p.status.isExited = true) :
    r = .error .mustExit ∨ ∃ e, r = .error e ∧ failed e := by
  have hlive : p.status ≠ .normal := fun hn => by
    rw [hn] at he
    cases he
  cases h with
  | takes _ hn | interrupted _ _ hn | expired _ _ _ hn => exact absurd hn hlive
  | ended hr => exact .inl hr
  | broken hr _ he => exact .inr ⟨_, hr, he⟩

/-! ## A turn -/

/-- **What a turn of a wait comes to** over the frames `fs` and under the mask `m`. -/
inductive WaitTurn (now : Nat) (w : AnyWait) (p : Process) (fs : List Frame) (m : SignalSet)
    (c : Process × List Event) : Prop
  | ends {r : Reply} (hx : c.1.context? = some ⟨fs, .reply r, w.saved \ .uncatchable⟩)
      (h : WaitEnds w now (fun _ => False) p c.1 r)
  | pauses {y : Listener} (hst : p.status.isStopped = true)
      (hx : c.1.context? = some ⟨fs, .blocked (.waitAny w) y, m⟩)
  | serves (hn : p.status = .normal) (hl : p.Lacks w) (hd : ¬ p.Delivered) (hb : w.bounded = false)
      (hx : c.1.context? = some ⟨.waiting w :: fs, .loop (.check false), m⟩)
  | blocks {y : Listener} (hn : p.status = .normal) (hl : p.Lacks w) (hd : p.Delivered)
      (hlate : expired now w.deadline = false)
      (hx : c.1.context? = some ⟨fs, .blocked (.waitAny w) y, m⟩)

/-- The first signal of the set that is pending is the one to take. -/
theorem picks_of_first? (hbox : p.inbox.Sound) (h : (p.inbox.pending ∩ w.set).first? = some sig)
    (hq : q.inbox = (p.inbox.take sig).2.withMask w.saved) :
    Picks w (p.inbox.take sig).1 p q := by
  have hsig := hbox.take_signal sig
  obtain ⟨hp, hw⟩ := SignalSet.mem_inter.1 (SignalSet.mem_of_first? h)
  refine ⟨by rwa [hsig], by rwa [hsig], fun other ho hw' => ?_, by rw [hsig], fun other => ?_,
    fun other hne => ?_⟩
  · rw [hsig]
    exact SignalSet.le_of_first? h (SignalSet.mem_inter.2 ⟨ho, hw'⟩)
  · rw [hq, hsig]
    exact SignalSet.mem_sdiff.trans (and_congr_right' (not_congr SignalSet.mem_single))
  · rw [hsig] at hne
    rw [hq]
    exact Inbox.info?_set.trans (if_neg (Ne.symm hne))

/-- **A turn of a wait.** -/
theorem turn_waitAny (hbox : p.inbox.Sound) (hk : p.inbox.pending.Known)
    (hx : p.context? = some ⟨fs, .loop (.waitAny w), m⟩) :
    p.WaitTurn now w fs m (p.waitAny now w) := by
  have hleave : ∀ r, (p.leaveWait w r).context? = some ⟨fs, .reply r, w.saved \ .uncatchable⟩ :=
    fun r => by simp [hx]
  have hblock : ∀ y, (p.goto (.blocked (.waitAny w) y)).context? =
      some ⟨fs, .blocked (.waitAny w) y, m⟩ := fun y => by simp [hx]
  have hwaited := p.waited now w
  generalize p.waitAny now w = r at hwaited ⊢
  cases hwaited with
  | ended he => exact .ends (hleave _) (.ended rfl he)
  | stopped hst => exact .pauses hst (hblock _)
  | took hn hs =>
    exact .ends (by simp [without, context?_inbox, hx])
      (.takes rfl hn (picks_of_first? hbox hs rfl))
  | interrupted hn hl hd hb =>
    obtain ⟨sig, hp, hout⟩ := Inbox.exists_of_hasDeliverable hk hd
    exact .ends (hleave _) (.interrupted rfl hb hn hl ⟨sig, hp, hl sig hp, hout⟩ rfl)
  | serves hn hl hd hb =>
    obtain ⟨sig, hp, hout⟩ := Inbox.exists_of_hasDeliverable hk hd
    exact .serves hn hl (fun hdelivered => hout (hdelivered sig hp)) hb (by simp [hx])
  | expired hn hl hd hlate =>
    obtain ⟨d, hd', hle⟩ := (Option.any_eq_true _ _).1 hlate
    exact .ends (hleave _) (.expired rfl hd' (by simpa using hle) hn hl
      (delivered_of_hasDeliverable hd) rfl)
  | blocked hn hl hd hlate =>
    exact .blocks hn hl (delivered_of_hasDeliverable hd) hlate (hblock _)

section Turn

variable {c : Process × List Event} (h : p.WaitTurn now w fs m c)
include h

/-- Who has ended leaves the wait, and is told so. -/
theorem WaitTurn.of_isExited (he : p.status.isExited = true) :
    c.1.context? = some ⟨fs, .reply (.error .mustExit), w.saved \ .uncatchable⟩ := by
  have hlive : p.status ≠ .normal := fun hn => by simp [hn, Status.isExited] at he
  cases h with
  | ends hx h =>
    rcases h.of_isExited he with rfl | ⟨e, -, hfalse⟩
    · exact hx
    · exact hfalse.elim
  | pauses hst => cases hs : p.status <;> simp [hs, Status.isExited, Status.isStopped] at he hst
  | serves hn | blocks hn => exact absurd hn hlive

variable (hn : p.status = .normal)
include hn

/-- A normal process takes a signal of the set if there is one. -/
theorem WaitTurn.of_not_lacks (hl : ¬ p.Lacks w) : ∃ info,
    c.1.context? = some ⟨fs, .reply (.ok (.taken (some info))), w.saved \ .uncatchable⟩ := by
  cases h with
  | ends hx h =>
    cases h with
    | takes hr => exact ⟨_, hr ▸ hx⟩
    | ended _ he => simp [hn, Status.isExited] at he
    | interrupted _ _ _ hl' | expired _ _ _ _ hl' => exact absurd hl' hl
    | broken _ _ he => exact he.elim
  | pauses hst => simp [hn, Status.isStopped] at hst
  | serves _ hl' | blocks _ hl' => exact absurd hl' hl

variable (hl : p.Lacks w)
include hl

/-- If there is none, others that are to be delivered end a wait with a timeout, and a wait without
one has them delivered in place. -/
theorem WaitTurn.of_not_delivered (hd : ¬ p.Delivered) :
    (w.bounded = false → c.1.context? = some ⟨.waiting w :: fs, .loop (.check false), m⟩) ∧
    (w.bounded = true →
      c.1.context? = some ⟨fs, .reply (.error .intr), w.saved \ .uncatchable⟩) := by
  cases h with
  | ends hx h =>
    cases h with
    | takes _ _ h => exact absurd h.wanted (hl _ h.pending)
    | ended _ he => simp [hn, Status.isExited] at he
    | interrupted hr hb => exact ⟨fun hb' => by simp [hb] at hb', fun _ => hr ▸ hx⟩
    | expired _ _ _ _ _ hd' => exact absurd hd' hd
    | broken _ _ he => exact he.elim
  | pauses hst => simp [hn, Status.isStopped] at hst
  | serves _ _ _ hb hx => exact ⟨fun _ => hx, fun hb' => by simp [hb] at hb'⟩
  | blocks _ _ hd' => exact absurd hd' hd

/-- And if there are no others either, the wait is over once its deadline has passed. -/
theorem WaitTurn.of_late (hd : p.Delivered) {d : Nat} (hdeadline : w.deadline = some d)
    (hle : d ≤ now) :
    c.1.context? = some ⟨fs, .reply (.ok (.taken none)), w.saved \ .uncatchable⟩ := by
  cases h with
  | ends hx h =>
    cases h with
    | takes _ _ h => exact absurd h.wanted (hl _ h.pending)
    | ended _ he => simp [hn, Status.isExited] at he
    | interrupted _ _ _ _ hout =>
      obtain ⟨sig, hp, -, hb⟩ := hout
      exact absurd (hd sig hp) hb
    | expired hr => exact hr ▸ hx
    | broken _ _ he => exact he.elim
  | pauses hst => simp [hn, Status.isStopped] at hst
  | serves _ _ hd' => exact absurd hd hd'
  | blocks _ _ _ hlate =>
    simp [expired, hdeadline] at hlate
    omega

end Turn

/-- **What a blocked wait comes to**: it looks again, or stays blocked, or its deadline has
passed and nothing has come. -/
theorem awaken_waitAny (now : Nat) (hx : p.context? = some ⟨fs, .blocked (.waitAny w) y, m⟩)
    (hrelies : p.Relies (.waitAny w) y) :
    (p.awaken now (.waitAny w) y).context? = some ⟨fs, .loop (.waitAny w), m⟩ ∨
    (p.awaken now (.waitAny w) y).context? = some ⟨fs, .blocked (.waitAny w) y, m⟩ ∨
    ∃ r, (p.awaken now (.waitAny w) y).context? = some ⟨fs, .reply r, w.saved \ .uncatchable⟩ ∧
      WaitEnds w now (fun _ => False) p (p.awaken now (.waitAny w) y) r := by
  have hawoken := p.awoken now (.waitAny w) y
  generalize p.awaken now (.waitAny w) y = q at hawoken ⊢
  cases hawoken with
  | looks => exact .inl (by simp [hx])
  | left hnot hlate =>
    have hseen : p.notices y.occasion = y.seen := by simpa [notified] using hnot
    obtain ⟨d, hd, hle⟩ := (Option.any_eq_true _ _).1 hlate
    rcases hrelies.awaits hseen.symm with ⟨-, hdeadline⟩ | ⟨hn, hdeadline, hl, hdelivered⟩
    · simp [hdeadline] at hd
    · exact .inr (.inr ⟨_, by simp [hx], .expired rfl (hdeadline ▸ hd) (by simpa using hle)
        hn hl hdelivered rfl⟩)
  | rests => exact .inr (.inl hx)

/-- **A blocked wait that can go on does so**: it looks again, or its time is up. -/
theorem awaken_waitAny_of_isRunnable
    (hx : p.context? = some ⟨fs, .blocked (.waitAny w) y, m⟩) (hrun : p.isRunnable now = true) :
    (p.awaken now (.waitAny w) y).context? = some ⟨fs, .loop (.waitAny w), m⟩ ∨
    (p.awaken now (.waitAny w) y).context? =
      some ⟨fs, .reply (.ok (.taken none)), w.saved \ .uncatchable⟩ := by
  obtain ⟨root, ht, -⟩ := context?_eq_some.1 hx
  have hgo : (p.notified y || expired now y.deadline) = true := by simpa [isRunnable, ht] using hrun
  have hawoken := p.awoken now (.waitAny w) y
  generalize p.awaken now (.waitAny w) y = q at hawoken ⊢
  cases hawoken with
  | looks => exact .inl (by simp [hx])
  | left => exact .inr (by simp [hx])
  | rests hn hlate => simp [hn, hlate] at hgo

end Process

end PosixSignals
