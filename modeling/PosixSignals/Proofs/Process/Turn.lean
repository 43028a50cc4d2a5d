import PosixSignals.Proofs.Process.Quiet
import PosixSignals.Proofs.Process.Search
import PosixSignals.Proofs.Task.Transition

/-!
# What a process does to itself

One step of a process, taken apart function by function: how its context
goes on, that its inbox stays sound and an end is not undone, and whether
a handler starts. All of it is in `Turn`, with one lemma for each function
that a step is made of.
-/

namespace PosixSignals

namespace Process

variable {p q : Process} {pid : Pid} {fs : List Frame} {c : Control} {m : SignalSet}

/-! ## Contexts -/

/-- Only the task and the mask show in a context. -/
theorem context?_congr (ht : q.task = p.task) (hb : q.inbox.blocked = p.inbox.blocked) :
    q.context? = p.context? := by
  simp only [context?, ht, hb]

/-- To move on changes the control alone. -/
@[simp] theorem context?_goto (c : Control) :
    (p.goto c).context? = p.context?.map fun x => { x with control := c } := by
  simp only [context?, goto, Option.map_map]
  rfl

/-- To answer is to move on. -/
@[simp] theorem context?_answer (r : Reply) :
    (p.answer r).context? = p.context?.map fun x => { x with control := .reply r } :=
  context?_goto _

/-- Where a process has moved on to, it is. -/
theorem control_of_goto {x : Context} (hx : (p.goto c).context? = some x) : x.control = c := by
  rw [context?_goto] at hx
  obtain ⟨y, -, rfl⟩ := Option.map_eq_some_iff.1 hx
  rfl

/-- To enter a frame puts it on the stack. -/
@[simp] theorem context?_enter (f : Frame) (c : Control) :
    (p.enter f c).context? =
      p.context?.map fun x => { x with frames := f :: x.frames, control := c } := by
  simp only [context?, enter, Option.map_map]
  rfl

/-- To leave it takes it off. -/
@[simp] theorem context?_pop :
    p.pop.context? = p.context?.map fun x => { x with frames := x.frames.tail } := by
  simp only [context?, pop, Option.map_map]
  rfl

/-- A change of the inbox shows as far as it changes the mask. -/
theorem context?_inbox (box : Inbox) :
    Process.context? { p with inbox := box } =
      p.context?.map fun x => { x with blocked := box.blocked } := by
  simp only [context?, Option.map_map]
  rfl

/-- To put back a mask changes the mask alone, and never blocks `kill` and `stop`. -/
@[simp] theorem context?_restore (saved : SignalSet) :
    (p.restore saved).context? =
      p.context?.map fun x => { x with blocked := saved \ .uncatchable } :=
  context?_inbox _

/-- **A construct that saved a mask puts it back and answers.** -/
theorem context?_answer_restore (hx : p.context? = some ⟨fs, c, m⟩) (saved : SignalSet)
    (r : Reply) :
    ((p.restore saved).answer r).context? = some ⟨fs, .reply r, saved \ .uncatchable⟩ := by
  rw [context?_answer, context?_restore, hx]
  rfl

/-- To leave a wait puts back its mask and answers. -/
@[simp] theorem context?_leaveWait (w : AnyWait) (r : Reply) :
    (p.leaveWait w r).context? = p.context?.map fun x =>
      { x with control := .reply r, blocked := w.saved \ .uncatchable } := by
  simp [leaveWait, Option.map_map, Function.comp_def]

/-- A default action does not touch the context. -/
@[simp] theorem context?_act (sig : Signal) (action : DefaultAction) :
    (p.act pid sig action).1.context? = p.context? :=
  context?_congr (shift_act sig action).disturbed.task (by rw [act_inbox])

/-- The mask of a context is that of the inbox. -/
theorem blocked_of_context? (h : p.context? = some ⟨fs, c, m⟩) : p.inbox.blocked = m := by
  obtain ⟨root, -, hb⟩ := context?_eq_some.1 h
  exact hb

/-! ## What a turn is -/

/-- The signal whose handler the process is about to run outright. -/
def outright? (p : Process) : Option Signal := p.task.bind (·.control.outright?)

/-- What is delivered outright is read off the control. -/
theorem outright?_of_context? (h : p.context? = some ⟨fs, c, m⟩) :
    p.outright? = c.outright? := by
  obtain ⟨root, ht, -⟩ := context?_eq_some.1 h
  simp [outright?, ht]

/-- **Whether a handler starts in a turn, and why.** -/
inductive Outcome (pid : Pid) (p : Process) (r : Process × List Event) : Prop
  | quiet (h : p.Quiet pid r)
  /-- A check point takes a signal and enters its handler. -/
  | entry (run : HandlerRun) (mask pending : SignalSet)
      (hc : ∃ fs d m, p.context? = some ⟨fs, .loop (.check d), m⟩) (hn : p.status = .normal)
      (hs : run.signal ∈ p.inbox.pending) (hb : run.signal ∉ p.inbox.blocked)
      (ht : ∀ sig ∈ r.1.inbox.pending, sig ∈ p.inbox.pending ∧ sig ≠ run.signal)
      (he : r.2 = [.handling run.signal, .entered run mask pending])
  /-- The program asks the engine to run a handler. -/
  | outright (run : HandlerRun) (mask pending : SignalSet)
      (ho : p.outright? = some run.signal)
      (ht : ∀ sig ∈ r.1.inbox.pending, sig ∈ p.inbox.pending)
      (he : r.2 = [.entered run mask pending])

/-- What a process does to itself, its context aside. -/
structure Turn (pid : Pid) (p : Process) (r : Process × List Event) : Prop where
  sound : p.inbox.Sound → r.1.inbox.Sound
  ended : p.status.isExited = true → r.1.status.isExited = true
  outcome : p.Outcome pid r

/-- **A turn of a process in its context.** -/
structure Own (pid : Pid) (p : Process) (c : Context) (r : Process × List Event) : Prop where
  turn : p.Turn pid r
  context : ∃ c', r.1.context? = some c' ∧ c.Step p r.1 c'

/-- A turn that at most changes the mask or takes a signal out. -/
theorem turn_of_subset {events : List Event} (hs : q.status = p.status)
    (hi : p.inbox.Sound → q.inbox.Sound)
    (hp : ∀ sig ∈ q.inbox.pending, sig ∈ p.inbox.pending)
    (he : ∀ e ∈ events, e.isEntry = false) : p.Turn pid (q, events) :=
  ⟨hi, fun h => by rw [hs, h], .quiet (quiet_of_subset hp he)⟩

/-- A turn in which only the task changes. -/
theorem own_same {events : List Event} {x x' : Context} (hs : q.status = p.status)
    (hi : q.inbox = p.inbox) (he : ∀ e ∈ events, e.isEntry = false)
    (hq : q.context? = some x') (hstep : x.Step p q x') : p.Own pid x (q, events) :=
  ⟨turn_of_subset hs (by rw [hi]; exact id) (by rw [hi]; exact fun _ h => h) he, x', hq, hstep⟩

/-- A turn that puts another mask in force. -/
theorem own_mask {events : List Event} {x x' : Context} (mask : SignalSet)
    (hs : q.status = p.status) (hi : q.inbox = p.inbox.withMask mask)
    (he : ∀ e ∈ events, e.isEntry = false) (hq : q.context? = some x')
    (hstep : x.Step p q x') : p.Own pid x (q, events) :=
  ⟨turn_of_subset hs (by rw [hi]; exact (·.withMask mask)) (by rw [hi]; exact fun _ h => h) he,
    x', hq, hstep⟩

/-! ## A check point -/

/-- **What starting a handler does**: two frames, a wider mask, one record. -/
theorem deliver_spec (sig : Signal) (action : Action Installed)
    (hc : p.context? = some ⟨fs, c, m⟩) :
    ∃ run rest mask pending, run.signal = sig ∧
      (p.deliver sig action).2 = [.entered run mask pending] ∧
      (p.deliver sig action).1.context? =
        some ⟨.body run false rest :: .delivery sig action m :: fs, .proceed,
          (m ∪ action.blockedDuring sig) \ .uncatchable⟩ ∧
      (p.deliver sig action).1.status = p.status ∧
      (p.deliver sig action).1.inbox = p.inbox.changeMask .block (action.blockedDuring sig) := by
  obtain ⟨root, ht, hb⟩ := context?_eq_some.1 hc
  obtain rfl : p.inbox.blocked = m := hb
  exact ⟨_, _, _, _, rfl, rfl,
    by simp [deliver, context?, enter, countRun, ht]; exact ⟨rfl, rfl⟩, rfl, rfl⟩

/-- **A check point has taken a signal** that was pending and not blocked; the
process is `q` now. -/
structure Taken (sig : Signal) (p q : Process) : Prop where
  status : q.status = p.status
  pending : sig ∈ p.inbox.pending
  unblocked : sig ∉ p.inbox.blocked
  context : q.context? = p.context?
  sound : q.inbox.Sound
  left : ∀ other ∈ q.inbox.pending, other ∈ p.inbox.pending ∧ other ≠ sig

/-- A check point takes a deliverable signal out of a sound inbox. -/
theorem taken_of_take {sig : Signal} (hbox : p.inbox.Sound) (hs : sig ∈ p.inbox.deliverable) :
    Taken sig p (p.without sig) where
  status := rfl
  pending := (SignalSet.mem_sdiff.1 hs).1
  unblocked := (SignalSet.mem_sdiff.1 hs).2
  context := rfl
  sound := hbox.take sig
  left other ho := by
    obtain ⟨hother, hne⟩ := SignalSet.mem_sdiff.1 ho
    exact ⟨hother, by simpa using hne⟩

section Taken

variable {sig : Signal} {delivered : Bool} (ht : Taken sig p q)
  (hc : p.context? = some ⟨fs, .loop (.check delivered), m⟩)
include ht hc

/-- Nothing is done about a signal that is ignored. -/
theorem Taken.own_ignore : p.Own pid ⟨fs, .loop (.check delivered), m⟩
    (q.goto (.loop (.check delivered)), [.handling sig, .ignored sig]) := by
  have hturn : p.Turn pid (q.goto (.loop (.check delivered)), [.handling sig, .ignored sig]) :=
    turn_of_subset ht.status (fun _ => ht.sound) (fun other ho => (ht.left other ho).1)
      (by simp [Event.isEntry])
  have hx : (q.goto (.loop (.check delivered))).context? =
      some ⟨fs, .loop (.check delivered), m⟩ := by simp [ht.context, hc]
  exact ⟨hturn, _, hx, .checkNext⟩

/-- A default action may end the process or stop it, and starts no handler. -/
theorem Taken.own_default (d : Bool) : p.Own pid ⟨fs, .loop (.check delivered), m⟩
    ((q.act pid sig sig.defaultAction).1.goto (.loop (.check d)),
      .handling sig :: (q.act pid sig sig.defaultAction).2) := by
  have hquiet : p.Quiet pid (q, [.handling sig]) :=
    quiet_of_subset (fun other ho => (ht.left other ho).1) (by simp [Event.isEntry])
  have hacted := hquiet.append (shift_act sig sig.defaultAction).quiet
  have hended : p.status.isExited = true →
      (q.act pid sig sig.defaultAction).1.status.isExited = true := fun he =>
    (shift_act sig sig.defaultAction).disturbed.isExited (ht.status ▸ he)
  have hx : ((q.act pid sig sig.defaultAction).1.goto (.loop (.check d))).context? =
      some ⟨fs, .loop (.check d), m⟩ := by simp [ht.context, hc]
  refine ⟨⟨fun _ => ?_, hended, .quiet ⟨hacted.enters, hacted.pending⟩⟩, _, hx, .checkNext⟩
  simpa [goto] using ht.sound

/-- **The handler is entered** with the signal used up. -/
theorem Taken.own_handler (hn : p.status = .normal) (action : Action Installed) :
    p.Own pid ⟨fs, .loop (.check delivered), m⟩ (((q.enter .round .proceed).deliver sig action).1,
      .handling sig :: ((q.enter .round .proceed).deliver sig action).2) := by
  have hce : (q.enter .round .proceed).context? = some ⟨.round :: fs, .proceed, m⟩ := by
    simp [ht.context, hc]
  obtain ⟨run, rest, mask, pending, rfl, hev, hx, hst, hin⟩ := deliver_spec sig action hce
  have hb : run.signal ∉ m := blocked_of_context? hc ▸ ht.unblocked
  refine ⟨⟨fun _ => hin ▸ ht.sound.changeMask _ _, fun he => hst ▸ ht.status ▸ he, ?_⟩, _, hx,
    .checkEnter hn ht.pending hb rfl⟩
  refine .entry run mask pending ⟨_, _, _, hc⟩ hn ht.pending ht.unblocked ?_ (by simp only [hev])
  rw [hin]
  exact ht.left

end Taken

/-- **A turn of a check point**: it is over, or it blocks, or it has taken a
signal and does what its disposition says. -/
theorem own_check {delivered : Bool} (hbox : p.inbox.Sound)
    (hc : p.context? = some ⟨fs, .loop (.check delivered), m⟩) :
    p.Own pid ⟨fs, .loop (.check delivered), m⟩ (p.check pid delivered) := by
  have hchecked := p.checked pid delivered
  generalize p.check pid delivered = r at hchecked ⊢
  cases hchecked with
  | ended he => exact own_same rfl rfl (by simp) (by simp [hc]) (.checkExited he)
  | stopped => exact own_same rfl rfl (by simp [Event.isEntry]) (by simp [hc]; rfl) .block
  | passed hn h => exact own_same rfl rfl (by simp) (by simp [hc]) (.checkDone hn h)
  | took hn hs h =>
    rw [hbox.take_signal] at h
    have ht := taken_of_take hbox hs
    cases h with
    | ignored => exact ht.own_ignore hc
    | default => exact ht.own_default hc _
    | entered => exact ht.own_handler hc hn _

/-! ## Waiting -/

/-- **A turn of a wait for signals.** -/
theorem own_waitAny {now : Nat} {w : AnyWait} (hbox : p.inbox.Sound)
    (hc : p.context? = some ⟨fs, .loop (.waitAny w), m⟩) :
    p.Own pid ⟨fs, .loop (.waitAny w), m⟩ (p.waitAny now w) := by
  have hover : ∀ r, p.Own pid ⟨fs, .loop (.waitAny w), m⟩ (p.leaveWait w r, []) := fun r =>
    own_mask w.saved rfl rfl (by simp) (by simp [hc]; rfl) (.waitOver (.inl rfl))
  have hblock : ∀ l events, (∀ e ∈ events, e.isEntry = false) →
      p.Own pid ⟨fs, .loop (.waitAny w), m⟩ (p.goto (.blocked (.waitAny w) l), events) :=
    fun l events he => own_same rfl rfl he (by simp [hc]; rfl) .block
  have hwaited := p.waited now w
  generalize p.waitAny now w = r at hwaited ⊢
  cases hwaited with
  | ended | interrupted | expired => exact hover _
  | stopped => exact hblock _ _ (by simp [Event.isEntry])
  | blocked => exact hblock _ _ (by simp)
  | serves => exact own_same rfl rfl (by simp) (by simp [hc]) .waitServe
  | @took sig =>
    refine ⟨turn_of_subset rfl (fun _ => (hbox.take sig).withMask _)
      (fun other ho => (SignalSet.mem_sdiff.1 ho).1) (by simp [Event.isEntry]), _,
      by simp [without, context?_inbox, hc]; rfl, .waitOver (.inl rfl)⟩

/-- A turn of a suspension is to run a check point. -/
theorem own_suspend {saved : SignalSet} (hc : p.context? = some ⟨fs, .loop (.suspend saved), m⟩) :
    p.Own pid ⟨fs, .loop (.suspend saved), m⟩ (p.suspend saved, []) :=
  own_same rfl rfl (by simp) (by simp [suspend, hc]; rfl) .suspendCheck

/-- A turn of a sleep is to run a check point. -/
theorem own_sleep {deadline : Option Nat}
    (hc : p.context? = some ⟨fs, .loop (.sleep deadline), m⟩) :
    p.Own pid ⟨fs, .loop (.sleep deadline), m⟩ (p.sleep deadline, []) :=
  own_same rfl rfl (by simp) (by simp [sleep, hc]; rfl) .sleepCheck

/-- Whoever is blocked looks again, or leaves, or stays blocked. -/
theorem own_awaken {now : Nat} {l : Loop} {listener : Listener}
    (hc : p.context? = some ⟨fs, .blocked l listener, m⟩) :
    p.Own pid ⟨fs, .blocked l listener, m⟩ (p.awaken now l listener, []) := by
  have hawoken := p.awoken now l listener
  generalize p.awaken now l listener = q at hawoken ⊢
  cases hawoken with
  | looks => exact own_same rfl rfl (by simp) (by simp [hc]) .wake
  | @left w =>
    exact own_mask w.saved rfl rfl (by simp) (by simp [hc]; rfl) (.waitOver (.inr ⟨_, rfl⟩))
  | slept => exact own_same rfl rfl (by simp) (by simp [hc]) .sleepOver
  | rests => exact own_same rfl rfl (by simp) hc (.stay rfl)

/-! ## Calls -/

section Calls

variable {now : Nat} (hi : c.isCall = true) (hm : c.maskChange? = none)
  (hc : p.context? = some ⟨fs, c, m⟩)
include hi hm hc

/-- A call that answers at once. -/
theorem own_answer (r : Reply) : p.Own pid ⟨fs, c, m⟩ (p.answer r, []) :=
  own_same rfl rfl (by simp) (by simp [hc]; rfl) (.answer hi hm)

/-- A wait begins by blocking its set. -/
theorem own_beginWaitAny (set : SignalSet) (timeout : Option Timeout) :
    p.Own pid ⟨fs, c, m⟩ (p.beginWaitAny now set timeout, []) := by
  obtain rfl := blocked_of_context? hc
  exact own_mask _ rfl rfl (by simp) (by simp [beginWaitAny, context?_inbox, hc]; exact ⟨rfl, rfl⟩)
    (.beginWait hi hm rfl)

/-- A suspension begins by putting its mask in force. -/
theorem own_beginSuspend {mask : SignalSet} (hs : c.suspension? = some mask) :
    p.Own pid ⟨fs, c, m⟩ (p.beginSuspend mask, []) := by
  obtain ⟨root, ht, rfl⟩ := context?_eq_some.1 hc
  exact own_mask mask rfl rfl (by simp) (by simp [beginSuspend, context?, goto, ht]; rfl)
    (.beginSuspend hi hm hs)

/-- A sleep begins without touching the mask. -/
theorem own_beginSleep (timeout : Timeout) :
    p.Own pid ⟨fs, c, m⟩ (p.beginSleep now timeout, []) :=
  own_same rfl rfl (by simp) (by simp [beginSleep, hc]; rfl) (.beginSleep hi hm)

end Calls

end Process

end PosixSignals
