import PosixSignals.Proofs.Process.Conduct
import PosixSignals.Proofs.Process.Inversion
import PosixSignals.Proofs.Task.Calls

/-!
# What a blocked process relies on

A process that blocks has looked at what it waits for after its listener
was registered. As long as it has not been notified since, what it saw
still holds: nothing that others do to it changes its status, its inbox or
whether it was continued without a notification. `Vigilant` is the
invariant that carries this from the check inside a construct to the
construct itself, and through everything that others do meanwhile.
-/

namespace PosixSignals

/-- What a construct is notified of. -/
def Loop.occasion : Loop → Occasion
  | .wait4 .. => .child
  | _ => .signal

/-- The deadline of a construct, if it has one. -/
def Loop.deadline? : Loop → Option Nat
  | .waitAny w => w.deadline
  | .sleep deadline => deadline
  | .check _ | .suspend _ | .wait4 .. => none

/-- The notifications that a frame had seen before the check it waits for. -/
def Frame.seen? : Frame → Option Nat
  | .suspended _ n | .asleep _ n => some n
  | _ => none

namespace Process

variable {p q r : Process} {pid : Pid} {info : SignalInfo} {now : Nat} {fs : List Frame}
  {m : SignalSet} {l : Loop} {y : Listener} {x x' : Context}

/-! ## Notifications -/

/-- Nobody takes a notification back. -/
structure NoticesGrow (p q : Process) : Prop where
  signals : p.signalNotices ≤ q.signalNotices
  children : p.childNotices ≤ q.childNotices

/-- **A change that whoever listens hears of**: without a notification of a signal
the signal state is what it was, and whoever is told of a signal is told as
one who waits for a child. -/
structure Announced (p q : Process) : Prop extends NoticesGrow p q where
  task : q.task = p.task
  unchanged : q.signalNotices = p.signalNotices →
    q.status = p.status ∧ q.inbox = p.inbox ∧ q.continued = p.continued
  unsignalled : q.childNotices = p.childNotices → q.signalNotices = p.signalNotices

theorem NoticesGrow.refl (p : Process) : p.NoticesGrow p := ⟨Nat.le_refl _, Nat.le_refl _⟩

theorem NoticesGrow.trans (h : p.NoticesGrow q) (h' : q.NoticesGrow r) : p.NoticesGrow r :=
  ⟨Nat.le_trans h.signals h'.signals, Nat.le_trans h.children h'.children⟩

theorem Announced.refl (p : Process) : p.Announced p :=
  ⟨.refl p, rfl, fun _ => ⟨rfl, rfl, rfl⟩, fun _ => rfl⟩

theorem Announced.trans (h : p.Announced q) (h' : q.Announced r) : p.Announced r where
  toNoticesGrow := h.toNoticesGrow.trans h'.toNoticesGrow
  task := h'.task.trans h.task
  unchanged hn := by
    -- notifications only become more, so none was added on the way
    have hp := h.signals
    have hq := h'.signals
    obtain ⟨hs, hi, hc⟩ := h.unchanged (by omega)
    obtain ⟨hs', hi', hc'⟩ := h'.unchanged (by omega)
    exact ⟨hs'.trans hs, hi'.trans hi, hc'.trans hc⟩
  unsignalled hn := by
    have hp := h.children
    have hq := h'.children
    exact (h'.unsignalled (by omega)).trans (h.unsignalled (by omega))

/-- **Whatever ends in waking a process is announced.** -/
theorem announced_wake (ht : q.task = p.task) (h : p.NoticesGrow q) : p.Announced q.wake := by
  have hs := h.signals
  have hc := h.children
  have hsignals : q.wake.signalNotices = q.signalNotices + 1 := rfl
  have hchildren : q.wake.childNotices = q.childNotices + 1 := rfl
  exact ⟨⟨by omega, by omega⟩, ht, fun hn => by omega, fun hn => by omega⟩

theorem announced_noticeChild (p : Process) : p.Announced p.noticeChild := by
  have hchildren : p.noticeChild.childNotices = p.childNotices + 1 := rfl
  exact ⟨⟨Nat.le_refl _, by omega⟩, rfl, fun _ => ⟨rfl, rfl, rfl⟩, fun hn => by omega⟩

/-- A change of anything else. -/
theorem announced_of_eq (ht : q.task = p.task) (hs : q.signalNotices = p.signalNotices)
    (hc : q.childNotices = p.childNotices) (hst : q.status = p.status) (hi : q.inbox = p.inbox)
    (hcont : q.continued = p.continued) : p.Announced q :=
  ⟨⟨Nat.le_of_eq hs.symm, Nat.le_of_eq hc.symm⟩, ht, fun _ => ⟨hst, hi, hcont⟩, fun _ => hs⟩

/-- A change of status, and so a default action, wakes whoever waits. -/
theorem Shift.announced {c : Process × List Event} (h : p.Shift pid c) : p.Announced c.1 := by
  cases h with
  | none => exact .refl p
  | exited | stopped | continued => exact announced_wake rfl ⟨Nat.le_refl _, Nat.le_refl _⟩

/-- Up to the notification at its end a generation leaves the task alone, and takes no
notification back. -/
theorem Acceptance.grows {c : Process × List Event} (h : p.Acceptance pid info c) :
    c.1.task = p.task ∧ p.NoticesGrow c.1 := by
  cases h with
  | noted => exact ⟨rfl, Nat.le_refl _, Nat.le_refl _⟩
  | acted =>
    have hacted : p.Announced (p.act pid info.signal info.signal.defaultAction).1 :=
      (shift_act _ _).announced
    exact ⟨hacted.task, hacted.toNoticesGrow⟩

/-- **A signal that arrives is announced**: the inbox changes first, and then
everything that blocks on the process is woken. -/
theorem announced_generate (info : SignalInfo) : p.Announced (p.generate pid info).1 := by
  have hg := p.generation pid info
  generalize p.generate pid info = c at hg ⊢
  cases hg with
  | dropped => exact .refl p
  | lifted _ hst ha =>
    have hshift : p.Shift pid _ := .continued hst
    have hlifted := hshift.announced
    exact announced_wake (ha.grows.1.trans hlifted.task) (hlifted.toNoticesGrow.trans ha.grows.2)
  | accepted _ _ ha => exact announced_wake ha.grows.1 ha.grows.2

theorem observed_grows : Observed pid NoticesGrow where
  trans := .trans
  standing h := ⟨Nat.le_of_eq (congrArg Standing.signalNotices h).symm,
    Nat.le_of_eq (congrArg Standing.childNotices h).symm⟩
  without _ _ := ⟨Nat.le_refl _, Nat.le_refl _⟩
  shift h := h.announced.toNoticesGrow

/-! ## The invariant -/

/-- Everything pending is blocked. -/
def Delivered (p : Process) : Prop := ∀ sig ∈ p.inbox.pending, sig ∈ p.inbox.blocked

/-- **What a process waits for has not come**, by what it blocks in: it is stopped,
or no signal is there for it, nor what else would end the wait. Whether a
child is ready is for the system to say. -/
def Awaits (p : Process) (y : Listener) : Loop → Prop
  | .check _ => p.status.isStopped = true
  | .waitAny w => (p.status.isStopped = true ∧ y.deadline = none) ∨
      (p.status = .normal ∧ y.deadline = w.deadline ∧
        (∀ sig ∈ p.inbox.pending, sig ∉ w.set) ∧ p.Delivered)
  | .suspend _ => p.status = .normal ∧ p.Delivered ∧ p.continued = false
  | .sleep deadline => p.status = .normal ∧ y.deadline = deadline ∧ p.Delivered
  | .wait4 _ noHang => noHang = false ∧ p.status.isExited = false ∧ p.Delivered

/-- A listener has missed nothing, and waits for no other deadline than its construct. -/
structure Relies (p : Process) (l : Loop) (y : Listener) : Prop where
  occasion : y.occasion = l.occasion
  deadline : y.deadline = none ∨ y.deadline = l.deadline?
  seen : y.seen ≤ p.notices y.occasion
  awaits : y.seen = p.notices y.occasion → p.Awaits y l

/-- **No listener of a process has missed anything.** -/
structure Vigilant (p : Process) (x : Context) : Prop where
  frames : ∀ f ∈ x.frames, ∀ n, f.seen? = some n → n ≤ p.signalNotices
  /-- The check inside a wait is over, and nothing has come since. -/
  checked : ∀ f fs v, x.frames = f :: fs → x.control = .reply (.ok v) →
    f.seen? = some p.signalNotices → p.status = .normal ∧ p.Delivered
  blocked : ∀ l y, x.control = .blocked l y → p.Relies l y

theorem awaits_congr (hs : q.status = p.status) (hi : q.inbox = p.inbox)
    (hc : q.continued = p.continued) (h : p.Awaits y l) : q.Awaits y l := by
  cases l <;> simpa only [Awaits, Delivered, hs, hi, hc] using h

/-- **What others do is heard.** -/
theorem Vigilant.announced (h : p.Vigilant x) (ha : p.Announced q) : q.Vigilant x where
  frames f hf n hn := Nat.le_trans (h.frames f hf n hn) ha.signals
  checked f fs v hfs hc hn := by
    have hold := h.frames f (hfs ▸ List.mem_cons_self) _ hn
    have hsame : q.signalNotices = p.signalNotices := Nat.le_antisymm hold ha.signals
    obtain ⟨hst, hin, -⟩ := ha.unchanged hsame
    obtain ⟨hnormal, hd⟩ := h.checked f fs v hfs hc (hsame ▸ hn)
    exact ⟨hst.trans hnormal, by simpa only [Delivered, hin] using hd⟩
  blocked l y hc := by
    obtain ⟨ho, hdeadline, hle, hawaits⟩ := h.blocked l y hc
    have hgrow : p.notices y.occasion ≤ q.notices y.occasion := by
      cases y.occasion with
      | signal => exact ha.signals
      | child => exact ha.children
    refine ⟨ho, hdeadline, Nat.le_trans hle hgrow, fun hseen => ?_⟩
    have hsame : q.notices y.occasion = p.notices y.occasion :=
      Nat.le_antisymm (hseen ▸ hle) hgrow
    have hsignals : q.signalNotices = p.signalNotices := by
      cases hy : y.occasion with
      | signal => simpa only [hy, notices] using hsame
      | child => exact ha.unsignalled (by simpa only [hy, notices] using hsame)
    obtain ⟨hst, hin, hcont⟩ := ha.unchanged hsignals
    exact awaits_congr hst hin hcont (hawaits (hseen.trans hsame))

/-- To be in the midst of nothing is to rely on nothing. -/
theorem vigilant_of_idle (hf : x.frames = []) (hc : x.control = .idle) : p.Vigilant x where
  frames f h := by simp [hf] at h
  checked f fs v h := by simp [hf] at h
  blocked l y h := by simp [hc] at h

end Process

/-! ## What a step does -/

namespace Context

variable {p q : Process} {x x' : Context} {fs : List Frame} {m : SignalSet} {l : Loop}
  {y : Listener}

/-- A frame that has seen notifications stays from before, or a construct has just
registered it. -/
theorem Step.mem_frames (h : Step p q x x') {f : Frame} (hf : f ∈ x'.frames) :
    f ∈ x.frames ∨ f.seen? = none ∨ x'.frames = f :: x.frames ∧
      ((∃ saved, x.control = .loop (.suspend saved)) ∨ ∃ d, x.control = .loop (.sleep d)) := by
  cases h with
  | stay | panic | answer | changeMask | beginSuspend | beginWait | beginSleep | beginWait4
  | beginCheck | checkExited | checkDone | checkNext | waitOver | sleepOver | wait4Over | block
  | wake | unwound => exact .inl hf
  | failBody | failMain | leave | mainIdle | mainFinish | bodyUnwind | delivered | roundNext
  | roundFail | exitCall | exitError | served | serveFail | suspendOver | suspendBlock
  | sleepReply | sleepBlock | unwind => exact .inl (List.mem_cons_of_mem _ hf)
  | next | bodyNext | conclude =>
    rcases List.mem_cons.1 hf with rfl | hf
    · exact .inr (.inl rfl)
    · exact .inl (List.mem_cons_of_mem _ hf)
  | call | waitServe =>
    rcases List.mem_cons.1 hf with rfl | hf
    · exact .inr (.inl rfl)
    · exact .inl hf
  | deliver | checkEnter =>
    simp only [List.mem_cons] at hf
    rcases hf with rfl | rfl | hf
    · exact .inr (.inl rfl)
    · exact .inr (.inl rfl)
    · first
        | exact .inl hf
        | rcases hf with rfl | hf
          · exact .inr (.inl rfl)
          · exact .inl hf
  | suspendCheck =>
    rcases List.mem_cons.1 hf with rfl | hf
    · exact .inr (.inr ⟨rfl, .inl ⟨_, rfl⟩⟩)
    · exact .inl hf
  | sleepCheck =>
    rcases List.mem_cons.1 hf with rfl | hf
    · exact .inr (.inr ⟨rfl, .inr ⟨_, rfl⟩⟩)
    · exact .inl hf

/-- **What a process was doing before it blocks**: it stays blocked, or a construct
blocks at once, or after the check inside it. -/
theorem Step.of_blocked (h : Step p q x ⟨fs, .blocked l y, m⟩) :
    x = ⟨fs, .blocked l y, m⟩ ∨ x = ⟨fs, .loop l, m⟩ ∨
      (∃ saved n r, l = .suspend saved ∧ x = ⟨.suspended saved n :: fs, .reply r, m⟩) ∨
      ∃ d n r, l = .sleep d ∧ x = ⟨.asleep d n :: fs, .reply r, m⟩ := by
  cases h with
  | stay => exact .inl rfl
  | block => exact .inr (.inl rfl)
  | suspendBlock => exact .inr (.inr (.inl ⟨_, _, _, rfl, rfl⟩))
  | sleepBlock => exact .inr (.inr (.inr ⟨_, _, _, rfl, rfl⟩))

end Context

namespace Process

variable {p q : Process} {pid : Pid} {now : Nat} {fs fs' : List Frame} {m m' : SignalSet} {l : Loop}
  {y : Listener} {x x' : Context} {r : Reply}

/-- If the process is blocked now, its listener has missed nothing. -/
def Wary (q : Process) : Prop :=
  ∀ x l y, q.context? = some x → x.control = .blocked l y → q.Relies l y

theorem wary_goto {c : Control} (hc : ∀ l y, c ≠ .blocked l y) : (p.goto c).Wary := by
  intro x l y hx hb
  rw [context?_goto] at hx
  obtain ⟨x₀, -, rfl⟩ := Option.map_eq_some_iff.1 hx
  exact absurd hb (hc l y)

theorem wary_enter {f : Frame} {c : Control} (hc : ∀ l y, c ≠ .blocked l y) :
    (p.enter f c).Wary := by
  intro x l y hx hb
  rw [context?_enter] at hx
  obtain ⟨x₀, -, rfl⟩ := Option.map_eq_some_iff.1 hx
  exact absurd hb (hc l y)

theorem wary_answer : (p.answer r).Wary := wary_goto (by simp)

/-- A construct blocks on what it has looked at. -/
theorem wary_block (h : p.Relies l y) : (p.goto (.blocked l y)).Wary := by
  intro x l' y' hx hb
  rw [context?_goto] at hx
  obtain ⟨x₀, -, rfl⟩ := Option.map_eq_some_iff.1 hx
  obtain ⟨rfl, rfl⟩ := Control.blocked.inj hb
  exact ⟨h.occasion, h.deadline, h.seen, fun hs => awaits_congr rfl rfl rfl (h.awaits hs)⟩

/-- A listener registered now has seen everything. -/
theorem relies_listen {deadline : Option Nat} (ho : l.occasion = .signal)
    (hd : deadline = none ∨ deadline = l.deadline?) (h : p.Awaits (p.listen .signal deadline) l) :
    p.Relies l (p.listen .signal deadline) :=
  ⟨ho.symm, hd, Nat.le_refl _, fun _ => h⟩

theorem delivered_of_hasDeliverable (h : p.inbox.hasDeliverable = false) : p.Delivered := by
  intro sig hs
  refine Decidable.byContradiction fun hb => ?_
  have hd : sig ∈ p.inbox.deliverable := SignalSet.mem_sdiff.2 ⟨hs, hb⟩
  have hbits : p.inbox.deliverable.bits = 0 := by
    simpa [Inbox.hasDeliverable, SignalSet.isEmpty] using h
  simp [SignalSet.mem_iff, hbits] at hd

/-- **A check point blocks only a process that is stopped.** -/
theorem wary_check (d : Bool) : (p.check pid d).1.Wary := by
  have hchecked := p.checked pid d
  generalize p.check pid d = r at hchecked ⊢
  cases hchecked with
  | ended | passed => exact wary_answer
  | stopped hst => exact wary_block (relies_listen rfl (.inl rfl) hst)
  | took _ _ h =>
    cases h with
    | ignored | default => exact wary_goto (by simp)
    | entered => exact wary_enter (by simp)

/-- **A wait blocks only if no signal of the set is pending** and none outside it is
to be delivered, or if the process is stopped. -/
theorem wary_waitAny (w : AnyWait) : (p.waitAny now w).1.Wary := by
  have hwaited := p.waited now w
  generalize p.waitAny now w = r at hwaited ⊢
  cases hwaited with
  | ended | took | interrupted | expired => exact wary_answer
  | stopped hst => exact wary_block (relies_listen rfl (.inl rfl) (.inl ⟨hst, rfl⟩))
  | serves => exact wary_enter (by simp)
  | blocked hn hl hd =>
    exact wary_block
      (relies_listen rfl (.inr rfl) (.inr ⟨hn, rfl, hl, delivered_of_hasDeliverable hd⟩))

theorem wary_awaken (h : p.Wary) : (p.awaken now l y).Wary := by
  have hawoken := p.awoken now l y
  generalize p.awaken now l y = q at hawoken ⊢
  cases hawoken with
  | looks => exact wary_goto (by simp)
  | left | slept => exact wary_answer
  | rests => exact h

section Finish

variable {seen : Nat} (hseen : seen ≤ p.signalNotices)
  (hchecked : ∀ v, r = .ok v → seen = p.signalNotices → p.status = .normal ∧ p.Delivered)
include hseen hchecked

/-- **A suspension blocks on what its check has seen.** -/
theorem wary_finishSuspend (saved : SignalSet) : (p.pop.finishSuspend saved seen r).Wary := by
  unfold finishSuspend
  split
  · exact wary_answer
  · exact wary_answer
  · next v _ =>
    split
    · exact wary_answer
    · next hcont =>
      refine wary_block ⟨rfl, .inl rfl, hseen, fun hs => ?_⟩
      obtain ⟨hn, hd⟩ := hchecked v rfl hs
      exact ⟨hn, hd, by simpa using hcont⟩

theorem wary_finishSleep (deadline : Option Nat) :
    (p.pop.finishSleep now deadline seen r).Wary := by
  unfold finishSleep
  split
  · exact wary_answer
  · exact wary_answer
  · next v _ =>
    split
    · exact wary_answer
    · refine wary_block ⟨rfl, .inr rfl, hseen, fun hs => ?_⟩
      obtain ⟨hn, hd⟩ := hchecked v rfl hs
      exact ⟨hn, rfl, hd⟩

end Finish

/-- **A step leaves no listener behind** if the frame it may have registered has
seen everything, and the listener it may block on has missed nothing. -/
theorem Vigilant.step (hv : p.Vigilant x) (hx : x.Sound) (hstep : x.Step p q x')
    (hgrow : p.NoticesGrow q)
    (hframe : ∀ f, x'.frames = f :: x.frames →
      ((∃ saved, x.control = .loop (.suspend saved)) ∨ ∃ d, x.control = .loop (.sleep d)) →
      ∀ n, f.seen? = some n → n ≤ q.signalNotices)
    (hblocked : ∀ l y, x'.control = .blocked l y → q.Relies l y) : q.Vigilant x' := by
  refine ⟨fun f hf n hn => ?_, fun f fs' v hfs hc hn => ?_, hblocked⟩
  · rcases hstep.mem_frames hf with hf | hnone | ⟨hframes, hloop⟩
    · exact Nat.le_trans (hv.frames f hf n hn) hgrow.signals
    · simp [hnone] at hn
    · exact hframe f hframes hloop n hn
  · -- the check inside a wait ends with nothing to deliver
    obtain ⟨frames, control, blocked⟩ := x'
    obtain ⟨rfl, rfl⟩ : frames = f :: fs' ∧ control = .reply (.ok v) := ⟨hfs, hc⟩
    have hkind : f.hostsWait = false ∧ f.isDelivery = false ∧ f.hostsDelivery = false := by
      cases f <;> simp [Frame.seen?] at hn <;> exact ⟨rfl, rfl, rfl⟩
    rcases hstep.reply_cases hx hkind.1 hkind.2.1 with ⟨-, h⟩ | ⟨-, e, m, he, -⟩ | ⟨hd, -⟩
    · rcases h with ⟨d, -, hst, hd⟩ | ⟨he, -⟩
      · exact ⟨hst, hd⟩
      · simp at he
    · simp at he
    · simp [hkind.2.2] at hd

/-- **A step of a task leaves no listener behind.** -/
theorem vigilant_step {t : Task} (hv : p.Vigilant ⟨t.frames, t.control, p.inbox.blocked⟩)
    (ht : p.task = some t) (hbox : p.inbox.Sound)
    (hx : Context.Sound ⟨t.frames, t.control, p.inbox.blocked⟩) (hl : t.control.isShared = false)
    (hq : (p.step now pid t).1.context? = some x') : (p.step now pid t).1.Vigilant x' := by
  have hown : p.Own pid _ (p.step now pid t) := own_step ht hbox hx.fits hl
  obtain ⟨x'', hx'', hstep⟩ := hown.context
  obtain rfl := Option.some.inj (hq.symm.trans hx'')
  have hgrow : p.NoticesGrow (p.step now pid t).1 :=
    observed_grows.conduct (conduct_step ht hbox hx.stacked)
  obtain ⟨fs, c, root⟩ := t
  have hpx : p.context? = some ⟨fs, c, p.inbox.blocked⟩ := context?_eq_some.2 ⟨root, ht, rfl⟩
  refine hv.step hx hstep hgrow (fun f hframes hloop n hn => ?_) fun l y hc => ?_
  · -- what a construct registers is what has been notified up to now
    obtain ⟨saved, rfl⟩ | ⟨d, rfl⟩ := hloop
    all_goals
      simp only [step, suspend, sleep, context?_enter, hpx, Option.map_some] at hq
      obtain rfl := Option.some.inj hq
      obtain ⟨rfl, -⟩ := List.cons.inj hframes
      exact Nat.le_trans (Nat.le_of_eq (Option.some.inj hn).symm) hgrow.signals
  · obtain ⟨frames, control, blocked⟩ := x'
    obtain rfl : control = .blocked l y := hc
    suffices hw : (p.step now pid ⟨fs, c, root⟩).1.Wary from hw _ l y hq rfl
    rcases hstep.of_blocked with h | h | ⟨saved, n, r, -, h⟩ | ⟨d, n, r, -, h⟩
    · obtain ⟨-, rfl, -⟩ := Context.mk.inj h
      refine wary_awaken fun x l' y' hx hb => ?_
      obtain rfl := Option.some.inj (hpx.symm.trans hx)
      exact hv.blocked l' y' hb
    · obtain ⟨-, rfl, -⟩ := Context.mk.inj h
      cases l with
      | check d => exact wary_check d
      | waitAny w => exact wary_waitAny w
      | suspend saved => exact wary_enter (by simp)
      | sleep d => exact wary_enter (by simp)
      | wait4 selector noHang => simp [Control.isShared] at hl
    · obtain ⟨rfl, rfl, -⟩ := Context.mk.inj h
      exact wary_finishSuspend (hv.frames _ List.mem_cons_self n rfl)
        (fun v hr hs => hv.checked _ _ v rfl (hr ▸ rfl) (hs ▸ rfl)) saved
    · obtain ⟨rfl, rfl, -⟩ := Context.mk.inj h
      exact wary_finishSleep (hv.frames _ List.mem_cons_self n rfl)
        (fun v hr hs => hv.checked _ _ v rfl (hr ▸ rfl) (hs ▸ rfl)) d

end Process

end PosixSignals
