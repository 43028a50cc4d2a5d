import PosixSignals.Proofs.Process.Quiet
import PosixSignals.Proofs.Process.Search
import PosixSignals.Proofs.Task.Stack

/-!
# The conduct of a process

What a step of a process comes to for everybody else. Its context, its
mask and its dispositions are its own affair; what others see of it, and
what is pending for it, is its standing. Nearly every step leaves the
standing as it is, and the exceptions are few: a check point takes a signal
and deals with it, a wait takes one and hands it to its call, and the
process marks its own end. `Conduct` lists them with all they note, so that
an account of signals can be kept by reading the history alone.
-/

namespace PosixSignals

/-- What shows of a process to others, and what is pending for it. -/
structure Standing where
  pgid : Pid
  name : String
  status : Status
  parent : Option Pid
  children : List Pid
  limits : Limits
  listed : Bool
  signalNotices : Nat
  childNotices : Nat
  pending : SignalSet
  infos : Vector (Option SignalInfo) 31
  /-- Whether it still has a context. -/
  running : Bool

/-- An event by which neither a status nor a pending set changes, and that
neither starts a handler nor concludes a call. -/
def Event.isPlain : Event → Bool
  | .awaitsContinue | .left _ | .returned _ | .noChildReady | .groupWaitRefused _
  | .waitOptionsRefused | .unchangeable _ => true
  | _ => false

/-- The signal that a reply brings to a call. -/
def offers? : Reply → Option SignalInfo
  | .ok (.taken i) => i
  | .ok (.info i) => some i
  | _ => none

/-- The signal that is on its way to whatever is on top. -/
def Control.offers? : Control → Option SignalInfo
  | .reply r => PosixSignals.offers? r
  | _ => none

/-- A call that comes to a signal was offered it. -/
theorem offers?_of_conclude {call : SystemCall Handler} {r : Reply} {info : SignalInfo}
    (h : call.conclude r = .ok (.info info)) : offers? r = some info := by
  unfold SystemCall.conclude at h
  split at h <;> simp_all [offers?]

namespace Process

variable {p q : Process} {pid : Pid} {events : List Event} {sig : Signal} {c : Control}
  {f : Frame} {r : Reply}

def standing (p : Process) : Standing where
  pgid := p.pgid
  name := p.name
  status := p.status
  parent := p.parent
  children := p.children
  limits := p.limits
  listed := p.listed
  signalNotices := p.signalNotices
  childNotices := p.childNotices
  pending := p.inbox.pending
  infos := p.inbox.infos
  running := p.task.isSome

/-- The signal that the call on top of the stack is about to conclude with. -/
def offered? (p : Process) : Option SignalInfo :=
  p.task.bind fun t =>
    match t.frames with
    | .callBody _ :: _ => t.control.offers?
    | _ => none

/-! ## Changes that do not show -/

/-- Where a process is in its routine does not show. -/
@[simp] theorem standing_goto : (p.goto c).standing = p.standing := by
  simp [standing, goto]

/-- How deep it is in calls does not show. -/
@[simp] theorem standing_enter : (p.enter f c).standing = p.standing := by
  simp [standing, enter]

/-- Nor does coming back from one. -/
@[simp] theorem standing_pop : p.pop.standing = p.standing := by
  simp [standing, pop]

/-- A call is offered a signal by a reply that brings one, and by nothing else. -/
theorem offered?_goto (hc : c.offers? = none) : (p.goto c).offered? = none := by
  cases ht : p.task with
  | none => simp [offered?, goto, ht]
  | some t =>
    simp only [offered?, goto, ht, Option.map_some, Option.bind_some]
    split <;> first | exact hc | rfl

/-- Whoever goes deeper is not about to conclude. -/
theorem offered?_enter (hc : c.offers? = none) : (p.enter f c).offered? = none := by
  cases ht : p.task with
  | none => simp [offered?, enter, ht]
  | some t =>
    simp only [offered?, enter, ht, Option.map_some, Option.bind_some]
    split <;> first | exact hc | rfl

/-- **The process has gone on without that showing**, and no wait hands a signal
to a call. -/
structure Unseen (p q : Process) : Prop where
  standing : q.standing = p.standing
  offered : q.offered? = none

/-- To move on without a signal in hand does not show. -/
theorem unseen_goto (h : q.standing = p.standing) (hc : c.offers? = none) : p.Unseen (q.goto c) :=
  ⟨standing_goto.trans h, offered?_goto hc⟩

/-- To go deeper without a signal in hand does not show. -/
theorem unseen_enter (h : q.standing = p.standing) (hc : c.offers? = none) :
    p.Unseen (q.enter f c) :=
  ⟨standing_enter.trans h, offered?_enter hc⟩

/-- A reply that brings no signal does not show. -/
theorem unseen_answer (h : q.standing = p.standing) (hr : offers? r = none) :
    p.Unseen (q.answer r) :=
  unseen_goto h hr

/-- To leave a wait without a signal puts back a mask, which does not show. -/
theorem unseen_leaveWait (w : AnyWait) (h : q.standing = p.standing) (hr : offers? r = none) :
    p.Unseen (q.leaveWait w r) :=
  unseen_answer h hr

/-- Dispositions are the process's own affair. -/
theorem standing_changeDisposition (sig : Signal) (new : Option (Disposition Handler)) :
    (p.changeDisposition sig new).2.standing = p.standing := by
  rcases new with _ | _ | _ | a <;> rfl

/-- So is the start of a handler, mask and all. -/
theorem unseen_deliver (action : Action Installed) (h : q.standing = p.standing) :
    p.Unseen (q.deliver sig action).1 :=
  unseen_enter (standing_enter.trans h) rfl

/-! ## Conduct -/

/-- **What a process does without regard to signals**: nothing that shows, or it
marks its own end. -/
inductive Mild (pid : Pid) (p : Process) : Process × List Event → Prop
  | plain {q : Process} {events : List Event} (h : p.Unseen q)
      (he : ∀ e ∈ events, e.isPlain = true) : Mild pid p (q, events)
  | ended {q : Process} {w : WaitStatus} (h : (p.orStay (p.exit pid w)).1.Unseen q) :
      Mild pid p (q, (p.orStay (p.exit pid w)).2)

/-- **What a check point does about a signal** that it has taken: by the
disposition, nothing, the default action, or a handler's start. -/
inductive Dealt (pid : Pid) (sig : Signal) (p : Process) : Process × List Event → Prop
  | ignored {q : Process} (hd : p.dispositions.get sig = .ignore) (h : p.Unseen q) :
      Dealt pid sig p (q, [.ignored sig])
  | default {q : Process} (hd : p.dispositions.get sig = .default)
      (h : (p.act pid sig sig.defaultAction).1.Unseen q) :
      Dealt pid sig p (q, (p.act pid sig sig.defaultAction).2)
  | entered {q : Process} {action : Action Installed} {run : HandlerRun}
      {mask pending : SignalSet} (hd : p.dispositions.get sig = .handler action)
      (hr : run.signal = sig) (h : p.Unseen q) :
      Dealt pid sig p (q, [.entered run mask pending])

/-- **What a process does, as far as it shows.** -/
inductive Conduct (pid : Pid) (p : Process) : Process × List Event → Prop
  | mild {r : Process × List Event} (h : p.Mild pid r) : Conduct pid p r
  /-- The body of a call comes to its result, which brings no other signal than
  the one it was offered. -/
  | concluded {q : Process} {call : CallName} {r : Reply} (h : p.Unseen q)
      (ho : ∀ info, r = .ok (.info info) → p.offered? = some info) :
      Conduct pid p (q, [.concluded call r])
  /-- The program asks the engine to run a handler. -/
  | outright {q : Process} {run : HandlerRun} {mask pending : SignalSet} (h : p.Unseen q) :
      Conduct pid p (q, [.entered run mask pending])
  /-- A wait takes a signal. -/
  | took {q : Process} {sig : Signal} (hs : sig ∈ p.inbox.pending)
      (hq : q.standing = (p.without sig).standing)
      (ho : ∀ info, q.offered? = some info → info = (p.inbox.take sig).1) :
      Conduct pid p (q, [.took (p.inbox.take sig).1])
  /-- A check point takes a signal. -/
  | handled {q : Process} {sig : Signal} {events : List Event} (hs : sig ∈ p.inbox.deliverable)
      (hn : p.status = .normal) (h : (p.without sig).Dealt pid sig (q, events)) :
      Conduct pid p (q, .handling sig :: events)

/-- What does not show, and is not noted, is mild. -/
theorem mild_silent (h : p.Unseen q) : p.Mild pid (q, []) := .plain h (by simp)

/-- What does not show, and is not noted, is conduct. -/
theorem conduct_silent (h : p.Unseen q) : p.Conduct pid (q, []) := .mild (mild_silent h)

/-- What is noted is of no consequence for an account of signals. -/
theorem conduct_plain (h : p.Unseen q) (he : ∀ e ∈ events, e.isPlain = true) :
    p.Conduct pid (q, events) :=
  .mild (.plain h he)

/-! ### What conduct observes -/

/-- **A relation that conduct observes**: it composes, and holds where nothing shows, where a signal
is taken and where the status changes. -/
structure Observed (pid : Pid) (P : Process → Process → Prop) : Prop where
  trans {p q r : Process} : P p q → P q r → P p r
  standing {p q : Process} : q.standing = p.standing → P p q
  without (p : Process) (sig : Signal) : P p (p.without sig)
  shift {p : Process} {c : Process × List Event} : p.Shift pid c → P p c.1

section Observed

variable {P : Process → Process → Prop} {c : Process × List Event}

/-- What conduct observes holds where an end is marked at most. -/
theorem Observed.mild (h : Observed pid P) (hm : p.Mild pid c) : P p c.1 := by
  cases hm with
  | plain hu => exact h.standing hu.standing
  | ended hu => exact h.trans (h.shift shift_exit) (h.standing hu.standing)

/-- **What holds where nothing shows, a signal is taken or the status changes, holds of all
conduct.** -/
theorem Observed.conduct (h : Observed pid P) (hc : p.Conduct pid c) : P p c.1 := by
  cases hc with
  | mild hm => exact h.mild hm
  | concluded hu | outright hu => exact h.standing hu.standing
  | took _ hq => exact h.trans (h.without p _) (h.standing hq)
  | @handled _ sig _ _ _ hd =>
    refine h.trans (h.without p sig) ?_
    cases hd with
    | ignored _ hu | entered _ _ hu => exact h.standing hu.standing
    | default _ hu => exact h.trans (h.shift (shift_act _ _)) (h.standing hu.standing)

end Observed

/-! ## Check points and waits -/

/-- A signal has been taken, and its disposition says what becomes of it. -/
theorem conduct_check (delivered : Bool) (hbox : p.inbox.Sound) :
    p.Conduct pid (p.check pid delivered) := by
  have hchecked := p.checked pid delivered
  generalize p.check pid delivered = r at hchecked ⊢
  cases hchecked with
  | ended => exact conduct_silent (unseen_answer rfl rfl)
  | stopped => exact conduct_plain (unseen_goto rfl rfl) (by simp [Event.isPlain])
  | passed => exact conduct_silent (unseen_answer rfl rfl)
  | took hn hs h =>
    rw [hbox.take_signal] at h
    cases h with
    | ignored hd => exact .handled hs hn (.ignored hd (unseen_goto rfl rfl))
    | default hd => exact .handled hs hn (.default hd (unseen_goto rfl rfl))
    | @entered action hd =>
      exact .handled hs hn (.entered hd rfl (unseen_deliver action standing_enter))

/-- A turn of a wait takes a signal and hands it to its call, or nothing shows. -/
theorem conduct_waitAny {now : Nat} (w : AnyWait) : p.Conduct pid (p.waitAny now w) := by
  have hwaited := p.waited now w
  generalize p.waitAny now w = r at hwaited ⊢
  cases hwaited with
  | ended | interrupted | expired => exact conduct_silent (unseen_leaveWait w rfl rfl)
  | stopped => exact conduct_plain (unseen_goto rfl rfl) (by simp [Event.isPlain])
  | blocked => exact conduct_silent (unseen_goto rfl rfl)
  | serves => exact conduct_silent (unseen_enter rfl rfl)
  | took _ hs =>
    have hpending := (SignalSet.mem_inter.1 (SignalSet.mem_of_first? hs)).1
    refine .took hpending standing_goto fun info h => ?_
    -- whoever is on top, what is on its way is what was taken
    obtain ⟨t, ht, h⟩ := Option.bind_eq_some_iff.1 h
    obtain ⟨t₀, -, rfl⟩ := Option.map_eq_some_iff.1 ht
    dsimp only at h
    split at h
    · exact (Option.some.inj h).symm
    · simp at h

/-- Whoever is woken only looks again, or leaves without a signal. -/
theorem conduct_awaken {now : Nat} {fs : List Frame} {root : Bool} {l : Loop}
    {listener : Listener} (ht : p.task = some ⟨fs, .blocked l listener, root⟩) :
    p.Conduct pid (p.awaken now l listener, []) := by
  have hstay : p.offered? = none := by
    simp only [offered?, ht, Option.bind_some]
    split <;> rfl
  have hawoken := p.awoken now l listener
  generalize p.awaken now l listener = q at hawoken ⊢
  cases hawoken with
  | looks => exact conduct_silent (unseen_goto rfl rfl)
  | @left w => exact conduct_silent (unseen_leaveWait w rfl rfl)
  | slept => exact conduct_silent (unseen_answer rfl rfl)
  | rests => exact conduct_silent ⟨rfl, hstay⟩

/-! ## Calls on the process itself -/

/-- A call that answers at once brings no signal. -/
theorem mild_answer (r : Reply) (hr : offers? r = none) : p.Mild pid (p.answer r, []) :=
  mild_silent (unseen_answer rfl hr)

/-- The answer to a change of disposition is the disposition that was there. -/
theorem mild_changeDisposition {new : Option (Disposition Handler)}
    (he : ∀ e ∈ events, e.isPlain = true) :
    p.Mild pid ((p.changeDisposition sig new).2.answer
      (.ok (.disposition (p.changeDisposition sig new).1)), events) :=
  .plain (unseen_answer (standing_changeDisposition sig new) rfl) he

/-- A `sigaction` does not show, whether it is refused or not. -/
theorem mild_sigaction (number : Nat) (new : Option (Disposition Handler)) :
    p.Mild pid (p.sigaction number new) := by
  unfold sigaction
  split
  · exact mild_answer _ rfl
  · refine mild_changeDisposition fun e he => ?_
    split at he
    · rw [List.mem_singleton.1 he]
      rfl
    · simp at he

/-- A change of the mask does not show. -/
theorem mild_sigprocmask (how : Nat) (set : Option SignalSet) :
    p.Mild pid (p.sigprocmask how set, []) := by
  unfold sigprocmask
  cases set with
  | none => exact mild_answer _ rfl
  | some set =>
    cases MaskChange.ofNumber? how with
    | none => exact mild_answer _ rfl
    | some how => exact mild_silent (unseen_answer rfl rfl)

/-- An `exit` marks the end of its caller. -/
theorem mild_exitCall (code : Int) : p.Mild pid (p.exitCall pid code) :=
  .ended (unseen_answer rfl rfl)

/-- What the caller of a `wait4` does by itself is to note that it is refused, or to begin. -/
theorem mild_wait4 (selector : Int) (options : BitVec 32) :
    p.Mild pid (p.wait4 selector options) := by
  unfold wait4
  split
  · exact .plain (unseen_answer rfl rfl) (by simp [Event.isPlain])
  split
  · exact mild_answer _ rfl
  split
  · exact .plain (unseen_answer rfl rfl) (by simp [Event.isPlain])
  · exact mild_silent (unseen_goto rfl rfl)

/-- A wait begins with a mask. -/
theorem mild_beginWaitAny {now : Nat} (set : SignalSet) (timeout : Option Timeout) :
    p.Mild pid (p.beginWaitAny now set timeout, []) :=
  mild_silent (unseen_goto rfl rfl)

/-- A suspension begins with a mask, and forgets an earlier continue. -/
theorem mild_beginSuspend (mask : SignalSet) : p.Mild pid (p.beginSuspend mask, []) :=
  mild_silent (unseen_goto rfl rfl)

/-- A sleep begins with its deadline. -/
theorem mild_beginSleep {now : Nat} (timeout : Timeout) :
    p.Mild pid (p.beginSleep now timeout, []) :=
  mild_silent (unseen_goto rfl rfl)

/-- **A construct of the engine begins mildly**, or starts the handler that it is asked to run. -/
theorem conduct_engage {now : Nat} (call : EngineCall Handler) :
    p.Conduct pid (p.engage now call) := by
  cases call with
  | checkPoint => exact conduct_silent (unseen_goto rfl rfl)
  | suspend mask => exact .mild (mild_beginSuspend mask)
  | sleep timeout => exact .mild (mild_beginSleep timeout)
  | waitAny set timeout => exact .mild (mild_beginWaitAny set timeout)
  | changeMask how set => exact conduct_silent (unseen_answer rfl rfl)
  | pending => exact .mild (mild_answer _ rfl)
  | changeDisposition sig new => exact .mild (mild_changeDisposition (by simp))
  | deliver sig action =>
    exact .outright (unseen_deliver _ rfl)

/-! ## Routines -/

/-- A routine goes on with what is left of it, or notes that it is left. -/
theorem conduct_proceed (frames : List Frame) : p.Conduct pid (p.proceed frames) := by
  unfold proceed
  split
  · exact conduct_plain (unseen_answer standing_pop rfl) (by simp [Event.isPlain])
  · exact conduct_silent (unseen_enter standing_pop rfl)
  · exact .mild (mild_answer _ rfl)

/-- **What a routine asks for** begins, or breaks it off. -/
theorem conduct_perform {now : Nat} (frames : List Frame) (request : Request Handler) :
    p.Conduct pid (p.perform now frames request) := by
  cases request with
  | system call => exact conduct_silent (unseen_enter rfl rfl)
  | engine call => exact conduct_engage call
  | panic => exact conduct_silent (unseen_goto rfl rfl)
  | fail e =>
    simp only [perform]
    split
    · exact conduct_plain (unseen_answer standing_pop rfl) (by simp [Event.isPlain])
    · exact conduct_plain (unseen_goto standing_pop rfl) (by simp [Event.isPlain])

/-- The return of a handler puts back a mask, and its signal to default if it was to run once. -/
theorem unseen_finishDelivery (action : Action Installed) (saved : SignalSet) :
    p.Unseen (p.pop.finishDelivery sig action saved r) := by
  have hpop : p.pop.standing = p.standing := standing_pop
  unfold finishDelivery
  cases r with
  | error e => exact unseen_answer hpop rfl
  | ok v =>
    dsimp only
    split <;> exact unseen_answer hpop rfl

/-- A suspension comes to its reply, or blocks. -/
theorem unseen_finishSuspend (saved : SignalSet) (seen : Nat) :
    p.Unseen (p.pop.finishSuspend saved seen r) := by
  have hpop : p.pop.standing = p.standing := standing_pop
  unfold finishSuspend
  split
  · exact unseen_answer hpop rfl
  · exact unseen_answer hpop rfl
  split
  · exact unseen_answer hpop rfl
  · exact unseen_goto hpop rfl

/-- A sleep comes to its reply, or blocks. -/
theorem unseen_finishSleep {now : Nat} (deadline : Option Nat) (seen : Nat) :
    p.Unseen (p.pop.finishSleep now deadline seen r) := by
  have hpop : p.pop.standing = p.standing := standing_pop
  unfold finishSleep
  split
  · exact unseen_answer hpop rfl
  · exact unseen_answer hpop rfl
  split
  · exact unseen_answer hpop rfl
  · exact unseen_goto hpop rfl

/-- Only the body of a call is offered a signal; what a call returns goes to a
routine. -/
theorem unseen_return {fs : List Frame} {root : Bool} (ht : p.task = some ⟨f :: fs, c, root⟩)
    (hf : TopIs Frame.isRoutine fs) : p.Unseen (p.pop.answer r) := by
  refine ⟨standing_goto.trans standing_pop, ?_⟩
  simp only [offered?, answer, goto, pop, ht, Option.map_some, Option.bind_some, List.tail_cons]
  split
  · simp [Frame.isRoutine] at hf
  · rfl

/-- **What a frame does with a reply**: the call that the reply is for concludes with it. -/
theorem conduct_accommodate {now : Nat} {fs : List Frame} {root : Bool}
    (ht : p.task = some ⟨f :: fs, .reply r, root⟩) (hst : Stacked (f :: fs)) :
    p.Conduct pid (p.pop.accommodate now f r) := by
  cases f with
  | main keep =>
    refine conduct_plain (unseen_goto standing_pop ?_) (by simp [Event.isPlain])
    split <;> rfl
  | body run keep rest =>
    simp only [accommodate]
    split
    · next h =>
      have hr : offers? r = none := by
        unfold mustExit at h
        split at h
        · rfl
        · simp at h
      exact conduct_plain (unseen_answer standing_pop hr) (by simp [Event.isPlain])
    · exact conduct_plain (unseen_enter standing_pop rfl) (by simp [Event.isPlain])
  | delivery sig action saved => exact conduct_silent (unseen_finishDelivery action saved)
  | round =>
    cases r with
    | ok v => exact conduct_silent (unseen_goto standing_pop rfl)
    | error e => exact conduct_silent (unseen_answer standing_pop rfl)
  | callBody call =>
    refine .concluded (unseen_enter standing_pop rfl) fun info h => ?_
    simp only [offered?, ht, Option.bind_some]
    exact offers?_of_conclude h
  | callExit result =>
    cases r with
    | ok v => exact conduct_silent (unseen_return ht hst.1)
    | error e => exact conduct_silent (unseen_answer standing_pop rfl)
  | waiting w =>
    cases r with
    | ok v => exact conduct_silent (unseen_goto standing_pop rfl)
    | error e => exact conduct_silent (unseen_leaveWait w standing_pop rfl)
  | suspended saved seen => exact conduct_silent (unseen_finishSuspend saved seen)
  | asleep deadline seen => exact conduct_silent (unseen_finishSleep deadline seen)

/-! ## Steps -/

/-- **Every step of a task is conduct.** -/
theorem conduct_step {now : Nat} {t : Task} (ht : p.task = some t) (hbox : p.inbox.Sound)
    (hst : Stacked t.frames) : p.Conduct pid (p.step now pid t) := by
  obtain ⟨fs, c, root⟩ := t
  have hstay : c.offers? = none → p.Unseen p := fun hc => by
    refine ⟨rfl, ?_⟩
    simp only [offered?, ht, Option.bind_some]
    split <;> first | exact hc | rfl
  cases c with
  | idle | execute call | finish e => exact conduct_silent (hstay rfl)
  | perform request => exact conduct_perform fs request
  | proceed => exact conduct_proceed fs
  | loop l =>
    cases l with
    | check delivered => exact conduct_check delivered hbox
    | waitAny w => exact conduct_waitAny w
    | suspend saved => exact conduct_silent (unseen_enter rfl rfl)
    | sleep deadline => exact conduct_silent (unseen_enter rfl rfl)
    | wait4 selector noHang => exact conduct_silent (hstay rfl)
  | blocked l listener => exact conduct_awaken ht
  | reply r =>
    cases fs with
    | nil => exact conduct_silent (unseen_goto rfl rfl)
    | cons f fs => exact conduct_accommodate ht hst
  | panic =>
    cases fs with
    | nil => exact conduct_silent (unseen_goto rfl rfl)
    | cons f fs =>
      have hpop : p.Unseen p.pop := by
        refine ⟨standing_pop, ?_⟩
        simp only [offered?, pop, ht, Option.map_some, Option.bind_some]
        split <;> rfl
      cases f with
      | _ => exact conduct_silent ⟨hpop.standing, hpop.offered⟩

end Process

end PosixSignals
