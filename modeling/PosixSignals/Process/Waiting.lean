import PosixSignals.Process.Delivery

/-!
# Waiting

The blocking constructs. Each registers its listener before it looks at
the condition it waits for, and blocks only on that listener, so nothing
that happens in between is missed. A wait that was given a mask of its
own keeps the old one and puts it back on every way out.
-/

namespace PosixSignals

namespace Process

/-- Whether a deadline has come. -/
def expired (now : Nat) (deadline : Option Nat) : Bool :=
  deadline.any (· ≤ now)

/-! ## Waiting for any signal of a set -/

/-- Ends a wait: the mask is put back and the reply handed on. -/
def leaveWait (w : AnyWait) (r : Reply) (p : Process) : Process := (p.restore w.saved).answer r

/-- Starts a wait. While it lasts its set is blocked, so that the signals
of the set stay pending; `kill` and `stop` cannot be waited for. -/
def beginWaitAny (now : Nat) (set : SignalSet) (timeout : Option Timeout) (p : Process) :
    Process :=
  let set := set \ .uncatchable
  let w : AnyWait :=
    { set
      bounded := timeout.isSome
      deadline := timeout.bind (·.deadline? now)
      saved := p.inbox.blocked }
  { p with inbox := p.inbox.changeMask .block set }.goto (.loop (.waitAny w))

/-- **One turn of a wait.** The lowest pending signal of the set is taken. A
signal outside the set interrupts a bounded wait and is delivered in
place by an unbounded one. -/
def waitAny (now : Nat) (w : AnyWait) (p : Process) : Process × List Event :=
  if p.status.isExited then (p.leaveWait w (.error .mustExit), [])
  else if p.status.isStopped then
    (p.goto (.blocked (.waitAny w) (p.listen .signal none)), [.awaitsContinue])
  else match p.inbox.takePendingIn w.set with
    | (some info, inbox) =>
      ({ p with inbox }.leaveWait w (.ok (.taken (some info))), [.took info])
    | (none, _) =>
      if p.inbox.hasDeliverable then
        if w.bounded then (p.leaveWait w (.error .intr), [])
        else (p.enter (.waiting w) (.loop (.check false)), [])
      else if expired now w.deadline then (p.leaveWait w (.ok (.taken none)), [])
      else (p.goto (.blocked (.waitAny w) (p.listen .signal w.deadline)), [])

/-! ## Suspending under another mask -/

/-- Starts a suspension: only a continue from now on counts, and the mask
is replaced as a whole. -/
def beginSuspend (mask : SignalSet) (p : Process) : Process :=
  { p with continued := false, inbox := p.inbox.withMask mask }.goto
    (.loop (.suspend p.inbox.blocked))

/-- One turn of a suspension: register the listener, then check. -/
def suspend (saved : SignalSet) (p : Process) : Process :=
  p.enter (.suspended saved (p.notices .signal)) (.loop (.check false))

/-- The check inside a suspension is over. A delivery ends the suspension,
and so does a continue; otherwise it blocks. -/
def finishSuspend (saved : SignalSet) (seen : Nat) (r : Reply) (p : Process) : Process :=
  match r with
  | .error e => (p.restore saved).answer (.error e)
  | .ok (.delivered true) => (p.restore saved).answer (.ok .done)
  | .ok _ =>
    if p.continued then ({ p with continued := false }.restore saved).answer (.ok .done)
    else p.goto (.blocked (.suspend saved) ⟨.signal, seen, none⟩)

/-! ## Sleeping -/

/-- Starts a sleep. -/
def beginSleep (now : Nat) (timeout : Timeout) (p : Process) : Process :=
  p.goto (.loop (.sleep (timeout.deadline? now)))

/-- One turn of a sleep: register the listener, then check. -/
def sleep (deadline : Option Nat) (p : Process) : Process :=
  p.enter (.asleep deadline (p.notices .signal)) (.loop (.check false))

/-- The check inside a sleep is over: a delivery interrupts it. -/
def finishSleep (now : Nat) (deadline : Option Nat) (seen : Nat) (r : Reply) (p : Process) :
    Process :=
  match r with
  | .error e => p.answer (.error e)
  | .ok (.delivered true) => p.answer (.error .intr)
  | .ok _ =>
    if expired now deadline then p.answer (.ok .done)
    else p.goto (.blocked (.sleep deadline) ⟨.signal, seen, deadline⟩)

/-! ## Waking up -/

/-- What a wait comes to when its deadline passes without a notification. -/
def timeOut (l : Loop) (p : Process) : Process :=
  match l with
  | .waitAny w => p.leaveWait w (.ok (.taken none))
  | .sleep _ => p.answer (.ok .done)
  | .check _ | .suspend _ | .wait4 .. => p.goto (.loop l)

/-- Goes on after blocking: a notification sends the construct back to look
again, a deadline ends it. -/
def awaken (now : Nat) (l : Loop) (listener : Listener) (p : Process) : Process :=
  if p.notified listener then p.goto (.loop l)
  else if expired now listener.deadline then p.timeOut l
  else p

end Process

end PosixSignals
