import PosixSignals.Process.WaitOptions
import PosixSignals.Process.Waiting

/-!
# Calls on a process itself

The calls whose effect stays within the caller. Each looks at its
arguments, changes the process and either answers at once or starts a
construct that will.
-/

namespace PosixSignals

/-- Answers an error and changes nothing. -/
def Process.refuse (e : Errno) (p : Process) : Process := p.answer (.error e)

namespace Process

/-! ## System calls -/

/-- Replaces or reads a disposition, by signal number. -/
def sigaction (number : Nat) (new : Option (Disposition Handler)) (p : Process) :
    Process × List Event :=
  match Signal.ofNumber? number with
  | none => (p.refuse .inval, [])
  | some sig =>
    let (old, p) := p.changeDisposition sig new
    (p.answer (.ok (.disposition old)),
      if sig.isUncatchable && new.isSome then [.unchangeable sig] else [])

/-- Changes or reads the mask. Without a set, `how` is not looked at. -/
def sigprocmask (how : Nat) (set : Option SignalSet) (p : Process) : Process :=
  match set with
  | none => p.answer (.ok (.set p.inbox.blocked))
  | some set =>
    match MaskChange.ofNumber? how with
    | none => p.refuse .inval
    | some how =>
      { p with inbox := p.inbox.changeMask how set }.answer (.ok (.set p.inbox.blocked))

/-- The pending signals, as far as the process may see them. -/
def sigpending (p : Process) : Process := p.answer (.ok (.set p.inbox.visiblePending))

/-- Marks the caller as ended. -/
def exitCall (pid : Pid) (code : Int) (p : Process) : Process × List Event :=
  let (p, events) := p.orStay (p.exit pid (.ofExitCode code))
  (p.answer (.error .mustExit), events)

/-- Starts a wait for children: `-1` selects any child, a positive number
the child of that number, and groups are not supported. -/
def wait4 (selector : Int) (options : BitVec 32) (p : Process) : Process × List Event :=
  if selector ≠ -1 ∧ selector ≤ 0 then (p.refuse .inval, [.groupWaitRefused selector])
  else match WaitOptions.ofWord? options with
    | none => (p.refuse .inval, [])
    | some options =>
      if options.unsupported then (p.refuse .unsupported, [.waitOptionsRefused])
      else (p.goto (.loop (.wait4 selector options.noHang)), [])

/-! ## Calls to the signal engine -/

/-- Carries out a call to the signal engine. -/
def engage (now : Nat) (call : EngineCall Handler) (p : Process) : Process × List Event :=
  match call with
  | .checkPoint => (p.goto (.loop (.check false)), [])
  | .suspend mask => (p.beginSuspend mask, [])
  | .sleep timeout => (p.beginSleep now timeout, [])
  | .waitAny set timeout => (p.beginWaitAny now set timeout, [])
  | .changeMask how set =>
    ({ p with inbox := p.inbox.changeMask how set }.answer (.ok (.set p.inbox.blocked)), [])
  | .pending => (p.sigpending, [])
  | .changeDisposition sig new =>
    let (old, p) := p.changeDisposition sig new
    (p.answer (.ok (.disposition old)), [])
  | .deliver sig action =>
    let installed : Action Installed :=
      { handler := ⟨p.installs, action.handler⟩, mask := action.mask, flags := action.flags }
    { p with installs := p.installs + 1 }.deliver sig installed

end Process

end PosixSignals
