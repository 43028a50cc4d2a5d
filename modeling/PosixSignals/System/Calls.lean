import PosixSignals.System.Lifecycle

/-!
# Calls that reach beyond the caller

Sending signals, forking, waiting for children, limits of other processes
and the state of the system.
-/

namespace PosixSignals

namespace System

/-! ## Sending signals -/

/-- **Whom a number addresses**: the process of a positive number, the
caller's group for `0`, that group without its founder for `-1`, and the
group of the absolute value for any other negative number. -/
def addressed (s : System) (p : Process) (n : Int) : List Pid :=
  if 0 < n then if (s.listed? n.toNat).isSome then [n.toNat] else []
  else if n = 0 then s.group p.pgid
  else if n = -1 then (s.group p.pgid).filter (· != p.pgid)
  else s.group n.natAbs

/-- The number a recipient stands for. -/
def recipientNumber (pid : Pid) (p : Process) : Recipient → Int
  | .number n => n
  | .self => pid
  | .ownGroup => -(p.pgid : Int)

/-- Generates a signal against each target in turn. -/
def sendAll (s : System) (src : Source) (info : SignalInfo) (targets : List Pid) : System :=
  targets.foldl (fun s q => s.act src q (·.generate q info)) s

/-- Sends a signal. The number is checked first, then that there is anyone
to send it to; signal `0` stops there. -/
def kill (s : System) (src : Source) (pid : Pid) (p : Process) (recipient : Recipient)
    (number : Nat) : System :=
  if number = 0 then
    if (s.addressed p (recipientNumber pid p recipient)).isEmpty then s.answer pid (.error .srch)
    else s.answer pid (.ok .done)
  else match Signal.ofNumber? number with
    | none => s.answer pid (.error .inval)
    | some sig =>
      let targets := s.addressed p (recipientNumber pid p recipient)
      if targets.isEmpty then s.answer pid (.error .srch)
      else (s.sendAll src (.user sig pid) targets).answer pid (.ok .done)

/-! ## Children -/

/-- Forks the caller; the child waits for commands of its own. -/
def forkCall (s : System) (src : Source) (pid : Pid) (p : Process) : System :=
  match s.fork src pid p (some {}) with
  | (none, s) => s.answer pid (.error .again)
  | (some child, s) => s.answer pid (.ok (.number child))

/-- One turn of a wait for children: reap a selected zombie, or else
return, unwind, be interrupted or block. -/
def wait4 (s : System) (src : Source) (pid : Pid) (p : Process) (selector : Int)
    (noHang : Bool) : System :=
  match s.ready? p selector with
  | .error e => s.answer pid (.error e)
  | .ok (some (child, w)) =>
    (((s.disown pid child).unlist child).note src (.reaped child)).answer pid
      (.ok (.child child w)) |>.sweep
  | .ok none =>
    if noHang then s.answer pid (.ok (.child 0 0))
    else if p.status.isExited then s.answer pid (.error .mustExit)
    else if p.inbox.hasDeliverable then s.answer pid (.error .intr)
    else s.act src pid fun p =>
      (p.goto (.blocked (.wait4 selector noHang) (p.listen .child none)), [.noChildReady])

/-! ## Limits and system information -/

/-- Reads and replaces a limit of the caller, for number `0`, or of another
process. -/
def prlimit (s : System) (src : Source) (pid : Pid) (target : Pid) (resource : Nat)
    (new : Option Limit) : System :=
  match Resource.ofNumber? resource with
  | none => s.answer pid (.error .inval)
  | some r =>
    let target := if target = 0 then (s.process? pid).map (pid, ·)
      else (s.listed? target).map (target, ·)
    match target with
    | none => s.answer pid (.error .srch)
    | some (target, q) =>
      let s := s.note src (.limitAccessed r target)
      match q.limits.change r new with
      | .error e => s.answer pid (.error e)
      | .ok (old, limits) =>
        (s.update target fun q => { q with limits }).answer pid (.ok (.limit old))

/-- **The body of a system call.** -/
def execute (s : System) (src : Source) (pid : Pid) (p : Process) :
    SystemCall Handler → System
  | .kill recipient number => s.kill src pid p recipient number
  | .sigaction number new => s.act src pid (·.sigaction number new)
  | .sigprocmask how set => s.update pid (·.sigprocmask how set)
  | .sigpending => s.update pid (·.sigpending)
  | .sigtimedwait set timeout => s.update pid (·.beginWaitAny s.now set timeout)
  | .sigwait set => s.update pid (·.beginWaitAny s.now set none)
  | .sigsuspend mask => s.update pid (·.beginSuspend mask)
  | .fork => s.forkCall src pid p
  | .exit code => s.act src pid (·.exitCall pid code)
  | .wait4 selector options => s.act src pid (·.wait4 selector options)
  | .getpid => s.answer pid (.ok (.number pid))
  | .getppid => s.answer pid (.ok (.number (p.parent.getD 0)))
  | .schedYield => s.answer pid (.ok .done)
  | .nanosleep timeout => s.update pid (·.beginSleep s.now timeout)
  | .prlimit target resource new => s.prlimit src pid target resource new
  | .sysinfo => s.answer pid (.ok (.system (.snapshot (s.now / 1000) s.liveCount)))

end System

end PosixSignals
