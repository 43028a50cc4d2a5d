import PosixSignals.Inbox
import PosixSignals.Errno
import PosixSignals.Limits

/-!
# Programs

What a process can be told to do: system calls, which end in a check
point, calls to the signal engine, which do not, and two ways of breaking
off. A handler is a program too: a list of instructions that it carries
out the first few times it runs. Calls are written over the type of
handlers, because a disposition is one of their arguments.
-/

namespace PosixSignals

/-- A process identifier; `0` names no process. -/
abbrev Pid := Nat

/-- How long a wait may take. -/
inductive Timeout where
  | millis (n : Nat)
  /-- So long that its deadline is beyond the clock, hence never comes. -/
  | unreachable
deriving DecidableEq

/-- The moment a wait that starts now runs out, if it ever does. -/
def Timeout.deadline? (now : Nat) : Timeout → Option Nat
  | millis n => some (now + n)
  | unreachable => none

/-- Whom a process sends a signal to. -/
inductive Recipient where
  /-- A process or group, by the number a caller writes. -/
  | number (n : Int)
  | self
  | ownGroup
deriving DecidableEq

/-- The system calls, by name. -/
inductive CallName where
  | kill
  | sigaction
  | sigprocmask
  | sigpending
  | sigtimedwait
  | sigsuspend
  | fork
  | exit
  | wait4
  | getpid
  | getppid
  | schedYield
  | nanosleep
  | prlimit
  | sysinfo
deriving DecidableEq

/-- A system call with its arguments, raw where the kernel checks them. -/
inductive SystemCall (H : Type) where
  | kill (recipient : Recipient) (number : Nat)
  | sigaction (number : Nat) (new : Option (Disposition H))
  | sigprocmask (how : Nat) (set : Option SignalSet)
  | sigpending
  | sigtimedwait (set : SignalSet) (timeout : Option Timeout)
  /-- A `sigtimedwait` without timeout that answers the signal alone. -/
  | sigwait (set : SignalSet)
  | sigsuspend (mask : SignalSet)
  | fork
  | exit (code : Int)
  | wait4 (selector : Int) (options : BitVec 32)
  | getpid
  | getppid
  | schedYield
  | nanosleep (timeout : Timeout)
  | prlimit (pid : Pid) (resource : Nat) (new : Option Limit)
  | sysinfo

/-- The name a call runs under; `sigwait` is a kind of `sigtimedwait`. -/
def SystemCall.name {H : Type} : SystemCall H → CallName
  | kill .. => .kill
  | sigaction .. => .sigaction
  | sigprocmask .. => .sigprocmask
  | sigpending => .sigpending
  | sigtimedwait .. => .sigtimedwait
  | sigwait .. => .sigtimedwait
  | sigsuspend .. => .sigsuspend
  | fork => .fork
  | exit .. => .exit
  | wait4 .. => .wait4
  | getpid => .getpid
  | getppid => .getppid
  | schedYield => .schedYield
  | nanosleep .. => .nanosleep
  | prlimit .. => .prlimit
  | sysinfo => .sysinfo

/-- A call to the signal engine itself, without a check point at its end. -/
inductive EngineCall (H : Type) where
  | checkPoint
  | suspend (mask : SignalSet)
  | sleep (timeout : Timeout)
  | waitAny (set : SignalSet) (timeout : Option Timeout)
  | changeMask (how : MaskChange) (set : SignalSet)
  | pending
  | changeDisposition (sig : Signal) (new : Option (Disposition H))
  | deliver (sig : Signal) (action : Action H)

/-- One thing to do. -/
inductive Request (H : Type) where
  | system (call : SystemCall H)
  | engine (call : EngineCall H)
  /-- Ends the routine it stands in with this error. -/
  | fail (e : Errno)
  | panic

/-- A request, and whether its routine goes on after it was told that the
process must exit. -/
structure Instruction (H : Type) where
  request : Request H
  keep : Bool := false

/-- A signal handler: a label, how many of its runs carry out the body, and
the body. -/
inductive Handler where
  | mk (tag : String) (times : Nat) (body : List (Instruction Handler))

namespace Handler

def tag : Handler → String
  | mk tag _ _ => tag

def times : Handler → Nat
  | mk _ times _ => times

def body : Handler → List (Instruction Handler)
  | mk _ _ body => body

/-- What the `n`-th run carries out. -/
def bodyOf (h : Handler) (n : Nat) : List (Instruction Handler) :=
  if n ≤ h.times then h.body else []

end Handler

/-- A handler as it was installed once. Runs are counted by installation,
so installing the same handler again starts a new count. -/
structure Installed where
  id : Nat
  handler : Handler

/-- What the main routine of a process is told to do next. -/
inductive Command where
  | perform (instruction : Instruction Handler)
  /-- Return from main with this code. -/
  | finish (code : Int)

end PosixSignals
