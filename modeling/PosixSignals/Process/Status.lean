import PosixSignals.Signal.Basic

/-!
# Process status

The life of a process: normal, stopped by a signal, exited (marked, its
context still to unwind) and zombie (its context gone, its parent still
to be told). Each status shows a sixteen-bit wait status in the usual
layout: an exit code in the high byte, a fatal signal alone in the low
byte, a stop as its signal in the high byte over `0x7f`.
-/

namespace PosixSignals

/-- A sixteen-bit wait status. -/
abbrev WaitStatus := UInt16

namespace WaitStatus

/-- The wait status of a normal exit: the low byte of the code counts. -/
def ofExitCode (code : Int) : WaitStatus := .ofNat ((code % 256).toNat * 256)

/-- The wait status of a process that a signal killed. -/
def ofSignal (sig : Signal) : WaitStatus := .ofNat sig.number

/-- The wait status of a process that a signal stopped. -/
def ofStop (sig : Signal) : WaitStatus := .ofNat (sig.number * 256 + 0x7f)

end WaitStatus

/-- Where a process stands in its life. -/
inductive Status where
  | normal
  | stopped (sig : Signal)
  /-- Marked as ended; the context has not unwound yet. -/
  | exited (w : WaitStatus)
  /-- Ended and unwound, waiting to be reaped. -/
  | zombie (w : WaitStatus)
deriving DecidableEq

namespace Status

def waitStatus : Status → WaitStatus
  | normal => 0
  | stopped sig => .ofStop sig
  | exited w => w
  | zombie w => w

/-- Whether the process has ended, unwound or not. -/
def isExited : Status → Bool
  | exited _ | zombie _ => true
  | normal | stopped _ => false

def isZombie : Status → Bool
  | zombie _ => true
  | _ => false

/-- The wait status a parent can collect. -/
def reapable? : Status → Option WaitStatus
  | zombie w => some w
  | _ => none

def isStopped : Status → Bool
  | stopped _ => true
  | _ => false

def name : Status → String
  | normal => "Normal"
  | stopped _ => "Stopped"
  | exited _ => "Exited"
  | zombie _ => "Zombie"

/-! ## Transitions

Each is possible from some states only, and `none` from the others. -/

/-- A stop signal: only a normal process stops. -/
def stop? (sig : Signal) : Status → Option Status
  | normal => some (stopped sig)
  | _ => none

/-- A continue: only a stopped process goes on. -/
def continue? : Status → Option Status
  | stopped _ => some normal
  | _ => none

/-- **The end is marked once.** -/
def exit? (w : WaitStatus) : Status → Option Status
  | normal | stopped _ => some (exited w)
  | exited _ | zombie _ => none

/-- The zombie of a process, with the wait status it has at that moment. -/
def toZombie (s : Status) : Status := zombie s.waitStatus

end Status

end PosixSignals
