import PosixSignals.Process.Program
import PosixSignals.Process.Status
import PosixSignals.SystemInfo

/-!
# Tasks

The context of a process: what it does next, and the stack of everything
that waits for it. Handlers run inside calls, calls run inside handlers,
and a wait may deliver signals in the middle; a frame for each of these
makes the nesting explicit, so that a task is plain data and one step of
it a function. Whatever a frame will undo when it is left, such as a mask
to restore, is recorded in the frame.
-/

namespace PosixSignals

/-- What a call produces. -/
inductive Value where
  | done
  | number (n : Nat)
  | signal (sig : Signal)
  | set (s : SignalSet)
  | disposition (d : Disposition Installed)
  | info (i : SignalInfo)
  /-- The signal a bounded wait took, if it took one. -/
  | taken (i : Option SignalInfo)
  | child (pid : Pid) (w : WaitStatus)
  | limit (l : Limit)
  | system (s : SystemInfo)
  /-- Whether a check point delivered anything. -/
  | delivered (b : Bool)

/-- The outcome of a call. -/
abbrev Reply := Except Errno Value

/-- Whether a reply tells its caller that the process must exit. -/
def mustExit : Reply → Bool
  | .error .mustExit => true
  | _ => false

/-- One run of a handler: for which signal, under which label, and the
how-manieth of its installation in this process. -/
structure HandlerRun where
  signal : Signal
  tag : String
  count : Nat
deriving DecidableEq

/-- A wait for any signal of a set. -/
structure AnyWait where
  set : SignalSet
  /-- A wait with a timeout, reachable or not, is interrupted by signals
  outside the set. -/
  bounded : Bool
  deadline : Option Nat
  /-- The mask before the wait. -/
  saved : SignalSet
deriving DecidableEq

/-- The constructs that block: each looks at the state, and blocks if there
is nothing to be done; woken, it looks again. -/
inductive Loop where
  /-- A check point, with whether it has delivered anything yet. -/
  | check (delivered : Bool)
  | waitAny (w : AnyWait)
  | suspend (saved : SignalSet)
  | sleep (deadline : Option Nat)
  | wait4 (selector : Int) (noHang : Bool)
deriving DecidableEq

/-- What a process can be notified of. -/
inductive Occasion where
  /-- A signal, a stop, a continue or its own end. -/
  | signal
  /-- All of these, and the end of a child. -/
  | child
deriving DecidableEq

/-- A listener: the notifications it has seen at registration, and when it
gives up. Any notification since then wakes the one that blocks on it. -/
structure Listener where
  occasion : Occasion
  seen : Nat
  deadline : Option Nat := none
deriving DecidableEq

/-- What waits for a reply, and what it does with it. -/
inductive Frame where
  /-- The main routine. -/
  | main (keep : Bool)
  /-- A handler's body, with the instructions left to it. -/
  | body (run : HandlerRun) (keep : Bool) (rest : List (Instruction Handler))
  /-- The delivery around a handler, with the mask to restore. -/
  | delivery (sig : Signal) (action : Action Installed) (saved : SignalSet)
  /-- A check point, which goes on to the next signal. -/
  | round
  /-- A system call at work; its span is open. -/
  | callBody (call : SystemCall Handler)
  /-- A system call at its final check point, with what it will return. -/
  | callExit (reply : Reply)
  /-- A wait that delivers a signal in place. -/
  | waiting (w : AnyWait)
  | suspended (saved : SignalSet) (seen : Nat)
  | asleep (deadline : Option Nat) (seen : Nat)

/-- How the main routine ended. -/
inductive Ending where
  | code (n : Int)
  | error (e : Errno)
  | panic
deriving DecidableEq

/-- What a task does next. -/
inductive Control where
  /-- The main routine waits for a command. -/
  | idle
  | perform (request : Request Handler)
  /-- Carries out the body of a system call. -/
  | execute (call : SystemCall Handler)
  /-- The handler on top goes on to its next instruction. -/
  | proceed
  | loop (l : Loop)
  | blocked (l : Loop) (listener : Listener)
  /-- Hands a reply to the frame on top. -/
  | reply (r : Reply)
  /-- Unwinds the frames one by one. -/
  | panic
  | finish (e : Ending)

/-- The context of a process. -/
structure Task where
  /-- What waits, innermost first. -/
  frames : List Frame := []
  control : Control := .idle
  /-- Whether the outside waits for the process to end. -/
  root : Bool := false

namespace Task

/-- The system calls at work, outermost first. -/
def openCalls (t : Task) : List CallName :=
  t.frames.reverse.filterMap fun
    | .callBody call => some call.name
    | _ => none

def isIdle (t : Task) : Bool :=
  match t.control with
  | .idle => true
  | _ => false

def isBlocked (t : Task) : Bool :=
  match t.control with
  | .blocked .. => true
  | _ => false

end Task

end PosixSignals
