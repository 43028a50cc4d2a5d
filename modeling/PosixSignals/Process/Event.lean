import PosixSignals.Process.Task

/-!
# Events

What happens in the system, as a step tells it. The answers of a
scenario, the trace lines and the statements about whole runs are all
read off the events of the run.
-/

namespace PosixSignals

/-- One thing that happened. -/
inductive Event where
  /-- A process came into being. -/
  | created (pid : Pid) (parent : Option Pid)
  /-- A signal was generated against a process that had exited. -/
  | dropped (signal : Signal) (target : Pid)
  /-- A signal was generated, and where it went. -/
  | generated (info : SignalInfo) (target : Pid) (outcome : Generated)
  | stopped (target : Pid) (signal : Signal)
  | continued (target : Pid)
  | exited (target : Pid) (w : WaitStatus)
  | becameZombie (pid : Pid)
  /-- A stopped process blocked at a check point. -/
  | awaitsContinue
  /-- A check point took this signal to deliver it. -/
  | handling (signal : Signal)
  | ignored (signal : Signal)
  /-- A handler starts, with the mask and the pending set it starts under. -/
  | entered (run : HandlerRun) (blocked pending : SignalSet)
  | left (run : HandlerRun)
  /-- A wait took this signal. -/
  | took (info : SignalInfo)
  /-- The body of a system call came to this result. -/
  | concluded (call : CallName) (reply : Reply)
  /-- A call returned this to the routine that made it. -/
  | returned (reply : Reply)
  | noChildReady
  /-- A wait for a process group was refused. -/
  | groupWaitRefused (selector : Int)
  | waitOptionsRefused
  /-- A request to change the disposition of this signal has no effect. -/
  | unchangeable (signal : Signal)
  | limitAccessed (resource : Resource) (target : Pid)
  /-- A process reaped a child. -/
  | reaped (child : Pid)
  | mainFailed (e : Errno)
  | panicked
  /-- A root process is over, with this wait status. -/
  | rootEnded (w : WaitStatus)
  /-- A root process could not be started. -/
  | rootRefused (e : Errno)

/-- Who made an event happen: the outside, or a process in the midst of
these system calls. -/
structure Source where
  pid : Option Pid := none
  calls : List CallName := []
deriving DecidableEq

/-- The outside of the system. -/
def Source.host : Source := {}

/-- An event with its source. -/
structure Record where
  source : Source
  event : Event

end PosixSignals
