import PosixSignals.Process.Basic

/-!
# Generation

What a signal generated against a process does to it. Stops, continues
and ends take effect in that instant; a signal with a handler only
becomes pending, for the process to deliver at its next check point. All
of this changes the target alone and runs in nobody's context, so a
process generates signals against others without ever entering them.
-/

namespace PosixSignals

namespace Process

/-! ## Changes of status -/

/-- Ends a process, unless it has already ended. -/
def exit (pid : Pid) (w : WaitStatus) (p : Process) : Option (Process × List Event) :=
  (p.status.exit? w).map fun status => (wake { p with status }, [.exited pid w])

/-- Stops a process, if it runs. -/
def stop (pid : Pid) (sig : Signal) (p : Process) : Option (Process × List Event) :=
  (p.status.stop? sig).map fun status => (wake { p with status }, [.stopped pid sig])

/-- Lets a stopped process go on, and notes that it was continued. -/
def resume (pid : Pid) (p : Process) : Option (Process × List Event) :=
  p.status.continue?.map fun status =>
    (wake { p with status, continued := true }, [.continued pid])

/-- A change that may be impossible leaves everything as it is. -/
def orStay (p : Process) (change : Option (Process × List Event)) : Process × List Event :=
  change.getD (p, [])

/-- Carries out a default action. -/
def act (pid : Pid) (sig : Signal) (action : DefaultAction) (p : Process) :
    Process × List Event :=
  match action with
  | .terminate | .coreDump => p.orStay (p.exit pid (.ofSignal sig))
  | .stop => p.orStay (p.stop pid sig)
  | .ignore | .continue => (p, [])

/-! ## A signal arrives -/

/-- Lets the inbox decide where a signal goes, and carries out the default
action if that is the decision. -/
def accept (pid : Pid) (info : SignalInfo) (p : Process) : Process × List Event :=
  let (outcome, inbox) := p.inbox.receive info (p.dispositions.get info.signal)
  let p := { p with inbox }
  let (p, acted) := match outcome with
    | .defaultAction action => p.act pid info.signal action
    | _ => (p, [])
  (p, .generated info pid outcome :: acted)

/-- **Generates a signal against a process.** Nothing reaches a process that
has ended. `cont` first lifts a stop, whatever its disposition and mask,
and then goes the way of every signal; at the end everything that blocks
on the process is woken. -/
def generate (pid : Pid) (info : SignalInfo) (p : Process) : Process × List Event :=
  if p.status.isExited then (p, [.dropped info.signal pid])
  else
    let (p, lifted) := if info.signal = .cont then p.orStay (p.resume pid) else (p, [])
    let (p, events) := p.accept pid info
    (p.wake, lifted ++ events)

end Process

end PosixSignals
