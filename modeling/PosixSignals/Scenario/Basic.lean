import PosixSignals.System.Step

/-!
# Scenarios

What the outside does to the system, one step at a time: it starts
processes, tells their main routines what to do next, sends signals and
looks at the process table. After each step the system settles.
-/

namespace PosixSignals

/-- One thing the outside does. -/
inductive HostStep where
  /-- Tells the main routine of a process what to do next. -/
  | command (pid : Pid) (command : Command)
  /-- Makes a call outside any process. -/
  | outside (request : Request Handler)
  /-- Starts a process without parent that waits for commands. -/
  | root (name : String)
  /-- Starts processes without parent and without context. -/
  | newRoots (name : String) (count : Nat)
  /-- Forks a process; the child has no context. -/
  | fork (pid : Pid)
  | send (pid : Pid) (info : SignalInfo)
  /-- Takes a process out of the table. -/
  | remove (pid : Pid)
  | exit (pid : Pid) (w : WaitStatus)
  | stop (pid : Pid) (sig : Signal)
  | resume (pid : Pid)
  /-- Takes a zombie child off a process's list. -/
  | reap (pid : Pid) (selector : Int)
  | get (pid : Pid)
  | limits (pid : Pid)
  | group (pgid : Pid)
  | live

/-- What the outside can ask of a process. -/
structure Profile where
  pid : Pid
  pgid : Pid
  name : String
  parent : Option Pid
  status : Status

/-- What a step answers at once. -/
inductive HostAnswer where
  | sent
  /-- The process is in the midst of a call. -/
  | busy
  /-- There is no such process, or it has no context. -/
  | noTask
  | done
  | failed (e : Errno)
  | started (pids : List (Option Pid))
  | pid (pid : Option Pid)
  | flag (b : Bool)
  | profile (p : Profile)
  | limits (l : Limits)
  | pids (l : List Pid)
  | count (n : Nat)

namespace System

/-- Starts `n` processes without context. -/
def addRoots (s : System) (name : String) : Nat → List (Option Pid) × System
  | 0 => ([], s)
  | n + 1 =>
    let (pid, s) := s.addRoot .host name none
    let (pids, s) := s.addRoots name n
    (pid :: pids, s)

/-- Tells a main routine what to do. -/
def command (s : System) (pid : Pid) (c : Command) : HostAnswer × System :=
  match (s.process? pid).bind (·.task) with
  | none => (.noTask, s)
  | some t =>
    if !t.isIdle then (.busy, s)
    else (.sent, s.update pid fun p =>
      match c with
      | .perform i => p.enter (.main i.keep) (.perform i.request)
      | .finish code => p.goto (.finish (.code code)))

/-- Changes a process of the table if the change is possible, and tells
whether it was. -/
def tryChange (s : System) (pid : Pid) (change : Process → Option (Process × List Event)) :
    HostAnswer × System :=
  match s.listed? pid with
  | none => (.failed .srch, s)
  | some p =>
    match change p with
    | none => (.flag false, s)
    | some _ => (.flag true, s.act .host pid fun p => p.orStay (change p))

/-- Looks at a process of the table. -/
def inspect (s : System) (pid : Pid) (f : Process → HostAnswer) : HostAnswer × System :=
  match s.listed? pid with
  | none => (.failed .srch, s)
  | some p => (f p, s)

/-- **Carries out a step of the outside**, before the system settles. -/
def host (s : System) : HostStep → HostAnswer × System
  | .command pid c => s.command pid c
  | .outside (.fail e) => (.failed e, s)
  | .outside _ => (.failed .srch, s)
  | .root name =>
    match s.addRoot .host name (some { root := true }) with
    | (some _, s) => (.done, s)
    | (none, s) => (.done, s.note .host (.rootRefused .again))
  | .newRoots name n =>
    let (pids, s) := s.addRoots name n
    (.started pids, s)
  | .fork pid =>
    match s.listed? pid with
    | none => (.failed .srch, s)
    | some p =>
      match s.fork .host pid p none with
      | (some child, s) => (.pid (some child), s)
      | (none, s) => (.failed .again, s)
  | .send pid info =>
    match s.listed? pid with
    | none => (.failed .srch, s)
    | some _ => (.done, s.act .host pid (·.generate pid info))
  | .remove pid => (.flag (s.listed? pid).isSome, (s.unlist pid).sweep)
  | .exit pid w => s.tryChange pid (·.exit pid w)
  | .stop pid sig => s.tryChange pid (·.stop pid sig)
  | .resume pid => s.tryChange pid (·.resume pid)
  | .reap pid selector =>
    match s.listed? pid with
    | none => (.failed .srch, s)
    | some p =>
      match s.ready? p selector with
      | .error e => (.failed e, s)
      | .ok none => (.pid none, s)
      | .ok (some (child, _)) => (.pid (some child), (s.disown pid child).sweep)
  | .get pid => s.inspect pid fun p => .profile ⟨pid, p.pgid, p.name, p.parent, p.status⟩
  | .limits pid => s.inspect pid fun p => .limits p.limits
  | .group pgid => (.pids (s.group pgid), s)
  | .live => (.count s.liveCount, s)

/-- Who has begun when a step is over. -/
def focusOf : HostStep → Option Pid
  | .command pid _ => some pid
  | _ => none

/-- Carries out a step and lets the system settle. -/
def advance (s : System) (step : HostStep) : HostAnswer × System :=
  let (answer, s) := s.host step
  (answer, s.settle (focusOf step))

end System

end PosixSignals
