import PosixSignals.IdPool
import PosixSignals.Process.Step
import PosixSignals.System.Registry

/-!
# The system

All processes, the pool their numbers come from, the clock, and the
history of what has happened. The process table is the part of the
processes that are listed: a process can be known without being listed,
while its parent has not let go of it or its context still runs.
-/

namespace PosixSignals

/-- The state of the whole system. -/
structure System where
  processes : Registry Process := {}
  pids : IdPool := .range 1 (Configuration.processLimit + 1)
  /-- The clock, in milliseconds. -/
  now : Nat := 0
  /-- What has happened, the last first. -/
  history : List Record := []

namespace System

/-- The system before anything has happened. -/
def initial : System := {}

def process? (s : System) (pid : Pid) : Option Process := s.processes.get? pid

/-! ## The process table -/

/-- The process table, in ascending order. -/
def table (s : System) : List (Pid × Process) := s.processes.entries.filter (·.2.listed)

/-- A process by its entry in the table. -/
def listed? (s : System) (pid : Pid) : Option Process := (s.process? pid).filter (·.listed)

/-- The processes of a group that are not zombies. -/
def group (s : System) (pgid : Pid) : List Pid :=
  (s.table.filter fun e => e.2.pgid == pgid && !e.2.status.isZombie).map (·.1)

/-- How many processes are not zombies. -/
def liveCount (s : System) : Nat := (s.table.filter fun e => !e.2.status.isZombie).length

/-! ## Changing one process -/

def note (s : System) (src : Source) (e : Event) : System :=
  { s with history := ⟨src, e⟩ :: s.history }

/-- Notes events in the order in which they happened. -/
def noteAll (s : System) (src : Source) (events : List Event) : System :=
  events.foldl (·.note src ·) s

/-- **The one way to change a process**: apply a function to it and note
what that did. -/
def act (s : System) (src : Source) (pid : Pid) (f : Process → Process × List Event) : System :=
  match s.process? pid with
  | none => s
  | some p =>
    let (p, events) := f p
    { s with processes := s.processes.insert pid p }.noteAll src events

/-- Changes a process without anything happening. -/
def update (s : System) (pid : Pid) (f : Process → Process) : System :=
  s.act .host pid fun p => (f p, [])

/-- Hands a process the reply to its call. -/
def answer (s : System) (pid : Pid) (r : Reply) : System := s.update pid (·.answer r)

end System

end PosixSignals
