import PosixSignals.Scenario.Basic

/-!
# Observations

What can be seen of a scenario from outside: the answer of each step, the
events it brought about in the processes, and the rows of the process
table that it changed.
-/

namespace PosixSignals

/-- A disposition as it shows in the table. -/
inductive DispositionKind where
  | default
  | ignore
  | handler
deriving DecidableEq

def Disposition.kind {H : Type} : Disposition H → DispositionKind
  | .default => .default
  | .ignore => .ignore
  | .handler _ => .handler

/-- A row of the process table. -/
structure Row where
  pgid : Pid
  parent : Option Pid
  status : Status
  blocking : Bool
  blocked : SignalSet
  pending : SignalSet
  continued : Bool
  children : List Pid
  /-- By signal, in ascending order. -/
  dispositions : List DispositionKind
deriving DecidableEq

def Process.row (p : Process) : Row where
  pgid := p.pgid
  parent := p.parent
  status := p.status
  blocking := p.task.any (·.isBlocked)
  blocked := p.inbox.blocked
  pending := p.inbox.pending
  continued := p.continued
  children := p.children
  dispositions := Signal.all.map fun sig => (p.dispositions.get sig).kind

/-- The process table as rows. -/
def System.rows (s : System) : List (Pid × Row) := s.table.map fun e => (e.1, e.2.row)

/-- The rows that changed between two tables, in ascending order; a row that
is gone shows as `none`. -/
def rowChanges (old new : List (Pid × Row)) : List (Pid × Option Row) :=
  let gone := (old.filter fun e => (new.lookup e.1).isNone).map fun e => (e.1, none)
  let changed := (new.filter fun e => old.lookup e.1 ≠ some e.2).map fun e => (e.1, some e.2)
  (gone ++ changed).mergeSort (·.1 ≤ ·.1)

/-- Whether an event shows outside. -/
def Event.isVisible : Event → Bool
  | .returned _ | .entered .. | .left _ | .rootEnded _ | .rootRefused _ => true
  | _ => false

/-- What a step showed. -/
structure Observation where
  answer : HostAnswer
  /-- By process, each process's events in order; `0` for the outside. -/
  events : List (Pid × Event)
  rows : List (Pid × Option Row)

/-- The visible part of what happened since the history had length `n`. -/
def visibleSince (n : Nat) (history : List Record) : List (Pid × Event) :=
  let recent := (history.take (history.length - n)).reverse
  let visible := (recent.filter (·.event.isVisible)).map fun r => (r.source.pid.getD 0, r.event)
  visible.mergeSort (·.1 ≤ ·.1)

/-- Carries out a step and tells what it showed. -/
def System.observe (s : System) (step : HostStep) : Observation × System :=
  let (answer, s') := s.advance step
  (⟨answer, visibleSince s.history.length s'.history, rowChanges s.rows s'.rows⟩, s')

/-- Carries out a scenario from a given state. -/
def System.play (s : System) : List HostStep → List Observation × System
  | [] => ([], s)
  | step :: rest =>
    let (seen, s) := s.observe step
    let (others, s) := s.play rest
    (seen :: others, s)

/-- A whole scenario, from the state in which nothing has happened. -/
def play (steps : List HostStep) : List Observation × System := System.initial.play steps

end PosixSignals
