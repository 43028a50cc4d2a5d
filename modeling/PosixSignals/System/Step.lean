import PosixSignals.System.Calls

/-!
# Steps of the system

A step lets one process do one thing. A run interleaves such steps with
the clock and with what the outside does; settling the system lets the
processes step until each is idle, blocked or gone. The process that has
begun goes on for as long as it can, then the others follow in order of
number, and when nobody can go on the clock moves to the next deadline
that is near enough to wait for.
-/

namespace PosixSignals

namespace System

/-- **Lets a process take one step.** -/
def step (s : System) (pid : Pid) : System :=
  match s.process? pid with
  | none => s
  | some p =>
    match p.task with
    | none => s
    | some t =>
      let src : Source := ⟨some pid, t.openCalls⟩
      match t.control with
      | .execute call => s.execute src pid p call
      | .loop (.wait4 selector noHang) => s.wait4 src pid p selector noHang
      | .finish e => s.finish src pid t e
      | _ => s.act src pid (·.step s.now pid t)

/-- The processes that can go on. -/
def runnable (s : System) : List Pid :=
  (s.processes.entries.filter fun e => e.2.isRunnable s.now).map (·.1)

/-- Who goes next, if `focus` went last. -/
def next? (s : System) (focus : Option Pid) : Option Pid :=
  match focus.filter s.runnable.contains with
  | some pid => some pid
  | none => s.runnable.head?

/-- The next deadline that is worth waiting for. -/
def nextDeadline? (s : System) : Option Nat :=
  ((s.processes.entries.filterMap (·.2.blockedUntil?)).filter
    (· < s.now + Configuration.patience)).min?

/-- Lets time pass; the clock never goes back. -/
def waitUntil (s : System) (t : Nat) : System := { s with now := max s.now t }

/-- Lets the system run for at most `n` steps. -/
def settleFrom : Nat → Option Pid → System → System
  | 0, _, s => s
  | n + 1, focus, s =>
    match s.next? focus with
    | some pid => settleFrom n (some pid) (s.step pid)
    | none =>
      match s.nextDeadline? with
      | some t => settleFrom n none (s.waitUntil t)
      | none => s

/-- More steps than any scenario takes to come to rest. -/
def settleBound : Nat := 16777216

/-- Lets the system run until it is at rest. -/
def settle (s : System) (focus : Option Pid) : System := settleFrom settleBound focus s

/-- At rest: no process can go on, and no deadline is near. -/
def AtRest (s : System) : Prop := s.runnable = [] ∧ s.nextDeadline? = none

end System

end PosixSignals
