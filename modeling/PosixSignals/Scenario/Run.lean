import PosixSignals.Scenario.Observation

/-!
# Runs

A run changes the system by three kinds of move: a process takes a step,
the outside takes one, or time passes. A run may interleave them in any
way. Settling and scenarios are made of such moves alone, so whatever
every move keeps holds in every scenario, at every moment of it.
-/

namespace PosixSignals

/-- One move of a run. -/
inductive Move where
  | process (pid : Pid)
  | host (step : HostStep)
  | clock (t : Nat)

namespace System

/-- The system after a move. -/
def move (s : System) : Move → System
  | .process pid => s.step pid
  | .host step => (s.host step).2
  | .clock t => s.waitUntil t

/-- The system after some moves. -/
def run (s : System) (moves : List Move) : System := moves.foldl move s

/-- **The states of all runs.** -/
inductive Reachable : System → Prop where
  | initial : Reachable .initial
  | move {s : System} (h : Reachable s) (m : Move) : Reachable (s.move m)

/-! ## What is reachable -/

/-- Moves lead from reachable states to reachable ones. -/
theorem Reachable.run {s : System} (h : Reachable s) (moves : List Move) :
    Reachable (s.run moves) := by
  induction moves generalizing s with
  | nil => exact h
  | cons m moves ih => exact ih (h.move m)

/-- Running for a while only makes moves. -/
theorem Reachable.settleFrom {s : System} (h : Reachable s) (n : Nat) (focus : Option Pid) :
    Reachable (s.settleFrom n focus) := by
  induction n generalizing s focus with
  | zero => exact h
  | succ n ih =>
    unfold System.settleFrom
    split
    · next pid _ => exact ih (h.move (.process pid)) _
    · split
      · next t _ => exact ih (h.move (.clock t)) _
      · exact h

/-- So does running until there is rest. -/
theorem Reachable.settle {s : System} (h : Reachable s) (focus : Option Pid) :
    Reachable (s.settle focus) :=
  h.settleFrom settleBound focus

/-- So does a step of a scenario. -/
theorem Reachable.advance {s : System} (h : Reachable s) (step : HostStep) :
    Reachable (s.advance step).2 :=
  (h.move (.host step)).settle (focusOf step)

/-- Every scenario ends in a reachable state. -/
theorem Reachable.play {s : System} (h : Reachable s) (steps : List HostStep) :
    Reachable (s.play steps).2 := by
  induction steps generalizing s with
  | nil => exact h
  | cons step steps ih => exact ih (h.advance step)

/-- **Every scenario ends in a reachable state.** -/
theorem reachable_play (steps : List HostStep) : Reachable (PosixSignals.play steps).2 :=
  Reachable.initial.play steps

end System

end PosixSignals
