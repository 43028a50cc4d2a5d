import PosixSignals.Trace.Line

/-!
# Trace scripts

A script is a tree of lines, spans, threads and panics. Running it keeps
a stack of the spans entered in the current thread: entering a span
pushes it, leaving pops the top, and it is a fault if the top is not the
span being left. In a well-nested script that never happens, and the
stack is then exactly the spans that enclose the point of execution. The
one construct that breaks the nesting is `crossed`, which leaves the
outer of two spans first.
-/

namespace PosixSignals.Trace

/-- Where a span comes from. -/
inductive SpanSource where
  /-- Created as it stands. -/
  | always (span : Span)
  /-- Created only if its level is within the threshold. -/
  | leveled (span : Span)
  /-- A span that is never entered. -/
  | disabled
deriving DecidableEq

/-- The span that a source creates at a threshold. -/
def SpanSource.create (t : Threshold) : SpanSource → Option Span
  | .always span => some span
  | .leveled span => if span.level.shown t then some span else none
  | .disabled => none

/-- One node of a script. -/
inductive Node where
  | line (level : Level) (message : String)
  | span (source : SpanSource) (body : List Node)
  /-- Runs the body in a thread of its own and waits for it. -/
  | thread (body : List Node)
  /-- Runs the body and stops a panic in it. -/
  | guarded (body : List Node)
  | panic
  /-- Enters two spans and leaves them in the wrong order. -/
  | crossed (outer inner : SpanSource) (body : List Node)

/-- What a node reports. -/
inductive Answer where
  | disabled (b : Bool)
  | thread (answers : List Answer)
  | guarded (answers : List Answer) (panicked : Bool)
  | crossed (first second : Bool)

/-- A span that has been entered, told apart from equal ones by a number. -/
structure Entered where
  id : Nat
  span : Span

/-- The state of a run. -/
structure Recorder where
  /-- The spans entered in the current thread, innermost first. -/
  stack : List Entered := []
  /-- The number of the next span. -/
  fresh : Nat := 0
  /-- The lines so far, the last first. -/
  lines : List Line := []

namespace Recorder

/-- Records a line inside the spans entered so far. -/
def log (r : Recorder) (level : Level) (message : String) : Recorder :=
  { r with lines := ⟨level, (r.stack.map (·.span)).reverse, message⟩ :: r.lines }

/-- Enters a span; a missing one is not entered and has no number. -/
def enter (r : Recorder) : Option Span → Option Nat × Recorder
  | none => (none, r)
  | some span =>
    (some r.fresh, { r with stack := ⟨r.fresh, span⟩ :: r.stack, fresh := r.fresh + 1 })

/-- Leaves the span of this number by popping the stack, and tells whether
some other span was on top. -/
def leave (r : Recorder) : Option Nat → Bool × Recorder
  | none => (false, r)
  | some id => ((r.stack.head?.map (·.id)) != some id, { r with stack := r.stack.tail })

end Recorder

/-- What has come of running a part of a script. -/
structure Run where
  recorder : Recorder
  answers : List Answer := []
  panicked : Bool := false

mutual

/-- Runs one node. -/
def runNode (t : Threshold) : Node → Recorder → Run
  | .line level message, r => { recorder := r.log level message }
  | .span source body, r =>
    let span := source.create t
    let (id, entered) := r.enter span
    let inner := runNodes t body entered
    let (fault, left) := inner.recorder.leave id
    { recorder := left
      answers := .disabled span.isNone :: inner.answers
      panicked := inner.panicked || fault }
  | .thread body, r =>
    let inner := runNodes t body { r with stack := [] }
    { recorder := { inner.recorder with stack := r.stack }
      answers := if inner.panicked then [] else [.thread inner.answers]
      panicked := inner.panicked }
  | .guarded body, r =>
    let inner := runNodes t body r
    { recorder := inner.recorder, answers := [.guarded inner.answers inner.panicked] }
  | .panic, r => { recorder := r, panicked := true }
  | .crossed outer inner body, r =>
    let (outerId, r) := r.enter (outer.create t)
    let (innerId, r) := r.enter (inner.create t)
    let (first, r) := r.leave outerId
    let run := runNodes t body r
    let (second, r) := run.recorder.leave innerId
    { recorder := r
      answers := if run.panicked then run.answers else run.answers ++ [.crossed first second]
      panicked := run.panicked }

/-- Runs nodes in order, up to a panic. -/
def runNodes (t : Threshold) : List Node → Recorder → Run
  | [], r => { recorder := r }
  | node :: rest, r =>
    let first := runNode t node r
    if first.panicked then first
    else
      let others := runNodes t rest first.recorder
      { others with answers := first.answers ++ others.answers }

end

/-- Runs a script from the start. -/
def runScript (t : Threshold) (script : List Node) : Run := runNodes t script {}

/-- The lines of a run, in order of writing. -/
def Run.lines (run : Run) : List Line := run.recorder.lines.reverse

/-- What a run writes at a threshold. -/
def Run.output (run : Run) (t : Threshold) : String := render t run.lines

end PosixSignals.Trace
