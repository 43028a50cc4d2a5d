import PosixSignals.Disposition.Table
import PosixSignals.Process.Event

/-!
# Processes

The state of one process. What another process can see of it is its
status, its group, its parent and its children; its dispositions, mask
and pending set change only by its own steps, apart from the signals that
others make pending. A process is woken by counting notifications, so
that a listener registered before a condition is looked at cannot miss
what happens afterwards.
-/

namespace PosixSignals

/-- A process, apart from its number. -/
structure Process where
  /-- The process group: the number of the process that founded it. -/
  pgid : Pid
  name : String
  status : Status := .normal
  parent : Option Pid := none
  /-- The children it can still reap, in order of birth. -/
  children : List Pid := []
  dispositions : DispositionTable Installed := .empty
  inbox : Inbox := .empty
  limits : Limits := .default
  /-- Set when a stop is lifted; a suspension returns on it. -/
  continued : Bool := false
  /-- How often it was notified of a signal. -/
  signalNotices : Nat := 0
  /-- How often it was notified of a signal or a child. -/
  childNotices : Nat := 0
  /-- How many handlers it or its ancestors have installed. -/
  installs : Nat := 0
  /-- How often each installation has run. -/
  runs : List (Nat × Nat) := []
  /-- Whether the process table still has it. -/
  listed : Bool := true
  /-- Its context, until main is over. -/
  task : Option Task := none

namespace Process

/-! ## Birth -/

/-- A process without parent, which founds a group. -/
def root (pid : Pid) (name : String) (task : Option Task) : Process :=
  { pgid := pid, name, task }

/-- A child of `p`: it inherits the dispositions, the mask and the limits,
and nothing is pending for it. -/
def childOf (p : Process) (parent : Pid) (task : Option Task) : Process :=
  { pgid := p.pgid
    name := p.name
    parent := some parent
    dispositions := p.dispositions
    inbox := p.inbox.fork
    limits := p.limits
    installs := p.installs
    task }

/-! ## Notification -/

/-- Wakes everything that blocks on the process. -/
def wake (p : Process) : Process :=
  { p with signalNotices := p.signalNotices + 1, childNotices := p.childNotices + 1 }

/-- Wakes what waits for a child. -/
def noticeChild (p : Process) : Process := { p with childNotices := p.childNotices + 1 }

def notices (p : Process) : Occasion → Nat
  | .signal => p.signalNotices
  | .child => p.childNotices

/-- A listener that has seen everything up to now. -/
def listen (p : Process) (occasion : Occasion) (deadline : Option Nat) : Listener :=
  ⟨occasion, p.notices occasion, deadline⟩

/-- Whether the process was notified since the listener was registered. -/
def notified (p : Process) (l : Listener) : Bool := p.notices l.occasion != l.seen

/-! ## The task -/

def goto (p : Process) (c : Control) : Process :=
  { p with task := p.task.map fun t => { t with control := c } }

/-- Puts a frame on the stack and goes on with `c` inside it. -/
def enter (p : Process) (f : Frame) (c : Control) : Process :=
  { p with task := p.task.map fun t => { t with frames := f :: t.frames, control := c } }

/-- Takes the top frame off the stack. -/
def pop (p : Process) : Process :=
  { p with task := p.task.map fun t => { t with frames := t.frames.tail } }

/-- Hands a reply to whatever waits for it. -/
def answer (p : Process) (r : Reply) : Process := p.goto (.reply r)

/-! ## Signal state -/

/-- Puts a saved mask back. -/
def restore (p : Process) (saved : SignalSet) : Process :=
  { p with inbox := p.inbox.withMask saved }

/-- Gives the handler of a disposition the next installation number. -/
def install (p : Process) (d : Disposition Handler) : Disposition Installed × Process :=
  match d with
  | .default => (.default, p)
  | .ignore => (.ignore, p)
  | .handler a =>
    (.handler { handler := ⟨p.installs, a.handler⟩, mask := a.mask, flags := a.flags },
      { p with installs := p.installs + 1 })

/-- Replaces the disposition of a signal, or reads it if no new one is given. -/
def changeDisposition (p : Process) (sig : Signal) :
    Option (Disposition Handler) → Disposition Installed × Process
  | none => (p.dispositions.get sig, p)
  | some new =>
    let (d, p) := p.install new
    let (old, table) := p.dispositions.install sig d
    (old, { p with dispositions := table })

/-- Counts one more run of an installation. -/
def countRun (p : Process) (id : Nat) : Nat × Process :=
  let n := (p.runs.lookup id).getD 0 + 1
  (n, { p with runs := (id, n) :: p.runs.filter (·.1 != id) })

end Process

end PosixSignals
