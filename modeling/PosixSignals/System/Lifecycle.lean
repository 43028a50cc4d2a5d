import PosixSignals.System.Basic

/-!
# Birth and death of processes

A process starts as a root or as the child of another. When its main
routine is over it becomes a zombie: its children lose their parent, and
either its parent is told or, having none, it leaves the table. Its
number goes back to the pool once nothing refers to it any more, neither
the table nor a context nor a parent's list of children.
-/

namespace PosixSignals

namespace System

/-! ## Birth -/

/-- Starts a process without parent, if there is a number left. -/
def addRoot (s : System) (src : Source) (name : String) (task : Option Task) :
    Option Pid × System :=
  match s.pids.alloc with
  | (none, _) => (none, s)
  | (some pid, pids) =>
    (some pid, { s with pids, processes := s.processes.insert pid (.root pid name task) }.note src
      (.created pid none))

/-- Forks a process, if there is a number left. -/
def fork (s : System) (src : Source) (parent : Pid) (p : Process) (task : Option Task) :
    Option Pid × System :=
  match s.pids.alloc with
  | (none, _) => (none, s)
  | (some pid, pids) =>
    let s := { s with pids, processes := s.processes.insert pid (p.childOf parent task) }
    (some pid, (s.update parent fun p => { p with children := p.children ++ [pid] }).note src
      (.created pid (some parent)))

/-! ## Letting go -/

/-- Whether anything still refers to a process. -/
def isReferenced (s : System) (pid : Pid) (p : Process) : Bool :=
  p.listed || p.task.isSome || s.processes.entries.any (·.2.children.contains pid)

/-- Forgets a process: its number is free, and its children have no parent. -/
def drop (s : System) (pid : Pid) : System :=
  { s with
    processes := (s.processes.erase pid).map fun p =>
      if p.parent = some pid then { p with parent := none } else p
    pids := s.pids.free pid }

/-- Forgets unreferenced processes one by one, at most `n` of them:
forgetting one can leave its children unreferenced. -/
def sweepFrom : Nat → System → System
  | 0, s => s
  | n + 1, s =>
    match s.processes.entries.find? fun e => !s.isReferenced e.1 e.2 with
    | none => s
    | some e => sweepFrom n (s.drop e.1)

/-- Forgets every process that nothing refers to. -/
def sweep (s : System) : System := sweepFrom s.processes.entries.length s

/-- Takes a process out of the table. -/
def unlist (s : System) (pid : Pid) : System := s.update pid fun p => { p with listed := false }

/-! ## Death -/

/-- Takes a child's parent away. A zombie that loses its parent leaves the
table, since nobody will reap it. -/
def orphan (s : System) (child : Pid) : System :=
  s.update child fun c => { c with parent := none, listed := c.listed && !c.status.isZombie }

/-- **Makes a process a zombie** and tells its parent, by `chld` and by
waking its waits for children. -/
def bury (s : System) (src : Source) (pid : Pid) (p : Process) : System :=
  let s := p.children.foldl orphan s
  let s := s.act src pid fun p =>
    ({ p with children := [], status := p.status.toZombie }, [.becameZombie pid])
  match p.parent with
  | some parent =>
    (s.act src parent (·.generate parent (.kernel .chld))).update parent (·.noticeChild)
  | none => s.unlist pid

/-- Marks a process as ended the way its main routine did. Returning the
error that says so means that it is marked already. -/
def conclude (s : System) (src : Source) (pid : Pid) (e : Ending) : System :=
  match e with
  | .code n => s.act src pid fun p => p.orStay (p.exit pid (.ofExitCode n))
  | .error .mustExit => s
  | .error e => (s.note src (.mainFailed e)).act src pid fun p =>
      p.orStay (p.exit pid (.ofExitCode e.number))
  | .panic => (s.note src .panicked).act src pid fun p =>
      p.orStay (p.exit pid (.ofSignal .abrt))

/-- The main routine is over: the process is marked as ended, becomes a
zombie and loses its context. -/
def finish (s : System) (src : Source) (pid : Pid) (t : Task) (e : Ending) : System :=
  let s := s.conclude src pid e
  match s.process? pid with
  | none => s
  | some p =>
    let s := (s.bury src pid p).update pid fun p => { p with task := none }
    let s := if t.root then s.note src (.rootEnded p.status.waitStatus) else s
    s.sweep

/-! ## Reaping -/

/-- The children of a process that a wait selects: all of them, or one. -/
def selected (p : Process) (selector : Int) : List Pid :=
  p.children.filter fun c => selector == -1 || (c : Int) == selector

/-- The first selected child that is a zombie, with its wait status;
`child` if the process has no child that is selected. -/
def ready? (s : System) (p : Process) (selector : Int) :
    Except Errno (Option (Pid × WaitStatus)) :=
  match selected p selector with
  | [] => .error .child
  | candidates =>
    .ok (candidates.findSome? fun c =>
      ((s.process? c).bind (·.status.reapable?)).map (c, ·))

/-- Takes a child off a process's list. -/
def disown (s : System) (pid child : Pid) : System :=
  s.update pid fun p => { p with children := p.children.erase child }

end System

end PosixSignals
