import PosixSignals.Process.Calls

/-!
# Steps within a process

Everything a task does short of the body of a call: handing replies from
frame to frame, going through a handler's body, unwinding after a panic.
These steps change the process alone and look at nothing else but the
clock.
-/

namespace PosixSignals

/-- The result a call's body comes to, given what it waited for: a wait
that took nothing has run out of time. -/
def SystemCall.conclude {H : Type} (call : SystemCall H) (r : Reply) : Reply :=
  match call, r with
  | .sigtimedwait .., .ok (.taken none) => .error .again
  | .sigtimedwait .., .ok (.taken (some info)) => .ok (.info info)
  | .sigwait .., .ok (.taken none) => .error .again
  | .sigwait .., .ok (.taken (some info)) => .ok (.info info)
  | _, r => r

/-- What a call hands its caller of that result. -/
def SystemCall.handOver {H : Type} (call : SystemCall H) (r : Reply) : Reply :=
  match call, r with
  | .sigwait .., .ok (.info info) => .ok (.signal info.signal)
  | _, r => r

namespace Process

/-- A frame takes a reply. The frame is already off the stack. A routine
goes on with the reply, unless it is told to exit and heeds that. -/
def accommodate (now : Nat) (f : Frame) (r : Reply) (p : Process) : Process × List Event :=
  match f with
  | .main keep =>
    (p.goto (if mustExit r && !keep then .finish (.error .mustExit) else .idle), [.returned r])
  | .body run keep rest =>
    (if mustExit r && !keep then p.answer r else p.enter (.body run false rest) .proceed,
      [.returned r])
  | .delivery sig action saved => (p.finishDelivery sig action saved r, [])
  | .round =>
    match r with
    | .ok _ => (p.goto (.loop (.check true)), [])
    | .error e => (p.answer (.error e), [])
  | .callBody call =>
    let r := call.conclude r
    (p.enter (.callExit (call.handOver r)) (.loop (.check false)), [.concluded call.name r])
  | .callExit result =>
    match r with
    | .ok _ => (p.answer result, [])
    | .error e => (p.answer (.error e), [])
  | .waiting w =>
    match r with
    | .ok _ => (p.goto (.loop (.waitAny w)), [])
    | .error e => (p.leaveWait w (.error e), [])
  | .suspended saved seen => (p.finishSuspend saved seen r, [])
  | .asleep deadline seen => (p.finishSleep now deadline seen r, [])

/-- The handler on top goes on: its next instruction, or its return. -/
def proceed (p : Process) (frames : List Frame) : Process × List Event :=
  match frames with
  | .body run _ [] :: _ => (p.pop.answer (.ok .done), [.left run])
  | .body run _ (i :: rest) :: _ =>
    (p.pop.enter (.body run i.keep rest) (.perform i.request), [])
  | _ => (p.answer (.ok .done), [])

/-- Starts a request. A system call opens its frame first; `fail` ends the
routine it stands in. -/
def perform (now : Nat) (frames : List Frame) (request : Request Handler) (p : Process) :
    Process × List Event :=
  match request with
  | .system call => (p.enter (.callBody call) (.execute call), [])
  | .engine call => p.engage now call
  | .panic => (p.goto .panic, [])
  | .fail e =>
    match frames with
    | .body .. :: _ => (p.pop.answer (.error e), [.returned (.error e)])
    | _ => (p.pop.goto (.finish (.error e)), [.returned (.error e)])

/-- A panic leaves one frame, putting back the mask it holds. -/
def unwind (f : Frame) (p : Process) : Process :=
  match f with
  | .delivery _ _ saved => p.restore saved
  | .waiting w => p.restore w.saved
  | .suspended saved _ => p.restore saved
  | _ => p

/-- **A step of the task.** The body of a system call, a wait for children
and the end of main concern other processes too, and are steps of the
system. -/
def step (now : Nat) (pid : Pid) (t : Task) (p : Process) : Process × List Event :=
  match t.control with
  | .idle | .execute _ | .loop (.wait4 ..) | .finish _ => (p, [])
  | .perform request => p.perform now t.frames request
  | .proceed => p.proceed t.frames
  | .loop (.check delivered) => p.check pid delivered
  | .loop (.waitAny w) => p.waitAny now w
  | .loop (.suspend saved) => (p.suspend saved, [])
  | .loop (.sleep deadline) => (p.sleep deadline, [])
  | .blocked l listener => (p.awaken now l listener, [])
  | .reply r =>
    match t.frames with
    | [] => (p.goto .idle, [])
    | f :: _ => p.pop.accommodate now f r
  | .panic =>
    match t.frames with
    | [] => (p.goto (.finish .panic), [])
    | f :: _ => (p.pop.unwind f, [])

/-- Whether a step would do anything. -/
def isRunnable (now : Nat) (p : Process) : Bool :=
  match p.task with
  | none => false
  | some t =>
    match t.control with
    | .idle => false
    | .blocked _ listener => p.notified listener || expired now listener.deadline
    | _ => true

/-- The deadline a blocked process waits for. -/
def blockedUntil? (p : Process) : Option Nat :=
  p.task.bind fun t =>
    match t.control with
    | .blocked _ listener => listener.deadline
    | _ => none

end Process

end PosixSignals
