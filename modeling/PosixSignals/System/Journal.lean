import PosixSignals.System.Basic
import PosixSignals.Trace.Line

/-!
# The journal

The trace lines of a run, one for each event that has a line. A process
writes inside a span of its own, and inside one more for every system
call it is in the midst of; the outside writes in no span. Expected
errors of a call are reported at `debug`, the others at `warn`.
-/

namespace PosixSignals

/-! ## The text of values -/

/-- A number in lower-case hexadecimal, with its prefix. -/
def hexText (n : Nat) : String := "0x" ++ .ofList (Nat.toDigits 16 n)

/-- A set as the names in it, with the unknown bits as one number. -/
def SignalSet.text (s : SignalSet) : String :=
  let unknown := (s \ .full).bits.toNat
  let parts := s.toList.map Signal.name ++ (if unknown = 0 then [] else [hexText unknown])
  "KSignalSet(" ++ (if parts.isEmpty then "0x0" else " | ".intercalate parts) ++ ")"

def ActionFlags.text (f : ActionFlags) : String :=
  let parts := (if f.noDefer then ["SA_NODEFER"] else []) ++
    (if f.resetHand then ["SA_RESETHAND"] else [])
  "SignalActionFlags(" ++ (if parts.isEmpty then "0x0" else " | ".intercalate parts) ++ ")"

/-- Named fields between braces. -/
def recordText (name : String) (fields : List (String × String)) : String :=
  name ++ " \x7b " ++ ", ".intercalate (fields.map fun (key, value) => key ++ ": " ++ value) ++
    " \x7d"

def SignalInfo.text (i : SignalInfo) : String :=
  recordText "SignalInfo" [("signal", i.signal.name), ("code", toString i.code),
    ("sender", toString i.sender)]

def Disposition.text {H : Type} : Disposition H → String
  | .default => "Default"
  | .ignore => "Ignore"
  | .handler a => "Handler(" ++ recordText "SignalAction" [("handler", "SignalHandler"),
      ("mask", a.mask.text), ("flags", a.flags.text)] ++ ")"

def Limit.text (l : Limit) : String :=
  recordText "RLimit" [("rlim_curr", toString l.soft), ("rlim_max", toString l.hard)]

def SystemInfo.text (s : SystemInfo) : String :=
  let loads := "[" ++ ", ".intercalate
    [toString s.loads.1, toString s.loads.2.1, toString s.loads.2.2] ++ "]"
  recordText "SysInfo" [("uptime", toString s.uptime), ("loads", loads),
    ("totalram", toString s.totalRam), ("freeram", toString s.freeRam),
    ("sharedram", toString s.sharedRam), ("bufferram", toString s.bufferRam),
    ("totalswap", toString s.totalSwap), ("freeswap", toString s.freeSwap),
    ("procs", toString s.procs), ("totalhigh", toString s.totalHigh),
    ("freehigh", toString s.freeHigh), ("mem_unit", toString s.memUnit)]

def Value.text : Value → String
  | .done => "()"
  | .number n => toString n
  | .signal sig => sig.name
  | .set s => s.text
  | .disposition d => d.text
  | .info i => i.text
  | .taken none => "None"
  | .taken (some i) => "Some(" ++ i.text ++ ")"
  | .child pid w => "(" ++ toString pid ++ ", " ++ toString w.toNat ++ ")"
  | .limit l => l.text
  | .system s => s.text
  | .delivered b => Trace.boolText b

def Generated.text : Generated → String
  | .discarded => "Discarded"
  | .queued => "Queued"
  | .handlerReady => "HandlerReady"
  | .defaultAction a => "DefaultAction(" ++ a.name ++ ")"

/-- An error as its number and its message. -/
def Errno.text (e : Errno) : String := "Error(" ++ toString e.code ++ "), " ++ e.message

/-! ## The lines of calls -/

namespace CallName

def text : CallName → String
  | kill => "kill"
  | sigaction => "rt_sigaction"
  | sigprocmask => "rt_sigprocmask"
  | sigpending => "rt_sigpending"
  | sigtimedwait => "rt_sigtimedwait"
  | sigsuspend => "rt_sigsuspend"
  | fork => "fork"
  | exit => "exit"
  | wait4 => "wait4"
  | getpid => "getpid"
  | getppid => "getppid"
  | schedYield => "sched_yield"
  | nanosleep => "nanosleep"
  | prlimit => "prlimit64"
  | sysinfo => "sysinfo"

/-- The level a call's span and result are written at. -/
def level : CallName → Trace.Level
  | kill | sigtimedwait | sigsuspend | fork | prlimit => .info
  | sigaction | sigprocmask | sigpending | wait4 | nanosleep | sysinfo => .debug
  | exit | getpid | getppid | schedYield => .trace

/-- The errors that are part of a call's normal course. -/
def expects (call : CallName) (e : Errno) : Bool :=
  e = .mustExit || (call = .wait4 && (e = .again || e = .child)) ||
    (call = .sigtimedwait && (e = .again || e = .intr)) || (call = .nanosleep && e = .intr)

def span (call : CallName) : Trace.Span :=
  ⟨call.level, "syscall", some ("name=" ++ call.text)⟩

/-- How a call reports the result of its body. -/
def report (call : CallName) : Reply → Trace.Level × String
  | .ok value => (call.level, "return " ++ value.text)
  | .error e => (if call.expects e then .debug else .warn, "return " ++ e.text)

end CallName

/-! ## The lines of events -/

/-- The level and message of an event, if it is written down at all. -/
def Event.message? : Event → Option (Trace.Level × String)
  | .created .. => none
  | .dropped sig pid =>
    some (.debug, "process " ++ toString pid ++ " has exited, " ++ sig.name ++ " is dropped")
  | .generated info pid outcome =>
    some (.debug, info.signal.name ++ " from " ++ toString info.sender ++ " to process " ++
      toString pid ++ ": " ++ outcome.text)
  | .stopped pid sig => some (.info, "process " ++ toString pid ++ " stopped by " ++ sig.name)
  | .continued pid => some (.info, "process " ++ toString pid ++ " continues")
  | .exited pid w =>
    some (.info, "process " ++ toString pid ++ " exits with wstatus " ++ hexText w.toNat)
  | .becameZombie pid => some (.debug, "process " ++ toString pid ++ " becomes zombie")
  | .awaitsContinue => some (.trace, "stopped, waiting for SIGCONT")
  | .handling sig => some (.debug, "handle signal " ++ sig.name)
  | .ignored sig => some (.trace, sig.name ++ " is ignored")
  | .entered run _ _ => some (.trace, "enter handler of " ++ run.signal.name)
  | .left run => some (.trace, "leave handler of " ++ run.signal.name)
  | .took info =>
    some (.debug, "got " ++ info.signal.name ++ " from " ++ toString info.sender)
  | .concluded call reply => some (call.report reply)
  | .returned _ => none
  | .noChildReady => some (.trace, "no proper child exited")
  | .groupWaitRefused n =>
    some (.error, "waiting for process group " ++ toString n ++ " is not supported")
  | .waitOptionsRefused => some (.error, "暂时仅支持 WNOHANG")
  | .unchangeable sig => some (.debug, "disposition of " ++ sig.name ++ " can not be changed")
  | .limitAccessed r pid => some (.debug, r.name ++ " of process " ++ toString pid)
  | .reaped _ => none
  | .mainFailed e => some (.warn, "main returns " ++ e.text)
  | .panicked => some (.error, "process panicked")
  | .rootEnded _ => none
  | .rootRefused _ => none

/-- The spans something of this source is written in. -/
def Source.spans (src : Source) : List Trace.Span :=
  match src.pid with
  | none => []
  | some pid => ⟨.info, "process", some ("pid=" ++ toString pid)⟩ :: src.calls.map CallName.span

/-- The line of a record. -/
def Record.line? (r : Record) : Option Trace.Line :=
  r.event.message?.map fun (level, message) => ⟨level, r.source.spans, message⟩

/-- The process whose span a record shows at this threshold, `0` if none. -/
def Record.shownPid (r : Record) (t : Trace.Threshold) : Pid :=
  if Trace.Level.info.shown t then r.source.pid.getD 0 else 0

/-- **The journal at a threshold**: the lines of the outside, then those of
each process, each in order of writing. -/
def journal (t : Trace.Threshold) (history : List Record) : List String :=
  let written := history.reverse.filterMap fun r =>
    (r.line?.filter (·.level.shown t)).map fun line => (r.shownPid t, line)
  (written.mergeSort (·.1 ≤ ·.1)).map fun e => e.2.render t

end PosixSignals
