/-!
# Signals

The thirty-one standard signals, their numbers, names and default
actions. A signal is held as its position `0 … 30`, which is also its bit
in a signal set and its row in every per-signal table; the number a
caller writes is one more. Two of them, `kill` and `stop`, can be
neither caught nor ignored nor blocked.
-/

namespace PosixSignals

/-- A standard signal, by its position in the tables. -/
structure Signal where
  index : Fin 31
deriving DecidableEq

/-- What happens to a process that has installed nothing for a signal. -/
inductive DefaultAction where
  | terminate
  | ignore
  /-- Ends the process as `terminate` does: no core file is written. -/
  | coreDump
  | stop
  | continue
deriving DecidableEq

namespace Signal

def hup : Signal := ⟨0⟩
def int : Signal := ⟨1⟩
def quit : Signal := ⟨2⟩
def ill : Signal := ⟨3⟩
def trap : Signal := ⟨4⟩
def abrt : Signal := ⟨5⟩
def bus : Signal := ⟨6⟩
def fpe : Signal := ⟨7⟩
def kill : Signal := ⟨8⟩
def usr1 : Signal := ⟨9⟩
def segv : Signal := ⟨10⟩
def usr2 : Signal := ⟨11⟩
def pipe : Signal := ⟨12⟩
def alrm : Signal := ⟨13⟩
def term : Signal := ⟨14⟩
def stkflt : Signal := ⟨15⟩
def chld : Signal := ⟨16⟩
def cont : Signal := ⟨17⟩
def stop : Signal := ⟨18⟩
def tstp : Signal := ⟨19⟩
def ttin : Signal := ⟨20⟩
def ttou : Signal := ⟨21⟩
def urg : Signal := ⟨22⟩
def xcpu : Signal := ⟨23⟩
def xfsz : Signal := ⟨24⟩
def vtalrm : Signal := ⟨25⟩
def prof : Signal := ⟨26⟩
def winch : Signal := ⟨27⟩
def io : Signal := ⟨28⟩
def pwr : Signal := ⟨29⟩
def sys : Signal := ⟨30⟩

/-- The number a caller writes, from 1. -/
def number (s : Signal) : Nat := s.index.val + 1

/-- The signal of a number; zero and the real-time numbers name none. -/
def ofNumber? (n : Nat) : Option Signal :=
  if h : 1 ≤ n ∧ n ≤ 31 then some ⟨⟨n - 1, by omega⟩⟩ else none

/-- Every signal, in ascending order. -/
def all : List Signal := (List.finRange 31).map Signal.mk

/-- The names, in order of number. -/
def names : Vector String 31 := #v[
  "SIGHUP", "SIGINT", "SIGQUIT", "SIGILL", "SIGTRAP", "SIGABRT", "SIGBUS", "SIGFPE",
  "SIGKILL", "SIGUSR1", "SIGSEGV", "SIGUSR2", "SIGPIPE", "SIGALRM", "SIGTERM", "SIGSTKFLT",
  "SIGCHLD", "SIGCONT", "SIGSTOP", "SIGTSTP", "SIGTTIN", "SIGTTOU", "SIGURG", "SIGXCPU",
  "SIGXFSZ", "SIGVTALRM", "SIGPROF", "SIGWINCH", "SIGIO", "SIGPWR", "SIGSYS"]

/-- The signal's name, such as `SIGHUP`. -/
def name (s : Signal) : String := names.get s.index

theorem index_lt (s : Signal) : s.index.val < 31 := s.index.isLt

/-- **The two signals no process can intercept.** -/
def isUncatchable (s : Signal) : Bool := s = kill || s = stop

/-- The action of a signal nothing is installed for. -/
def defaultAction (s : Signal) : DefaultAction :=
  if s ∈ [abrt, bus, fpe, ill, quit, segv, sys, trap, xcpu, xfsz] then .coreDump
  else if s ∈ [chld, urg, winch] then .ignore
  else if s ∈ [stop, tstp, ttin, ttou] then .stop
  else if s = cont then .continue
  else .terminate

/-! ## Numbers -/

/-- A number and its signal name each other. -/
@[simp] theorem ofNumber?_number (s : Signal) : ofNumber? s.number = some s := by
  have hlt := s.index.isLt
  unfold ofNumber?
  split
  · simp [number]
  · next h => exact absurd ⟨by simp [number], by simp only [number]; omega⟩ h

/-- Exactly the numbers `1 … 31` name a signal. -/
theorem ofNumber?_eq_none_iff {n : Nat} : ofNumber? n = none ↔ n = 0 ∨ 31 < n := by
  unfold ofNumber?
  split <;> simp <;> omega

@[simp] theorem mem_all (s : Signal) : s ∈ all := by
  simp [all, List.mem_map]

end Signal

/-- The name an action is reported by. -/
def DefaultAction.name : DefaultAction → String
  | .terminate => "Terminate"
  | .ignore => "Ignore"
  | .coreDump => "CoreDump"
  | .stop => "Stop"
  | .continue => "Continue"

/-- Whether performing the action changes the process at all. -/
def DefaultAction.isIdle : DefaultAction → Bool
  | .ignore | .continue => true
  | .terminate | .coreDump | .stop => false

end PosixSignals
