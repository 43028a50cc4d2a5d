import PosixSignals.Signal.Basic

/-!
# Signal information

The record that travels with one occurrence of a signal: why it was
generated and by whom.
-/

namespace PosixSignals

/-- Where a signal came from. -/
structure SignalInfo where
  signal : Signal
  /-- The reason code. -/
  code : Int
  /-- The sending process, `0` when there is none. -/
  sender : Nat
deriving DecidableEq

namespace SignalInfo

/-- The reason code of a signal one process sent to another. -/
def userCode : Int := 0

/-- The reason code of a signal the kernel raised, such as the one for a
child's end. -/
def kernelCode : Int := 0x80

/-- A signal sent by a process. -/
def user (signal : Signal) (sender : Nat) : SignalInfo := ⟨signal, userCode, sender⟩

/-- A signal raised by the kernel itself. -/
def kernel (signal : Signal) : SignalInfo := ⟨signal, kernelCode, 0⟩

end SignalInfo

end PosixSignals
