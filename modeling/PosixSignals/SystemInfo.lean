import PosixSignals.Configuration

/-!
# System information

The snapshot of the machine a process can ask for. The memory figures are
constants; only the number of processes moves.
-/

namespace PosixSignals

/-- A snapshot of the system. Memory is counted in units of `memUnit`. -/
structure SystemInfo where
  /-- Seconds since the machine started. -/
  uptime : Nat := 0
  /-- Load averages over one, five and fifteen minutes. -/
  loads : Nat × Nat × Nat := (0, 0, 0)
  totalRam : Nat := 0
  freeRam : Nat := 0
  sharedRam : Nat := 0
  bufferRam : Nat := 0
  totalSwap : Nat := 0
  freeSwap : Nat := 0
  procs : Nat := 0
  totalHigh : Nat := 0
  freeHigh : Nat := 0
  memUnit : Nat := 0
deriving DecidableEq

/-- The snapshot at a moment when this many processes are alive. -/
def SystemInfo.snapshot (uptime live : Nat) : SystemInfo :=
  { uptime
    totalRam := Configuration.memorySize
    freeRam := Configuration.memorySize - Configuration.kernelHeapSize
    procs := min live 65535
    memUnit := 1 }

end PosixSignals
