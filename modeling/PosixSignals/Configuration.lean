/-!
# Configuration

The constants of the simulated machine.
-/

namespace PosixSignals.Configuration

def kibibyte : Nat := 1024
def mebibyte : Nat := 1024 * kibibyte

/-- The physical memory, which is only ever reported. -/
def memorySize : Nat := 128 * mebibyte

/-- The kernel's heap, reported as memory in use. -/
def kernelHeapSize : Nat := 32 * mebibyte

/-- The size of a user stack, and the default soft limit on it. -/
def userStackSize : Nat := 8 * mebibyte

/-- The number of bits in a signal set. -/
def signalSetSize : Nat := 64

/-- The number of standard signals. -/
def standardSignals : Nat := 31

/-- How many processes can exist at once. -/
def processLimit : Nat := 256

/-- The default soft and hard limits on open files. -/
def openFileLimits : Nat × Nat := (1024, 4096)

/-- A timeout shorter than this, in milliseconds, is waited out before
the system counts as quiet. -/
def patience : Nat := 1000

end PosixSignals.Configuration
