import PosixSignals.Configuration
import PosixSignals.Errno

/-!
# Resource limits

A process carries a soft and a hard limit for each of sixteen resources.
Storing a limit checks nothing; `Limits.change` is the rule a caller goes
through, and there a soft limit stays within its hard limit and a hard
limit is never raised.
-/

namespace PosixSignals

/-- A resource, by its number. -/
structure Resource where
  index : Fin 16
deriving DecidableEq

namespace Resource

def stack : Resource := ⟨3⟩
def noFile : Resource := ⟨7⟩

def ofNumber? (n : Nat) : Option Resource := if h : n < 16 then some ⟨⟨n, h⟩⟩ else none

def number (r : Resource) : Nat := r.index.val

/-- Every resource, in order of number. -/
def all : List Resource := (List.finRange 16).map Resource.mk

def names : Vector String 16 := #v[
  "Cpu", "FSize", "Data", "Stack", "Core", "Rss", "NProc", "NoFile",
  "MemLock", "AddressSpace", "Locks", "SigPending", "MsgQueue", "Nice", "RtPrio", "RtTime"]

def name (r : Resource) : String := names.get r.index

theorem index_lt (r : Resource) : r.index.val < 16 := r.index.isLt

end Resource

/-- A soft limit, which is the one in force, and the hard limit above it. -/
structure Limit where
  soft : Nat
  hard : Nat
deriving DecidableEq

namespace Limit

/-- The value that stands for no limit: the largest word. -/
def infinity : Nat := 18446744073709551615

def unlimited : Limit := ⟨infinity, infinity⟩

end Limit

/-- The limits of one process. -/
structure Limits where
  entries : Vector Limit 16
deriving DecidableEq

namespace Limits

def get (l : Limits) (r : Resource) : Limit := getElem l.entries r.index.val r.index_lt

def set (l : Limits) (r : Resource) (new : Limit) : Limits :=
  ⟨l.entries.set r.index new r.index_lt⟩

/-- The limits a process without parent starts with. -/
def default : Limits :=
  ((⟨.replicate 16 .unlimited⟩ : Limits).set .stack
      ⟨Configuration.userStackSize, Limit.infinity⟩).set .noFile
    ⟨Configuration.openFileLimits.1, Configuration.openFileLimits.2⟩

/-- **Reads a limit and, if a new one is given, replaces it.** A soft limit
above its own hard limit is refused first, a raised hard limit second. -/
def change (l : Limits) (r : Resource) : Option Limit → Except Errno (Limit × Limits)
  | none => .ok (l.get r, l)
  | some new =>
    if new.hard < new.soft then .error .inval
    else if (l.get r).hard < new.hard then .error .perm
    else .ok (l.get r, l.set r new)

/-- A limit that is set is in force. -/
@[simp] theorem get_set_self (l : Limits) (r : Resource) (new : Limit) :
    (l.set r new).get r = new := by
  simp [get, set]

/-- And the other limits are as they were. -/
theorem get_set_of_ne (l : Limits) {r r' : Resource} (new : Limit) (h : r ≠ r') :
    (l.set r new).get r' = l.get r' := by
  have hi : r.index.val ≠ r'.index.val := fun e => h (by
    cases r; cases r'; simp only [Resource.mk.injEq]; exact Fin.ext e)
  simp [get, set, hi]

end Limits

end PosixSignals
