import PosixSignals.Signal.Set

/-!
# Dispositions

What a process does with a signal: the default action, nothing, or a
handler of its own together with the mask and flags it runs under. What a
handler *is* stays open here (`H`): the rules about masks and tables do
not look inside it.
-/

namespace PosixSignals

/-- How a handler is run. -/
structure ActionFlags where
  /-- The handler's own signal is not blocked while it runs. -/
  noDefer : Bool := false
  /-- The disposition goes back to default once the handler has returned. -/
  resetHand : Bool := false
deriving DecidableEq

namespace ActionFlags

def noDeferBit : BitVec 32 := 0x40000000#32
def resetHandBit : BitVec 32 := 0x80000000#32

/-- The flags of a caller's word; bits that mean nothing are dropped. -/
def ofWord (w : BitVec 32) : ActionFlags :=
  ⟨w &&& noDeferBit != 0, w &&& resetHandBit != 0⟩

def toWord (f : ActionFlags) : BitVec 32 :=
  (if f.noDefer then noDeferBit else 0) ||| (if f.resetHand then resetHandBit else 0)

/-- The flags of a word none of whose bits is meaningless. -/
def ofKnown? (w : BitVec 32) : Option ActionFlags :=
  if (ofWord w).toWord = w then some (ofWord w) else none

end ActionFlags

/-- A handler, with the mask and flags it runs under. -/
structure Action (H : Type) where
  handler : H
  /-- Signals blocked in addition while the handler runs. -/
  mask : SignalSet := ∅
  flags : ActionFlags := {}

/-- **What is blocked in addition while the handler runs**: its mask, its
own signal unless that is deferred, and never `kill` or `stop`. -/
def Action.blockedDuring {H : Type} (a : Action H) (sig : Signal) : SignalSet :=
  (if a.flags.noDefer then a.mask else a.mask ∪ .single sig) \ .uncatchable

/-- What a process does with a signal. -/
inductive Disposition (H : Type) where
  | default
  | ignore
  | handler (action : Action H)

namespace Disposition

variable {H : Type}

def isDefault : Disposition H → Bool
  | default => true
  | _ => false

def isIgnore : Disposition H → Bool
  | ignore => true
  | _ => false

instance : Inhabited (Disposition H) := ⟨default⟩

end Disposition

end PosixSignals
