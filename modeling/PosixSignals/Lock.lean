/-!
# Locks with named guards

A lock holds a value that only the holder of its guard may touch. At most
one guard is alive at a time, and dropping it, also while unwinding from
a panic, frees the lock.
-/

namespace PosixSignals

/-- A lock around a value, with the guard that is alive, if any. -/
structure SpinLock (α : Type) where
  value : α
  holder : Option String := none

namespace SpinLock

variable {α : Type}

def isFree (l : SpinLock α) : Bool := l.holder.isNone

/-- Takes the lock under this guard if it is free. -/
def tryLock (l : SpinLock α) (guard : String) : Bool × SpinLock α :=
  if l.isFree then (true, { l with holder := some guard }) else (false, l)

/-- Drops a guard, and tells whether it was alive. -/
def unlock (l : SpinLock α) (guard : String) : Bool × SpinLock α :=
  if l.holder = some guard then (true, { l with holder := none }) else (false, l)

/-- What a guard sees. -/
def read? (l : SpinLock α) (guard : String) : Option α :=
  if l.holder = some guard then some l.value else none

/-- What a guard writes. -/
def update? (l : SpinLock α) (guard : String) (f : α → α) : Option (SpinLock α) :=
  if l.holder = some guard then some { l with value := f l.value } else none

/-- A critical section of its own: take the lock, change the value, free
the lock. `none` while another guard is alive. -/
def section? (l : SpinLock α) (f : α → α) : Option (SpinLock α) :=
  if l.isFree then some { l with value := f l.value } else none

/-- How a lock prints: its value, or that it cannot be read. -/
def describe (l : SpinLock α) (text : α → String) : String :=
  if l.isFree then "SpinMutex \x7b data: " ++ text l.value ++ " \x7d"
  else "SpinMutex \x7b <locked> \x7d"

end SpinLock

end PosixSignals
