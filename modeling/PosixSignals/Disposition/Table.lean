import PosixSignals.Disposition.Basic

/-!
# Disposition tables

A process's disposition for every signal. Installing one for `kill` or
`stop` is silently refused, so these two rows read `default` in every
table that grew from the empty one.
-/

namespace PosixSignals

/-- The dispositions of one process, by signal. -/
structure DispositionTable (H : Type) where
  rows : Vector (Disposition H) 31

namespace DispositionTable

variable {H : Type}

/-- Nothing installed. -/
def empty : DispositionTable H := ⟨.replicate 31 .default⟩

def get (t : DispositionTable H) (sig : Signal) : Disposition H :=
  getElem t.rows sig.index.val sig.index_lt

/-- Overwrites a row, whatever the signal. -/
def put (t : DispositionTable H) (sig : Signal) (d : Disposition H) : DispositionTable H :=
  ⟨t.rows.set sig.index d sig.index_lt⟩

/-- **Installs a disposition** and tells the one it replaces. For `kill`
and `stop` nothing is installed and the answer is `default`. -/
def install (t : DispositionTable H) (sig : Signal) (d : Disposition H) :
    Disposition H × DispositionTable H :=
  if sig.isUncatchable then (.default, t) else (t.get sig, t.put sig d)

/-- Puts a signal back to its default. -/
def reset (t : DispositionTable H) (sig : Signal) : DispositionTable H := t.put sig .default

/-- The rows that are not default, in ascending order. -/
def installed (t : DispositionTable H) : List (Signal × Disposition H) :=
  (Signal.all.map fun sig => (sig, t.get sig)).filter fun row => !row.2.isDefault

/-- Nothing is installed at first. -/
@[simp] theorem get_empty (sig : Signal) : (empty : DispositionTable H).get sig = .default := by
  simp [get, empty]

/-- What is put in a row is there. -/
@[simp] theorem get_put_self (t : DispositionTable H) (sig : Signal) (d : Disposition H) :
    (t.put sig d).get sig = d := by
  simp [get, put]

/-- And the other rows are as they were. -/
theorem get_put_of_ne (t : DispositionTable H) {sig sig' : Signal} (d : Disposition H)
    (h : sig ≠ sig') : (t.put sig d).get sig' = t.get sig' := by
  have hi : sig.index.val ≠ sig'.index.val := fun e => h (by
    cases sig; cases sig'; simp only [Signal.mk.injEq]; exact Fin.ext e)
  simp [get, put, hi]

end DispositionTable

end PosixSignals
