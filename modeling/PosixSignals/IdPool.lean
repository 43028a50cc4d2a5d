/-!
# Cyclic id pools

Ids are handed out from a range in cyclic order: the search for a free id
starts behind the one handed out last and comes round to the beginning,
so an id that was just released waits its turn while any other is free.
-/

namespace PosixSignals

/-- The ids of `lower ≤ id < limit`, some of them in use. -/
structure IdPool where
  lower : Nat
  limit : Nat
  /-- Where the next search starts. -/
  next : Nat
  used : List Nat
deriving DecidableEq

namespace IdPool

/-- A range with every id free. -/
def range (lower limit : Nat) : IdPool := ⟨lower, limit, lower, []⟩

/-- Every word from zero, with no bound but the word's own. -/
def unbounded : IdPool := range 0 18446744073709551615

/-- The first id of `lo ≤ id < hi` that is not in use. The search stops
at the first free id, so it looks at no more ids than are in use, plus
one. -/
def firstFree (used : List Nat) (lo hi : Nat) : Option Nat :=
  if lo < hi then
    if lo ∈ used then firstFree used (lo + 1) hi else some lo
  else none
termination_by hi - lo

/-- The id that comes next: the first free one from `next` up, or else
the first free one below it. -/
def candidate? (p : IdPool) : Option Nat :=
  (firstFree p.used p.next p.limit).or (firstFree p.used p.lower p.next)

/-- Marks an id as handed out and moves the search behind it. -/
def occupy (p : IdPool) (id : Nat) : IdPool :=
  { p with used := id :: p.used, next := if p.limit ≤ id + 1 then p.lower else id + 1 }

/-- **Hands out the next free id**, if the range has one. -/
def alloc (p : IdPool) : Option Nat × IdPool :=
  match p.candidate? with
  | none => (none, p)
  | some id => (some id, p.occupy id)

/-- The complaint about releasing an id that is not in use. -/
structure NotInUse where
  id : Nat
deriving DecidableEq

def NotInUse.message (e : NotInUse) : String :=
  "id " ++ toString e.id ++ " has been deallocated!"

/-- Takes an id back. -/
def release (p : IdPool) (id : Nat) : Except NotInUse IdPool :=
  if id ∈ p.used then .ok { p with used := p.used.erase id } else .error ⟨id⟩

/-- The pool after a release that is known to be in order. -/
def free (p : IdPool) (id : Nat) : IdPool := { p with used := p.used.erase id }

end IdPool

end PosixSignals
