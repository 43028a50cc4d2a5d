/-!
# Registries

A finite map from numbers, kept as a list in ascending order. Looking a
number up and listing the whole map are both wanted, the latter in order.
-/

namespace PosixSignals

/-- Values by number, in ascending order of the numbers. -/
structure Registry (α : Type) where
  entries : List (Nat × α) := []

namespace Registry

variable {α : Type}

def get? (r : Registry α) (k : Nat) : Option α := r.entries.lookup k

def keys (r : Registry α) : List Nat := r.entries.map (·.1)

/-- Puts an entry in its place, over the one that was there. -/
def insertEntry (k : Nat) (a : α) : List (Nat × α) → List (Nat × α)
  | [] => [(k, a)]
  | (k', a') :: rest =>
    if k < k' then (k, a) :: (k', a') :: rest
    else if k = k' then (k, a) :: rest
    else (k', a') :: insertEntry k a rest

def insert (r : Registry α) (k : Nat) (a : α) : Registry α := ⟨insertEntry k a r.entries⟩

def erase (r : Registry α) (k : Nat) : Registry α := ⟨r.entries.filter (·.1 != k)⟩

/-- Changes every value. -/
def map (r : Registry α) (f : α → α) : Registry α :=
  ⟨r.entries.map fun e => (e.1, f e.2)⟩

/-! ## Looking up what was written -/

/-- What is written under a number is found there. -/
@[simp] theorem get?_insert_self (r : Registry α) (k : Nat) (a : α) :
    (r.insert k a).get? k = some a := by
  obtain ⟨l⟩ := r
  show (insertEntry k a l).lookup k = some a
  induction l with
  | nil => simp [insertEntry]
  | cons e l ih =>
    obtain ⟨k', a'⟩ := e
    unfold insertEntry
    split
    · simp
    · split
      · simp
      · next h => simpa [List.lookup_cons, beq_false_of_ne h] using ih

/-- And nothing else is found elsewhere. -/
theorem get?_insert_of_ne (r : Registry α) {k q : Nat} (a : α) (h : q ≠ k) :
    (r.insert k a).get? q = r.get? q := by
  obtain ⟨l⟩ := r
  show (insertEntry k a l).lookup q = l.lookup q
  induction l with
  | nil => simp [insertEntry, List.lookup_cons, beq_false_of_ne h]
  | cons e l ih =>
    obtain ⟨k', a'⟩ := e
    unfold insertEntry
    split
    · simp [List.lookup_cons, beq_false_of_ne h]
    · split
      · next hk => subst hk; simp [List.lookup_cons, beq_false_of_ne h]
      · simp [List.lookup_cons, ih]

/-- What is erased is not found. -/
@[simp] theorem get?_erase_self (r : Registry α) (k : Nat) : (r.erase k).get? k = none := by
  obtain ⟨l⟩ := r
  show (l.filter (·.1 != k)).lookup k = none
  induction l with
  | nil => rfl
  | cons e l ih =>
    obtain ⟨k', a'⟩ := e
    by_cases h : k' = k
    · simpa [h] using ih
    · have hk : (k == k') = false := beq_false_of_ne fun hk => h hk.symm
      simpa [h, List.lookup_cons, hk] using ih

/-- And everything else is. -/
theorem get?_erase_of_ne (r : Registry α) {k q : Nat} (h : q ≠ k) :
    (r.erase k).get? q = r.get? q := by
  obtain ⟨l⟩ := r
  show (l.filter (·.1 != k)).lookup q = l.lookup q
  induction l with
  | nil => rfl
  | cons e l ih =>
    obtain ⟨k', a'⟩ := e
    by_cases hk : k' = k
    · subst hk
      simpa [List.lookup_cons, beq_false_of_ne h] using ih
    · simp [hk, List.lookup_cons, ih]

end Registry

end PosixSignals
