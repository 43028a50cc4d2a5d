import PosixSignals.Signal.Basic

/-!
# Signal sets

A signal set is a word of sixty-four bits, of which the low thirty-one
stand for signals. The others are unknown: a set written by a caller
drops them, a set built from raw bits may keep them, and the operations
carry along whatever they are given. Since every unknown bit lies above
every known one, walking the set from its lowest bit meets all its
signals before the first unknown bit ends the walk.
-/

namespace PosixSignals

/-- A set of signals, bit `i` standing for the signal at position `i`. -/
@[ext] structure SignalSet where
  bits : BitVec 64
deriving DecidableEq

namespace SignalSet

def empty : SignalSet := ⟨0⟩

/-- Every known signal and no unknown bit. -/
def full : SignalSet := ⟨0x7fffffff#64⟩

def single (sig : Signal) : SignalSet := ⟨BitVec.twoPow 64 sig.index⟩

/-- **The signals that are never blocked.** -/
def uncatchable : SignalSet := ⟨(single .kill).bits ||| (single .stop).bits⟩

/-- The set a caller's word denotes: unknown bits are dropped. -/
def ofWord (w : BitVec 64) : SignalSet := ⟨w &&& full.bits⟩

/-- The set with exactly these bits, if every one of them is known. -/
def ofKnown? (w : BitVec 64) : Option SignalSet :=
  if w &&& ~~~full.bits = 0 then some ⟨w⟩ else none

def union (s t : SignalSet) : SignalSet := ⟨s.bits ||| t.bits⟩
def inter (s t : SignalSet) : SignalSet := ⟨s.bits &&& t.bits⟩
def diff (s t : SignalSet) : SignalSet := ⟨s.bits &&& ~~~t.bits⟩
def symmDiff (s t : SignalSet) : SignalSet := ⟨s.bits ^^^ t.bits⟩

/-- The known signals outside the set. -/
def compl (s : SignalSet) : SignalSet := ofWord (~~~s.bits)

instance : EmptyCollection SignalSet := ⟨empty⟩
instance : Union SignalSet := ⟨union⟩
instance : Inter SignalSet := ⟨inter⟩
instance : SDiff SignalSet := ⟨diff⟩

def contains (s : SignalSet) (sig : Signal) : Bool := s.bits.getLsbD sig.index

instance : Membership Signal SignalSet := ⟨fun s sig => s.contains sig = true⟩

instance (sig : Signal) (s : SignalSet) : Decidable (sig ∈ s) :=
  inferInstanceAs (Decidable (s.contains sig = true))

def isEmpty (s : SignalSet) : Bool := s.bits == 0

/-- Whether every known signal is in the set. -/
def isFull (s : SignalSet) : Bool := s.bits &&& full.bits == full.bits

/-- Whether every bit of `t`, known or not, is in `s`. -/
def includes (s t : SignalSet) : Bool := s.bits &&& t.bits == t.bits

def intersects (s t : SignalSet) : Bool := s.bits &&& t.bits != 0

/-! ## Walking a set -/

/-- The position of the lowest bit that is set. -/
def lowest? (s : SignalSet) : Option (Fin 64) :=
  (List.finRange 64).find? fun i => s.bits.getLsbD i

/-- The signal of the lowest bit, and none if that bit is unknown. -/
def first? (s : SignalSet) : Option Signal :=
  s.lowest?.bind fun i => if h : i.val < 31 then some ⟨⟨i.val, h⟩⟩ else none

def insert (s : SignalSet) (sig : Signal) : SignalSet := s ∪ single sig

def erase (s : SignalSet) (sig : Signal) : SignalSet := s \ single sig

/-- Collects a list of signals, repetitions and order aside. -/
def ofList (l : List Signal) : SignalSet := l.foldl insert ∅

/-- The first member of a set is a member. -/
theorem getLsbD_of_first? {s : SignalSet} {sig : Signal} (h : s.first? = some sig) :
    s.bits.getLsbD sig.index = true := by
  unfold first? at h
  obtain ⟨i, hi, h⟩ := Option.bind_eq_some_iff.1 h
  have hs := List.find?_some hi
  split at h
  · obtain rfl := Option.some.inj h
    exact hs
  · simp at h

/-- Removing a member leaves a smaller word, which is why a walk ends. -/
theorem erase_lt {s : SignalSet} {sig : Signal} (h : s.bits.getLsbD sig.index = true) :
    (s.erase sig).bits.toNat < s.bits.toNat := by
  have hle : (s.erase sig).bits.toNat ≤ s.bits.toNat := by
    show (s.bits &&& ~~~(single sig).bits).toNat ≤ _
    rw [BitVec.toNat_and]
    exact Nat.and_le_left
  refine Nat.lt_of_le_of_ne hle fun heq => ?_
  have hbits : s.bits &&& ~~~(single sig).bits = s.bits := BitVec.eq_of_toNat_eq heq
  have hbit := congrArg (fun w : BitVec 64 => w.getLsbD sig.index) hbits
  simp [single, h] at hbit

/-- The signals of the set, lowest first: take the first, remove it, and
go on until there is none. -/
def toList (s : SignalSet) : List Signal :=
  match _h : s.first? with
  | none => []
  | some sig => sig :: (s.erase sig).toList
termination_by s.bits.toNat
decreasing_by exact erase_lt (getLsbD_of_first? ‹_›)

/-! ## Membership, operation by operation -/

/-- A signal is in a set if its bit is there. -/
theorem mem_iff {s : SignalSet} {sig : Signal} : sig ∈ s ↔ s.bits.getLsbD sig.index = true :=
  Iff.rfl

@[simp] theorem not_mem_empty (sig : Signal) : sig ∉ (∅ : SignalSet) := by
  simp only [mem_iff]
  show ¬ (0#64).getLsbD sig.index = true
  simp

@[simp] theorem mem_union {s t : SignalSet} {sig : Signal} :
    sig ∈ s ∪ t ↔ sig ∈ s ∨ sig ∈ t := by
  simp only [mem_iff]
  show (s.bits ||| t.bits).getLsbD sig.index = true ↔ _
  simp

@[simp] theorem mem_inter {s t : SignalSet} {sig : Signal} :
    sig ∈ s ∩ t ↔ sig ∈ s ∧ sig ∈ t := by
  simp only [mem_iff]
  show (s.bits &&& t.bits).getLsbD sig.index = true ↔ _
  simp

@[simp] theorem mem_sdiff {s t : SignalSet} {sig : Signal} :
    sig ∈ s \ t ↔ sig ∈ s ∧ sig ∉ t := by
  simp only [mem_iff]
  show (s.bits &&& ~~~t.bits).getLsbD sig.index = true ↔ _
  have := sig.index.isLt
  simp [show sig.index.val < 64 by omega]

@[simp] theorem mem_single {sig sig' : Signal} : sig ∈ single sig' ↔ sig = sig' := by
  simp only [mem_iff, single, BitVec.getLsbD_twoPow]
  have := sig'.index.isLt
  obtain ⟨⟨i, hi⟩⟩ := sig
  obtain ⟨⟨j, hj⟩⟩ := sig'
  simp
  omega

end SignalSet

end PosixSignals
