import PosixSignals.Inbox

/-!
# Masks

A mask in force never holds `kill` or `stop`, and taking the two out of
such a mask changes nothing. That is what makes saving and restoring
exact: every mask is put back through a function that takes them out.
Membership decides less than equality here, since a mask may carry
unknown bits, so the exactness is a statement about words.
-/

namespace PosixSignals

namespace SignalSet

/-- Free of `kill` and `stop`, as every mask in force is. -/
def Blockable (s : SignalSet) : Prop := s \ uncatchable = s

/-- **Taking the two out leaves a mask that may be in force.** -/
theorem blockable_sdiff (s : SignalSet) : (s \ uncatchable).Blockable := by
  show (⟨(s.bits &&& ~~~uncatchable.bits) &&& ~~~uncatchable.bits⟩ : SignalSet) = _
  rw [BitVec.and_assoc, BitVec.and_self]
  rfl

theorem blockable_empty : (∅ : SignalSet).Blockable := by
  show (⟨0#64 &&& ~~~uncatchable.bits⟩ : SignalSet) = _
  rw [BitVec.zero_and]
  rfl

@[simp] theorem mem_uncatchable {sig : Signal} :
    sig ∈ uncatchable ↔ sig.isUncatchable = true := by
  change sig ∈ single .kill ∪ single .stop ↔ _
  simp [Signal.isUncatchable]

/-- No signal of a mask in force is `kill` or `stop`. -/
theorem Blockable.catchable {s : SignalSet} (h : s.Blockable) {sig : Signal} (hs : sig ∈ s) :
    sig.isUncatchable = false := by
  rw [← h] at hs
  simpa using (mem_sdiff.1 hs).2

theorem Blockable.union {s t : SignalSet} (hs : s.Blockable) (ht : t.Blockable) :
    (s ∪ t).Blockable := by
  have hs' : s.bits &&& ~~~uncatchable.bits = s.bits := congrArg bits hs
  have ht' : t.bits &&& ~~~uncatchable.bits = t.bits := congrArg bits ht
  show (⟨(s.bits ||| t.bits) &&& ~~~uncatchable.bits⟩ : SignalSet) = ⟨s.bits ||| t.bits⟩
  rw [BitVec.and_comm, BitVec.and_or_distrib_left, BitVec.and_comm, hs', BitVec.and_comm, ht']

/-- Putting a mask back drops nothing that can be blocked. -/
theorem mem_sdiff_uncatchable {s : SignalSet} {sig : Signal} (hs : sig ∈ s)
    (hc : sig.isUncatchable = false) : sig ∈ s \ uncatchable :=
  mem_sdiff.2 ⟨hs, by simp [hc]⟩

/-! ## The lowest signal of a set -/

theorem mem_of_first? {s : SignalSet} {sig : Signal} (h : s.first? = some sig) : sig ∈ s :=
  getLsbD_of_first? h

/-- **A set without a first signal has no signal.** A walk ends at an unknown
bit, but no known one lies above it. -/
theorem not_mem_of_first?_eq_none {s : SignalSet} (h : s.first? = none) (sig : Signal) :
    sig ∉ s := by
  intro hs
  have hbit : s.bits.getLsbD sig.index = true := hs
  unfold first? at h
  rw [Option.bind_eq_none_iff] at h
  have hlt := sig.index_lt
  cases hl : s.lowest? with
  | none =>
    have := List.find?_eq_none.1 hl ⟨sig.index.val, by omega⟩ (List.mem_finRange _)
    exact this hbit
  | some i =>
    have hi : 31 ≤ i.val := by
      have := h i hl
      split at this
      · simp at this
      · omega
    obtain ⟨-, k, hk, hki, hbelow⟩ := List.find?_eq_some_iff_getElem.1 hl
    have hval : k = i.val := by rw [← hki]; simp
    have := hbelow sig.index.val (by omega)
    simp [hbit] at this

/-- **The first signal is the lowest.** -/
theorem le_of_first? {s : SignalSet} {sig other : Signal} (h : s.first? = some sig)
    (hs : other ∈ s) : sig.number ≤ other.number := by
  have hlt := other.index_lt
  have hbit : s.bits.getLsbD other.index = true := hs
  unfold first? at h
  obtain ⟨i, hi, h⟩ := Option.bind_eq_some_iff.1 h
  obtain ⟨-, k, hk, hki, hbelow⟩ := List.find?_eq_some_iff_getElem.1 hi
  have hval : k = i.val := by rw [← hki]; simp
  split at h
  · obtain rfl := Option.some.inj h
    refine Nat.le_of_not_lt fun hlow => ?_
    have hpos : other.index.val < k := by
      simp only [Signal.number] at hlow
      omega
    have := hbelow other.index.val hpos
    simp [hbit] at this
  · simp at h

/-! ## Sets of known signals -/

/-- No unknown bit is set. -/
def Known (s : SignalSet) : Prop := ∀ i, s.bits.getLsbD i = true → i < 31

theorem known_empty : (∅ : SignalSet).Known := by
  intro i hi
  have hzero : (0#64).getLsbD i = true := hi
  simp at hzero

theorem known_single (sig : Signal) : (single sig).Known := by
  intro i hi
  have hlt := sig.index_lt
  simp only [single, BitVec.getLsbD_twoPow, Bool.and_eq_true, decide_eq_true_eq] at hi
  omega

theorem Known.union {s t : SignalSet} (hs : s.Known) (ht : t.Known) : (s ∪ t).Known := by
  intro i hi
  have hor : (s.bits ||| t.bits).getLsbD i = true := hi
  rw [BitVec.getLsbD_or, Bool.or_eq_true] at hor
  exact hor.elim (hs i) (ht i)

theorem Known.sdiff {s : SignalSet} (hs : s.Known) (t : SignalSet) : (s \ t).Known := by
  intro i hi
  have hand : (s.bits &&& ~~~t.bits).getLsbD i = true := hi
  rw [BitVec.getLsbD_and, Bool.and_eq_true] at hand
  exact hs i hand.1

/-- **A set of known signals that is not empty has one.** -/
theorem Known.exists_mem {s : SignalSet} (hs : s.Known) (h : s.isEmpty = false) :
    ∃ sig, sig ∈ s := by
  refine Classical.byContradiction fun hnone => ?_
  have hzero : s.bits = 0 := by
    refine BitVec.eq_of_getLsbD_eq fun i _ => ?_
    cases hbit : s.bits.getLsbD i with
    | false => simp
    | true => exact absurd ⟨⟨⟨i, hs i hbit⟩⟩, hbit⟩ hnone
  simp [isEmpty, hzero] at h

end SignalSet

/-! ## What a handler's mask adds -/

/-- A signal is blocked in addition while a handler runs if it can be and the
action's mask has it, or it is the handler's own and not deferred. -/
theorem Action.mem_blockedDuring {H : Type} {a : Action H} {sig other : Signal} :
    other ∈ a.blockedDuring sig ↔
      (other ∈ a.mask ∨ a.flags.noDefer = false ∧ other = sig) ∧
        other.isUncatchable = false := by
  unfold blockedDuring
  rw [SignalSet.mem_sdiff, SignalSet.mem_uncatchable]
  cases a.flags.noDefer <;> simp

end PosixSignals
