import PosixSignals.Proofs.Signal.Mask
import Mathlib.Data.List.Dedup
import Mathlib.Data.List.Sort

/-!
# Walking and collecting

A walk over a signal set takes its lowest signal out again and again. It meets
the known bits before the first unknown one, which ends it, so it meets every
signal of the set once, in ascending order. Collecting is the other way: the
signals of a list, whatever their order and however often they occur, are put
into one set. A set that is walked and collected loses its unknown bits and
nothing else, and a list that is collected and walked is sorted and freed of
its repetitions.
-/

namespace PosixSignals

namespace Signal

theorem number_inj {sig other : Signal} : sig.number = other.number ↔ sig = other := by
  refine ⟨fun h => ?_, fun h => h ▸ rfl⟩
  have h' := congrArg ofNumber? h
  rw [ofNumber?_number, ofNumber?_number] at h'
  exact Option.some.inj h'

end Signal

namespace SignalSet

variable {s : SignalSet} {sig : Signal}

/-! ## Ascending order -/

/-- A walk starts at the lowest signal. -/
theorem toList_of_first? (h : s.first? = some sig) : s.toList = sig :: (s.erase sig).toList := by
  rw [toList]
  split <;> simp_all

theorem toList_eq_nil (h : s.first? = none) : s.toList = [] := by
  rw [toList]
  split <;> simp_all

theorem mem_toList : sig ∈ s.toList ↔ sig ∈ s := by
  induction s using toList.induct with
  | case1 s h =>
    rw [toList_eq_nil h]
    simp [not_mem_of_first?_eq_none h sig]
  | case2 s first h ih =>
    rw [toList_of_first? h, List.mem_cons, ih, erase, mem_sdiff, mem_single]
    by_cases he : sig = first
    · simp [he, mem_of_first? h]
    · simp [he]

/-- **A walk meets the signals of a set in ascending order.** -/
theorem pairwise_toList (s : SignalSet) :
    s.toList.Pairwise fun a b => a.number < b.number := by
  induction s using toList.induct with
  | case1 s h =>
    rw [toList_eq_nil h]
    exact .nil
  | case2 s first h ih =>
    rw [toList_of_first? h]
    refine .cons (fun other ho => ?_) ih
    obtain ⟨ho, hne⟩ := mem_sdiff.1 (mem_toList.1 ho)
    exact Nat.lt_of_le_of_ne (le_of_first? h ho) fun he =>
      hne (mem_single.2 (Signal.number_inj.1 he).symm)

/-- Two ascending lists of the same signals are one list. -/
theorem eq_of_ascending {l l' : List Signal} (h : l.Pairwise fun a b => a.number < b.number)
    (h' : l'.Pairwise fun a b => a.number < b.number) (hmem : ∀ sig, sig ∈ l ↔ sig ∈ l') :
    l = l' := by
  have hne : ∀ {a b : Signal}, a.number < b.number → a ≠ b := fun hlt he => by simp [he] at hlt
  have hperm : l.Perm l' := (List.perm_ext_iff_of_nodup (h.imp hne) (h'.imp hne)).2 hmem
  exact hperm.eq_of_pairwise (fun a b _ _ hab hba => absurd hab (Nat.lt_asymm hba)) h h'

/-- **A walk passes through the signals, and stops at those of the set.** -/
theorem toList_eq_filter (s : SignalSet) : s.toList = Signal.all.filter s.contains := by
  have hall : Signal.all.Pairwise fun a b => a.number < b.number := by decide
  exact eq_of_ascending (pairwise_toList s) (hall.filter _) fun sig => by
    rw [mem_toList, List.mem_filter]
    exact ⟨fun h => ⟨Signal.mem_all sig, h⟩, fun h => h.2⟩

theorem head?_toList (s : SignalSet) : s.toList.head? = s.first? := by
  cases h : s.first? with
  | none => rw [toList_eq_nil h, List.head?_nil]
  | some sig => rw [toList_of_first? h, List.head?_cons]

/-! ## Draw by draw -/

/-- What is left when the lowest signal has been drawn, if there is one. -/
def draw (s : SignalSet) : SignalSet :=
  match s.first? with
  | none => s
  | some sig => s.erase sig

theorem toList_draw (s : SignalSet) : s.draw.toList = s.toList.tail := by
  unfold draw
  split
  · next h => rw [toList_eq_nil h, List.tail_nil]
  · next sig h => rw [toList_of_first? h, List.tail_cons]

theorem toList_draws (s : SignalSet) (n : Nat) : (draw^[n] s).toList = s.toList.drop n := by
  induction n with
  | zero => rfl
  | succ n ih => rw [Function.iterate_succ_apply', toList_draw, ih, List.tail_drop]

/-- **The next signal after some draws** is the one at that place of the walk. -/
theorem first?_draws (s : SignalSet) (n : Nat) : (draw^[n] s).first? = s.toList[n]? := by
  rw [← head?_toList, toList_draws, List.head?_drop]

/-- A walk is over after at most as many draws as there are signals. -/
theorem length_toList_le (s : SignalSet) : s.toList.length ≤ 31 := by
  rw [toList_eq_filter]
  exact (List.length_filter_le ..).trans (by simp [Signal.all])

/-! ## Collecting -/

theorem mem_foldl_insert {l : List Signal} : sig ∈ l.foldl insert s ↔ sig ∈ s ∨ sig ∈ l := by
  induction l generalizing s with
  | nil => simp
  | cons other l ih =>
    rw [List.foldl_cons, ih, insert, mem_union, mem_single, List.mem_cons, or_assoc]

/-- **Collecting neither loses a signal nor adds one.** -/
theorem mem_ofList {l : List Signal} : sig ∈ ofList l ↔ sig ∈ l := by
  simp [ofList, mem_foldl_insert]

theorem Known.foldl_insert (hs : s.Known) (l : List Signal) : (l.foldl insert s).Known := by
  induction l generalizing s with
  | nil => exact hs
  | cons sig l ih => exact ih (hs.union (known_single sig))

theorem known_ofList (l : List Signal) : (ofList l).Known :=
  known_empty.foldl_insert l

/-- **A set without unknown bits is its signals.** -/
theorem Known.ext {t : SignalSet} (hs : s.Known) (ht : t.Known) (h : ∀ sig, sig ∈ s ↔ sig ∈ t) :
    s = t := by
  refine SignalSet.ext (BitVec.eq_of_getLsbD_eq fun i _ => Bool.eq_iff_iff.2 ⟨fun hi => ?_,
    fun hi => ?_⟩)
  · exact (h ⟨i, hs i hi⟩).1 hi
  · exact (h ⟨i, ht i hi⟩).2 hi

/-! ## The known part of a word -/

theorem getLsbD_full (i : Nat) : full.bits.getLsbD i = decide (i < 31) := by
  show (BitVec.ofNat 64 (2 ^ 31 - 1)).getLsbD i = _
  rw [BitVec.getLsbD_ofNat, Nat.testBit_two_pow_sub_one, ← Bool.decide_and,
    decide_eq_decide]
  omega

theorem known_ofWord (w : BitVec 64) : (ofWord w).Known := by
  intro i hi
  have hand : (w &&& full.bits).getLsbD i = true := hi
  rw [BitVec.getLsbD_and, getLsbD_full, Bool.and_eq_true, decide_eq_true_eq] at hand
  exact hand.2

/-- A caller's word denotes the signals whose bits are set. -/
theorem mem_ofWord {w : BitVec 64} : sig ∈ ofWord w ↔ w.getLsbD sig.index = true := by
  rw [mem_iff]
  show (w &&& full.bits).getLsbD sig.index = true ↔ _
  rw [BitVec.getLsbD_and, getLsbD_full]
  simp

/-- **A set has no first signal exactly when all its bits are unknown.** -/
theorem first?_eq_none_iff : s.first? = none ↔ s.bits &&& full.bits = 0 := by
  constructor
  · intro h
    have hempty : ofWord s.bits = ∅ := (known_ofWord s.bits).ext known_empty fun sig =>
      iff_of_false (fun hs => not_mem_of_first?_eq_none h sig (mem_ofWord.1 hs))
        (not_mem_empty sig)
    exact congrArg bits hempty
  · intro h
    refine Option.eq_none_iff_forall_not_mem.2 fun sig hsig => ?_
    have hmem : sig ∈ ofWord s.bits := mem_ofWord.2 (mem_of_first? hsig)
    rw [ofWord, h] at hmem
    exact not_mem_empty sig hmem

/-- **Walking a set and collecting its signals are inverse to each other**, on every
word, unknown bits included. The draws give the signals of the set in ascending order and
then nothing, which are collected into the known part of the word. A list that is collected
is walked sorted and without repetitions. -/
theorem walk_collect :
    (∀ s : SignalSet,
      s.toList = Signal.all.filter s.contains ∧
      (s.toList.Pairwise fun a b => a.number < b.number) ∧
      s.toList.length ≤ 31 ∧
      (∀ n, (draw^[n] s).first? = s.toList[n]?) ∧
      s.first? = s.toList.head? ∧
      (s.first? = none ↔ s.bits &&& full.bits = 0) ∧
      ofList s.toList = ofWord s.bits) ∧
    ∀ l : List Signal,
      (ofList l).toList = l.dedup.mergeSort (fun a b => decide (a.number ≤ b.number)) := by
  refine ⟨fun s => ⟨toList_eq_filter s, pairwise_toList s, length_toList_le s, first?_draws s,
    (head?_toList s).symm, first?_eq_none_iff, ?_⟩, fun l => ?_⟩
  · exact (known_ofList _).ext (known_ofWord _) fun sig => by
      rw [mem_ofList, mem_toList, mem_ofWord, mem_iff]
  · refine eq_of_ascending (pairwise_toList _) ?_ fun sig => ?_
    · have hle : (l.dedup.mergeSort fun a b => decide (a.number ≤ b.number)).Pairwise
          fun a b => decide (a.number ≤ b.number) = true :=
        List.pairwise_mergeSort (by simpa using fun a b c => Nat.le_trans)
          (by simpa using fun a b => Nat.le_total _ _) _
      have hnodup : (l.dedup.mergeSort fun a b => decide (a.number ≤ b.number)).Nodup :=
        (List.mergeSort_perm ..).nodup_iff.2 (List.nodup_dedup l)
      exact hle.imp₂ (fun a b hle hne => Nat.lt_of_le_of_ne (of_decide_eq_true hle)
        fun he => hne (Signal.number_inj.1 he)) hnodup
    · rw [mem_toList, mem_ofList, List.mem_mergeSort, List.mem_dedup]

end SignalSet

end PosixSignals
