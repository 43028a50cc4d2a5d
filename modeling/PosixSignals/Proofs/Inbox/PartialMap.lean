import Mathlib.Data.Set.Insert
import PosixSignals.Proofs.Inbox.Account

/-!
# Inboxes as partial maps

An inbox keeps the pending signals twice, as bits of a word and as rows of
a table, and finds the next one by looking for the lowest bit. What it
stands for is simpler: a blocked set, and a partial map from signals to the
information of the occurrence that is pending. `Holdings` is that pair and
`Holdings.Acts` says what an operation does to it, without bits and tables;
an operation on an inbox does exactly this to the holdings of the inbox,
whatever words the callers pass.
-/

namespace PosixSignals

/-- The positions of the bits of a set, known or not. -/
def SignalSet.positions (s : SignalSet) : Set Nat := {i | s.bits.getLsbD i = true}

/-- The positions that are never blocked. -/
def neverBlocked : Set Nat := {i | ∃ sig : Signal, sig.isUncatchable = true ∧ sig.index.val = i}

/-- What can be done to an inbox. -/
inductive Inbox.Operation (H : Type) where
  | receive (info : SignalInfo) (d : Disposition H)
  | apply (how : MaskChange) (set : SignalSet)
  | replaceMask (mask : SignalSet)
  | restoreMask (saved : SignalSet)
  | takePendingIn (set : SignalSet)
  | takeDeliverable
  /-- Going on with the inbox of a forked child. -/
  | fork
  /-- Going on with a copy. -/
  | clone

/-- What an operation on an inbox tells. -/
inductive Inbox.Answer where
  | went (outcome : Generated)
  /-- The mask that was in force. -/
  | mask (old : SignalSet)
  | took (info? : Option SignalInfo)
  | done

/-- A blocked set, by position, and for each signal the occurrence that is pending. -/
@[ext] structure Holdings where
  blocked : Set Nat
  waiting : Signal → Option SignalInfo

namespace Holdings

variable {H : Type}

/-- Nothing blocked and no key. -/
def empty : Holdings := ⟨∅, fun _ => none⟩

/-- Enters an occurrence, if its signal is no key yet. -/
def keep (m : Holdings) (info : SignalInfo) : Holdings :=
  { m with waiting := fun sig =>
      if sig = info.signal ∧ m.waiting sig = none then some info else m.waiting sig }

/-- Takes a key out. -/
def remove (m : Holdings) (sig : Signal) : Holdings :=
  { m with waiting := fun other => if other = sig then none else m.waiting other }

/-- The holdings with a new blocked set, less the positions that are never blocked. -/
def withBlocked (m : Holdings) (blocked : Set Nat) : Holdings :=
  { m with blocked := blocked \ neverBlocked }

/-- A key at a position that satisfies `p`, and no lower key does. -/
structure Lowest (m : Holdings) (p : Nat → Prop) (sig : Signal) (info : SignalInfo) : Prop where
  key : m.waiting sig = some info
  within : p sig.index
  least : ∀ other, (m.waiting other).isSome = true → p other.index → sig.number ≤ other.number

/-- **A take removes the lowest key** at a position that satisfies `p`, and only that key;
where there is none it changes nothing. -/
inductive Takes (m : Holdings) (p : Nat → Prop) : Inbox.Answer → Holdings → Prop
  | lowest {sig info} (h : m.Lowest p sig info) : Takes m p (.took (some info)) (m.remove sig)
  | nothing (h : ∀ sig, (m.waiting sig).isSome = true → ¬ p sig.index) :
      Takes m p (.took none) m

/-- **What an operation does** to a blocked set and a partial map, and what it tells. -/
inductive Acts (m : Holdings) : Inbox.Operation H → Inbox.Answer → Holdings → Prop
  /-- `kill` and `stop` act at once, whatever is installed and blocked. -/
  | atOnce {info d} (h : info.signal.isUncatchable = true) :
      Acts m (.receive info d) (.went (.defaultAction info.signal.defaultAction)) m
  /-- An ignored signal never changes the map. -/
  | ignored {info} (h : info.signal.isUncatchable = false) :
      Acts m (.receive info .ignore) (.went .discarded) m
  /-- A blocked signal is entered, if it is no key yet. -/
  | queued {info d} (h : info.signal.isUncatchable = false) (hd : d.isIgnore = false)
      (hb : info.signal.index.val ∈ m.blocked) :
      Acts m (.receive info d) (.went .queued) (m.keep info)
  /-- So is one that a handler is installed for. -/
  | ready {info action} (h : info.signal.isUncatchable = false)
      (hb : info.signal.index.val ∉ m.blocked) :
      Acts m (.receive info (.handler action)) (.went .handlerReady) (m.keep info)
  /-- A default that does nothing enters nothing. -/
  | idle {info} (h : info.signal.isUncatchable = false) (hb : info.signal.index.val ∉ m.blocked)
      (hi : info.signal.defaultAction.isIdle = true) :
      Acts m (.receive info .default) (.went .discarded) m
  /-- Nor does one that does something. -/
  | acted {info} (h : info.signal.isUncatchable = false) (hb : info.signal.index.val ∉ m.blocked)
      (hi : info.signal.defaultAction.isIdle = false) :
      Acts m (.receive info .default) (.went (.defaultAction info.signal.defaultAction)) m
  | block {set old} (h : old.positions = m.blocked) :
      Acts m (.apply .block set) (.mask old) (m.withBlocked (m.blocked ∪ set.positions))
  | unblock {set old} (h : old.positions = m.blocked) :
      Acts m (.apply .unblock set) (.mask old) (m.withBlocked (m.blocked \ set.positions))
  | setMask {set old} (h : old.positions = m.blocked) :
      Acts m (.apply .setMask set) (.mask old) (m.withBlocked set.positions)
  | replace {mask old} (h : old.positions = m.blocked) :
      Acts m (.replaceMask mask) (.mask old) (m.withBlocked mask.positions)
  | restore {saved} : Acts m (.restoreMask saved) .done (m.withBlocked saved.positions)
  | takenIn {set a m'} (h : m.Takes (· ∈ set.positions) a m') : Acts m (.takePendingIn set) a m'
  | delivered {a m'} (h : m.Takes (· ∉ m.blocked) a m') : Acts m .takeDeliverable a m'
  | forked : Acts m .fork .done ⟨m.blocked, fun _ => none⟩
  | cloned : Acts m .clone .done m

/-! ## What the rules decide -/

variable {m m' m'' : Holdings} {op : Inbox.Operation H} {a b : Inbox.Answer}
  {sig other : Signal} {info info' : SignalInfo} {p : Nat → Prop}

/-- There is one lowest signal at most. -/
theorem Lowest.unique (h : m.Lowest p sig info) (h' : m.Lowest p other info') :
    sig = other ∧ info = info' := by
  have hle := h.least other (by simp [h'.key]) h'.within
  have hge := h'.least sig (by simp [h.key]) h.within
  obtain rfl : sig = other := by
    have hnum : sig.number = other.number := Nat.le_antisymm hle hge
    have hsome : some sig = some other := by
      rw [← Signal.ofNumber?_number sig, hnum, Signal.ofNumber?_number]
    exact Option.some.inj hsome
  exact ⟨rfl, Option.some.inj (h.key.symm.trans h'.key)⟩

/-- So there is one way to take a signal. -/
theorem Takes.unique (h : m.Takes p a m') (h' : m.Takes p b m'') : a = b ∧ m' = m'' := by
  cases h with
  | lowest h =>
    cases h' with
    | lowest h' => obtain ⟨rfl, rfl⟩ := h.unique h'; exact ⟨rfl, rfl⟩
    | nothing h' => exact absurd h.within (h' _ (by simp [h.key]))
  | nothing h =>
    cases h' with
    | lowest h' => exact absurd h'.within (h _ (by simp [h'.key]))
    | nothing => exact ⟨rfl, rfl⟩

end Holdings

/-- A word is told by the positions of its bits. -/
theorem SignalSet.positions_injective : Function.Injective SignalSet.positions := by
  intro s t h
  refine SignalSet.ext (BitVec.eq_of_getLsbD_eq fun i _ => ?_)
  have hi : (i ∈ s.positions) = (i ∈ t.positions) := by rw [h]
  exact Bool.eq_iff_iff.2 (iff_of_eq hi)

namespace Holdings

variable {H : Type} {m m' m'' : Holdings} {op : Inbox.Operation H} {a b : Inbox.Answer}

/-- **The rules leave no choice.** -/
theorem Acts.unique (h : m.Acts op a m') (h' : m.Acts op b m'') : a = b ∧ m' = m'' := by
  cases h with
  | atOnce h | ignored h | queued h | ready h | idle h | acted h =>
    cases h' <;> simp_all [Disposition.isIgnore]
  | block h | unblock h | setMask h | replace h =>
    cases h'
    next h' =>
      have hold := SignalSet.positions_injective (h.trans h'.symm)
      exact ⟨congrArg _ hold, rfl⟩
  | restore | forked | cloned => cases h'; exact ⟨rfl, rfl⟩
  | takenIn h | delivered h => cases h'; next h' => exact h.unique h'

end Holdings

/-! ## Runs -/

/-- The operations so far and what each told, the latest first. -/
abbrev Log (H : Type) := List (Inbox.Operation H × Inbox.Answer)

namespace Log

variable {H : Type}

/-- The occurrence that an operation left pending, newly or merged into an earlier one. -/
def accepted? (sig : Signal) : Inbox.Operation H × Inbox.Answer → Option SignalInfo
  | (.receive info _, .went outcome) =>
    if info.signal = sig ∧ outcome.pends = true then some info else none
  | _ => none

/-- Whether an operation took the signal out, or began an inbox with nothing pending. -/
def clears (sig : Signal) : Inbox.Operation H × Inbox.Answer → Bool
  | (.fork, _) => true
  | (_, .took (some info)) => info.signal == sig
  | _ => false

/-- **The first occurrence accepted for a signal since it was last taken.** -/
def firstSince (sig : Signal) (log : Log H) : Option SignalInfo :=
  ((log.takeWhile fun e => !clears sig e).filterMap (accepted? sig)).getLast?

/-- A later occurrence counts only where there is no earlier one. -/
theorem firstSince_cons (sig : Signal) (e : Inbox.Operation H × Inbox.Answer) (log : Log H) :
    firstSince sig (e :: log) =
      if clears sig e then none else (firstSince sig log).or (accepted? sig e) := by
  unfold firstSince
  cases hc : clears sig e with
  | true => simp [hc]
  | false =>
    cases ha : accepted? sig e with
    | none => simp [hc, ha]
    | some info => simp [hc, ha, List.getLast?_cons]

end Log

namespace Holdings

/-- A run by the rules, from nothing blocked and no key. -/
inductive Ran {H : Type} : Log H → Holdings → Prop
  | start : Ran [] empty
  | next {log m op a m'} (h : Ran log m) (hacts : m.Acts op a m') : Ran ((op, a) :: log) m'

variable {H : Type} {m m' : Holdings} {op : Inbox.Operation H} {a : Inbox.Answer}
  {log : Log H} {sig : Signal} {info : SignalInfo}

/-- Only the signals that can be caught are keys, each with an occurrence of its own. -/
def Proper (m : Holdings) : Prop :=
  ∀ sig info, m.waiting sig = some info → info.signal = sig ∧ sig.isUncatchable = false

/-- What can be caught may be kept. -/
theorem Proper.keep (h : m.Proper) (hc : info.signal.isUncatchable = false) :
    (m.keep info).Proper := by
  intro sig other ho
  simp only [Holdings.keep] at ho
  split at ho
  · next hnew =>
    obtain rfl := Option.some.inj ho
    exact ⟨hnew.1.symm, hnew.1 ▸ hc⟩
  · exact h sig other ho

/-- To remove is to keep less. -/
theorem Proper.remove (h : m.Proper) (sig : Signal) : (m.remove sig).Proper := by
  intro other info ho
  simp only [Holdings.remove] at ho
  split at ho
  · simp at ho
  · exact h other info ho

/-- Every operation keeps holdings proper. -/
theorem Proper.acts (h : m.Proper) (ha : m.Acts op a m') : m'.Proper := by
  cases ha with
  | queued hc | ready hc => exact h.keep hc
  | takenIn ht | delivered ht =>
    cases ht with
    | lowest => exact h.remove _
    | nothing => exact h
  | forked => exact fun sig info hi => by simp at hi
  | _ => exact h

/-- So holdings are proper after any log. -/
theorem Ran.proper (h : Ran log m) : m.Proper := by
  induction h with
  | start => exact fun sig info hi => by simp [empty] at hi
  | next _ ha ih => exact ih.acts ha

/-- No mask in force blocks what is never blocked. -/
theorem Ran.not_mem_blocked (h : Ran log m) {i : Nat} (hi : i ∈ neverBlocked) :
    i ∉ m.blocked := by
  induction h with
  | start => exact fun h => h
  | next _ ha ih =>
    cases ha with
    | block | unblock | setMask | replace | restore => exact fun h => h.2 hi
    | takenIn ht | delivered ht =>
      cases ht with
      | lowest => exact ih
      | nothing => exact ih
    | _ => exact ih

/-- What an operation leaves of one row, by what it tells. -/
theorem Acts.waiting_eq (hm : m.Proper) (ha : m.Acts op a m') (sig : Signal) :
    m'.waiting sig = if Log.clears sig (op, a) then none
      else (m.waiting sig).or (Log.accepted? sig (op, a)) := by
  have hremove {other info} (hk : m.waiting other = some info) :
      (m.remove other).waiting sig = if info.signal == sig then none else m.waiting sig := by
    obtain ⟨rfl, -⟩ := hm other info hk
    simp only [remove, beq_iff_eq, eq_comm (a := sig)]
  cases ha with
  | queued | ready =>
    simp only [keep, Log.clears, Log.accepted?, Generated.pends, eq_comm (a := sig)]
    cases m.waiting sig <;> simp
  | takenIn ht | delivered ht =>
    cases ht with
    | lowest h => simpa [Log.clears, Log.accepted?] using hremove h.key
    | nothing => simp [Log.clears, Log.accepted?]
  | _ => simp [Log.clears, Log.accepted?, Generated.pends, withBlocked]

/-- **What is pending is the first occurrence accepted since the last take.** -/
theorem Ran.waiting_eq (h : Ran log m) (sig : Signal) : m.waiting sig = log.firstSince sig := by
  induction h with
  | start => rfl
  | next h ha ih => rw [Log.firstSince_cons, ← ih, ha.waiting_eq h.proper]

end Holdings

/-! ## Words and positions -/

namespace SignalSet

@[simp] theorem mem_positions {s : SignalSet} {i : Nat} :
    i ∈ s.positions ↔ s.bits.getLsbD i = true := Iff.rfl

/-- The empty word has no positions. -/
theorem positions_empty : (∅ : SignalSet).positions = ∅ := by
  ext i
  show (0#64).getLsbD i = true ↔ _
  simp

/-- The positions of a union are those of both. -/
theorem positions_union (s t : SignalSet) : (s ∪ t).positions = s.positions ∪ t.positions := by
  ext i
  show (s.bits ||| t.bits).getLsbD i = true ↔ _
  simp

/-- Those of a difference are those of the one and not the other. -/
theorem positions_sdiff (s t : SignalSet) : (s \ t).positions = s.positions \ t.positions := by
  ext i
  show (s.bits &&& ~~~t.bits).getLsbD i = true ↔ _
  have hlt : s.bits.getLsbD i = true → i < 64 := BitVec.lt_of_getLsbD
  simp only [BitVec.getLsbD_and, BitVec.getLsbD_not, Bool.and_eq_true, decide_eq_true_eq,
    Set.mem_sdiff, mem_positions]
  grind

/-- A single signal has one position. -/
theorem positions_single (sig : Signal) : (single sig).positions = {sig.index.val} := by
  ext i
  have hlt := sig.index_lt
  simp only [mem_positions, single, BitVec.getLsbD_twoPow, Set.mem_singleton_iff]
  simp
  omega

/-- A set with a member is not empty. -/
theorem isEmpty_eq_false_of_mem {s : SignalSet} {sig : Signal} (h : sig ∈ s) :
    s.isEmpty = false := by
  by_contra hempty
  have hzero : s.bits = 0 := by simpa [isEmpty] using hempty
  rw [mem_iff, hzero] at h
  simp at h

/-- What a new mask leaves out is what is never blocked. -/
theorem positions_uncatchable : uncatchable.positions = neverBlocked := by
  have hpair : uncatchable = single .kill ∪ single .stop := rfl
  rw [hpair, positions_union, positions_single, positions_single]
  ext i
  simp only [Set.mem_union, Set.mem_singleton_iff, neverBlocked, Set.mem_ofPred_eq,
    Signal.isUncatchable, Bool.or_eq_true, decide_eq_true_eq]
  constructor
  · rintro (rfl | rfl)
    · exact ⟨.kill, .inl rfl, rfl⟩
    · exact ⟨.stop, .inr rfl, rfl⟩
  · rintro ⟨sig, rfl | rfl, rfl⟩
    · exact .inl rfl
    · exact .inr rfl

end SignalSet

/-! ## The inbox and what it stands for -/

namespace Inbox

variable {H : Type} {box box' : Inbox} {op : Operation H} {sig : Signal} {info : SignalInfo}

/-- **What an inbox stands for.** -/
def holdings (box : Inbox) : Holdings := ⟨box.blocked.positions, box.info?⟩

/-- Carries an operation out, and tells what it tells. -/
def perform (box : Inbox) : Operation H → Answer × Inbox
  | .receive info d => (.went (box.receive info d).1, (box.receive info d).2)
  | .apply how set => (.mask box.blocked, box.changeMask how set)
  | .replaceMask mask => (.mask box.blocked, box.withMask mask)
  | .restoreMask saved => (.done, box.withMask saved)
  | .takePendingIn set => (.took (box.takePendingIn set).1, (box.takePendingIn set).2)
  | .takeDeliverable => (.took box.takeDeliverable.1, box.takeDeliverable.2)
  | .fork => (.done, box.fork)
  | .clone => (.done, box)

/-- **The bits and the table agree**, and no unknown bit is pending. -/
structure Coherent (box : Inbox) : Prop where
  known : box.pending.Known
  bit : ∀ sig, sig ∈ box.pending ↔ (box.info? sig).isSome = true

/-- An empty inbox is coherent. -/
theorem coherent_empty : Inbox.empty.Coherent where
  known := SignalSet.known_empty
  bit := by simp [empty, info?]

/-- To keep a signal sets its bit and its row together. -/
theorem Coherent.push (h : box.Coherent) (info : SignalInfo) : (box.push info).Coherent where
  known := known_push h.known
  bit := by
    intro sig
    rw [mem_push_pending, h.bit]
    unfold Inbox.push
    split
    · next hp => exact or_iff_left_of_imp fun he => he ▸ (h.bit _).1 hp
    · rw [info?_set]
      by_cases he : info.signal = sig
      · simp [he]
      · simp [he, Ne.symm he]

/-- To take a signal clears its bit and its row together. -/
theorem Coherent.take (h : box.Coherent) (sig : Signal) : (box.take sig).2.Coherent where
  known := h.known.sdiff _
  bit := by
    intro other
    show other ∈ box.pending \ .single sig ↔ _
    rw [SignalSet.mem_sdiff, SignalSet.mem_single, h.bit]
    simp only [Inbox.take, info?_set]
    by_cases he : sig = other
    · simp [he]
    · simp [he, Ne.symm he]

/-- So an inbox that grows stays coherent. -/
theorem Coherent.grown (h : box.Coherent) (hg : box.Grown box') : box'.Coherent := by
  induction hg with
  | refl => exact h
  | push _ _ ih => exact ih.push _

/-- To take the first of a set is to take one, or none. -/
theorem Coherent.takeFirst (h : box.Coherent) (set : SignalSet) :
    (box.takeFirst set).2.Coherent := by
  rcases takeFirst_cases box set with ⟨ht, -⟩ | ⟨sig, -, ht⟩ <;> rw [ht]
  · exact h
  · exact h.take sig

/-- **Every operation keeps bits and rows together.** -/
theorem Coherent.perform (h : box.Coherent) (op : Operation H) : (box.perform op).2.Coherent := by
  cases op with
  | receive info d => exact h.grown (box.reception info d).grown
  | takePendingIn | takeDeliverable => exact h.takeFirst _
  | fork => exact ⟨coherent_empty.known, coherent_empty.bit⟩
  | apply | replaceMask | restoreMask | clone => exact ⟨h.known, h.bit⟩

/-! ## One operation -/

/-- A change of the mask changes the blocked positions. -/
theorem holdings_withMask (box : Inbox) (mask : SignalSet) :
    (box.withMask mask).holdings = box.holdings.withBlocked mask.positions := by
  simp [holdings, withMask, Holdings.withBlocked, SignalSet.positions_sdiff,
    SignalSet.positions_uncatchable]
  rfl

/-- For the holdings, to push a signal is to keep it. -/
theorem Coherent.holdings_push (h : box.Coherent) (info : SignalInfo) :
    (box.push info).holdings = box.holdings.keep info := by
  have hrow (sig : Signal) : (box.push info).info? sig =
      if sig = info.signal ∧ box.info? sig = none then some info else box.info? sig := by
    unfold Inbox.push
    split
    · next hp =>
      have hsome := (h.bit _).1 hp
      split
      · next hnew => rw [← hnew.1, hnew.2] at hsome; simp at hsome
      · rfl
    · next hp =>
      have hnone : box.info? info.signal = none := by simpa using mt (h.bit _).2 hp
      rw [info?_set]
      by_cases he : info.signal = sig
      · subst he; simp [hnone]
      · simp [he, Ne.symm he]
  exact Holdings.ext (by simp [holdings, Holdings.keep]) (funext hrow)

/-- For the holdings, to take a signal is to remove it. -/
theorem holdings_take (box : Inbox) (sig : Signal) :
    (box.take sig).2.holdings = box.holdings.remove sig := by
  refine Holdings.ext rfl (funext fun other => ?_)
  simp only [holdings, Inbox.take, info?_set, Holdings.remove, eq_comm (a := sig)]

/-- The pending bits are those of the rows. -/
theorem Coherent.bit_iff (h : box.Coherent) (i : Nat) : box.pending.bits.getLsbD i = true ↔
    ∃ sig : Signal, sig.number = i + 1 ∧ (box.info? sig).isSome = true := by
  constructor
  · intro hi
    have hlt : i < 31 := h.known i hi
    exact ⟨⟨⟨i, hlt⟩⟩, rfl, (h.bit _).1 hi⟩
  · rintro ⟨sig, hnum, hs⟩
    obtain rfl : sig.index.val = i := Nat.succ.inj hnum
    exact (h.bit sig).2 hs

/-- What is taken is the occurrence recorded, whatever stands in where there is none. -/
theorem Coherent.take_eq (h : box.Coherent) (hs : sig ∈ box.pending) :
    box.info? sig = some (box.take sig).1 := by
  obtain ⟨info, hinfo⟩ := Option.isSome_iff_exists.1 ((h.bit sig).1 hs)
  simp [Inbox.take, hinfo]

/-- **Looking for the lowest bit takes the lowest key**, if the bits looked at are those of
the keys that qualify. -/
theorem Coherent.takes (h : box.Coherent) {set : SignalSet} {p : Nat → Prop}
    (hset : ∀ sig, sig ∈ set ↔ sig ∈ box.pending ∧ p sig.index) :
    box.holdings.Takes p (.took (box.takeFirst set).1) (box.takeFirst set).2.holdings := by
  unfold Inbox.takeFirst
  cases hf : set.first? with
  | none =>
    refine .nothing fun sig hk hp => SignalSet.not_mem_of_first?_eq_none hf sig ?_
    exact (hset sig).2 ⟨(h.bit sig).2 hk, hp⟩
  | some sig =>
    obtain ⟨hs, hp⟩ := (hset sig).1 (SignalSet.mem_of_first? hf)
    have hlow : box.holdings.Lowest p sig (box.take sig).1 := {
      key := h.take_eq hs
      within := hp
      least := fun other hk hp' =>
        SignalSet.le_of_first? hf ((hset other).2 ⟨(h.bit other).2 hk, hp'⟩) }
    dsimp only
    rw [holdings_take]
    exact .lowest hlow

/-- What an inbox does with a signal is what its holdings do. -/
theorem Coherent.acts_receive {d : Disposition H} {outcome : Generated} (h : box.Coherent)
    (hr : box.Reception info d (outcome, box')) :
    box.holdings.Acts (.receive info d) (.went outcome) box'.holdings := by
  have hblocked : info.signal.index.val ∈ box.holdings.blocked ↔ info.signal ∈ box.blocked :=
    Iff.rfl
  cases hr with
  | atOnce hu => exact .atOnce hu
  | ignored hc hd =>
    subst hd
    exact .ignored hc
  | queued hc hd hb =>
    rw [h.holdings_push]
    exact .queued hc hd (hblocked.2 hb)
  | ready hc hd hb =>
    subst hd
    rw [h.holdings_push]
    exact .ready hc (mt hblocked.1 hb)
  | idle hc hd hb hi =>
    subst hd
    exact .idle hc (mt hblocked.1 hb) hi
  | acted hc hd hb hi =>
    subst hd
    exact .acted hc (mt hblocked.1 hb) hi

/-- **An operation does to an inbox what the rules say**, whatever it is given. -/
theorem Coherent.acts (h : box.Coherent) (op : Operation H) :
    box.holdings.Acts op (box.perform op).1 (box.perform op).2.holdings := by
  cases op with
  | receive info d => exact h.acts_receive (box.reception info d)
  | apply how set =>
    simp only [Inbox.perform, changeMask, holdings_withMask]
    cases how with
    | block => simpa only [MaskChange.apply, SignalSet.positions_union] using .block rfl
    | unblock => simpa only [MaskChange.apply, SignalSet.positions_sdiff] using .unblock rfl
    | setMask => exact .setMask rfl
  | replaceMask mask =>
    simp only [Inbox.perform, holdings_withMask]
    exact .replace rfl
  | restoreMask saved =>
    simp only [Inbox.perform, holdings_withMask]
    exact .restore
  | takePendingIn set => exact .takenIn (h.takes fun sig => SignalSet.mem_inter)
  | takeDeliverable => exact .delivered (h.takes fun sig => SignalSet.mem_sdiff)
  | fork =>
    have hbox : box.fork.holdings = ⟨box.holdings.blocked, fun _ => none⟩ :=
      Holdings.ext rfl (funext fun sig => by simp [holdings, Inbox.fork, info?])
    rw [show (box.perform (.fork : Operation H)).2 = box.fork from rfl, hbox]
    exact .forked
  | clone => exact .cloned

/-! ## Runs of an inbox -/

/-- **There is something to deliver just if a delivery finds something.** -/
theorem Coherent.hasDeliverable_iff (h : box.Coherent) :
    box.hasDeliverable = true ↔ ∃ info, box.takeDeliverable.1 = some info := by
  constructor
  · intro hd
    obtain ⟨sig, hp, hb⟩ := exists_of_hasDeliverable h.known hd
    rcases takeFirst_cases box box.deliverable with ⟨-, hnone⟩ | ⟨first, -, ht⟩
    · exact absurd (SignalSet.mem_sdiff.2 ⟨hp, hb⟩) (hnone sig)
    · exact ⟨_, congrArg Prod.fst ht⟩
  · rintro ⟨info, ht⟩
    rcases takeFirst_cases box box.deliverable with ⟨hnone, -⟩ | ⟨first, hf, -⟩
    · rw [takeDeliverable, hnone] at ht
      simp at ht
    · simp [hasDeliverable, SignalSet.isEmpty_eq_false_of_mem hf]

/-- An inbox, with the log of what was done to it since it was new. -/
structure Course (H : Type) where
  log : Log H := []
  box : Inbox := .empty

namespace Course

def step (c : Course H) (op : Operation H) : Course H :=
  ⟨(op, (c.box.perform op).1) :: c.log, (c.box.perform op).2⟩

/-- What becomes of a new inbox. -/
def run (ops : List (Operation H)) : Course H := ops.foldl step {}

/-- The bits and the table of the inbox agree, and its log is a run by the rules. -/
structure Sound (c : Course H) : Prop where
  coherent : c.box.Coherent
  ran : Holdings.Ran c.log c.box.holdings

/-- At first nothing has been done. -/
theorem sound_new : ({} : Course H).Sound where
  coherent := coherent_empty
  ran := by
    have hbox : Inbox.empty.holdings = Holdings.empty :=
      Holdings.ext SignalSet.positions_empty
        (funext fun sig => by simp [holdings, Inbox.empty, info?, Holdings.empty])
    exact hbox ▸ Holdings.Ran.start

/-- One operation more puts one entry more on the log. -/
theorem Sound.step {c : Course H} (h : c.Sound) (op : Operation H) : (c.step op).Sound where
  coherent := h.coherent.perform op
  ran := h.ran.next (h.coherent.acts op)

/-- After any number of operations the log is that of the holdings. -/
theorem Sound.foldl {c : Course H} (h : c.Sound) (ops : List (Operation H)) :
    (ops.foldl Course.step c).Sound := by
  induction ops generalizing c with
  | nil => exact h
  | cons op ops ih => exact ih (h.step op)

/-- **Every course is that of a log that its holdings have run.** -/
theorem sound_run (ops : List (Operation H)) : (run ops).Sound := sound_new.foldl ops

end Course

/-- **What an inbox is after a log of operations**: a blocked set and a partial map. -/
structure Faithful (log : Log H) (box : Inbox) : Prop where
  /-- A bit is pending just where the table has a row. -/
  bit : ∀ i, box.pending.bits.getLsbD i = true ↔
    ∃ sig : Signal, sig.number = i + 1 ∧ (box.info? sig).isSome = true
  /-- No bit is pending above those of the signals. -/
  known : ∀ i, 30 < i → box.pending.bits.getLsbD i = false
  /-- A row is about its own signal, and there is none for `kill` and `stop`. -/
  proper : ∀ sig info, box.info? sig = some info →
    info.signal = sig ∧ sig.isUncatchable = false
  /-- Neither of the two is blocked. -/
  unblocked : ∀ sig : Signal, sig.isUncatchable = true → sig ∉ box.blocked
  /-- What is recorded is the first occurrence accepted since the signal was last taken. -/
  first : ∀ sig, box.info? sig = log.firstSince sig
  /-- The log is a run by the rules and ends at what the inbox stands for. -/
  ran : Holdings.Ran log box.holdings
  /-- The next operation does what the rules say, and tells it. -/
  acts : ∀ (op : Operation H) (a : Answer) (m : Holdings), box.holdings.Acts op a m ↔
    a = (box.perform op).1 ∧ m = (box.perform op).2.holdings
  /-- There is something to deliver just if a delivery finds something. -/
  deliverable : box.hasDeliverable = true ↔ ∃ info, box.takeDeliverable.1 = some info
  /-- What is taken was recorded; nothing stands in for it. -/
  recorded : ∀ (set : SignalSet) (sig : Signal),
    box.deliverable.first? = some sig ∨ (box.pending ∩ set).first? = some sig →
      box.info? sig = some (box.take sig).1

/-- **An inbox refines a partial map**, whatever is done to it. -/
theorem faithful_run (ops : List (Operation H)) :
    Faithful (Course.run ops).log (Course.run ops).box := by
  obtain ⟨hc, hran⟩ := Course.sound_run ops
  exact {
    bit := hc.bit_iff
    known := fun i hi => by
      by_contra hbit
      have := hc.known i (by simpa using hbit)
      omega
    proper := hran.proper
    unblocked := fun sig hu => hran.not_mem_blocked ⟨sig, hu, rfl⟩
    first := hran.waiting_eq
    ran := hran
    acts := fun op a m => ⟨fun ha => ha.unique (hc.acts op), fun ⟨ha, hm⟩ => by
      rw [ha, hm]; exact hc.acts op⟩
    deliverable := hc.hasDeliverable_iff
    recorded := by
      rintro set sig (hf | hf)
      · exact hc.take_eq (SignalSet.mem_sdiff.1 (SignalSet.mem_of_first? hf)).1
      · exact hc.take_eq (SignalSet.mem_inter.1 (SignalSet.mem_of_first? hf)).1 }

end Inbox

end PosixSignals
