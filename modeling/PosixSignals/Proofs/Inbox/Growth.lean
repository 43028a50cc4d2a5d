import PosixSignals.Proofs.Signal.Mask

/-!
# How an inbox grows

What others do to an inbox is to make signals pending, and nothing else.
`Grown` is the closure of that one operation; what a process does to its
own inbox, taking signals out and changing the mask, is not in it. Every
operation, of either kind, keeps an inbox sound: the mask holds neither
`kill` nor `stop`, no such signal is pending, and an information recorded
for a signal is about that signal.
-/

namespace PosixSignals

namespace Inbox

variable {box box' : Inbox} {sig : Signal} {info : SignalInfo}

/-- **What every inbox of the system satisfies.** -/
structure Sound (box : Inbox) : Prop where
  blockable : box.blocked.Blockable
  catchable : ∀ sig ∈ box.pending, sig.isUncatchable = false
  labelled : ∀ sig info, box.info? sig = some info → info.signal = sig

/-- The inbox after some signals were made pending by others. -/
inductive Grown (box : Inbox) : Inbox → Prop
  | refl : Grown box box
  | push {box' : Inbox} {info : SignalInfo} (h : Grown box box')
      (hc : info.signal.isUncatchable = false) : Grown box (box'.push info)

/-! ## Making a signal pending -/

@[simp] theorem push_blocked : (box.push info).blocked = box.blocked := by
  unfold push
  split <;> rfl

theorem mem_push_pending :
    sig ∈ (box.push info).pending ↔ sig ∈ box.pending ∨ sig = info.signal := by
  unfold push
  split
  · next h => exact ⟨.inl, fun hs => hs.elim id fun he => he ▸ h⟩
  · exact SignalSet.mem_union.trans (or_congr_right SignalSet.mem_single)

/-- Recording an information changes the one row it is about. -/
theorem info?_set {mask pending : SignalSet} {r : Option SignalInfo} {other : Signal} :
    Inbox.info? ⟨mask, pending, box.infos.set sig.index r sig.index_lt⟩ other =
      if sig = other then r else box.info? other := by
  have hidx : sig.index.val = other.index.val ↔ sig = other :=
    ⟨fun h => by cases sig; cases other; simpa using Fin.ext h, fun h => by rw [h]⟩
  simp only [info?, Vector.getElem_set, hidx]

theorem Sound.push (h : box.Sound) (hc : info.signal.isUncatchable = false) :
    (box.push info).Sound where
  blockable := by simpa using h.blockable
  catchable := by
    intro sig hs
    rcases mem_push_pending.1 hs with hs | rfl
    · exact h.catchable sig hs
    · exact hc
  labelled := by
    intro sig other hi
    unfold Inbox.push at hi
    split at hi
    · exact h.labelled sig other hi
    · rw [info?_set] at hi
      split at hi
      · next he => rw [← Option.some.inj hi, he]
      · exact h.labelled sig other hi

/-! ## Growth -/

theorem Grown.trans {box'' : Inbox} (h : box.Grown box') (h' : box'.Grown box'') :
    box.Grown box'' := by
  induction h' with
  | refl => exact h
  | push _ hc ih => exact ih.push hc

@[simp] theorem Grown.blocked_eq (h : box.Grown box') : box'.blocked = box.blocked := by
  induction h with
  | refl => rfl
  | push _ _ ih => rw [push_blocked, ih]

/-- A signal that is pending stays so, whatever others do. -/
theorem Grown.mem_pending (h : box.Grown box') (hs : sig ∈ box.pending) :
    sig ∈ box'.pending := by
  induction h with
  | refl => exact hs
  | push _ _ ih => exact mem_push_pending.2 (.inl ih)

theorem Grown.sound (h : box.Grown box') (hbox : box.Sound) : box'.Sound := by
  induction h with
  | refl => exact hbox
  | push _ hc ih => exact ih.push hc

theorem known_push (h : box.pending.Known) : (box.push info).pending.Known := by
  unfold push
  split
  · exact h
  · exact h.union (SignalSet.known_single _)

/-- What others make pending are known signals. -/
theorem Grown.known (h : box.Grown box') (hk : box.pending.Known) : box'.pending.Known := by
  induction h with
  | refl => exact hk
  | push _ _ ih => exact known_push ih

/-! ## Where an occurrence goes -/

/-- **All that an inbox can do with an occurrence**, each with what it depends on. -/
inductive Reception {H : Type} (box : Inbox) (info : SignalInfo) (d : Disposition H) :
    Generated × Inbox → Prop
  | atOnce (hu : info.signal.isUncatchable = true) :
      Reception box info d (.defaultAction info.signal.defaultAction, box)
  | ignored (hc : info.signal.isUncatchable = false) (hd : d = .ignore) :
      Reception box info d (.discarded, box)
  | queued (hc : info.signal.isUncatchable = false) (hd : d.isIgnore = false)
      (hb : info.signal ∈ box.blocked) : Reception box info d (.queued, box.push info)
  | idle (hc : info.signal.isUncatchable = false) (hd : d = .default)
      (hb : info.signal ∉ box.blocked) (hi : info.signal.defaultAction.isIdle = true) :
      Reception box info d (.discarded, box)
  | acted (hc : info.signal.isUncatchable = false) (hd : d = .default)
      (hb : info.signal ∉ box.blocked) (hi : info.signal.defaultAction.isIdle = false) :
      Reception box info d (.defaultAction info.signal.defaultAction, box)
  | ready {action : Action H} (hc : info.signal.isUncatchable = false) (hd : d = .handler action)
      (hb : info.signal ∉ box.blocked) : Reception box info d (.handlerReady, box.push info)

theorem reception {H : Type} (box : Inbox) (info : SignalInfo) (d : Disposition H) :
    box.Reception info d (box.receive info d) := by
  unfold receive
  split
  · next hu => exact .atOnce hu
  next hu =>
  have hc : info.signal.isUncatchable = false := by simpa using hu
  cases d with
  | ignore => exact .ignored hc rfl
  | default =>
    dsimp only
    split
    · next hb => exact .queued hc rfl hb
    next hb =>
    split
    · next hi => exact .idle hc rfl hb hi
    · next hi => exact .acted hc rfl hb (by simpa using hi)
  | handler action =>
    dsimp only
    split
    · next hb => exact .queued hc rfl hb
    · next hb => exact .ready hc rfl hb

section Reception

variable {H : Type} {d : Disposition H} {r : Generated × Inbox}

/-- The cases exclude each other, so each tells where the occurrence goes. -/
theorem Reception.receive_eq (h : box.Reception info d r) : box.receive info d = r := by
  cases h with
  | atOnce hu => simp [receive, hu]
  | ignored hc hd => simp [receive, hc, hd]
  | queued hc hd hb => cases d <;> simp [receive, hc, hb, Disposition.isIgnore] at hd ⊢
  | idle hc hd hb hi | acted hc hd hb hi => simp [receive, hc, hd, hb, hi]
  | ready hc hd hb => simp [receive, hc, hd, hb]

/-- **An occurrence only makes an inbox grow.** -/
theorem Reception.grown (h : box.Reception info d r) : box.Grown r.2 := by
  cases h with
  | atOnce | ignored | idle | acted => exact .refl
  | queued hc | ready hc => exact Grown.refl.push hc

/-- What an occurrence makes pending is its own signal. -/
theorem Reception.mem_pending (h : box.Reception info d r) (hs : sig ∈ r.2.pending) :
    sig ∈ box.pending ∨ sig = info.signal := by
  cases h with
  | atOnce | ignored | idle | acted => exact .inl hs
  | queued | ready => exact mem_push_pending.1 hs

/-- What an inbox lets through is the default action of the signal, and it keeps nothing then. -/
theorem Reception.of_defaultAction {action : DefaultAction}
    (h : box.Reception info d (.defaultAction action, box')) :
    action = info.signal.defaultAction ∧ box' = box := by
  cases h with
  | atOnce | acted => exact ⟨rfl, rfl⟩

end Reception

/-! ## What a process does itself -/

theorem sound_empty : Inbox.empty.Sound where
  blockable := SignalSet.blockable_empty
  catchable := fun sig hs => absurd hs (SignalSet.not_mem_empty sig)
  labelled := by simp [empty, info?]

/-- What a forked child starts with. -/
theorem Sound.fork (h : box.Sound) : box.fork.Sound where
  blockable := h.blockable
  catchable := sound_empty.catchable
  labelled := sound_empty.labelled

/-- Whatever the new mask is, what is in force is free of `kill` and `stop`. -/
theorem Sound.withMask (h : box.Sound) (mask : SignalSet) : (box.withMask mask).Sound where
  blockable := SignalSet.blockable_sdiff mask
  catchable := h.catchable
  labelled := h.labelled

theorem Sound.changeMask (h : box.Sound) (how : MaskChange) (set : SignalSet) :
    (box.changeMask how set).Sound :=
  h.withMask _

theorem Sound.take (h : box.Sound) (sig : Signal) : (box.take sig).2.Sound where
  blockable := h.blockable
  catchable := fun other hs => h.catchable other (SignalSet.mem_sdiff.1 hs).1
  labelled := by
    intro other info hi
    simp only [Inbox.take, info?_set] at hi
    split at hi
    · simp at hi
    · exact h.labelled other info hi

/-- What is taken is about the signal it is taken for. -/
theorem Sound.take_signal (h : box.Sound) (sig : Signal) : (box.take sig).1.signal = sig := by
  simp only [Inbox.take]
  cases hi : box.info? sig with
  | none => rfl
  | some info => exact h.labelled sig info hi

/-! ## Taking the lowest signal of a set -/

/-- A take finds the lowest signal of the set, or the set has none. -/
theorem takeFirst_cases (box : Inbox) (set : SignalSet) :
    (box.takeFirst set = (none, box) ∧ ∀ sig, sig ∉ set) ∨
      ∃ sig ∈ set, box.takeFirst set = (some (box.take sig).1, (box.take sig).2) := by
  unfold takeFirst
  cases h : set.first? with
  | none => exact .inl ⟨rfl, SignalSet.not_mem_of_first?_eq_none h⟩
  | some sig => exact .inr ⟨sig, SignalSet.mem_of_first? h, rfl⟩

/-- **Whether there is anything to deliver** is a question of signals, if no unknown
bit is pending. -/
theorem exists_of_hasDeliverable (hk : box.pending.Known) (h : box.hasDeliverable = true) :
    ∃ sig ∈ box.pending, sig ∉ box.blocked := by
  have hfull : box.deliverable.isEmpty = false := by simpa [hasDeliverable] using h
  obtain ⟨sig, hsig⟩ := (hk.sdiff box.blocked).exists_mem hfull
  exact ⟨sig, SignalSet.mem_sdiff.1 hsig⟩

end Inbox

end PosixSignals
