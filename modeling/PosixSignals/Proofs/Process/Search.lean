import PosixSignals.Process.Step
import PosixSignals.Proofs.Inbox.Growth

/-!
# Looking for signals

A check point and a wait for signals look at the process in the same order:
whether it has ended, whether it is stopped, and what is pending. What a turn
of either comes to is listed once here, with what it has found on the way, and
so is what becomes of a process that blocks.
-/

namespace PosixSignals

namespace Process

variable {p : Process} {pid : Pid} {now : Nat} {sig : Signal}

/-- The process with a signal taken out of its inbox. -/
def without (p : Process) (sig : Signal) : Process := { p with inbox := (p.inbox.take sig).2 }

/-- To take a signal out leaves the table. -/
@[simp] theorem dispositions_without : (p.without sig).dispositions = p.dispositions := rfl

/-- A process that has neither ended nor stopped runs. -/
theorem status_eq_normal (he : p.status.isExited = false) (hst : p.status.isStopped = false) :
    p.status = .normal := by
  cases h : p.status <;> simp [h, Status.isExited, Status.isStopped] at he hst ⊢

/-! ## Check points -/

/-- **What is done about a signal** that a check point has taken out of the inbox. -/
inductive Handling (pid : Pid) (sig : Signal) (delivered : Bool) (p : Process) :
    Process × List Event → Prop
  | ignored (hd : p.dispositions.get sig = .ignore) :
      Handling pid sig delivered p
        (p.goto (.loop (.check delivered)), [.handling sig, .ignored sig])
  | default (hd : p.dispositions.get sig = .default) :
      Handling pid sig delivered p
        ((p.act pid sig sig.defaultAction).1.goto
          (.loop (.check (delivered || !sig.defaultAction.isIdle))),
          .handling sig :: (p.act pid sig sig.defaultAction).2)
  | entered {action : Action Installed} (hd : p.dispositions.get sig = .handler action) :
      Handling pid sig delivered p
        (((p.enter .round .proceed).deliver sig action).1,
          .handling sig :: ((p.enter .round .proceed).deliver sig action).2)

/-- **What a turn of a check point comes to.** -/
inductive Checked (pid : Pid) (delivered : Bool) (p : Process) : Process × List Event → Prop
  | ended (he : p.status.isExited = true) :
      Checked pid delivered p (p.answer (.error .mustExit), [])
  | stopped (hst : p.status.isStopped = true) :
      Checked pid delivered p
        (p.goto (.blocked (.check delivered) (p.listen .signal none)), [.awaitsContinue])
  /-- Whatever is pending is blocked. -/
  | passed (hn : p.status = .normal) (h : ∀ sig ∈ p.inbox.pending, sig ∈ p.inbox.blocked) :
      Checked pid delivered p (p.answer (.ok (.delivered delivered)), [])
  | took {sig : Signal} {r : Process × List Event} (hn : p.status = .normal)
      (hs : sig ∈ p.inbox.deliverable)
      (h : (p.without sig).Handling pid (p.inbox.take sig).1.signal delivered r) :
      Checked pid delivered p r

/-- **A turn of a check point** is all that it can be. -/
theorem checked (pid : Pid) (delivered : Bool) (p : Process) :
    p.Checked pid delivered (p.check pid delivered) := by
  unfold check
  split
  · next he => exact .ended he
  next he =>
  split
  · next hst => exact .stopped hst
  next hst =>
  have hn : p.status = .normal := status_eq_normal (by simpa using he) (by simpa using hst)
  rcases p.inbox.takeFirst_cases p.inbox.deliverable with ⟨ht, hnone⟩ | ⟨sig, hs, ht⟩
  · simp only [Inbox.takeDeliverable, ht]
    refine .passed hn fun sig hs => ?_
    exact Decidable.byContradiction fun hb => hnone sig (SignalSet.mem_sdiff.2 ⟨hs, hb⟩)
  simp only [Inbox.takeDeliverable, ht]
  refine .took hn hs ?_
  split
  · next hd => exact .ignored hd
  · next hd => exact .default hd
  · next hd => exact .entered hd

/-! ## Waits for signals -/

/-- **What a turn of a wait for signals comes to.** -/
inductive Waited (now : Nat) (w : AnyWait) (p : Process) : Process × List Event → Prop
  | ended (he : p.status.isExited = true) :
      Waited now w p (p.leaveWait w (.error .mustExit), [])
  | stopped (hst : p.status.isStopped = true) :
      Waited now w p
        (p.goto (.blocked (.waitAny w) (p.listen .signal none)), [.awaitsContinue])
  | took {sig : Signal} (hn : p.status = .normal)
      (hs : (p.inbox.pending ∩ w.set).first? = some sig) :
      Waited now w p ((p.without sig).leaveWait w (.ok (.taken (some (p.inbox.take sig).1))),
        [.took (p.inbox.take sig).1])
  | interrupted (hn : p.status = .normal) (hl : ∀ sig ∈ p.inbox.pending, sig ∉ w.set)
      (hd : p.inbox.hasDeliverable = true) (hb : w.bounded = true) :
      Waited now w p (p.leaveWait w (.error .intr), [])
  | serves (hn : p.status = .normal) (hl : ∀ sig ∈ p.inbox.pending, sig ∉ w.set)
      (hd : p.inbox.hasDeliverable = true) (hb : w.bounded = false) :
      Waited now w p (p.enter (.waiting w) (.loop (.check false)), [])
  | expired (hn : p.status = .normal) (hl : ∀ sig ∈ p.inbox.pending, sig ∉ w.set)
      (hd : p.inbox.hasDeliverable = false) (hlate : expired now w.deadline = true) :
      Waited now w p (p.leaveWait w (.ok (.taken none)), [])
  | blocked (hn : p.status = .normal) (hl : ∀ sig ∈ p.inbox.pending, sig ∉ w.set)
      (hd : p.inbox.hasDeliverable = false) (hlate : expired now w.deadline = false) :
      Waited now w p (p.goto (.blocked (.waitAny w) (p.listen .signal w.deadline)), [])

/-- **A turn of a wait** is all that it can be. -/
theorem waited (now : Nat) (w : AnyWait) (p : Process) : p.Waited now w (p.waitAny now w) := by
  unfold waitAny
  split
  · next he => exact .ended he
  next he =>
  split
  · next hst => exact .stopped hst
  next hst =>
  have hn : p.status = .normal := status_eq_normal (by simpa using he) (by simpa using hst)
  cases hs : (p.inbox.pending ∩ w.set).first? with
  | some sig =>
    simp only [Inbox.takePendingIn, Inbox.takeFirst, hs]
    exact .took hn hs
  | none =>
    have hl : ∀ sig ∈ p.inbox.pending, sig ∉ w.set := fun sig hp hw =>
      SignalSet.not_mem_of_first?_eq_none hs sig (SignalSet.mem_inter.2 ⟨hp, hw⟩)
    simp only [Inbox.takePendingIn, Inbox.takeFirst, hs]
    split
    · next hd =>
      split
      · next hb => exact .interrupted hn hl hd hb
      · next hb => exact .serves hn hl hd (by simpa using hb)
    · next hd =>
      rw [Bool.not_eq_true] at hd
      split
      · next hlate => exact .expired hn hl hd hlate
      · next hlate => exact .blocked hn hl hd (by simpa using hlate)

/-! ## Going on after blocking -/

/-- **What becomes of what blocks**: it looks again, its time is up, or it blocks on. -/
inductive Awoken (now : Nat) (y : Listener) (p : Process) : Loop → Process → Prop
  | looks {l : Loop} : Awoken now y p l (p.goto (.loop l))
  | left {w : AnyWait} (hn : p.notified y = false) (hlate : expired now y.deadline = true) :
      Awoken now y p (.waitAny w) (p.leaveWait w (.ok (.taken none)))
  | slept {d : Option Nat} (hn : p.notified y = false) (hlate : expired now y.deadline = true) :
      Awoken now y p (.sleep d) (p.answer (.ok .done))
  | rests {l : Loop} (hn : p.notified y = false) (hlate : expired now y.deadline = false) :
      Awoken now y p l p

/-- **What becomes of who is blocked** is all that it can be. -/
theorem awoken (now : Nat) (l : Loop) (y : Listener) (p : Process) :
    p.Awoken now y l (p.awaken now l y) := by
  unfold awaken
  split
  · exact .looks
  next hn =>
  rw [Bool.not_eq_true] at hn
  split
  · next hlate =>
    cases l with
    | waitAny w => exact .left hn hlate
    | sleep d => exact .slept hn hlate
    | check | suspend | wait4 => exact .looks
  · next hlate => exact .rests hn (by simpa using hlate)

/-- **A process that cannot go on stays as it is.** -/
theorem step_of_not_isRunnable {t : Task} (ht : p.task = some t)
    (hnot : p.isRunnable now = false) : p.step now pid t = (p, []) := by
  obtain ⟨frames, c, root⟩ := t
  cases c with
  | idle => rfl
  | blocked l y =>
    obtain ⟨hn, hlate⟩ : p.notified y = false ∧ expired now y.deadline = false := by
      simpa [isRunnable, ht] using hnot
    simp only [step, awaken, hn, hlate, Bool.false_eq_true, if_false]
  | _ => simp [isRunnable, ht] at hnot

end Process

end PosixSignals
