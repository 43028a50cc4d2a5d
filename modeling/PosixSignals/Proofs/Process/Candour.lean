import PosixSignals.Proofs.Process.Disturbance
import PosixSignals.Proofs.Process.Search

/-!
# Candour

`BREAK` is taken at its word: a main routine that ends with it marks no end of
its own, since whoever said `BREAK` has marked the end of the process before.
That holds for as long as nobody makes it up. A process is candid if it has
ended whenever `BREAK` is on its way in it, or kept as the result of a call.
It says so itself at its check points and waits only once it has ended, every
frame hands on what it was handed, and so a step can put an end to candour in
one way only: a routine fails with `BREAK` of its own accord.
-/

namespace PosixSignals

/-- Whether `BREAK` is handed on now, or ends the main routine. -/
def Control.bidsExit : Control → Bool
  | .reply r => mustExit r
  | .finish (.error .mustExit) => true
  | _ => false

/-- Whether a frame keeps `BREAK` as the result of its call. -/
def Frame.bidsExit : Frame → Bool
  | .callExit r => mustExit r
  | _ => false

/-- Whether `BREAK` is anywhere in a task. -/
def Task.bidsExit (t : Task) : Bool := t.control.bidsExit || t.frames.any Frame.bidsExit

/-- Whether a routine is to fail with `BREAK` of its own accord. -/
def Control.feigns : Control → Bool
  | .perform (.fail .mustExit) => true
  | _ => false

/-- Other errors are not `BREAK`. -/
theorem mustExit_error {e : Errno} (h : e ≠ .mustExit) : mustExit (.error e) = false := by
  cases e <;> first | rfl | exact absurd rfl h

/-- No result becomes `BREAK` on its way to the caller. -/
theorem mustExit_handOver {call : SystemCall Handler} {r : Reply} (h : mustExit r = false) :
    mustExit (call.handOver (call.conclude r)) = false := by
  have hconclude : mustExit (call.conclude r) = false := by
    unfold SystemCall.conclude
    split <;> first | rfl | exact h
  unfold SystemCall.handOver
  split
  · rfl
  · exact hconclude

namespace Process

variable {p q : Process} {pid : Pid} {now : Nat} {c : Control} {f : Frame} {r : Reply}
  {sig : Signal} {fs : List Frame} {t : Task}

/-- **A process is candid** if it has ended whenever `BREAK` is in its task. -/
def Candid (p : Process) : Prop :=
  ∀ t, p.task = some t → t.bidsExit = true → p.status.isExited = true

/-- `BREAK` is nowhere in the task. -/
def Unbidden (p : Process) : Prop := ∀ t, p.task = some t → t.bidsExit = false

/-- What has ended may be told so. -/
theorem candid_of_isExited (h : p.status.isExited = true) : p.Candid := fun _ _ _ => h

/-- What is told nothing is candid. -/
theorem Unbidden.candid (h : p.Unbidden) : p.Candid := fun t ht hb => by
  rw [h t ht] at hb
  cases hb

/-- What has not ended is told nothing, if it is candid. -/
theorem Candid.unbidden (h : p.Candid) (he : p.status.isExited = false) : p.Unbidden :=
  fun t ht => by
    cases hb : t.bidsExit with
    | false => rfl
    | true => exact absurd (h t ht hb) (by simp [he])

/-- Others do not put `BREAK` into a task, and what has ended stays ended. -/
theorem Candid.disturbed (h : p.Candid) (hd : p.Disturbed q) : q.Candid := fun t ht hb =>
  hd.isExited (h t (hd.task ▸ ht) hb)

/-! ## Moving on without `BREAK` -/

/-- Whether `BREAK` is in a task is read off the task alone. -/
theorem Unbidden.congr (h : p.Unbidden) (ht : q.task = p.task) : q.Unbidden := fun t hq =>
  h t (ht ▸ hq)

/-- To move on without `BREAK` tells nothing. -/
theorem Unbidden.goto (h : p.Unbidden) (hc : c.bidsExit = false) : (p.goto c).Unbidden := by
  intro t ht
  obtain ⟨t₀, ht₀, rfl⟩ := Option.map_eq_some_iff.1 ht
  have hframes := (Bool.or_eq_false_iff.1 (h t₀ ht₀)).2
  exact Bool.or_eq_false_iff.2 ⟨hc, hframes⟩

/-- To go deeper without `BREAK` tells nothing. -/
theorem Unbidden.enter (h : p.Unbidden) (hf : f.bidsExit = false) (hc : c.bidsExit = false) :
    (p.enter f c).Unbidden := by
  intro t ht
  obtain ⟨t₀, ht₀, rfl⟩ := Option.map_eq_some_iff.1 ht
  have hframes := (Bool.or_eq_false_iff.1 (h t₀ ht₀)).2
  exact Bool.or_eq_false_iff.2 ⟨hc, by rw [List.any_cons, hf, hframes]; rfl⟩

/-- To come back from a frame tells nothing. -/
theorem Unbidden.pop (h : p.Unbidden) : p.pop.Unbidden := by
  intro t ht
  obtain ⟨t₀, ht₀, rfl⟩ := Option.map_eq_some_iff.1 ht
  obtain ⟨hc, hframes⟩ := Bool.or_eq_false_iff.1 (h t₀ ht₀)
  refine Bool.or_eq_false_iff.2 ⟨hc, List.any_eq_false.2 fun g hg => ?_⟩
  exact List.any_eq_false.1 hframes g (List.mem_of_mem_tail hg)

/-- Nor does a reply other than `BREAK`. -/
theorem Unbidden.answer (h : p.Unbidden) (hr : mustExit r = false) : (p.answer r).Unbidden :=
  h.goto hr

/-- Nor does one that ends a wait. -/
theorem Unbidden.leaveWait (h : p.Unbidden) {w : AnyWait} (hr : mustExit r = false) :
    (p.leaveWait w r).Unbidden :=
  Unbidden.answer (h.congr rfl) hr

/-- A default action marks the end and leaves the task as it is. -/
theorem Unbidden.act (h : p.Unbidden) (action : DefaultAction) :
    (p.act pid sig action).1.Unbidden :=
  h.congr (shift_act sig action).disturbed.task

/-- A handler starts without it. -/
theorem Unbidden.deliver (h : p.Unbidden) (action : Action Installed) :
    (p.deliver sig action).1.Unbidden :=
  Unbidden.enter (Unbidden.enter (h.congr rfl) rfl rfl) rfl rfl

/-- Marking an end leaves a process ended, whether or not it was. -/
theorem isExited_of_exit {w : WaitStatus} :
    (p.orStay (p.exit pid w)).1.status.isExited = true := by
  cases hst : p.status <;> simp [orStay, exit, Status.exit?, hst, Status.isExited, wake]

/-- What is candid stays so by moving on without `BREAK`. -/
theorem Candid.goto (h : p.Candid) (hc : c.bidsExit = false) : (p.goto c).Candid := by
  cases he : p.status.isExited with
  | true => exact candid_of_isExited he
  | false => exact ((h.unbidden he).goto hc).candid

/-- It stays so by going deeper without it. -/
theorem Candid.enter (h : p.Candid) (hf : f.bidsExit = false) (hc : c.bidsExit = false) :
    (p.enter f c).Candid := by
  cases he : p.status.isExited with
  | true => exact candid_of_isExited he
  | false => exact ((h.unbidden he).enter hf hc).candid

/-! ## What a process does that has not ended -/

section Step

variable (h : p.Unbidden)
include h

/-- A check point hands out `BREAK` only to who has ended. -/
theorem unbidden_check {delivered : Bool} (he : p.status.isExited = false) :
    (p.check pid delivered).1.Unbidden := by
  have hchecked := p.checked pid delivered
  generalize p.check pid delivered = r at hchecked ⊢
  cases hchecked with
  | ended h => simp [he] at h
  | stopped => exact h.goto rfl
  | passed => exact h.answer rfl
  | @took sig _ _ _ htook =>
    have hwithout : (p.without sig).Unbidden := h.congr rfl
    cases htook with
    | ignored => exact hwithout.goto rfl
    | default => exact (hwithout.act _).goto rfl
    | @entered action =>
      have hround : ((p.without sig).enter .round .proceed).Unbidden := hwithout.enter rfl rfl
      exact hround.deliver action

/-- A wait hands out `BREAK` only to who has ended. -/
theorem unbidden_waitAny {w : AnyWait} (he : p.status.isExited = false) :
    (p.waitAny now w).1.Unbidden := by
  have hwaited := p.waited now w
  generalize p.waitAny now w = r at hwaited ⊢
  cases hwaited with
  | ended h => simp [he] at h
  | interrupted | expired => exact h.leaveWait rfl
  | stopped | blocked => exact h.goto rfl
  | serves => exact h.enter rfl rfl
  | @took sig =>
    have hwithout : (p.without sig).Unbidden := h.congr rfl
    exact hwithout.leaveWait rfl

/-- To be woken is not to be told. -/
theorem unbidden_awaken {l : Loop} {listener : Listener} :
    (p.awaken now l listener).Unbidden := by
  have hawoken := p.awoken now l listener
  generalize p.awaken now l listener = q at hawoken ⊢
  cases hawoken with
  | looks => exact h.goto rfl
  | left => exact h.leaveWait rfl
  | slept => exact h.answer rfl
  | rests => exact h

/-- Constructs of the engine begin without it. -/
theorem unbidden_engage (call : EngineCall Handler) : (p.engage now call).1.Unbidden := by
  cases call with
  | checkPoint | sleep => exact h.goto rfl
  | suspend | waitAny => exact Unbidden.goto (h.congr rfl) rfl
  | changeMask => exact Unbidden.answer (h.congr rfl) rfl
  | pending => exact h.answer rfl
  | changeDisposition sig new =>
    have hsame : (p.changeDisposition sig new).2.task = p.task := by
      rcases new with _ | _ | _ | a <;> rfl
    exact (h.congr hsame).answer rfl
  | deliver => exact Unbidden.deliver (h.congr rfl) _

/-- A handler that goes on, or returns, hands on none. -/
theorem unbidden_proceed : (p.proceed fs).1.Unbidden := by
  unfold proceed
  split
  · exact h.pop.answer rfl
  · exact h.pop.enter rfl rfl
  · exact h.answer rfl

/-- **What a routine begins**, unless it makes up an end. -/
theorem unbidden_perform {request : Request Handler}
    (hf : (Control.perform request).feigns = false) : (p.perform now fs request).1.Unbidden := by
  cases request with
  | system call => exact h.enter rfl rfl
  | engine call => exact unbidden_engage h call
  | panic => exact h.goto rfl
  | fail e =>
    have hne : e ≠ .mustExit := by
      rintro rfl
      cases hf
    have hfinish : (Control.finish (.error e)).bidsExit = false := by
      cases e <;> first | rfl | exact absurd rfl hne
    simp only [perform]
    split
    · exact h.pop.answer (mustExit_error hne)
    · exact h.pop.goto hfinish

/-- **A frame hands on what it is handed**, or what it keeps. -/
theorem unbidden_accommodate (hr : mustExit r = false) (hf : f.bidsExit = false) :
    (p.accommodate now f r).1.Unbidden := by
  cases f with
  | main keep =>
    simp only [accommodate, hr, Bool.false_and]
    exact h.goto rfl
  | body run keep rest =>
    simp only [accommodate, hr, Bool.false_and]
    exact h.enter rfl rfl
  | delivery sig action saved =>
    have hrestore : (p.restore saved).Unbidden := h.congr rfl
    cases r with
    | error e => exact hrestore.answer hr
    | ok v =>
      simp only [accommodate, finishDelivery]
      split
      · exact Unbidden.answer (hrestore.congr rfl) rfl
      · exact hrestore.answer rfl
  | round =>
    cases r with
    | ok v => exact h.goto rfl
    | error e => exact h.answer hr
  | callBody call => exact h.enter (mustExit_handOver hr) rfl
  | callExit result =>
    cases r with
    | ok v => exact h.answer hf
    | error e => exact h.answer hr
  | waiting w =>
    cases r with
    | ok v => exact h.goto rfl
    | error e => exact h.leaveWait hr
  | suspended saved seen =>
    simp only [accommodate, finishSuspend]
    split
    · exact Unbidden.answer (h.congr rfl) hr
    · exact Unbidden.answer (h.congr rfl) rfl
    split
    · exact Unbidden.answer (h.congr rfl) rfl
    · exact h.goto rfl
  | asleep deadline seen =>
    simp only [accommodate, finishSleep]
    split
    · exact h.answer hr
    · exact h.answer rfl
    split
    · exact h.answer rfl
    · exact h.goto rfl

/-- **A step keeps `BREAK` out of a task**, if the process has not ended and its routine
does not make it up. -/
theorem Unbidden.step (ht : p.task = some t) (he : p.status.isExited = false)
    (hf : t.control.feigns = false) : (p.step now pid t).1.Unbidden := by
  obtain ⟨fs, c, root⟩ := t
  obtain ⟨hc, hframes⟩ := Bool.or_eq_false_iff.1 (h _ ht)
  cases c with
  | idle | execute | finish => exact h
  | perform request => exact unbidden_perform h hf
  | proceed => exact unbidden_proceed h
  | loop l =>
    cases l with
    | check delivered => exact unbidden_check h he
    | waitAny w => exact unbidden_waitAny h he
    | suspend | sleep => exact h.enter rfl rfl
    | wait4 => exact h
  | blocked l listener => exact unbidden_awaken h
  | reply r =>
    cases fs with
    | nil => exact h.goto rfl
    | cons f fs =>
      rw [List.any_cons] at hframes
      exact unbidden_accommodate h.pop hc (Bool.or_eq_false_iff.1 hframes).1
  | panic =>
    cases fs with
    | nil => exact h.goto rfl
    | cons f fs => cases f <;> exact h.pop.congr rfl

end Step

end Process

end PosixSignals
