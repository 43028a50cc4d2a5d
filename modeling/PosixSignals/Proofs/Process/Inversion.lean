import PosixSignals.Proofs.Process.Turn

/-!
# What a step of a process can be

The step function inverted: from a sound context, a step that concerns the
process alone is a turn, and leads to a context that the relation between
contexts allows. The cases follow the control of the task and, where a
reply is handed on, the frame that takes it.
-/

namespace PosixSignals

namespace Process

variable {p q : Process} {pid : Pid} {now : Nat} {fs : List Frame} {c : Control} {m : SignalSet}

/-! ## Calls on the process itself -/

/-- A new disposition leaves everything but the table and the counter. -/
theorem changeDisposition_keeps (sig : Signal) (new : Option (Disposition Handler)) :
    (p.changeDisposition sig new).2.status = p.status ∧
      (p.changeDisposition sig new).2.inbox = p.inbox ∧
      (p.changeDisposition sig new).2.context? = p.context? := by
  rcases new with _ | _ | _ | a <;> exact ⟨rfl, rfl, rfl⟩

/-- A change of a disposition answers with the one that was there. -/
theorem own_changeDisposition {sig : Signal} {new : Option (Disposition Handler)}
    {events : List Event} (hi : c.isCall = true) (hm : c.maskChange? = none)
    (hc : p.context? = some ⟨fs, c, m⟩) (he : ∀ e ∈ events, e.isEntry = false) :
    p.Own pid ⟨fs, c, m⟩ ((p.changeDisposition sig new).2.answer
      (.ok (.disposition (p.changeDisposition sig new).1)), events) := by
  obtain ⟨hs, hin, hcx⟩ := p.changeDisposition_keeps sig new
  exact own_same hs hin he (by simp [hcx, hc]; rfl) (.answer hi hm)

/-- So does a `sigaction`, unless it is refused. -/
theorem own_sigaction {number : Nat} {new : Option (Disposition Handler)}
    (hc : p.context? = some ⟨fs, .execute (.sigaction number new), m⟩) :
    p.Own pid ⟨fs, .execute (.sigaction number new), m⟩ (p.sigaction number new) := by
  unfold sigaction
  split
  · exact own_answer rfl rfl hc _
  · refine own_changeDisposition rfl rfl hc fun e he => ?_
    split at he
    · rw [List.mem_singleton.1 he]
      rfl
    · simp at he

/-- **A change of the mask** answers with the mask that was there. -/
theorem own_changeMask {how : MaskChange} {set : SignalSet}
    (hm : c.maskChange? = some (how, set)) (hc : p.context? = some ⟨fs, c, m⟩) :
    p.Own pid ⟨fs, c, m⟩ (Process.answer { p with inbox := p.inbox.changeMask how set }
      (.ok (.set p.inbox.blocked)), []) := by
  obtain rfl := blocked_of_context? hc
  exact own_mask _ rfl rfl (by simp) (by simp [context?_inbox, hc]; rfl) (.changeMask hm)

/-- A `sigprocmask` changes the mask, or only asks for it, or is refused. -/
theorem own_sigprocmask {how : Nat} {set : Option SignalSet}
    (hc : p.context? = some ⟨fs, .execute (.sigprocmask how set), m⟩) :
    p.Own pid ⟨fs, .execute (.sigprocmask how set), m⟩ (p.sigprocmask how set, []) := by
  unfold sigprocmask
  cases set with
  | none => exact own_answer rfl rfl hc _
  | some set =>
    cases hh : MaskChange.ofNumber? how with
    | none => exact own_answer rfl (by simp [Control.maskChange?, hh]) hc _
    | some change => exact own_changeMask (by simp [Control.maskChange?, hh]) hc

/-- An `exit` marks the end of its caller. -/
theorem own_exitCall {code : Int} (hc : p.context? = some ⟨fs, .execute (.exit code), m⟩) :
    p.Own pid ⟨fs, .execute (.exit code), m⟩ (p.exitCall pid code) := by
  unfold exitCall
  cases he : p.exit pid (.ofExitCode code) with
  | none => exact own_answer rfl rfl hc _
  | some r =>
    have hd := (shift_of_exit he).disturbed
    have hq := (shift_of_exit he).quiet
    obtain ⟨-, rfl⟩ := exit_eq_some.1 he
    exact ⟨⟨id, hd.isExited, .quiet ⟨hq.enters, hq.pending⟩⟩, _,
      by simp [orStay, (context?_congr hd.task hd.blocked).trans hc]; rfl, .answer rfl rfl⟩

/-- The caller of a `wait4` is refused, or begins to wait. -/
theorem own_wait4 {selector : Int} {options : BitVec 32}
    (hc : p.context? = some ⟨fs, .execute (.wait4 selector options), m⟩) :
    p.Own pid ⟨fs, .execute (.wait4 selector options), m⟩ (p.wait4 selector options) := by
  have hrefuse : ∀ e events, (∀ e ∈ events, e.isEntry = false) →
      p.Own pid ⟨fs, .execute (.wait4 selector options), m⟩ (p.refuse e, events) :=
    fun e events he => own_same rfl rfl he (by simp [refuse, hc]; rfl) (.answer rfl rfl)
  unfold wait4
  split
  · exact hrefuse _ _ (by simp [Event.isEntry])
  split
  · exact hrefuse _ _ (by simp)
  split
  · exact hrefuse _ _ (by simp [Event.isEntry])
  · exact own_same rfl rfl (by simp) (by simp [hc]; rfl) .beginWait4

/-! ## Calls to the engine -/

/-- **A construct of the engine begins.** -/
theorem own_engage {call : EngineCall Handler}
    (hc : p.context? = some ⟨fs, .perform (.engine call), m⟩) :
    p.Own pid ⟨fs, .perform (.engine call), m⟩ (p.engage now call) := by
  cases call with
  | checkPoint => exact own_same rfl rfl (by simp) (by simp [hc]) .beginCheck
  | suspend mask => exact own_beginSuspend rfl rfl hc rfl
  | sleep timeout => exact own_beginSleep rfl rfl hc timeout
  | waitAny set timeout => exact own_beginWaitAny rfl rfl hc set timeout
  | changeMask how set => exact own_changeMask rfl hc
  | pending => exact own_answer rfl rfl hc _
  | changeDisposition sig new => exact own_changeDisposition rfl rfl hc (by simp)
  | deliver sig action =>
    obtain ⟨run, rest, mask, pending, hrun, hev, hcx, hst, hin⟩ := deliver_spec sig
      { handler := ⟨p.installs, action.handler⟩, mask := action.mask, flags := action.flags }
      (show Process.context? { p with installs := p.installs + 1 } = some _ from hc)
    have ho : p.outright? = some run.signal := hrun ▸ outright?_of_context? hc
    exact ⟨⟨fun h => hin ▸ h.changeMask _ _, fun h => hst ▸ h,
      .outright run mask pending ho (hin ▸ fun _ h => h) hev⟩, _, hcx, .deliver hrun⟩

/-! ## Routines -/

/-- A handler goes on with what it has left to do, or returns. -/
theorem own_proceed (hf : TopIs Frame.isBody fs) (hc : p.context? = some ⟨fs, .proceed, m⟩) :
    p.Own pid ⟨fs, .proceed, m⟩ (p.proceed fs) := by
  cases fs with
  | nil => exact absurd hf not_topIs_nil
  | cons f fs =>
    cases f <;> simp [Frame.isBody] at hf
    case body run keep rest =>
    cases rest with
    | nil => exact own_same rfl rfl (by simp [Event.isEntry]) (by simp [hc]) .leave
    | cons i rest => exact own_same rfl rfl (by simp) (by simp [hc]) .next

/-- **A routine asks for something.** -/
theorem own_perform {request : Request Handler}
    (hf : TopIs Frame.isRoutine fs) (hc : p.context? = some ⟨fs, .perform request, m⟩) :
    p.Own pid ⟨fs, .perform request, m⟩ (p.perform now fs request) := by
  cases request with
  | system call => exact own_same rfl rfl (by simp) (by simp [hc]) .call
  | engine call => exact own_engage hc
  | panic => exact own_same rfl rfl (by simp) (by simp [hc]) .panic
  | fail e =>
    cases fs with
    | nil => exact absurd hf not_topIs_nil
    | cons f fs =>
      cases f <;> simp [Frame.isRoutine] at hf
      case main keep =>
        exact own_same rfl rfl (by simp [Event.isEntry]) (by simp [hc]) .failMain
      case body run keep rest =>
        exact own_same rfl rfl (by simp [Event.isEntry]) (by simp [hc]) .failBody

/-! ## A frame takes a reply -/

section Accommodate

variable {r : Reply}

/-- A handler is back, and the mask with it. -/
theorem own_finishDelivery {sig : Signal} {action : Action Installed} {saved : SignalSet}
    (hc : p.context? = some ⟨.delivery sig action saved :: fs, .reply r, m⟩) :
    p.Own pid ⟨.delivery sig action saved :: fs, .reply r, m⟩
      (p.pop.finishDelivery sig action saved r, []) := by
  have hp : (p.pop.restore saved).context? = some ⟨fs, .reply r, saved \ .uncatchable⟩ := by
    simp [hc]
  unfold finishDelivery
  cases r with
  | error e => exact own_mask saved rfl rfl (by simp) (by simp [hp]; rfl) .delivered
  | ok v =>
    dsimp only
    split
    · exact own_mask saved rfl rfl (by simp)
        (by simpa using ⟨_, (context?_congr rfl rfl).trans hp, rfl, rfl, rfl⟩) .delivered
    · exact own_mask saved rfl rfl (by simp) (by simp [hp]; rfl) .delivered

/-- A suspension is over, with the old mask, or blocks under its own. -/
theorem own_finishSuspend {saved : SignalSet} {seen : Nat}
    (hc : p.context? = some ⟨.suspended saved seen :: fs, .reply r, m⟩) :
    p.Own pid ⟨.suspended saved seen :: fs, .reply r, m⟩
      (p.pop.finishSuspend saved seen r, []) := by
  have hp : p.pop.context? = some ⟨fs, .reply r, m⟩ := by simp [hc]
  unfold finishSuspend
  split
  · exact own_mask saved rfl rfl (by simp) (by simp [hp]; rfl) .suspendOver
  · exact own_mask saved rfl rfl (by simp) (by simp [hp]; rfl) .suspendOver
  split
  · have hp' : Process.context? { p.pop with continued := false } = p.pop.context? := rfl
    exact own_mask saved rfl rfl (by simp) (by simp [hp', hp]; rfl) .suspendOver
  · exact own_same rfl rfl (by simp) (by simp [hc]; rfl) .suspendBlock

/-- A sleep is over, or blocks. -/
theorem own_finishSleep {deadline : Option Nat} {seen : Nat}
    (hc : p.context? = some ⟨.asleep deadline seen :: fs, .reply r, m⟩) :
    p.Own pid ⟨.asleep deadline seen :: fs, .reply r, m⟩
      (p.pop.finishSleep now deadline seen r, []) := by
  have hreply : ∀ r', p.Own pid ⟨.asleep deadline seen :: fs, .reply r, m⟩
      (p.pop.answer r', []) := fun r' =>
    own_same rfl rfl (by simp) (by simp [hc]; rfl) .sleepReply
  unfold finishSleep
  split
  · exact hreply _
  · exact hreply _
  split
  · exact hreply _
  · exact own_same rfl rfl (by simp) (by simp [hc]; rfl) .sleepBlock

/-- **A reply comes to a frame.** -/
theorem own_accommodate {f : Frame} (hc : p.context? = some ⟨f :: fs, .reply r, m⟩) :
    p.Own pid ⟨f :: fs, .reply r, m⟩ (p.pop.accommodate now f r) := by
  have hsame : ∀ {c events}, (∀ e ∈ events, e.isEntry = false) →
      Context.Step p (p.pop.goto c) ⟨f :: fs, .reply r, m⟩ ⟨fs, c, m⟩ →
      p.Own pid ⟨f :: fs, .reply r, m⟩ (p.pop.goto c, events) :=
    fun he h => own_same rfl rfl he (by simp [hc]) h
  cases f with
  | main keep =>
    simp only [accommodate]
    split
    · exact hsame (by simp [Event.isEntry]) .mainFinish
    · exact hsame (by simp [Event.isEntry]) .mainIdle
  | body run keep rest =>
    simp only [accommodate]
    split
    · exact hsame (by simp [Event.isEntry]) .bodyUnwind
    · exact own_same rfl rfl (by simp [Event.isEntry]) (by simp [hc]) .bodyNext
  | delivery sig action saved => exact own_finishDelivery hc
  | round =>
    cases r with
    | ok v => exact hsame (by simp) .roundNext
    | error e => exact hsame (by simp) .roundFail
  | callBody call => exact own_same rfl rfl (by simp [Event.isEntry]) (by simp [hc]) .conclude
  | callExit result =>
    cases r with
    | ok v => exact hsame (by simp) (.exitCall rfl rfl)
    | error e => exact hsame (by simp) .exitError
  | waiting w =>
    cases r with
    | ok v => exact hsame (by simp) .served
    | error e => exact own_mask _ rfl rfl (by simp) (by simp [hc]) .serveFail
  | suspended saved seen => exact own_finishSuspend hc
  | asleep deadline seen => exact own_finishSleep hc

end Accommodate

/-! ## The whole step -/

/-- **A panic comes to a frame**, which puts back the mask that it has saved, if it has. -/
theorem own_unwind {f : Frame} (hc : p.context? = some ⟨f :: fs, .panic, m⟩) :
    p.Own pid ⟨f :: fs, .panic, m⟩ (p.pop.unwind f, []) := by
  cases f with
  | delivery _ _ saved | waiting w | suspended saved =>
    exact own_mask _ rfl rfl (by simp) (by simp [unwind, hc]; rfl) .unwind
  | main | body | round | callBody | callExit | asleep =>
    exact own_same rfl rfl (by simp) (by simp [unwind, hc]; rfl) .unwind

/-- **A step of the task is a turn.** What concerns other processes too is left
to the system. -/
theorem own_step {t : Task} (ht : p.task = some t) (hbox : p.inbox.Sound)
    (hfits : t.control.Fits t.frames) (hl : t.control.isShared = false) :
    p.Own pid ⟨t.frames, t.control, p.inbox.blocked⟩ (p.step now pid t) := by
  obtain ⟨fs, c, root⟩ := t
  have hc : p.context? = some ⟨fs, c, p.inbox.blocked⟩ := context?_eq_some.2 ⟨root, ht, rfl⟩
  cases c with
  | idle => exact own_same rfl rfl (by simp) hc (.stay rfl)
  | execute call => simp [Control.isShared] at hl
  | finish e => simp [Control.isShared] at hl
  | perform request => exact own_perform hfits hc
  | proceed => exact own_proceed hfits hc
  | loop l =>
    cases l with
    | check delivered => exact own_check hbox hc
    | waitAny w => exact own_waitAny hbox hc
    | suspend saved => exact own_suspend hc
    | sleep deadline => exact own_sleep hc
    | wait4 selector noHang => simp [Control.isShared] at hl
  | blocked l listener => exact own_awaken hc
  | reply r =>
    cases fs with
    | nil => exact absurd rfl hfits
    | cons f fs => exact own_accommodate hc
  | panic =>
    cases fs with
    | nil => exact own_same rfl rfl (by simp) (by simp [hc]) .unwound
    | cons f fs => exact own_unwind hc

end Process

end PosixSignals
