import PosixSignals.Process.Step
import PosixSignals.Proofs.Task.Stack

/-!
# What one step does to a context

A process's own step as a relation on contexts: which frames it puts on
the stack or takes off it, what goes on next, and under which mask. The
relation is an inversion of the step function, one case for each thing a
step can be, with the conditions that a later argument reads: a check
point delivers only to a normal process and only what is pending and not
blocked. A call that concerns other processes too is a step of the
system; what it does to its caller's context is in the relation as well.
-/

namespace PosixSignals

namespace Control

/-- Whether the body of a call, or a call to the engine, starts now. -/
def isCall : Control → Bool
  | .execute _ | .perform (.engine _) => true
  | _ => false

/-- The change of mask that is made now, if one is. -/
def maskChange? : Control → Option (MaskChange × SignalSet)
  | .execute (.sigprocmask how (some set)) => (MaskChange.ofNumber? how).map (·, set)
  | .perform (.engine (.changeMask how set)) => some (how, set)
  | _ => none

/-- The temporary mask of a suspension that starts now, if one does. -/
def suspension? : Control → Option SignalSet
  | .execute (.sigsuspend mask) | .perform (.engine (.suspend mask)) => some mask
  | _ => none

/-- The signal whose handler the program asks the engine to run outright,
not at a check point and not because the signal is pending. -/
def outright? : Control → Option Signal
  | .perform (.engine (.deliver sig _)) => some sig
  | _ => none

theorem maskChange?_of_isResting {c : Control} (h : c.isResting = true) : c.maskChange? = none := by
  cases c <;> first | rfl | simp [isResting] at h

/-- Whether the next step concerns other processes too. -/
def isShared : Control → Bool
  | .execute _ | .loop (.wait4 ..) | .finish _ => true
  | _ => false

/-- What starts a call stands on a routine or on the call itself. -/
theorem hostsWait_of_isCall {c : Control} {fs : List Frame} (hc : c.isCall = true)
    (hf : c.Fits fs) : TopIs Frame.hostsWait fs := by
  cases fs with
  | nil => cases c <;> simp [isCall, Fits] at hc hf
  | cons f fs => cases c <;> cases f <;> simp_all [isCall, Fits, Frame.hostsWait, Frame.isRoutine]

/-- A call that starts now has nothing to put back yet. -/
theorem saved?_of_isCall {c : Control} (hc : c.isCall = true) : c.saved? = none := by
  cases c <;> first | rfl | simp [isCall] at hc

/-- A change of mask is a call. -/
theorem isCall_of_maskChange? {c : Control} {x : MaskChange × SignalSet}
    (h : c.maskChange? = some x) : c.isCall = true := by
  unfold maskChange? at h
  split at h
  · rfl
  · rfl
  · simp at h

end Control

namespace Context

/-- **One step of a process, as far as its context goes.** The process is `p`
before the step and `q` after it. -/
inductive Step (p q : Process) : Context → Context → Prop
  /-- Idle, or blocked with nothing to wake it. -/
  | stay {fs c m} (hc : c.isResting = true) : Step p q ⟨fs, c, m⟩ ⟨fs, c, m⟩
  | call {fs call m} :
      Step p q ⟨fs, .perform (.system call), m⟩ ⟨.callBody call :: fs, .execute call, m⟩
  | panic {fs m} : Step p q ⟨fs, .perform .panic, m⟩ ⟨fs, .panic, m⟩
  | failBody {run keep rest fs e m} :
      Step p q ⟨.body run keep rest :: fs, .perform (.fail e), m⟩ ⟨fs, .reply (.error e), m⟩
  | failMain {keep fs e m} :
      Step p q ⟨.main keep :: fs, .perform (.fail e), m⟩ ⟨fs, .finish (.error e), m⟩
  /-- A call that answers at once and leaves the mask alone. -/
  | answer {fs c m r} (hc : c.isCall = true) (hm : c.maskChange? = none) :
      Step p q ⟨fs, c, m⟩ ⟨fs, .reply r, m⟩
  | changeMask {fs c m how set} (hm : c.maskChange? = some (how, set)) :
      Step p q ⟨fs, c, m⟩ ⟨fs, .reply (.ok (.set m)), how.apply m set \ .uncatchable⟩
  | beginSuspend {fs c m mask} (hc : c.isCall = true) (hm : c.maskChange? = none)
      (hs : c.suspension? = some mask) :
      Step p q ⟨fs, c, m⟩ ⟨fs, .loop (.suspend m), mask \ .uncatchable⟩
  | beginWait {fs c m w} (hc : c.isCall = true) (hm : c.maskChange? = none) (hw : w.saved = m) :
      Step p q ⟨fs, c, m⟩ ⟨fs, .loop (.waitAny w), (m ∪ w.set) \ .uncatchable⟩
  | beginSleep {fs c m d} (hc : c.isCall = true) (hm : c.maskChange? = none) :
      Step p q ⟨fs, c, m⟩ ⟨fs, .loop (.sleep d), m⟩
  | beginWait4 {fs m selector options noHang} :
      Step p q ⟨fs, .execute (.wait4 selector options), m⟩
        ⟨fs, .loop (.wait4 selector noHang), m⟩
  | beginCheck {fs m} :
      Step p q ⟨fs, .perform (.engine .checkPoint), m⟩ ⟨fs, .loop (.check false), m⟩
  /-- A handler that the program asks the engine to run. -/
  | deliver {fs sig handler m run rest} {action : Action Installed} (hrun : run.signal = sig) :
      Step p q ⟨fs, .perform (.engine (.deliver sig handler)), m⟩
        ⟨.body run false rest :: .delivery sig action m :: fs, .proceed,
          (m ∪ action.blockedDuring sig) \ .uncatchable⟩
  | checkExited {fs d m} (he : q.status.isExited = true) :
      Step p q ⟨fs, .loop (.check d), m⟩ ⟨fs, .reply (.error .mustExit), m⟩
  | checkDone {fs d m} (hn : q.status = .normal)
      (hq : ∀ sig ∈ q.inbox.pending, sig ∈ q.inbox.blocked) :
      Step p q ⟨fs, .loop (.check d), m⟩ ⟨fs, .reply (.ok (.delivered d)), m⟩
  /-- A signal was dropped, or its default action carried out. -/
  | checkNext {fs d d' m} : Step p q ⟨fs, .loop (.check d), m⟩ ⟨fs, .loop (.check d'), m⟩
  | checkEnter {fs d sig action m run rest} (hn : p.status = .normal)
      (hs : sig ∈ p.inbox.pending) (hb : sig ∉ m) (hrun : run.signal = sig) :
      Step p q ⟨fs, .loop (.check d), m⟩
        ⟨.body run false rest :: .delivery sig action m :: .round :: fs, .proceed,
          (m ∪ action.blockedDuring sig) \ .uncatchable⟩
  | waitOver {fs c m w r} (hc : c = .loop (.waitAny w) ∨ ∃ l, c = .blocked (.waitAny w) l) :
      Step p q ⟨fs, c, m⟩ ⟨fs, .reply r, w.saved \ .uncatchable⟩
  | waitServe {fs m w} :
      Step p q ⟨fs, .loop (.waitAny w), m⟩ ⟨.waiting w :: fs, .loop (.check false), m⟩
  | suspendCheck {fs m saved n} :
      Step p q ⟨fs, .loop (.suspend saved), m⟩ ⟨.suspended saved n :: fs, .loop (.check false), m⟩
  | sleepCheck {fs m d n} :
      Step p q ⟨fs, .loop (.sleep d), m⟩ ⟨.asleep d n :: fs, .loop (.check false), m⟩
  | sleepOver {fs m d l} : Step p q ⟨fs, .blocked (.sleep d) l, m⟩ ⟨fs, .reply (.ok .done), m⟩
  | wait4Over {fs m selector noHang r} :
      Step p q ⟨fs, .loop (.wait4 selector noHang), m⟩ ⟨fs, .reply r, m⟩
  /-- A construct found nothing to be done. -/
  | block {fs m l x} : Step p q ⟨fs, .loop l, m⟩ ⟨fs, .blocked l x, m⟩
  | wake {fs m l x} : Step p q ⟨fs, .blocked l x, m⟩ ⟨fs, .loop l, m⟩
  | leave {run keep fs m} :
      Step p q ⟨.body run keep [] :: fs, .proceed, m⟩ ⟨fs, .reply (.ok .done), m⟩
  | next {run keep i rest fs m} :
      Step p q ⟨.body run keep (i :: rest) :: fs, .proceed, m⟩
        ⟨.body run i.keep rest :: fs, .perform i.request, m⟩
  | mainIdle {keep fs r m} : Step p q ⟨.main keep :: fs, .reply r, m⟩ ⟨fs, .idle, m⟩
  | mainFinish {keep fs r e m} : Step p q ⟨.main keep :: fs, .reply r, m⟩ ⟨fs, .finish e, m⟩
  | bodyNext {run keep rest fs r m} :
      Step p q ⟨.body run keep rest :: fs, .reply r, m⟩ ⟨.body run false rest :: fs, .proceed, m⟩
  | bodyUnwind {run keep rest fs r m} :
      Step p q ⟨.body run keep rest :: fs, .reply r, m⟩ ⟨fs, .reply r, m⟩
  | delivered {sig action saved fs r m} :
      Step p q ⟨.delivery sig action saved :: fs, .reply r, m⟩
        ⟨fs, .reply (r.map fun _ => .done), saved \ .uncatchable⟩
  | roundNext {fs v m} :
      Step p q ⟨.round :: fs, .reply (.ok v), m⟩ ⟨fs, .loop (.check true), m⟩
  | roundFail {fs e m} :
      Step p q ⟨.round :: fs, .reply (.error e), m⟩ ⟨fs, .reply (.error e), m⟩
  | conclude {call fs r m} :
      Step p q ⟨.callBody call :: fs, .reply r, m⟩
        ⟨.callExit (call.handOver (call.conclude r)) :: fs, .loop (.check false), m⟩
  | exitCall {result fs v m} (hs : q.status = p.status) (hi : q.inbox = p.inbox) :
      Step p q ⟨.callExit result :: fs, .reply (.ok v), m⟩ ⟨fs, .reply result, m⟩
  | exitError {result fs e m} :
      Step p q ⟨.callExit result :: fs, .reply (.error e), m⟩ ⟨fs, .reply (.error e), m⟩
  | served {w fs v m} :
      Step p q ⟨.waiting w :: fs, .reply (.ok v), m⟩ ⟨fs, .loop (.waitAny w), m⟩
  | serveFail {w fs e m} :
      Step p q ⟨.waiting w :: fs, .reply (.error e), m⟩
        ⟨fs, .reply (.error e), w.saved \ .uncatchable⟩
  | suspendOver {saved n fs r r' m} :
      Step p q ⟨.suspended saved n :: fs, .reply r, m⟩ ⟨fs, .reply r', saved \ .uncatchable⟩
  | suspendBlock {saved n fs r m l} :
      Step p q ⟨.suspended saved n :: fs, .reply r, m⟩ ⟨fs, .blocked (.suspend saved) l, m⟩
  | sleepReply {d n fs r r' m} :
      Step p q ⟨.asleep d n :: fs, .reply r, m⟩ ⟨fs, .reply r', m⟩
  | sleepBlock {d n fs r m l} :
      Step p q ⟨.asleep d n :: fs, .reply r, m⟩ ⟨fs, .blocked (.sleep d) l, m⟩
  | unwind {f fs m} :
      Step p q ⟨f :: fs, .panic, m⟩ ⟨fs, .panic, (f.saved?.map (· \ .uncatchable)).getD m⟩
  | unwound {m} : Step p q ⟨[], .panic, m⟩ ⟨[], .finish .panic, m⟩

variable {p q : Process} {c c' : Context}

/-! ## What a step keeps -/

/-- Every frame that a step pushes finds what it stands on. -/
theorem Step.stacked (h : Step p q c c') (hs : Stacked c.frames)
    (hf : c.control.Fits c.frames) : Stacked c'.frames := by
  cases h with
  | stay | panic | answer | changeMask | beginSuspend | beginWait | beginSleep | beginWait4
  | beginCheck | checkExited | checkDone | checkNext | waitOver | sleepOver | wait4Over | block
  | wake | unwound => exact hs
  | failBody | failMain | leave | mainIdle | mainFinish | bodyUnwind | delivered | roundNext
  | roundFail | exitCall | exitError | served | serveFail | suspendOver | suspendBlock
  | sleepReply | sleepBlock | unwind => exact hs.2
  | next | bodyNext | conclude => exact ⟨hs.1, hs.2⟩
  | call | waitServe | suspendCheck | sleepCheck => exact ⟨hf, hs⟩
  | deliver => exact ⟨rfl, hf.hostsDelivery, hs⟩
  | checkEnter => exact ⟨rfl, rfl, hf, hs⟩

/-- What goes on after a step finds what it goes on over. -/
theorem Step.fits (h : Step p q c c') (hs : Stacked c.frames)
    (hf : c.control.Fits c.frames) : c'.control.Fits c'.frames := by
  cases h with
  | stay | block | wake | checkNext => exact hf
  | call | deliver | checkEnter | waitServe | suspendCheck | sleepCheck | conclude | next
  | bodyNext | unwound => exact rfl
  | panic | unwind => trivial
  | beginCheck => exact hf.hostsCheck
  | beginWait4 =>
    obtain ⟨fs', rfl⟩ := List.head?_eq_some_iff.1 hf
    rfl
  | answer hc => exact (Control.hostsWait_of_isCall hc hf).ne_nil
  | changeMask hm =>
    exact (Control.hostsWait_of_isCall (Control.isCall_of_maskChange? hm) hf).ne_nil
  | beginSuspend hc | beginWait hc | beginSleep hc => exact Control.hostsWait_of_isCall hc hf
  | checkExited | checkDone | sleepOver | wait4Over => exact TopIs.ne_nil hf
  | waitOver hc => obtain rfl | ⟨l, rfl⟩ := hc <;> exact TopIs.ne_nil hf
  | failMain | mainIdle | mainFinish | roundNext | served | suspendBlock | sleepBlock => exact hs.1
  | failBody | leave | bodyUnwind | delivered | roundFail | exitCall | exitError | serveFail
  | suspendOver | sleepReply => exact TopIs.ne_nil hs.1

/-! ## What a step does to the masks -/

/-- **The ways in which a step changes the masks**: it saves the mask in force
and puts another in its place, or puts the last one saved back, or changes
the mask in force by a call that says so. -/
inductive MaskStep (c c' : Context) : Prop
  | kept (hc : c.control.maskChange? = none) (hb : c'.blocked = c.blocked)
      (hs : c'.saved = c.saved)
  | widened (set : SignalSet) (hc : c.control.maskChange? = none)
      (hb : c'.blocked = (c.blocked ∪ set) \ .uncatchable) (hs : c'.saved = c.blocked :: c.saved)
  | replaced (mask : SignalSet) (hc : c.control.maskChange? = none)
      (hm : c.control.suspension? = some mask) (hb : c'.blocked = mask \ .uncatchable)
      (hs : c'.saved = c.blocked :: c.saved)
  | putBack (mask : SignalSet) (hc : c.control.maskChange? = none)
      (hb : c'.blocked = mask \ .uncatchable) (hs : c.saved = mask :: c'.saved)
  | changed (how : MaskChange) (set : SignalSet) (hc : c.control.maskChange? = some (how, set))
      (hb : c'.blocked = how.apply c.blocked set \ .uncatchable) (hs : c'.saved = c.saved)

theorem Step.maskStep (h : Step p q c c') : MaskStep c c' := by
  cases h with
  | stay hr => exact .kept (Control.maskChange?_of_isResting hr) rfl rfl
  | call | panic | failBody | failMain | beginWait4 | beginCheck | checkExited | checkDone
  | checkNext | waitServe | suspendCheck | sleepCheck | sleepOver | wait4Over | block | wake
  | leave | next | mainIdle | mainFinish | bodyNext | bodyUnwind | roundNext | roundFail
  | conclude | exitCall | exitError | served | suspendBlock | sleepReply | sleepBlock | unwound =>
    exact .kept rfl rfl rfl
  | answer hc hm | beginSleep hc hm =>
    exact .kept hm rfl (by simp [saved, Control.saved?_of_isCall hc]; rfl)
  | beginWait hc hm hw =>
    exact .widened _ hm rfl (by simp [saved, Control.saved?_of_isCall hc, ← hw]; rfl)
  | beginSuspend hc hm hs =>
    exact .replaced _ hm hs rfl (by simp [saved, Control.saved?_of_isCall hc]; rfl)
  | deliver | checkEnter => exact .widened _ rfl rfl rfl
  | waitOver hc => obtain rfl | ⟨l, rfl⟩ := hc <;> exact .putBack _ rfl rfl rfl
  | delivered | serveFail | suspendOver => exact .putBack _ rfl rfl rfl
  | changeMask hm =>
    have hc := Control.saved?_of_isCall (Control.isCall_of_maskChange? hm)
    exact .changed _ _ hm rfl (by simp [saved, hc]; rfl)
  | @unwind f =>
    cases hf : f.saved? with
    | none => exact .kept rfl rfl (by simp [saved, hf])
    | some x => exact .putBack x rfl rfl (by simp [saved, hf]; rfl)

/-- **A sound context stays sound**: every mask put in force is free of `kill`
and `stop`, and every mask saved was in force. -/
theorem Step.sound (h : Step p q c c') (hc : c.Sound) : c'.Sound where
  stacked := h.stacked hc.stacked hc.fits
  fits := h.fits hc.stacked hc.fits
  blockable := by
    cases h.maskStep with
    | kept _ hb => exact hb ▸ hc.blockable
    | widened _ _ hb | replaced _ _ _ hb | putBack _ _ hb | changed _ _ _ hb =>
      exact hb ▸ SignalSet.blockable_sdiff _
  savedBlockable := by
    cases h.maskStep with
    | kept _ _ hs | changed _ _ _ _ hs => exact hs ▸ hc.savedBlockable
    | widened _ _ _ hs | replaced _ _ _ _ hs =>
      exact hs ▸ List.forall_mem_cons.2 ⟨hc.blockable, hc.savedBlockable⟩
    | putBack _ _ _ hs => exact fun m hm => hc.savedBlockable m (hs ▸ List.mem_cons_of_mem _ hm)

/-- A step that concerns others does not depend on what the process was or has
become: only check points look at that. -/
theorem Step.of_isShared (h : Step p q c c') (hc : c.control.isShared = true) (p' q' : Process) :
    Step p' q' c c' := by
  cases h with
  | stay hr => simp [Control.isResting] at hr; split at hr <;> simp [Control.isShared] at hc hr
  | answer hi hm => exact .answer hi hm
  | changeMask hm => exact .changeMask hm
  | beginSuspend hi hm hs => exact .beginSuspend hi hm hs
  | beginWait hi hm hw => exact .beginWait hi hm hw
  | beginSleep hi hm => exact .beginSleep hi hm
  | beginWait4 => exact .beginWait4
  | wait4Over => exact .wait4Over
  | block => exact .block
  | waitOver hw => obtain rfl | ⟨l, rfl⟩ := hw <;> simp [Control.isShared] at hc
  | _ => simp [Control.isShared] at hc

/-! ## The rest of the stack -/

/-- **A step looks at the top frame alone**, so it is a step of any upper part
of the stack over an unchanged rest. -/
theorem Step.within (h : Step p q c c') {f : Frame} {above fs : List Frame}
    (hfs : c.frames = f :: above ++ fs) :
    ∃ above', c'.frames = above' ++ fs ∧
      Step p q ⟨f :: above, c.control, c.blocked⟩ ⟨above', c'.control, c'.blocked⟩ := by
  cases h with
  | stay hc => exact ⟨f :: above, hfs, .stay hc⟩
  | panic => exact ⟨f :: above, hfs, .panic⟩
  | answer hc hm => exact ⟨f :: above, hfs, .answer hc hm⟩
  | changeMask hm => exact ⟨f :: above, hfs, .changeMask hm⟩
  | beginSuspend hc hm hs => exact ⟨f :: above, hfs, .beginSuspend hc hm hs⟩
  | beginWait hc hm hw => exact ⟨f :: above, hfs, .beginWait hc hm hw⟩
  | beginSleep hc hm => exact ⟨f :: above, hfs, .beginSleep hc hm⟩
  | beginWait4 => exact ⟨f :: above, hfs, .beginWait4⟩
  | beginCheck => exact ⟨f :: above, hfs, .beginCheck⟩
  | checkExited he => exact ⟨f :: above, hfs, .checkExited he⟩
  | checkDone hn hq => exact ⟨f :: above, hfs, .checkDone hn hq⟩
  | checkNext => exact ⟨f :: above, hfs, .checkNext⟩
  | waitOver hc => exact ⟨f :: above, hfs, .waitOver hc⟩
  | sleepOver => exact ⟨f :: above, hfs, .sleepOver⟩
  | wait4Over => exact ⟨f :: above, hfs, .wait4Over⟩
  | block => exact ⟨f :: above, hfs, .block⟩
  | wake => exact ⟨f :: above, hfs, .wake⟩
  | call =>
    exact ⟨_ :: f :: above, congrArg (_ :: ·) hfs, .call⟩
  | waitServe =>
    exact ⟨_ :: f :: above, congrArg (_ :: ·) hfs, .waitServe⟩
  | suspendCheck =>
    exact ⟨_ :: f :: above, congrArg (_ :: ·) hfs, .suspendCheck⟩
  | sleepCheck =>
    exact ⟨_ :: f :: above, congrArg (_ :: ·) hfs, .sleepCheck⟩
  | deliver hrun =>
    exact ⟨_ :: _ :: f :: above, congrArg (_ :: _ :: ·) hfs, .deliver hrun⟩
  | checkEnter hn hs hb hrun =>
    exact ⟨_ :: _ :: _ :: f :: above, congrArg (_ :: _ :: _ :: ·) hfs, .checkEnter hn hs hb hrun⟩
  | exitCall hs hi =>
    obtain ⟨rfl, rfl⟩ := List.cons.inj hfs
    exact ⟨above, rfl, .exitCall hs hi⟩
  | failBody | failMain | leave | mainIdle | mainFinish | bodyUnwind | delivered | roundNext
  | roundFail | exitError | served | serveFail | suspendOver | suspendBlock | sleepReply
  | sleepBlock | unwind =>
    obtain ⟨rfl, rfl⟩ := List.cons.inj hfs
    exact ⟨above, rfl, by constructor⟩
  | next | bodyNext | conclude =>
    obtain ⟨rfl, rfl⟩ := List.cons.inj hfs
    exact ⟨_ :: above, rfl, by constructor⟩
  | unwound => exact absurd hfs (List.cons_ne_nil _ _).symm

end Context

end PosixSignals
