import PosixSignals.Proofs.Scenario.Entries
import PosixSignals.Proofs.Scenario.Lockstep
import PosixSignals.Proofs.Scenario.Wakeup

/-!
# How the dead unwind

A process that has ended is told so at every point where a call of it
could wait, and at the check point with which every system call ends. So a
call that it makes, or in which it was blocked when it ended, is on its way
back to the routine that made it: no step of the process leads anywhere
else, each leaves fewer to go, and what others do meanwhile changes neither
where the process stands nor what it is. `Unwinding` lists the places on
that way with the number of steps that are left.
-/

namespace PosixSignals

/-- A wait that looks for signals by a check point of its own. -/
def Frame.isWait : Frame → Bool
  | .waiting _ | .suspended .. | .asleep .. => true
  | _ => false

/-- How many steps a construct takes to its reply in a process that has ended. -/
def Loop.turns : Loop → Nat
  | .check _ | .waitAny _ | .wait4 .. => 1
  | .suspend _ | .sleep _ => 3

/-- **A stack on which a routine's call is at work**, with the steps that are left
once the call is told that the process must exit. -/
inductive Calling (fs : List Frame) : Nat → List Frame → Prop
  | routine : Calling fs 0 fs
  | last {result : Reply} : Calling fs 1 (.callExit result :: fs)
  | body {call : SystemCall Handler} : Calling fs 3 (.callBody call :: fs)
  | wait {n : Nat} {f : Frame} {above : List Frame} (hf : f.isWait = true)
      (h : Calling fs n above) : Calling fs (n + 1) (f :: above)

/-- **A call of a process that has ended on its way back to a routine**, whose frames
are `fs`, with a bound on the steps it still takes. -/
inductive Unwinding (fs : List Frame) : Nat → List Frame → Control → Prop
  | asked {call : SystemCall Handler} : Unwinding fs 8 fs (.perform (.system call))
  | starts {call : SystemCall Handler} : Unwinding fs 7 (.callBody call :: fs) (.execute call)
  | loop {k n : Nat} {above : List Frame} {l : Loop} (h : Calling fs k above)
      (hn : k + l.turns = n) : Unwinding fs n above (.loop l)
  | blocked {k n : Nat} {above : List Frame} {l : Loop} {y : Listener} (h : Calling fs k above)
      (hn : k + l.turns + 1 = n) : Unwinding fs n above (.blocked l y)
  | told {n : Nat} {above : List Frame} (h : Calling fs n above) :
      Unwinding fs n above (.reply (.error .mustExit))
  /-- The body of the call has come to whatever result. -/
  | answered {call : SystemCall Handler} {r : Reply} :
      Unwinding fs 3 (.callBody call :: fs) (.reply r)

/-- The frames of the routine that makes the innermost call. -/
def Context.caller (x : Context) : List Frame := x.frames.dropWhile (!·.isRoutine)

variable {fs above : List Frame} {n : Nat} {c : Control} {x x' : Context}

/-! ## Where the way ends -/

theorem Calling.length_le (h : Calling fs n above) : fs.length ≤ above.length := by
  induction h with
  | routine => exact Nat.le_refl _
  | last | body => exact Nat.le_succ _
  | wait _ _ ih => exact Nat.le_succ_of_le ih

/-- Back on the routine's frames no step is left. -/
theorem Calling.eq_zero (h : Calling fs n fs) : n = 0 := by
  cases h with
  | routine => rfl
  | wait _ h =>
    have hle := h.length_le
    simp only [List.length_cons] at hle
    omega

/-- **What comes back to the routine is `BREAK`.** -/
theorem Unwinding.reply_eq {r : Reply} (h : Unwinding fs n fs (.reply r)) :
    r = .error .mustExit ∧ n = 0 := by
  cases h with
  | told h => exact ⟨rfl, h.eq_zero⟩

/-- Where no step is left, the call has come back. -/
theorem Unwinding.of_zero (h : Unwinding fs 0 above c) :
    above = fs ∧ c = .reply (.error .mustExit) := by
  cases h with
  | @loop _ _ _ l _ hn => cases l <;> simp [Loop.turns] at hn
  | blocked _ hn => omega
  | told h =>
    cases h with
    | routine => exact ⟨rfl, rfl⟩

/-! ## Where the way begins -/

theorem caller_of_isRoutine {f : Frame} (hf : f.isRoutine = true) :
    (f :: above).dropWhile (!·.isRoutine) = f :: above := by
  simp [hf]

/-- A wait is made for a routine, or for the body of a call of a routine. -/
theorem calling_of_hostsWait (hs : Stacked above) (h : TopIs Frame.hostsWait above) :
    TopIs Frame.isRoutine (above.dropWhile (!·.isRoutine)) ∧
      ∃ n ≤ 3, Calling (above.dropWhile (!·.isRoutine)) n above := by
  obtain ⟨f, above, rfl⟩ := List.exists_cons_of_ne_nil h.ne_nil
  cases f with
  | main | body => exact ⟨rfl, 0, by omega, .routine⟩
  | callBody call =>
    obtain ⟨f, above, rfl⟩ := List.exists_cons_of_ne_nil (TopIs.ne_nil hs.1)
    have hf : f.isRoutine = true := topIs_cons.1 hs.1
    rw [List.dropWhile_cons_of_pos rfl, caller_of_isRoutine hf]
    exact ⟨topIs_cons.2 hf, 3, by omega, .body⟩
  | _ => simp [Frame.hostsWait] at h

/-- A check point is made for a routine, at the end of a call or in a wait. -/
theorem calling_of_hostsCheck (hs : Stacked above) (h : TopIs Frame.hostsCheck above) :
    TopIs Frame.isRoutine (above.dropWhile (!·.isRoutine)) ∧
      ∃ n ≤ 4, Calling (above.dropWhile (!·.isRoutine)) n above := by
  obtain ⟨f, above, rfl⟩ := List.exists_cons_of_ne_nil h.ne_nil
  cases f with
  | main | body => exact ⟨rfl, 0, by omega, .routine⟩
  | callExit result =>
    obtain ⟨f, above, rfl⟩ := List.exists_cons_of_ne_nil (TopIs.ne_nil hs.1)
    have hf : f.isRoutine = true := topIs_cons.1 hs.1
    rw [List.dropWhile_cons_of_pos rfl, caller_of_isRoutine hf]
    exact ⟨topIs_cons.2 hf, 1, by omega, .last⟩
  | waiting | suspended | asleep =>
    obtain ⟨htop, n, hn, hcall⟩ := calling_of_hostsWait hs.2 hs.1
    rw [List.dropWhile_cons_of_pos rfl]
    exact ⟨htop, n + 1, by omega, .wait rfl hcall⟩
  | _ => simp [Frame.hostsCheck] at h

/-- **Whoever asks for a system call or is blocked has eight steps to go at most.** -/
theorem Context.Sound.unwinding (hx : x.Sound)
    (hc : (∃ call, x.control = .perform (.system call)) ∨ ∃ l y, x.control = .blocked l y) :
    TopIs Frame.isRoutine x.caller ∧ ∃ n ≤ 8, Unwinding x.caller n x.frames x.control := by
  obtain ⟨frames, c, m⟩ := x
  have hfits := hx.fits
  rcases hc with ⟨call, rfl⟩ | ⟨l, y, rfl⟩
  · have htop : TopIs Frame.isRoutine frames := hfits
    have hcaller : Context.caller ⟨frames, .perform (.system call), m⟩ = frames := by
      obtain ⟨f, frames, rfl⟩ := List.exists_cons_of_ne_nil htop.ne_nil
      exact caller_of_isRoutine (topIs_cons.1 htop)
    rw [hcaller]
    exact ⟨htop, 8, Nat.le_refl _, .asked⟩
  · have hblocked : ∀ k, k + l.turns + 1 ≤ 8 →
        Calling (Context.caller ⟨frames, .blocked l y, m⟩) k frames →
        ∃ n ≤ 8, Unwinding (Context.caller ⟨frames, .blocked l y, m⟩) n frames (.blocked l y) :=
      fun k hk h => ⟨_, hk, .blocked h rfl⟩
    have hfits : TopIs l.host frames := hfits
    cases l with
    | check d =>
      obtain ⟨htop, k, hk, h⟩ := calling_of_hostsCheck hx.stacked hfits
      exact ⟨htop, hblocked k (by simp [Loop.turns]; omega) h⟩
    | waitAny | suspend | sleep =>
      obtain ⟨htop, k, hk, h⟩ := calling_of_hostsWait hx.stacked hfits
      exact ⟨htop, hblocked k (by simp [Loop.turns]; omega) h⟩
    | wait4 =>
      have hwait : TopIs Frame.hostsWait frames := hfits.mono fun f hf => by
        cases f <;> first | rfl | simp [Loop.host, Frame.isCallBody] at hf
      obtain ⟨htop, k, hk, h⟩ := calling_of_hostsWait hx.stacked hwait
      exact ⟨htop, hblocked k (by simp [Loop.turns]; omega) h⟩

namespace Process

variable {p q : Process} {pid : Pid} {now : Nat}

/-! ## A step of the process -/

/-- **The process has come one step nearer**, and is what it was. -/
structure Nearer (fs : List Frame) (n : Nat) (p q : Process) : Prop where
  status : q.status = p.status
  pending : ∀ sig ∈ p.inbox.pending, sig ∈ q.inbox.pending
  context : ∃ x, q.context? = some x ∧ (∀ l y, x.control ≠ .blocked l y) ∧
    ∃ k < n, Unwinding fs k x.frames x.control

theorem nearer_of_context? (k : Nat) {fs' : List Frame} {c' : Control} {m : SignalSet}
    (hs : q.status = p.status) (hi : q.inbox.pending = p.inbox.pending)
    (hx : q.context? = some ⟨fs', c', m⟩) (hb : ∀ l y, c' ≠ .blocked l y)
    (h : Unwinding fs k fs' c') (hk : k < n) : p.Nearer fs n q :=
  ⟨hs, fun _ hm => hi ▸ hm, _, hx, hb, k, hk, h⟩

/-- A reply on its way back reaches the frame on top. -/
theorem nearer_told {root : Bool} (ht : p.task = some ⟨above, .reply (.error .mustExit), root⟩)
    (h : Calling fs n above) (hn : 0 < n) :
    p.Nearer fs n (p.step now pid ⟨above, .reply (.error .mustExit), root⟩).1 := by
  have hx : p.context? = some ⟨above, .reply (.error .mustExit), p.inbox.blocked⟩ :=
    context?_eq_some.2 ⟨root, ht, rfl⟩
  cases h with
  | routine => omega
  | last =>
    exact nearer_of_context? 0 rfl rfl (by simp [step, accommodate, hx]; rfl) (by simp)
      (.told .routine) Nat.zero_lt_one
  | body =>
    exact nearer_of_context? 2 rfl rfl (by simp [step, accommodate, hx]; exact ⟨rfl, rfl, rfl⟩)
      (by simp) (.loop .last (by rfl)) (by omega)
  | @wait k f above hf h =>
    cases f with
    | waiting | suspended | asleep =>
      exact nearer_of_context? k rfl rfl
        (by simp [step, accommodate, finishSuspend, finishSleep, hx]; rfl) (by simp) (.told h)
        (Nat.lt_succ_self k)
    | _ => simp [Frame.isWait] at hf

/-- **A step that a process that has ended takes alone.** -/
theorem nearer_step {root : Bool} (h : Unwinding fs n above c) (hn : 0 < n)
    (ht : p.task = some ⟨above, c, root⟩) (he : p.status.isExited = true)
    (hl : c.isShared = false) (hb : ∀ l y, c = .blocked l y → p.notified y = true) :
    p.Nearer fs n (p.step now pid ⟨above, c, root⟩).1 := by
  have hx : p.context? = some ⟨above, c, p.inbox.blocked⟩ := context?_eq_some.2 ⟨root, ht, rfl⟩
  cases h with
  | asked =>
    exact nearer_of_context? 7 rfl rfl (by simp [step, perform, hx]; exact ⟨rfl, rfl⟩) (by simp)
      .starts (by omega)
  | starts => simp [Control.isShared] at hl
  | @loop k _ _ l h hk =>
    subst hk
    cases l with
    | check d =>
      have hstep : (p.step now pid ⟨above, .loop (.check d), root⟩).1 =
          p.answer (.error .mustExit) := by simp [step, check, he]
      exact hstep ▸ nearer_of_context? k rfl rfl (by simp [hx]; rfl) (by simp) (.told h)
        (Nat.lt_succ_self k)
    | waitAny w =>
      have hstep : (p.step now pid ⟨above, .loop (.waitAny w), root⟩).1 =
          p.leaveWait w (.error .mustExit) := by simp [step, waitAny, he]
      exact hstep ▸ nearer_of_context? k rfl rfl (by simp [hx]; rfl) (by simp) (.told h)
        (Nat.lt_succ_self k)
    | suspend saved =>
      exact nearer_of_context? (k + 2) rfl rfl
        (by simp [step, suspend, hx]; exact ⟨rfl, rfl, rfl⟩) (by simp)
        (.loop (h.wait (by rfl)) (by rfl)) (by simp [Loop.turns])
    | sleep deadline =>
      exact nearer_of_context? (k + 2) rfl rfl
        (by simp [step, sleep, hx]; exact ⟨rfl, rfl, rfl⟩) (by simp)
        (.loop (h.wait (by rfl)) (by rfl)) (by simp [Loop.turns])
    | wait4 => simp [Control.isShared] at hl
  | @blocked k _ _ l y h hk =>
    have hstep : (p.step now pid ⟨above, .blocked l y, root⟩).1 = p.goto (.loop l) := by
      simp [step, awaken, hb l y rfl]
    exact hstep ▸ nearer_of_context? (k + l.turns) rfl rfl (by simp [hx]; rfl) (by simp)
      (.loop h rfl) (by omega)
  | told h => exact nearer_told ht h hn
  | answered =>
    exact nearer_of_context? 2 rfl rfl (by simp [step, accommodate, hx]; exact ⟨rfl, rfl, rfl⟩)
      (by simp) (.loop .last (by rfl)) (by omega)

/-! ## What is done to it -/

/-- **Nothing that has ended changes any more**, and no signal is taken from it. -/
def Stays (p q : Process) : Prop :=
  p.status.isExited = true → q.status = p.status ∧ ∀ sig ∈ p.inbox.pending, sig ∈ q.inbox.pending

theorem Stays.refl (p : Process) : p.Stays p := fun _ => ⟨rfl, fun _ h => h⟩

theorem Stays.trans {r : Process} (h : p.Stays q) (h' : q.Stays r) : p.Stays r := fun he => by
  obtain ⟨hs, hp⟩ := h he
  obtain ⟨hs', hp'⟩ := h' (hs ▸ he)
  exact ⟨hs'.trans hs, fun sig hm => hp' sig (hp sig hm)⟩

theorem stays_of_disturbed (h : p.Disturbed q) : p.Stays q :=
  fun he => ⟨h.ended he, fun _ => h.inbox.mem_pending⟩

theorem stays_of_standing (h : q.standing = p.standing) : p.Stays q := fun _ =>
  have hpending : q.inbox.pending = p.inbox.pending := congrArg Standing.pending h
  ⟨congrArg Standing.status h, fun _ hm => hpending ▸ hm⟩

theorem stays_of_mild {r : Process × List Event} (h : p.Mild pid r) : p.Stays r.1 := by
  cases h with
  | plain h => exact stays_of_standing h.standing
  | @ended _ w h =>
    have hexit : p.Stays (p.orStay (p.exit pid w)).1 :=
      stays_of_disturbed shift_exit.disturbed
    exact hexit.trans (stays_of_standing h.standing)

end Process

namespace System

variable {s s' : System} {pid : Pid} {p q : Process} {src : Source} {m : SignalSet}

theorem stays_of_deed {actor : Option Pid} {kin : Bool} {r : Process × List Event}
    (h : Deed actor kin false pid p r) : p.Stays r.1 := by
  cases h with
  | generate info => exact Process.stays_of_disturbed Process.disturbed_generate
  | exit w =>
    exact Process.stays_of_disturbed Process.shift_exit.disturbed
  | stop sig =>
    exact Process.stays_of_disturbed Process.shift_stop.disturbed
  | resume =>
    exact Process.stays_of_disturbed Process.shift_resume.disturbed
  | noticeChild | limits | placed => exact .refl p
  | mild _ h => exact Process.stays_of_mild h
  | buried h | released h => simp at h

/-- A wait for children in a process that has ended is answered at once. -/
theorem reply_of_wait4 {selector : Int} {noHang : Bool} (ho : s.Ordered)
    (hp : s.process? pid = some p) (ht : p.task ≠ none) (he : p.status.isExited = true)
    (hq : (s.wait4 src pid p selector noHang).process? pid = some q) (hx : q.context? = some x) :
    ∃ r, x.control = .reply r := by
  have hanswer : ∀ r, (s.answer pid r).process? pid = some q → ∃ r, x.control = .reply r :=
    fun r hq => ⟨r, context?_of_answer hq hx⟩
  have hglance := s.glance src pid p selector noHang
  generalize s.wait4 src pid p selector noHang = s' at hglance hq
  cases hglance with
  | failed | hurried | left | interrupted => exact hanswer _ hq
  | reaped => exact ⟨_, context?_of_reap ho hp ht hq hx⟩
  | blocked _ _ hlive => simp [he] at hlive

/-- **A step of it that concerns others**: the body of a call, or a wait for children. -/
theorem nearer_of_isShared (hs : s.Sound) (hp : s.process? pid = some p)
    (hx : p.context? = some ⟨above, c, m⟩) (he : p.status.isExited = true)
    (htop : TopIs Frame.isRoutine fs) (h : Unwinding fs n above c) (hl : c.isShared = true) :
    ∃ q, (s.step pid).process? pid = some q ∧ p.Nearer fs n q := by
  obtain ⟨root, ht, -⟩ := Process.context?_eq_some.1 hx
  have hf : ∀ e, c ≠ .finish e := by
    rintro e rfl
    cases h
  obtain ⟨q, x', hq, hqx, hstep, -⟩ := goes_of_step hs hp hx hf
  refine ⟨q, hq, ?_⟩
  -- what others see of it stays, whomever the step concerns
  obtain ⟨q', hq', hstays⟩ := kept_of_isShared (R := Process.Stays) .refl (fun _ _ _ => .trans)
    (fun _ _ => ⟨rfl, fun _ h => h⟩) (fun _ _ => stays_of_deed) hs hp ht hl hf
  obtain rfl := Option.some.inj (hq.symm.trans hq')
  obtain ⟨hstatus, hpending⟩ := hstays he
  suffices hcontext : (∀ l y, x'.control ≠ .blocked l y) ∧
      ∃ k < n, Unwinding fs k x'.frames x'.control from
    ⟨hstatus, hpending, x', hqx, hcontext⟩
  cases h with
  | starts =>
    cases hstep with
    | answer | changeMask => exact ⟨by simp, 3, by omega, .answered⟩
    | beginSuspend | beginSleep => exact ⟨by simp, 6, by omega, .loop .body (by rfl)⟩
    | beginWait | beginWait4 => exact ⟨by simp, 4, by omega, .loop .body (by rfl)⟩
    | stay hr => simp [Control.isResting] at hr
    | waitOver hw => simp at hw
  | @loop k _ _ l h hk =>
    subst hk
    cases l with
    | wait4 selector noHang =>
      have hbody := (hs.contexts pid _ (context?_eq_some.2 ⟨p, hp, hx⟩)).fits
      obtain ⟨r, hr⟩ : ∃ r, x'.control = .reply r := by
        rw [step_of_wait4 hp ht rfl] at hq
        exact reply_of_wait4 hs.ordered hp (by simp [ht]) he hq hqx
      cases hstep with
      | wait4Over =>
        -- only the body of a call makes such a wait
        cases h with
        | body => exact ⟨by simp, 3, by simp [Loop.turns], .answered⟩
        | routine =>
          obtain ⟨f, fs, rfl⟩ := List.exists_cons_of_ne_nil htop.ne_nil
          cases f <;>
            simp [Control.Fits, Loop.host, Frame.isCallBody, Frame.isRoutine] at hbody htop
        | last => simp [Control.Fits, Loop.host, Frame.isCallBody] at hbody
        | @wait _ f _ hf =>
          cases f <;> simp [Control.Fits, Loop.host, Frame.isCallBody, Frame.isWait] at hbody hf
      | block => simp at hr
      | stay hr => simp at hr
      | answer hc | beginSuspend hc | beginWait hc | beginSleep hc => simp [Control.isCall] at hc
      | changeMask hm => simp [Control.maskChange?] at hm
      | waitOver hw => simp at hw
    | check | waitAny | suspend | sleep => simp [Control.isShared] at hl
  | asked | blocked | told | answered => simp [Control.isShared] at hl

/-- A blocked process that has ended was notified, since nobody waits for anything
once it has ended. -/
theorem notified_of_isExited (hs : Reachable s) (hp : s.process? pid = some p)
    (hx : p.context? = some ⟨above, c, m⟩) (he : p.status.isExited = true) {l : Loop}
    {y : Listener} (hb : c = .blocked l y) : p.notified y = true := by
  obtain ⟨hv, -⟩ := hs.watchfulAt pid p _ hp hx
  have hrelies := hv.blocked l y hb
  have hnot : ¬ p.Awaits y l := by
    intro hawaits
    cases hst : p.status with
    | normal | stopped => simp [hst, Status.isExited] at he
    | exited w | zombie w =>
      cases l <;> simp [Process.Awaits, hst, Status.isExited, Status.isStopped] at hawaits
  simp only [Process.notified, bne_iff_ne]
  exact fun hseen => hnot (hrelies.awaits hseen.symm)

/-- **A step of a process that has ended**, on its way back. -/
theorem nearer_of_step (hs : Reachable s) (hp : s.process? pid = some p)
    (hx : p.context? = some ⟨above, c, m⟩) (he : p.status.isExited = true)
    (htop : TopIs Frame.isRoutine fs) (h : Unwinding fs n above c) (hn : 0 < n) :
    ∃ q, (s.step pid).process? pid = some q ∧ p.Nearer fs n q := by
  cases hl : c.isShared with
  | true => exact nearer_of_isShared hs.sound hp hx he htop h hl
  | false =>
    obtain ⟨root, ht, -⟩ := Process.context?_eq_some.1 hx
    have hnear : p.Nearer fs n (p.step s.now pid ⟨above, c, root⟩).1 :=
      Process.nearer_step h hn ht he hl fun _ _ => notified_of_isExited hs hp hx he
    refine ⟨_, ?_, hnear⟩
    rw [step_of_not_isShared hp ht hl]
    exact process?_act_self hp

/-! ## A move -/

/-- **A call of a process that has ended is on its way back**, with at most `n` steps
of the process to go. -/
structure Returning (s : System) (pid : Pid) (fs : List Frame) (n : Nat) (p : Process)
    (x : Context) : Prop where
  process : s.process? pid = some p
  context : p.context? = some x
  ended : p.status.isExited = true
  unwinding : Unwinding fs n x.frames x.control

/-- A reply has come back to the routine with these frames. -/
def Returned (s : System) (pid : Pid) (fs : List Frame) : Prop :=
  ∃ r m, s.context? pid = some ⟨fs, .reply r, m⟩

/-- A process that has ended enters no handler, unless it asks for one outright. -/
theorem entries_of_isExited (hs : s.Sound) (hp : s.process? pid = some p)
    (he : p.status.isExited = true) (ho : s.asked? pid = none) (m : Move) (sig : Signal) :
    (s.move m).entries pid sig = s.entries pid sig := by
  rcases records_or_enters hs m with ⟨new, h⟩ | ⟨pid', run, -, h⟩
  · exact h.entries_eq
  · rw [h.entries_eq, if_neg, Nat.add_zero]
    rintro ⟨rfl, -⟩
    rcases h.cause with ⟨q, hq, hn, -⟩ | ho'
    · obtain rfl := Option.some.inj (hp.symm.trans hq)
      simp [hn, Status.isExited] at he
    · simp [ho] at ho'

theorem Returning.asked?_eq (h : s.Returning pid fs n p x) : s.asked? pid = none := by
  obtain ⟨frames, c, m⟩ := x
  have hnone : c.outright? = none := by
    have hu : Unwinding fs n frames c := h.unwinding
    cases hu <;> rfl
  simp [asked?, h.process, Process.outright?_of_context? h.context, hnone]

/-- **What becomes of the call in a move**: the process comes nearer by a step of its
own, and whatever others do leaves it where it is. -/
theorem Returning.move (h : s.Returning pid fs n p x) (hs : Reachable s)
    (htop : TopIs Frame.isRoutine fs) (hn : 0 < n) (m : Move) :
    ∃ q y k, (s.move m).Returning pid fs k q y ∧ q.status = p.status ∧
      (∀ sig ∈ p.inbox.pending, sig ∈ q.inbox.pending) ∧
      ((m = .process pid ∧ k < n ∧ y.control.isResting = false) ∨
        m ≠ .process pid ∧ k = n ∧ y = x) := by
  obtain ⟨hp, hx, he, hu⟩ := h
  obtain ⟨frames, c, mask⟩ := x
  have hi : c ≠ .idle ∧ ∀ e, c ≠ .finish e := by
    have hu : Unwinding fs n frames c := hu
    cases hu <;> simp
  rcases move_cases hs.sound hp hx hi.1 hi.2 m with ⟨rfl, -⟩ | ⟨hm, q, hq, hd⟩
  · obtain ⟨q, hq, hnear⟩ := nearer_of_step hs hp hx he htop hu hn
    obtain ⟨y, hy, hb, k, hk, hu'⟩ := hnear.context
    have hbusy : y.control.isResting = false := by
      obtain ⟨frames', c', mask'⟩ := y
      have hu' : Unwinding fs k frames' c' := hu'
      cases hu' with
      | blocked => exact absurd rfl (hb _ _)
      | _ => rfl
    exact ⟨q, y, k, ⟨hq, hy, hnear.status ▸ he, hu'⟩, hnear.status, hnear.pending,
      .inl ⟨rfl, hk, hbusy⟩⟩
  · have hqx := (Process.context?_congr hd.task hd.blocked).trans hx
    exact ⟨q, _, n, ⟨hq, hqx, hd.isExited he, hu⟩, hd.ended he, fun _ => hd.inbox.mem_pending,
      .inr ⟨hm, rfl, rfl⟩⟩

/-! ## A run -/

/-- **A run until the call has come back**: every step of the process brings it nearer,
and nothing else has changed. -/
theorem Returning.run {moves : List Move} (h : s.Returning pid fs n p x) (hs : Reachable s)
    (htop : TopIs Frame.isRoutine fs)
    (hlasts : ∀ done left, moves = done ++ left → left ≠ [] → ¬ (s.run done).Returned pid fs) :
    ∃ q y k, (s.run moves).Returning pid fs k q y ∧ k + moves.countP (Move.isStepOf pid) ≤ n ∧
      q.status = p.status ∧ (∀ sig ∈ p.inbox.pending, sig ∈ q.inbox.pending) ∧
      (∀ sig, (s.run moves).entries pid sig = s.entries pid sig) ∧
      (x.control.isResting = false ∨ 0 < moves.countP (Move.isStepOf pid) →
        y.control.isResting = false) := by
  induction moves generalizing s n p x with
  | nil => exact ⟨p, x, n, h, by simp, rfl, fun _ hm => hm, fun _ => rfl, by simp⟩
  | cons m moves ih =>
    have hn : 0 < n := by
      refine Nat.pos_of_ne_zero fun hzero => hlasts [] (m :: moves) rfl (by simp) ?_
      obtain ⟨frames, c, mask⟩ := x
      subst hzero
      obtain ⟨rfl, rfl⟩ : frames = fs ∧ c = _ := Unwinding.of_zero h.unwinding
      exact ⟨_, mask, context?_eq_some.2 ⟨p, h.process, h.context⟩⟩
    obtain ⟨q, y, k, hq, hstatus, hpending, hcase⟩ := h.move hs htop hn m
    obtain ⟨q', y', k', hq', hle, hstatus', hpending', hentries', hbusy'⟩ :=
      ih hq (hs.move m) fun done left he hne => hlasts (m :: done) left (congrArg _ he) hne
    have hentries := entries_of_isExited hs.sound h.process h.ended h.asked?_eq m
    refine ⟨q', y', k', hq', ?_, hstatus'.trans hstatus,
      fun sig hm => hpending' sig (hpending sig hm),
      fun sig => (hentries' sig).trans (hentries sig), fun hstart => hbusy' ?_⟩
    · rcases hcase with ⟨rfl, hk, -⟩ | ⟨hm, rfl, -⟩
      · rw [List.countP_cons_of_pos (Move.isStepOf_self pid)]
        omega
      · rwa [List.countP_cons_of_neg (by simp [Move.isStepOf_of_ne hm])]
    · rcases hcase with ⟨-, -, hy⟩ | ⟨hm, -, rfl⟩
      · exact .inl hy
      · rwa [List.countP_cons_of_neg (by simp [Move.isStepOf_of_ne hm])] at hstart

/-- A call that has not come back can go on: its process is in the midst of something,
or was notified. -/
theorem Returning.mem_runnable (h : s.Returning pid fs n p x) (hs : Reachable s) :
    pid ∈ s.runnable := by
  obtain ⟨frames, c, mask⟩ := x
  cases hc : c.isResting with
  | false => exact System.mem_runnable (context?_eq_some.2 ⟨p, h.process, h.context⟩) hc
  | true =>
    have hu : Unwinding fs n frames c := h.unwinding
    obtain ⟨root, ht, -⟩ := Process.context?_eq_some.1 h.context
    cases hu with
    | blocked =>
      have hnotified := notified_of_isExited hs h.process h.context h.ended rfl
      refine List.mem_map.2 ⟨(pid, p), List.mem_filter.2 ⟨Registry.mem_of_get? h.process, ?_⟩, rfl⟩
      simp [Process.isRunnable, ht, hnotified]
    | _ => simp [Control.isResting] at hc

/-- **A dead process unwinds.** In every reachable state, when a process has ended and
asks for a system call, or is blocked in one or in a call to the engine, let any
moves be made for as long as that call has not come back to the routine that
made it. Then the status of the process is what it was, no signal has been
taken from it, and no handler was entered. It can go on at every moment;
it is not blocked, unless it was and has not taken a step since, and in
lockstep nobody else moves before the call has come back. It has come back
after eight steps of the process at most, and what it comes back with is
`BREAK`. -/
theorem dead_unwinds {moves : List Move} (hs : Reachable s) (hp : s.process? pid = some p)
    (he : p.status.isExited = true) (hx : p.context? = some x)
    (hcall : (∃ call, x.control = .perform (.system call)) ∨ ∃ l y, x.control = .blocked l y)
    (hlasts : ∀ done left, moves = done ++ left → left ≠ [] →
      ¬ (s.run done).Returned pid x.caller) :
    ∃ q y, (s.run moves).process? pid = some q ∧ q.context? = some y ∧
      q.status = p.status ∧ (∀ sig ∈ p.inbox.pending, sig ∈ q.inbox.pending) ∧
      (∀ sig, (s.run moves).entries pid sig = s.entries pid sig) ∧
      pid ∈ (s.run moves).runnable ∧
      (x.control.isResting = false ∨ 0 < moves.countP (Move.isStepOf pid) →
        y.control.isResting = false ∧ ∀ focus b, Focused (s.run moves, focus) →
          Lockstep (s.run moves, focus) b → b = ((s.run moves).step pid, some pid)) ∧
      (∀ r, y.frames = x.caller → y.control = .reply r → r = .error .mustExit) ∧
      moves.countP (Move.isStepOf pid) ≤ 8 ∧
      (moves.countP (Move.isStepOf pid) = 8 →
        y.frames = x.caller ∧ y.control = .reply (.error .mustExit)) := by
  have hsound := hs.sound.contexts pid x (context?_eq_some.2 ⟨p, hp, hx⟩)
  obtain ⟨htop, n, hn, hunwinding⟩ := hsound.unwinding hcall
  obtain ⟨q, y, k, hq, hle, hstatus, hpending, hentries, hbusy⟩ :=
    Returning.run ⟨hp, hx, he, hunwinding⟩ hs htop hlasts
  refine ⟨q, y, hq.process, hq.context, hstatus, hpending, hentries,
    hq.mem_runnable (hs.run moves), fun h => ⟨hbusy h, fun focus b hf hlock => ?_⟩,
    fun r hframes hr => ?_, by omega, fun hcount => ?_⟩
  · exact hlock.of_acting hf (context?_eq_some.2 ⟨q, hq.process, hq.context⟩) (hbusy h)
  · have hu := hq.unwinding
    rw [hframes, hr] at hu
    exact hu.reply_eq.1
  · obtain rfl : k = 0 := by omega
    exact hq.unwinding.of_zero

/-- Whether a reply has come back to a routine that is this deep in the stack. -/
def returned (s : System) (pid : Pid) (depth : Nat) : Bool :=
  match s.context? pid with
  | some ⟨frames, .reply _, _⟩ => frames.length == depth
  | _ => false

theorem lasts_of_checks {moves : List Move}
    (h : checks move (fun s _ => !s.returned pid fs.length) s moves = true) :
    ∀ done left, moves = done ++ left → left ≠ [] → ¬ (s.run done).Returned pid fs := by
  induction moves generalizing s with
  | nil =>
    intro done left he hne
    exact absurd (List.append_eq_nil_iff.1 he.symm).2 hne
  | cons m moves ih =>
    obtain ⟨hfirst, hrest⟩ := Bool.and_eq_true_iff.1 h
    rintro (_ | ⟨m', done⟩) left he hne
    · rintro ⟨r, mask, hr⟩
      have hr : s.context? pid = some ⟨fs, .reply r, mask⟩ := hr
      simp [returned, hr] at hfirst
    · obtain ⟨rfl, htail⟩ := List.cons.inj he
      exact ih hrest done left htail hne

/-- A process marks itself as ended, and its main routine, which goes on all the
same, wants to sleep. -/
def outliving : List Move :=
  [Move.host (.root "sleeper"),
    .host (.command 1 (.perform { request := .system (.exit 3), keep := true }))] ++
  List.replicate 6 (Move.process 1) ++
  [Move.host (.command 1 (.perform { request := .system (.nanosleep .unreachable), keep := true }))]

theorem outliving_process :
    ((initial.run outliving).process? 1).map (fun p => (p.status, p.context?.isSome)) =
      some (.exited 768, true) := by cbv

theorem outliving_context : (initial.run outliving).context? 1 =
    some ⟨[.main true], .perform (.system (.nanosleep .unreachable)), ∅⟩ := by cbv

/-- **The sleep is over after eight steps.** -/
theorem dead_unwinds_of_outliving :
    let s := (initial.run outliving).run (List.replicate 8 (.process 1))
    ∃ q y, s.process? 1 = some q ∧ q.context? = some y ∧ q.status = .exited 768 ∧
      y.frames = [.main true] ∧ y.control = .reply (.error .mustExit) := by
  obtain ⟨p, hp, hx⟩ := context?_eq_some.1 outliving_context
  have hstatus : p.status = .exited 768 := by
    have h := outliving_process
    rw [hp] at h
    simpa using congrArg (Option.map Prod.fst) h
  have hlasts : ∀ done left, List.replicate 8 (Move.process 1) = done ++ left → left ≠ [] →
      ¬ ((initial.run outliving).run done).Returned 1 [.main true] := lasts_of_checks (by cbv)
  obtain ⟨q, y, hq, hy, hsame, -, -, -, -, -, -, hback⟩ :=
    dead_unwinds (Reachable.initial.run outliving) hp (by rw [hstatus]; rfl) hx
      (.inl ⟨_, rfl⟩) hlasts
  obtain ⟨hframes, hcontrol⟩ := hback (by decide)
  exact ⟨q, y, hq, hy, hsame.trans hstatus, hframes, hcontrol⟩

end System

end PosixSignals
