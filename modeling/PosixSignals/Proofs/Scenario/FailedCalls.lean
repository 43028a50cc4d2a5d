import PosixSignals.Proofs.Scenario.SignalWait

/-!
# Calls that fail

A call whose body comes to an error without having blocked leaves everything
as it was, but for the error itself and what is on record. It has failed at once,
or it has begun to look for what it waits for, and its first look was the
last; and if a mask was put in force meanwhile, the old one is back.

Only a wait for signals without a timeout does more. It delivers other signals
in place, and it fails just if a handler that it has run in this way fails. What
the handler did stays done, and the signal is consumed.
-/

namespace PosixSignals

/-- A process is **at work over `n` frames**: it looks over them for what it waits for, or something
goes on on top of them, and it is not blocked. -/
def Context.atWork (n : Nat) (x : Context) : Bool :=
  match x.control with
  | .loop _ => n ≤ x.frames.length
  | .blocked .. => false
  | _ => n < x.frames.length

/-- Who is at work looks, or is higher than that. -/
theorem Context.above_of_atWork {n : Nat} {x : Context} (h : x.atWork n = true) :
    n < x.frames.length ∨ x.control.loop?.isSome = true := by
  obtain ⟨fs, c, m⟩ := x
  cases c with
  | loop => exact .inr rfl
  | blocked => cases h
  | idle | perform | execute | proceed | reply | panic | finish => exact .inl (of_decide_eq_true h)

/-- What is an error in the end is an error from the start, or a wait that has taken nothing. -/
theorem SystemCall.reply_of_conclude {call : SystemCall Handler} {r : Reply} {e : Errno}
    (h : call.conclude r = .error e) : r = .error e ∨ r = .ok (.taken none) := by
  unfold conclude at h
  split at h
  · exact .inr rfl
  · cases h
  · exact .inr rfl
  · cases h
  · exact .inl h

/-- A value is no error, unless a wait has taken nothing. -/
theorem SystemCall.conclude_ok_ne {call : SystemCall Handler} {v : Value} {e : Errno}
    (hv : v ≠ .taken none) : call.conclude (.ok v) ≠ .error e := by
  intro h
  rcases SystemCall.reply_of_conclude h with h | h
  · cases h
  · exact hv (Except.ok.inj h)

/-- Who is under a mask and puts the same in force has changed nothing. -/
theorem Process.restore_self {p : Process} {fs : List Frame} {c : Control} {m : SignalSet}
    (hx : p.context? = some ⟨fs, c, m⟩) (hm : m.Blockable) : p.restore m = p := by
  obtain rfl := Process.blocked_of_context? hx
  have hinbox : p.inbox.withMask p.inbox.blocked = p.inbox := by
    rw [Inbox.withMask, show p.inbox.blocked \ .uncatchable = p.inbox.blocked from hm]
  rw [Process.restore, hinbox]

namespace System

variable {s s' u : System} {pid : Pid} {p : Process} {src : Source} {gs fs : List Frame}
  {c c' : Control} {m m' b : SignalSet} {call : SystemCall Handler} {r r' : Reply} {e : Errno}
  {moves : List Move}

/-! ## Nothing but a turn of the process -/

/-- **A process turns to `c` under the mask `m`**, and nothing else changes but the record. -/
def Turns (pid : Pid) (m : SignalSet) (c : Control) (s s' : System) : Prop :=
  ∃ history, s' = { s.update pid (fun p => (p.restore m).goto c) with history }

theorem update_of_some {g : Process → Process} (hp : s.process? pid = some p) :
    s.update pid g = { s with processes := s.processes.insert pid (g p) } :=
  act_of_some hp

/-- To note events is to add to the record. -/
theorem noteAll_eq (events : List Event) :
    s.noteAll src events = { s with history := (s.noteAll src events).history } := by
  unfold noteAll
  induction events generalizing s with
  | nil => rfl
  | cons e events ih => exact ih

theorem turns_act {f : Process → Process × List Event} (hp : s.process? pid = some p)
    (hf : (f p).1 = (p.restore m).goto c) : s.Turns pid m c (s.act src pid f) := by
  rw [Turns, act_of_some hp, update_of_some hp, hf]
  exact ⟨_, noteAll_eq _⟩

/-- What is noted before is on record, and no more. -/
theorem Turns.of_note {event : Event} (h : (s.note src event).Turns pid m c s')
    (hp : s.process? pid = some p) : s.Turns pid m c s' := by
  obtain ⟨history, rfl⟩ := h
  have hp' : (s.note src event).process? pid = some p := hp
  refine ⟨history, ?_⟩
  rw [update_of_some hp, update_of_some hp']
  rfl

theorem Turns.trans (h : s.Turns pid b c u) (h' : u.Turns pid m c' s')
    (hp : s.process? pid = some p) : s.Turns pid m c' s' := by
  obtain ⟨history, rfl⟩ := h
  obtain ⟨history', rfl⟩ := h'
  rw [update_of_some hp]
  refine ⟨history', ?_⟩
  have hq : process? { s with processes := s.processes.insert pid ((p.restore b).goto c), history }
      pid = some ((p.restore b).goto c) := Registry.get?_insert_self _ _ _
  rw [update_of_some hq, update_of_some hp]
  simp only [Registry.insert_insert]
  have hsame : (((p.restore b).goto c).restore m).goto c' = (p.restore m).goto c' := by
    simp [Process.goto, Process.restore, Inbox.withMask, Option.map_map, Function.comp_def]
  rw [hsame]

theorem Turns.context? (h : s.Turns pid m c s') (hx : s.context? pid = some ⟨gs, c', b⟩) :
    s'.context? pid = some ⟨gs, c, m \ .uncatchable⟩ := by
  obtain ⟨p, hp, hpx⟩ := context?_eq_some.1 hx
  obtain ⟨history, rfl⟩ := h
  refine context?_eq_some.2 ⟨(p.restore m).goto c, ?_, ?_⟩
  · rw [update_of_some hp]
    exact Registry.get?_insert_self _ _ _
  · rw [Process.context?_goto, Process.context?_restore, hpx]
    rfl

/-- To get a reply under the mask that is in force is to be answered. -/
theorem Turns.answers (h : s.Turns pid m (.reply r) s') (hx : s.context? pid = some ⟨gs, c, m⟩)
    (hm : m.Blockable) : ∃ history, s' = { s.answer pid r with history } := by
  obtain ⟨p, hp, hpx⟩ := context?_eq_some.1 hx
  obtain ⟨history, rfl⟩ := h
  refine ⟨history, ?_⟩
  rw [answer, update_of_some hp, update_of_some hp, Process.restore_self hpx hm]
  rfl

section Kept

variable (hp : s.process? pid = some p) (hx : p.context? = some ⟨gs, c', m⟩) (hm : m.Blockable)
include hp hx hm

theorem turns_self {f : Process → Process × List Event} (hf : (f p).1 = p.goto c) :
    s.Turns pid m c (s.act src pid f) :=
  turns_act hp (by rw [Process.restore_self hx hm, hf])

theorem turns_answer (r : Reply) : s.Turns pid m (.reply r) (s.answer pid r) :=
  turns_self (f := fun p => (p.answer r, [])) hp hx hm rfl

end Kept

/-! ## The first step of a body -/

/-- **What the body of a call comes to in its first step**, but for those that run a check point. -/
inductive FirstStep (s : System) (pid : Pid) (m : SignalSet) (call : SystemCall Handler)
    (s' : System) : Prop
  /-- It is over, and it has not failed, or the process is to exit. -/
  | replies {r : Reply} (h : ∀ x, s'.context? pid = some x → x.control = .reply r)
      (hr : ∀ e, call.conclude r = .error e → e = .mustExit)
  | fails {e : Errno} (h : s.Turns pid m (.reply (.error e)) s')
  | seeks {selector : Int} {noHang : Bool}
      (h : s.Turns pid m (.loop (.wait4 selector noHang)) s')
  | waits {set : SignalSet} {timeout : Option Timeout}
      (hc : (Control.execute call).wait? = some (set, timeout))
      (h : s.Turns pid (m ∪ set \ .uncatchable) (.loop (.waitAny (.start set timeout s.now m))) s')

/-- To answer with a value is to succeed. -/
theorem firstStep_ok {v : Value} (hv : v ≠ .taken none) :
    s.FirstStep pid m call (s'.answer pid (.ok v)) :=
  .replies (fun _ hx => (context?_eq_some.1 hx).elim fun _ hq => context?_of_answer hq.1 hq.2)
    fun _ he => absurd he (SystemCall.conclude_ok_ne hv)

theorem firstStep_replies {f : Process → Process × List Event} (hp : s.process? pid = some p)
    (hf : ∃ q : Process, (f p).1 = q.answer r)
    (hr : ∀ e, call.conclude r = .error e → e = .mustExit) :
    s.FirstStep pid m call (s.act src pid f) := by
  refine .replies (fun x hx => ?_) hr
  obtain ⟨q, hq⟩ := hf
  obtain ⟨q', hq', hx⟩ := context?_eq_some.1 hx
  obtain rfl := Option.some.inj ((process?_act_self hp).symm.trans hq')
  rw [hq] at hx
  exact Process.control_of_goto hx

/-- To change oneself and have a value for an answer is to succeed. -/
theorem firstStep_done {g : Process → Process} {v : Value} (hp : s.process? pid = some p)
    (hg : ∃ q : Process, g p = q.answer (.ok v)) (hv : v ≠ .taken none) :
    s.FirstStep pid m call (s.update pid g) :=
  firstStep_replies (f := fun p => (g p, [])) hp hg fun _ he =>
    absurd he (SystemCall.conclude_ok_ne hv)

section First

variable (hp : s.process? pid = some p) (hx : p.context? = some ⟨gs, .execute call, m⟩)
  (hm : m.Blockable)
include hp hx hm

theorem firstStep_error (e : Errno) : s.FirstStep pid m call (s.answer pid (.error e)) :=
  .fails (turns_answer hp hx hm _)

theorem firstStep_kill (recipient : Recipient) (number : Nat) :
    s.FirstStep pid m call (s.kill src pid p recipient number) := by
  rcases s.kill_cases src pid p recipient number with ⟨e, h⟩ | h | ⟨sig, h⟩ <;> rw [h]
  · exact firstStep_error hp hx hm _
  · exact firstStep_ok (by simp)
  · exact firstStep_ok (by simp)

theorem firstStep_sigaction (number : Nat) (new : Option (Disposition Handler)) :
    s.FirstStep pid m call (s.act src pid (·.sigaction number new)) := by
  cases hs : Signal.ofNumber? number with
  | none => exact .fails (turns_self hp hx hm (by rw [Process.sigaction, hs]; rfl))
  | some sig =>
    exact firstStep_replies hp ⟨_, by rw [Process.sigaction, hs]⟩ fun _ he =>
      absurd he (SystemCall.conclude_ok_ne (by simp))

theorem firstStep_sigprocmask (how : Nat) (set : Option SignalSet) :
    s.FirstStep pid m call (s.update pid (·.sigprocmask how set)) := by
  cases set with
  | none => exact firstStep_done hp ⟨p, rfl⟩ (by simp)
  | some set =>
    cases hh : MaskChange.ofNumber? how with
    | none => exact .fails (turns_self (f := fun p => (p.sigprocmask how (some set), [])) hp hx hm
        (by simp only [Process.sigprocmask, hh]; rfl))
    | some change =>
      exact firstStep_done hp ⟨_, by simp only [Process.sigprocmask, hh]; rfl⟩ (by simp)

theorem firstStep_fork : s.FirstStep pid m call (s.forkCall src pid p) := by
  rw [forkCall_eq]
  rcases s.fork_cases src pid p (some {}) with h | ⟨child, pids, -, h⟩ <;> rw [h]
  · exact firstStep_error hp hx hm _
  · exact firstStep_ok (by simp)

theorem firstStep_prlimit (target : Pid) (resource : Nat) (new : Option Limit) :
    s.FirstStep pid m call (s.prlimit src pid target resource new) := by
  rcases s.prlimit_cases src pid target resource new with
    ⟨e, h⟩ | ⟨r, q, e, h⟩ | ⟨r, q, old, limits, h⟩ <;> rw [h]
  · exact firstStep_error hp hx hm _
  · -- that the limit was looked at is on record
    have hp' : (s.note src (.limitAccessed r q)).process? pid = some p := hp
    exact .fails ((turns_answer hp' hx hm (.error e)).of_note hp)
  · exact firstStep_ok (by simp)

theorem firstStep_wait4 (selector : Int) (options : BitVec 32) :
    s.FirstStep pid m call (s.act src pid (·.wait4 selector options)) := by
  by_cases hs : selector ≠ -1 ∧ selector ≤ 0
  · exact .fails (turns_self hp hx hm (by rw [Process.wait4, if_pos hs]; rfl))
  cases ho : WaitOptions.ofWord? options with
  | none => exact .fails (turns_self hp hx hm (by rw [Process.wait4, if_neg hs, ho]; rfl))
  | some o =>
    by_cases hu : o.unsupported = true
    · exact .fails (turns_self hp hx hm
        (by simp only [Process.wait4, if_neg hs, ho, hu, if_true]; rfl))
    · exact .seeks (turns_self hp hx hm (by simp only [Process.wait4, if_neg hs, ho, hu]; rfl))

/-- **The first step of a body.** -/
theorem firstStep_execute (hcall : call.name ≠ .sigsuspend ∧ call.name ≠ .nanosleep) :
    s.FirstStep pid m call (s.execute src pid p call) := by
  have hwait : ∀ {set timeout}, (Control.execute call).wait? = some (set, timeout) →
      s.FirstStep pid m call (s.update pid (·.beginWaitAny s.now set timeout)) := fun hc => by
    refine .waits hc (turns_act hp ?_)
    obtain rfl := Process.blocked_of_context? hx
    rfl
  cases call with
  | kill recipient number => exact firstStep_kill hp hx hm recipient number
  | sigaction number new => exact firstStep_sigaction hp hx hm number new
  | sigprocmask how set => exact firstStep_sigprocmask hp hx hm how set
  | sigpending => exact firstStep_done hp ⟨p, rfl⟩ (by simp)
  | sigtimedwait | sigwait => exact hwait rfl
  | sigsuspend => exact absurd rfl hcall.1
  | nanosleep => exact absurd rfl hcall.2
  | fork => exact firstStep_fork hp hx hm
  | exit code =>
    refine firstStep_replies (f := (·.exitCall pid code)) hp ⟨_, rfl⟩ fun e he => ?_
    exact (Except.error.inj he).symm
  | wait4 selector options => exact firstStep_wait4 hp hx hm selector options
  | getpid | getppid | schedYield | sysinfo => exact firstStep_ok (by simp)
  | prlimit target resource new => exact firstStep_prlimit hp hx hm target resource new

end First

/-! ## The look by which a body fails -/

section Look

variable (hp : s.process? pid = some p) (hret : (s.step pid).context? pid = some ⟨fs, .reply r, b⟩)
  (hr : call.conclude r = .error e)
include hp hret hr

/-- **A wait for children that fails changes nothing.** -/
theorem turns_of_wait4 {selector : Int} {noHang : Bool} (ho : s.Ordered)
    (hx : p.context? = some ⟨gs, .loop (.wait4 selector noHang), m⟩) (hm : m.Blockable) :
    s.Turns pid m (.reply r) (s.step pid) := by
  obtain ⟨root, ht, -⟩ := Process.context?_eq_some.1 hx
  obtain ⟨q, hq, hqx⟩ := context?_eq_some.1 hret
  have hanswer : ∀ r', (s.answer pid r').process? pid = some q →
      s.Turns pid m (.reply r) (s.answer pid r') := fun r' hq => by
    obtain rfl : r = r' := Control.reply.inj (context?_of_answer hq hqx)
    exact turns_answer hp hx hm r
  obtain ⟨src, hstep⟩ : ∃ src, s.step pid = s.wait4 src pid p selector noHang :=
    ⟨_, step_of_wait4 hp ht rfl⟩
  rw [hstep] at hq ⊢
  have hglance := s.glance src pid p selector noHang
  generalize s.wait4 src pid p selector noHang = s' at hglance hq ⊢
  cases hglance with
  | failed | hurried | left | interrupted => exact hanswer _ hq
  | reaped =>
    -- a child that is reaped is no failure
    obtain rfl := Control.reply.inj (context?_of_reap ho hp (by simp [ht]) hq hqx)
    exact absurd hr (SystemCall.conclude_ok_ne (by simp))
  | blocked =>
    obtain rfl := Option.some.inj ((process?_act_self hp).symm.trans hq)
    cases Process.control_of_goto hqx

/-- **A wait for signals that fails changes nothing but the mask**, which is put back. -/
theorem turns_of_waitAny {w : AnyWait}
    (hx : p.context? = some ⟨gs, .loop (.waitAny w), m⟩) :
    s.Turns pid w.saved (.reply r) (s.step pid) := by
  obtain ⟨root, ht, -⟩ := Process.context?_eq_some.1 hx
  rw [step_of_not_isShared hp ht rfl] at hret ⊢
  obtain ⟨q, hq, hqx⟩ := context?_eq_some.1 hret
  obtain rfl := Option.some.inj ((process?_act_self hp).symm.trans hq)
  refine turns_act hp ?_
  change (p.waitAny s.now w).1.context? = _ at hqx
  change (p.waitAny s.now w).1 = p.leaveWait w r
  have hleave : ∀ (q : Process) r', (q.leaveWait w r').context? = some ⟨fs, .reply r, b⟩ →
      q.leaveWait w r' = q.leaveWait w r := fun q r' h => by
    rw [show r = r' from Control.reply.inj (Process.control_of_goto h)]
  have hwaited := p.waited s.now w
  generalize p.waitAny s.now w = r at hwaited hqx ⊢
  cases hwaited with
  | ended | interrupted | expired => exact hleave p _ hqx
  | stopped | blocked => cases Process.control_of_goto hqx
  | serves =>
    rw [Process.context?_enter, hx] at hqx
    cases hqx
  | took =>
    -- nor is a signal that is taken
    obtain rfl := Control.reply.inj (Process.control_of_goto hqx)
    exact absurd hr (SystemCall.conclude_ok_ne (by simp))

end Look

/-! ## Bodies that do not block -/

/-- Whether a move leaves a process at work over `n` frames. -/
def keepsWorking (pid : Pid) (n : Nat) (s : System) (m : Move) : Bool :=
  ((s.move m).context? pid).any (·.atWork n)

theorem atWork_of_keepsWorking {n : Nat} {x : Move} {y : Context}
    (h : keepsWorking pid n s x = true) (hy : (s.move x).context? pid = some y) :
    y.atWork n = true := by
  rwa [keepsWorking, hy] at h

/-- What the others do leaves a process in the midst of a call where it is. -/
theorem context?_of_ne {x : Move} (hs : s.Sound) (hx : s.context? pid = some ⟨gs, c, m⟩)
    (hgs : gs ≠ []) (hne : x ≠ .process pid) : (s.move x).context? pid = some ⟨gs, c, m⟩ :=
  have hdeep : s.Deep pid ([] : List Frame).length := ⟨_, hx, List.length_pos_iff.2 hgs⟩
  (context?_of_others hs hdeep hne).trans hx

/-- **Who is not at work after one look has not looked**, as long as it is at work. -/
theorem still_of_working {l : Loop} (hs : Reachable s) (hgs : gs ≠ [])
    (hx : s.context? pid = some ⟨gs, .loop l, b⟩)
    (hl : ∀ s, Reachable s → s.context? pid = some ⟨gs, .loop l, b⟩ →
      ∀ y, (s.step pid).context? pid = some y → y.atWork gs.length = false)
    (h : checks move (keepsWorking pid gs.length) s moves = true) :
    (∀ x ∈ moves, x ≠ .process pid) ∧ (s.run moves).context? pid = some ⟨gs, .loop l, b⟩ := by
  induction moves generalizing s with
  | nil => exact ⟨by simp, hx⟩
  | cons x moves ih =>
    obtain ⟨hwork, hrest⟩ := Bool.and_eq_true_iff.1 h
    have hne : x ≠ .process pid := by
      rintro rfl
      obtain ⟨y, hy, hat⟩ := (Option.any_eq_true _ _).1 hwork
      rw [hl s hs hx y hy] at hat
      cases hat
    obtain ⟨hothers, hlast⟩ := ih (hs.move x) (context?_of_ne hs.sound hx hgs hne) hrest
    exact ⟨List.forall_mem_cons.2 ⟨hne, hothers⟩, hlast⟩

/-- A look for children ends a wait for them or blocks it. -/
theorem look_of_wait4 {selector : Int} {noHang : Bool} {y : Context} (hs : Reachable s)
    (hx : s.context? pid = some ⟨gs, .loop (.wait4 selector noHang), b⟩)
    (hy : (s.step pid).context? pid = some y) : y.atWork gs.length = false := by
  obtain ⟨p, hp, hpx⟩ := context?_eq_some.1 hx
  obtain ⟨q, y', hq, hqx, hstep, -⟩ := goes_of_step hs.sound hp hpx (by simp)
  obtain rfl := Option.some.inj (hy.symm.trans (context?_eq_some.2 ⟨q, hq, hqx⟩))
  cases hstep with
  | wait4Over | block => simp [Context.atWork]
  | stay hr => simp [Control.isResting] at hr
  | answer hc | beginSuspend hc | beginWait hc | beginSleep hc => simp [Control.isCall] at hc
  | changeMask hm => simp [Control.maskChange?] at hm
  | waitOver hw => simp at hw

/-- So does a look for signals, if the wait has a timeout. -/
theorem look_of_waitAny {w : AnyWait} {y : Context} (hb : w.bounded = true) (hs : Reachable s)
    (hx : s.context? pid = some ⟨gs, .loop (.waitAny w), b⟩)
    (hy : (s.step pid).context? pid = some y) : y.atWork gs.length = false := by
  obtain ⟨p, hp, hpx⟩ := context?_eq_some.1 hx
  obtain ⟨hnext, hturn⟩ := turn_of_wait hs hp hpx
  rw [hnext] at hy
  cases hturn with
  | ends hy' | pauses _ hy' | blocks _ _ _ _ hy' =>
    obtain rfl := Option.some.inj (hy.symm.trans hy')
    simp [Context.atWork]
  | serves _ _ _ hb' => simp [hb] at hb'

/-- Who is at work from the beginning of a wait on is in the wait. -/
theorem duringWait_of_working {f : Frame} {set : SignalSet} {timeout : Option Timeout}
    (hs : Reachable s) (hx : s.context? pid = some ⟨f :: fs, c, m⟩)
    (hc : c.wait? = some (set, timeout))
    (h : checks move (keepsWorking pid (f :: fs).length) (s.step pid) moves = true) :
    DuringWait pid (f :: fs) (.start set timeout s.now m) (s.step pid)
      ((s.step pid).run moves) := by
  refine (inWait_of_checks hs hx hc (fun hok hy => ?_) h).lift id fun _ _ ⟨⟨m, he, _⟩, hin⟩ =>
    ⟨⟨m, he⟩, hin⟩
  exact Context.above_of_atWork (atWork_of_keepsWorking hok hy)

/-- **How the body of a call fails** that comes to `r` without having blocked or run a handler: by
its first step, or by the first look at what it waits for, whatever the others do in between.
Neither step changes anything but where the process is and its mask, and the mask is `m` again. -/
inductive FailsCleanly (s : System) (pid : Pid) (m : SignalSet) (r : Reply) : List Move → Prop
  | atOnce (h : s.Turns pid m (.reply r) (s.step pid)) : FailsCleanly s pid m r []
  | atFirstLook {others : List Move} {l : Loop} {b : SignalSet}
      (hothers : ∀ x ∈ others, x ≠ .process pid)
      (hbegin : s.Turns pid b (.loop l) (s.step pid))
      (hlook : ((s.step pid).run others).Turns pid m (.reply r)
        (((s.step pid).run others).step pid)) :
      FailsCleanly s pid m r (.process pid :: others)

/-- **Where nobody else moves meanwhile, everything is as it was**, but for the reply and the
record. -/
theorem FailsCleanly.unchanged (h : s.FailsCleanly pid m r moves)
    (hx : s.context? pid = some ⟨gs, c, m⟩) (hm : m.Blockable)
    (halone : ∀ x ∈ moves, x = .process pid) :
    ∃ history, (s.run moves).step pid = { s.answer pid r with history } := by
  cases h with
  | atOnce h => exact h.answers hx hm
  | @atFirstLook others _ _ hothers hbegin hlook =>
    obtain ⟨p, hp, -⟩ := context?_eq_some.1 hx
    obtain rfl : others = [] := List.eq_nil_iff_forall_not_mem.2 fun x hmem =>
      hothers x hmem (halone x (List.mem_cons_of_mem _ hmem))
    exact (hbegin.trans hlook hp).answers hx hm

/-- The reply that a step hands over, and the mask that is in force then. -/
theorem Turns.replied {c₀ : Control} (h : s.Turns pid m (.reply r') s')
    (hx : s.context? pid = some ⟨gs, c₀, b⟩) (hm : m.Blockable)
    (hret : s'.context? pid = some ⟨gs, .reply r, m'⟩) : r' = r ∧ m' = m := by
  have he := Option.some.inj ((h.context? hx).symm.trans hret)
  obtain ⟨-, hc, hmask⟩ := Context.mk.inj he
  exact ⟨Control.reply.inj hc, hmask.symm.trans hm⟩

section Fails

variable (hs : Reachable s) (hx : s.context? pid = some ⟨gs, .execute call, m⟩)
  (hr : call.conclude r = .error e) (he : e ≠ .mustExit)
include hs hx

/-- The body of a call stays over the frames that it starts on. -/
theorem atWork_of_execute {y : Context} (hy : (s.step pid).context? pid = some y)
    (hc : ∃ r, y.control = .reply r) : y.atWork gs.length = false := by
  obtain ⟨r, hc⟩ := hc
  obtain ⟨p, hp, hpx⟩ := context?_eq_some.1 hx
  obtain ⟨q, y', hq, hqx, hstep, -⟩ := goes_of_step hs.sound hp hpx (by simp)
  obtain rfl := Option.some.inj (hy.symm.trans (context?_eq_some.2 ⟨q, hq, hqx⟩))
  cases hstep with
  | answer | changeMask => simp [Context.atWork]
  | beginSuspend | beginWait | beginSleep | beginWait4 => cases hc
  | stay hr => simp [Control.isResting] at hr
  | waitOver hw => simp at hw

/-- **A body that begins to look for something**, of which every look is the last. -/
theorem fails_at_look {l : Loop} (hbegin : s.Turns pid b (.loop l) (s.step pid))
    (hl : ∀ {u y}, Reachable u → u.context? pid = some ⟨gs, .loop l, b \ .uncatchable⟩ →
      (u.step pid).context? pid = some y → y.atWork gs.length = false)
    (hturn : ∀ {u p}, Reachable u → u.process? pid = some p →
      p.context? = some ⟨gs, .loop l, b \ .uncatchable⟩ →
      (u.step pid).context? pid = some ⟨gs, .reply r, m'⟩ →
        u.Turns pid m (.reply r) (u.step pid))
    (hwork : checks move (keepsWorking pid gs.length) (s.step pid) moves = true)
    (hret : (((s.step pid).run moves).step pid).context? pid = some ⟨gs, .reply r, m'⟩) :
    m' = m ∧ s.FailsCleanly pid m r (.process pid :: moves) := by
  have hm : m.Blockable := (hs.sound.contexts pid _ hx).blockable
  have hgs : gs ≠ [] :=
    (Control.hostsWait_of_isCall rfl (hs.sound.contexts pid _ hx).fits).ne_nil
  have hs' : Reachable (s.step pid) := hs.move (.process pid)
  obtain ⟨hothers, hlast⟩ := still_of_working hs' hgs (hbegin.context? hx)
    (fun u hu hux y => hl hu hux) hwork
  obtain ⟨p, hp, hpx⟩ := context?_eq_some.1 hlast
  have hlook := hturn (hs'.run moves) hp hpx hret
  exact ⟨(hlook.replied hlast hm hret).2, .atFirstLook hothers hbegin hlook⟩

include hr he

/-- **A body that is over with its first step.** -/
theorem fails_at_once (hfirst : s.FirstStep pid m call (s.step pid))
    (hret : (s.step pid).context? pid = some ⟨gs, .reply r, m'⟩) :
    m' = m ∧ s.Turns pid m (.reply r) (s.step pid) := by
  have hm : m.Blockable := (hs.sound.contexts pid _ hx).blockable
  cases hfirst with
  | replies h hr' =>
    obtain rfl := Control.reply.inj (h _ hret)
    exact absurd (hr' e hr) he
  | fails h =>
    obtain ⟨rfl, rfl⟩ := h.replied hx hm hret
    exact ⟨rfl, h⟩
  | seeks h | waits _ h =>
    obtain ⟨-, hc, -⟩ := Context.mk.inj (Option.some.inj ((h.context? hx).symm.trans hret))
    cases hc

/-- **A wait without a timeout fails just if a handler does** that it has run. -/
theorem fails_in_place {set : SignalSet}
    (hc : (Control.execute call).wait? = some (set, none))
    (hwork : checks move (keepsWorking pid gs.length) (s.step pid) moves = true)
    (hret : (((s.step pid).run moves).step pid).context? pid = some ⟨gs, .reply r, m'⟩) :
    m' = m ∧ r = .error e ∧
      (s.step pid).WaitBroken ((s.step pid).run moves) pid gs (.start set none s.now m) e := by
  obtain ⟨f, fs, rfl⟩ := List.exists_cons_of_ne_nil
    (Control.hostsWait_of_isCall rfl (hs.sound.contexts pid _ hx).fits).ne_nil
  have hm : m.Blockable := (hs.sound.contexts pid _ hx).blockable
  have hf := hostsWait_of_wait? hs.sound hx hc
  obtain ⟨p, hy⟩ := above_of_wait? hs.sound hx hc
  obtain ⟨hmask, q, q', -, hends⟩ := waitEnds_of_reply hf (hs.move (.process pid)) hy
    (fun _ => Context.waitPhase_of_loop? hf rfl) (duringWait_of_working hs hx hc hwork) hret
  refine ⟨hmask.trans hm, ?_⟩
  cases hends with
  | takes h =>
    subst h
    exact absurd hr (SystemCall.conclude_ok_ne (by simp))
  | ended h =>
    subst h
    rcases SystemCall.reply_of_conclude hr with h | h <;> cases h
    exact absurd rfl he
  -- without a timeout nothing interrupts the wait, and it has no deadline
  | interrupted _ hb => cases hb
  | expired _ hd => cases hd
  | broken h _ hbroken =>
    subst h
    rcases SystemCall.reply_of_conclude hr with h | h <;> cases h
    exact ⟨rfl, hbroken⟩

end Fails

/-- **The body of a call that fails with `e`**, having come to `r`. -/
inductive BodyFails (s : System) (pid : Pid) (gs : List Frame) (call : SystemCall Handler)
    (m : SignalSet) (r : Reply) (e : Errno) (moves : List Move) : Prop
  | cleanly (h : s.FailsCleanly pid m r moves)
      (hsame : (∀ x ∈ moves, x = .process pid) →
        ∃ history, (s.run moves).step pid = { s.answer pid r with history })
  /-- A wait without a timeout has run a handler, which has come back with this error. -/
  | inPlace {set : SignalSet} (hc : (Control.execute call).wait? = some (set, none))
      (hreply : r = .error e)
      (h : (s.step pid).WaitBroken (s.run moves) pid gs (.start set none s.now m) e) :
      BodyFails s pid gs call m r e moves

/-- **Calls that fail change nothing.** In a reachable state a process begins the body of a call,
which comes to an error, other than that the process is to exit, without ever being blocked. Then
the mask is what it was, and nothing has changed but the record and that the process gets its reply;
only a wait for signals without a timeout has done more if it fails, and it fails just if a handler
that it has run in place does. -/
theorem failed_calls (hs : Reachable s) (hx : s.context? pid = some ⟨gs, .execute call, m⟩)
    (hcall : call.name ≠ .sigsuspend ∧ call.name ≠ .nanosleep)
    (hwork : checks move (keepsWorking pid gs.length) s moves = true)
    (hret : ((s.run moves).step pid).context? pid = some ⟨gs, .reply r, m'⟩)
    (hr : call.conclude r = .error e) (he : e ≠ .mustExit) :
    m' = m ∧ s.BodyFails pid gs call m r e moves := by
  have hm : m.Blockable := (hs.sound.contexts pid _ hx).blockable
  have hcleanly : m' = m ∧ s.FailsCleanly pid m r moves →
      m' = m ∧ s.BodyFails pid gs call m r e moves := fun ⟨hmask, h⟩ =>
    ⟨hmask, .cleanly h (h.unchanged hx hm)⟩
  obtain ⟨p, hp, hpx⟩ := context?_eq_some.1 hx
  obtain ⟨root, ht, -⟩ := Process.context?_eq_some.1 hpx
  have hfirst : s.FirstStep pid m call (s.step pid) := by
    rw [step_of_execute hp ht rfl]
    exact firstStep_execute hp hpx hm hcall
  cases moves with
  | nil =>
    obtain ⟨hmask, h⟩ := fails_at_once hs hx hr he hfirst hret
    exact hcleanly ⟨hmask, .atOnce h⟩
  | cons x rest =>
    obtain ⟨hnext, hrest⟩ := Bool.and_eq_true_iff.1 hwork
    obtain ⟨y, hy, hat⟩ := (Option.any_eq_true _ _).1 hnext
    -- as long as the body has not begun, the process is not at work on it
    have hown : x = .process pid := by
      by_contra hne
      have hgs : gs ≠ [] :=
        (Control.hostsWait_of_isCall rfl (hs.sound.contexts pid _ hx).fits).ne_nil
      obtain rfl := Option.some.inj (hy.symm.trans (context?_of_ne hs.sound hx hgs hne))
      simp [Context.atWork] at hat
    subst hown
    have hnot : ¬ ∃ r, y.control = .reply r := fun hc => by
      rw [atWork_of_execute hs hx hy hc] at hat
      cases hat
    cases hfirst with
    | replies h => exact absurd ⟨_, h y hy⟩ hnot
    | fails h =>
      obtain rfl := Option.some.inj (hy.symm.trans (h.context? hx))
      exact absurd ⟨_, rfl⟩ hnot
    | seeks h =>
      refine hcleanly (fails_at_look hs hx h look_of_wait4 (fun hu hp hpx hret => ?_) hrest hret)
      rw [show m \ .uncatchable = m from hm] at hpx
      exact turns_of_wait4 hp hret hr hu.sound.ordered hpx hm
    | @waits set timeout hc h =>
      cases timeout with
      | none =>
        obtain ⟨hmask, hreply, hbroken⟩ := fails_in_place hs hx hr he hc hrest hret
        exact ⟨hmask, .inPlace hc hreply hbroken⟩
      | some timeout =>
        refine hcleanly (fails_at_look hs hx h (look_of_waitAny rfl) (fun hu hp hpx hret => ?_)
          hrest hret)
        exact turns_of_waitAny hp hret hr hpx

/-! ## A wait in which a handler fails -/

/-- A process whose handler for `usr1` fails gets that signal, and is about to wait for nothing at
all. -/
def unlucky (timeout : Option Timeout) : List Move :=
  [Move.host (.root "waiter"),
    .host (.command 1 (.perform { request := .engine (.changeDisposition .usr1
      (some (.handler { handler := .mk "fails" 1 [{ request := .fail .perm }] }))) })),
    .process 1, .process 1, .host (.send 1 (.kernel .usr1)),
    .host (.command 1 (.perform { request := .system (.sigtimedwait ∅ timeout) })), .process 1]

/-- From there until the handler has failed. -/
def untilFailed : List Move := List.replicate 7 (Move.process 1)

/-- Without a timeout the handler is run in place, and with one it is not. -/
theorem unlucky_state :
    let frames (timeout : Option Timeout) := [Frame.callBody (.sigtimedwait ∅ timeout), .main false]
    let pending (s : System) := (s.process? 1).map (·.inbox.pending)
    let s := initial.run (unlucky none)
    let t := initial.run (unlucky (some (.millis 5)))
    s.context? 1 = some ⟨frames none, .execute (.sigtimedwait ∅ none), ∅⟩ ∧
      checks move (keepsWorking 1 2) s untilFailed = true ∧
      ((s.run untilFailed).step 1).context? 1 = some ⟨frames none, .reply (.error .perm), ∅⟩ ∧
      pending s = some (.single .usr1) ∧ pending ((s.run untilFailed).step 1) = some ∅ ∧
    t.context? 1 =
      some ⟨frames (some (.millis 5)), .execute (.sigtimedwait ∅ (some (.millis 5))), ∅⟩ ∧
      checks move (keepsWorking 1 2) t [.process 1] = true ∧
      ((t.run [.process 1]).step 1).context? 1 =
        some ⟨frames (some (.millis 5)), .reply (.error .intr), ∅⟩ :=
  ⟨by cbv, by cbv, by cbv, by cbv, by cbv, by cbv, by cbv, by cbv⟩

/-- **A wait that fails has consumed a signal**, though it was never blocked. -/
theorem failed_wait_consumes :
    let gs := [Frame.callBody (.sigtimedwait ∅ none), .main false]
    let s := initial.run (unlucky none)
    let s' := (s.run untilFailed).step 1
    s.context? 1 = some ⟨gs, .execute (.sigtimedwait ∅ none), ∅⟩ ∧
      checks move (keepsWorking 1 gs.length) s untilFailed = true ∧
      s'.context? 1 = some ⟨gs, .reply (.error .perm), ∅⟩ ∧
      (s.process? 1).map (·.inbox.pending) = some (.single .usr1) ∧
      (s'.process? 1).map (·.inbox.pending) = some ∅ := by
  obtain ⟨hx, hwork, hret, hpending, hpending', -⟩ := unlucky_state
  exact ⟨hx, hwork, hret, hpending, hpending'⟩

/-- **An interrupted wait has consumed nothing**, nor changed anything else. -/
theorem failed_calls_of_interrupted :
    let s := initial.run (unlucky (some (.millis 5)))
    ∃ history, (s.step 1).step 1 = { s.answer 1 (.error .intr) with history } := by
  intro s
  have hs : Reachable s := Reachable.initial.run _
  obtain ⟨-, -, -, -, -, hx, hwork, hret⟩ := unlucky_state
  obtain ⟨-, hfails⟩ := failed_calls hs hx ⟨by decide, by decide⟩ hwork hret rfl (by decide)
  cases hfails with
  | cleanly _ hsame => exact hsame (by simp)
  | inPlace hc => cases hc

end System

end PosixSignals
