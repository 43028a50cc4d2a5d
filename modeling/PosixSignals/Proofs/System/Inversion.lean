import PosixSignals.Proofs.System.Sharing

/-!
# What a step of the system can be

A step lets one process go on. Whatever that process does, its context
takes one step of the relation between contexts and all the others are
spared. A step that concerns others is a change of the system in the midst
of which the caller takes a turn; the end of a process leaves it without a
context.
-/

namespace PosixSignals

namespace System

variable {s s' s₁ : System} {own : Option Pid} {pid : Pid} {src : Source} {p : Process}
  {fs : List Frame} {c : Control} {m : SignalSet} {x : Context}

/-! ## Calls that concern others -/

/-- **A turn of one process in the midst of a change.** -/
def Shares (pid : Pid) (x : Context) (s s' : System) : Prop :=
  ∃ s₁ src f, Changed none s s₁ ∧ (∀ p : Process, p.context? = some x → p.Own pid x (f p)) ∧
    Changed none (s₁.act src pid f) s'

/-- A turn alone. -/
theorem shares_act {f : Process → Process × List Event}
    (hf : ∀ p : Process, p.context? = some x → p.Own pid x (f p)) :
    Shares pid x s (s.act src pid f) :=
  ⟨s, src, f, .refl, hf, .refl⟩

/-- A change, and then the answer. -/
theorem Changed.answer {r : Reply} (h : Changed none s s') (hi : c.isCall = true)
    (hm : c.maskChange? = none) : Shares pid ⟨fs, c, m⟩ s (s'.answer pid r) :=
  ⟨s', .host, _, h, fun _ hc => Process.own_answer hi hm hc r, .refl⟩

theorem shares_kill {recipient : Recipient} {number : Nat} :
    Shares pid ⟨fs, .execute (.kill recipient number), m⟩ s
      (s.kill src pid p recipient number) := by
  rcases s.kill_cases src pid p recipient number with ⟨e, h⟩ | h | ⟨sig, h⟩ <;> rw [h]
  · exact Changed.refl.answer rfl rfl
  · exact Changed.refl.answer rfl rfl
  · exact (changed_sendAll _).answer rfl rfl

theorem shares_forkCall (hp : p.inbox.Sound) :
    Shares pid ⟨fs, .execute .fork, m⟩ s (s.forkCall src pid p) := by
  have hw : Waiting (some {}) := fun t ht => Option.some.inj ht ▸ ⟨rfl, rfl⟩
  have h : Changed none s (s.fork src pid p (some {})).2 := changed_fork hw hp
  rw [forkCall_eq]
  exact h.answer rfl rfl

theorem shares_prlimit {target : Pid} {resource : Nat} {new : Option Limit} :
    Shares pid ⟨fs, .execute (.prlimit target resource new), m⟩ s
      (s.prlimit src pid target resource new) := by
  rcases s.prlimit_cases src pid target resource new with
    ⟨e, h⟩ | ⟨r, q, e, h⟩ | ⟨r, q, old, limits, h⟩ <;> rw [h]
  · exact Changed.refl.answer rfl rfl
  · exact (Changed.refl.note rfl).answer rfl rfl
  · refine Changed.answer ?_ rfl rfl
    exact (Changed.refl.note rfl).adjust
      (fun _ => Process.disturbed_of_eq rfl rfl rfl rfl rfl rfl rfl) fun _ => rfl

theorem shares_wait4 {selector : Int} {noHang : Bool} (ho : s.Ordered) :
    Shares pid ⟨fs, .loop (.wait4 selector noHang), m⟩ s
      (s.wait4 src pid p selector noHang) := by
  have hown : ∀ r (p : Process), p.context? = some ⟨fs, .loop (.wait4 selector noHang), m⟩ →
      p.Own pid ⟨fs, .loop (.wait4 selector noHang), m⟩ (p.answer r, []) :=
    fun r p hc => Process.own_same rfl rfl (by simp) (by simp [hc]; rfl) .wait4Over
  have hglance := s.glance src pid p selector noHang
  generalize s.wait4 src pid p selector noHang = s' at hglance ⊢
  cases hglance with
  | failed | hurried | left | interrupted => exact shares_act (hown _)
  | @reaped child w =>
    -- the child is unlinked before the parent is answered, and forgotten after it
    have hreap : Changed none s (s.reap src pid child) :=
      (changed_disown.trans changed_unlist).note rfl
    exact ⟨_, .host, _, hreap, hown (.ok (.child child w)),
      Changed.refl.sweep (hreap.ordered ho).act⟩
  | blocked =>
    exact shares_act fun p hc =>
      Process.own_same rfl rfl (by simp [Event.isEntry]) (by simp [hc]; rfl) .block

/-- **The body of a system call is a turn of its caller.** -/
theorem shares_execute {call : SystemCall Handler} (hp : p.inbox.Sound) :
    Shares pid ⟨fs, .execute call, m⟩ s (s.execute src pid p call) := by
  cases call with
  | kill recipient number => exact shares_kill
  | sigaction number new => exact shares_act fun _ => Process.own_sigaction
  | sigprocmask how set => exact shares_act fun _ => Process.own_sigprocmask
  | sigpending | getpid | getppid | schedYield | sysinfo =>
    exact shares_act fun _ hc => Process.own_answer rfl rfl hc _
  | sigtimedwait set timeout => exact shares_act fun _ hc => Process.own_beginWaitAny rfl rfl hc _ _
  | sigwait set => exact shares_act fun _ hc => Process.own_beginWaitAny rfl rfl hc _ _
  | sigsuspend mask => exact shares_act fun _ hc => Process.own_beginSuspend rfl rfl hc rfl
  | fork => exact shares_forkCall hp
  | exit code => exact shares_act fun _ => Process.own_exitCall
  | wait4 selector options => exact shares_act fun _ => Process.own_wait4
  | nanosleep timeout => exact shares_act fun _ hc => Process.own_beginSleep rfl rfl hc _
  | prlimit target resource new => exact shares_prlimit

/-! ## Death -/

theorem blank_of_task {p : Process} (h : p.task = none) : Blank p := by
  intro c hc
  simp [Process.context?, h] at hc

/-- The end of a process: it loses its context, and what comes after is
letting go. -/
theorem finish_cases (src : Source) (pid : Pid) (t : Task) (e : Ending) (ho : s.Ordered) :
    ∃ s₁, Changed (some pid) s s₁ ∧ (∀ q, s₁.process? pid = some q → Blank q) ∧
      Changed none s₁ (s.finish src pid t e) := by
  have hc : Changed (some pid) s (s.conclude src pid e) := changed_conclude
  unfold finish
  dsimp only
  split
  · -- nobody is left to bury
    next hnone => exact ⟨_, hc, fun q hq => by simp [hnone] at hq, .refl⟩
  · next p _ =>
    have hlost : Changed (some pid) s (((s.conclude src pid e).bury src pid p).update pid fun p =>
        { p with task := none }) :=
      (hc.trans changed_bury).act fun p _ =>
        quietly_own id id (Process.quiet_of_subset (fun _ h => h) (by simp))
    refine ⟨_, hlost, fun q hq => ?_, ?_⟩
    · simp only [update, process?_act, if_true] at hq
      obtain ⟨q', -, rfl⟩ := Option.map_eq_some_iff.1 hq
      exact blank_of_task rfl
    · split
      · exact (Changed.refl.note rfl).sweep (hlost.ordered ho)
      · exact Changed.refl.sweep (hlost.ordered ho)

theorem changed_finish {t : Task} {e : Ending} (ho : s.Ordered) :
    Changed (some pid) s (s.finish src pid t e) := by
  obtain ⟨s₁, h, -, h'⟩ := finish_cases src pid t e ho
  exact h.trans h'.mono

/-- **After its end a process is in the midst of nothing**, if it is still known. -/
theorem blank_of_finish {t : Task} {e : Ending} (ho : s.Ordered) {q : Process}
    (hq : (s.finish src pid t e).process? pid = some q) : Blank q := by
  obtain ⟨s₁, h, hblank, h'⟩ := finish_cases src pid t e ho
  -- letting go spares everyone, the process itself included
  rcases (h'.spares (h.ordered ho) (by simp)).known q hq with ⟨p, hp, hd⟩ | hb
  · exact (hblank p hp).disturbed hd
  · exact hb

/-! ## Steps -/

/-- The system goes on in one step of the context of a process, which has not
come back to life by it. -/
def Goes (pid : Pid) (p : Process) (x : Context) (s' : System) : Prop :=
  ∃ q x', s'.process? pid = some q ∧ q.context? = some x' ∧ x.Step p q x' ∧
    (p.status.isExited = true → q.status.isExited = true)

/-- A process that others disturb is still where it was. -/
theorem Changed.context_kept (h : Changed none s s₁) (ho : s.Ordered)
    (hp : s.process? pid = some p) (hc : p.context? = some x) :
    ∃ p₁, s₁.process? pid = some p₁ ∧ p.Disturbed p₁ ∧ p₁.context? = some x := by
  have ht : p.task ≠ none := fun ht => by simp [Process.context?, ht] at hc
  obtain ⟨p₁, hp₁, hd⟩ := (h.spares ho (by simp)).kept p hp ht
  exact ⟨p₁, hp₁, hd, (Process.context?_congr hd.task hd.blocked).trans hc⟩

theorem Shares.goes (h : Shares pid x s s') (ho : s.Ordered) (hx : x.control.isShared = true)
    (hp : s.process? pid = some p) (hc : p.context? = some x) : Goes pid p x s' := by
  obtain ⟨s₁, src, f, h₁, hf, h₂⟩ := h
  obtain ⟨p₁, hp₁, hd, hc₁⟩ := h₁.context_kept ho hp hc
  obtain ⟨x', hx', hstep⟩ := (hf p₁ hc₁).context
  have hp₂ : (s₁.act src pid f).process? pid = some (f p₁).1 := by simp [process?_act, hp₁]
  obtain ⟨q, hq, hdq, hcq⟩ := h₂.context_kept (h₁.ordered ho).act hp₂ hx'
  exact ⟨q, x', hq, hcq, hstep.of_isShared hx p q,
    fun he => hdq.isExited ((hf p₁ hc₁).turn.ended (hd.isExited he))⟩

/-- A turn that concerns others starts no handler. -/
theorem quiet_of_isShared {r : Process × List Event} (h : p.Own pid x r)
    (hc : p.context? = some x) (hx : x.control.isShared = true) : p.Quiet pid r := by
  obtain ⟨fs, c, m⟩ := x
  cases h.turn.outcome with
  | quiet h => exact h
  | entry _ _ _ hcheck =>
    obtain ⟨_, _, _, hcheck⟩ := hcheck
    cases Option.some.inj (hc.symm.trans hcheck)
    simp [Control.isShared] at hx
  | outright _ _ _ ho =>
    rw [Process.outright?_of_context? hc] at ho
    unfold Control.outright? at ho
    split at ho <;> simp [Control.isShared] at ho hx

theorem Shares.changed (h : Shares pid x s s') (ho : s.Ordered) (hx : x.control.isShared = true)
    (hp : s.process? pid = some p) (hc : p.context? = some x) : Changed (some pid) s s' := by
  obtain ⟨s₁, src, f, h₁, hf, h₂⟩ := h
  obtain ⟨p₁, hp₁, -, hc₁⟩ := h₁.context_kept ho hp hc
  refine (h₁.mono.act fun p' hp' => ?_).trans h₂.mono
  obtain rfl : p₁ = p' := Option.some.inj (hp₁.symm.trans hp')
  have hown := hf p₁ hc₁
  exact quietly_own hown.turn.sound hown.turn.ended (quiet_of_isShared hown hc₁ hx)

end System

end PosixSignals
