import PosixSignals.Proofs.Scenario.Respect

/-!
# Who leaves limits alone

There is one call that changes limits. Whatever else a process does or others
do to it, with signals, births, ends and reapings, keeps the limits of all
who are known; and so does every move of the outside.
-/

namespace PosixSignals

namespace Process

variable {p : Process} {pid : Pid} {r : Process × List Event}

/-- A change of status keeps the limits. -/
theorem Shift.limits (h : p.Shift pid r) : r.1.limits = p.limits := by
  cases h <;> rfl

/-- So does all that a generation is made of. -/
theorem carried_limits {info : SignalInfo} :
    Carried pid info fun p c => c.1.limits = p.limits where
  append h h' := h'.trans h
  shift := Shift.limits
  receive _ := rfl
  wake _ := rfl
  dropped _ := rfl

/-- So a signal keeps them. -/
theorem limits_generate (info : SignalInfo) : (p.generate pid info).1.limits = p.limits :=
  carried_limits.generate p

/-- Limits are part of the standing. -/
theorem limits_of_standing {q : Process} (h : q.standing = p.standing) : q.limits = p.limits :=
  congrArg Standing.limits h

/-- Conduct keeps them. -/
theorem observed_limits : Observed pid fun p q => q.limits = p.limits where
  trans h h' := h'.trans h
  standing := limits_of_standing
  without _ _ := rfl
  shift := Shift.limits

end Process

namespace System

variable {s : System} {pid : Pid} {p : Process} {src : Source}
  {f : Process → Process × List Event}

/-- **The limits of everybody known are kept.** -/
abbrev KeepsLimits : System → System → Prop := Keeps fun p q => q.limits = p.limits

/-- **Everything that is done to a process by others keeps its limits.** -/
theorem respected_limits : Respected fun p q => q.limits = p.limits where
  refl _ := rfl
  trans h h' := h'.trans h
  generate _ info _ := Process.limits_generate info
  exit _ _ _ := Process.shift_exit.limits
  stop _ _ _ := Process.shift_stop.limits
  resume _ _ := Process.shift_resume.limits
  noticeChild _ := rfl
  goto _ _ := rfl
  told _ _ _ := rfl
  placed _ _ _ _ := rfl
  buried _ := rfl
  released _ := rfl

/-- What a caller does mildly keeps everybody's. -/
theorem keepsLimits_mild (hf : ∀ p : Process, p.Mild pid (f p)) :
    KeepsLimits s (s.act src pid f) :=
  respected_limits.act fun p => Process.observed_limits.mild (hf p)

/-- **No call but `prlimit` changes limits.** -/
theorem keepsLimits_execute {call : SystemCall Handler}
    (hc : ∀ target number new, call ≠ .prlimit target number new) :
    KeepsLimits s (s.execute src pid p call) := by
  cases call with
  | kill recipient number => exact respected_limits.kill recipient number
  | sigaction number new => exact keepsLimits_mild fun _ => Process.mild_sigaction number new
  | sigprocmask how set => exact keepsLimits_mild fun _ => Process.mild_sigprocmask how set
  | getpid | getppid | schedYield | sysinfo => exact respected_limits.answer _
  | sigpending | sigtimedwait | sigwait | sigsuspend | nanosleep =>
    exact respected_limits.update fun _ => rfl
  | fork => exact respected_limits.forkCall
  | exit code => exact keepsLimits_mild fun _ => Process.mild_exitCall code
  | wait4 selector options => exact keepsLimits_mild fun _ => Process.mild_wait4 selector options
  | prlimit target number new => exact absurd rfl (hc target number new)

/-! ## Moves -/

/-- A process is about to ask for a limit, and perhaps to replace it. -/
def Requests (s : System) (pid target : Pid) (number : Nat) (new : Option Limit) : Prop :=
  ∃ p t, s.process? pid = some p ∧ p.task = some t ∧
    t.control = .execute (.prlimit target number new)

/-- A step that is no `prlimit` keeps everybody's limits. -/
theorem keepsLimits_step (hs : s.Sound)
    (hr : ∀ target number new, ¬s.Requests pid target number new) : KeepsLimits s (s.step pid) := by
  refine respected_limits.step (fun _ _ _ => id) (fun p t hp ht hl => ?_)
    fun _ p t call hp ht hc => keepsLimits_execute fun target number new he =>
      hr target number new ⟨p, t, hp, ht, he ▸ hc⟩
  obtain ⟨q, u, hq, hu, -, -, hconduct⟩ := alone_of_not_isShared hs hp ht hl
  obtain rfl := Option.some.inj (hp.symm.trans hq)
  obtain rfl := Option.some.inj (ht.symm.trans hu)
  exact Process.observed_limits.conduct hconduct

/-- **A move keeps everybody's limits**, unless it is of a process that asks for one. -/
theorem keepsLimits_move (hs : s.Sound) (m : Move) : KeepsLimits s (s.move m) ∨
    ∃ caller target number new, m = .process caller ∧ s.Requests caller target number new := by
  cases m with
  | process caller =>
    by_cases hr : ∃ target number new, s.Requests caller target number new
    · obtain ⟨target, number, new, hr⟩ := hr
      exact .inr ⟨caller, target, number, new, rfl, hr⟩
    · exact .inl (keepsLimits_step hs fun target number new h => hr ⟨target, number, new, h⟩)
  | host step => exact .inl (respected_limits.host step)
  | clock t => exact .inl ((respected_limits.keeps_refl s).congr rfl fun _ => rfl)

end System

end PosixSignals
