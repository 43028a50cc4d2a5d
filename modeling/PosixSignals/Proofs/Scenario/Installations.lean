import PosixSignals.Proofs.Process.Installations
import PosixSignals.Proofs.Scenario.Respect

/-!
# Everybody's installations

A move keeps the installations of every process, or it is a step by which a
process manages its own. Whoever comes into being waits for a command, has
nothing installed or what his parent has, and is in no invocation. So what
newcomers have, and managing keeps, holds of every process in every reachable
state: every table has come about by installing and resetting, and
installations are told apart by their numbers.
-/

namespace PosixSignals

namespace System

variable {s s' : System} {own : Option Pid} {pid : Pid} {p q : Process} {m : Move} {src : Source}

/-! ## What a move does -/

/-- **Whatever is done to a process by others keeps its installations.** -/
theorem respected_retains : Respected Process.Retains where
  refl := .refl
  trans := .trans
  generate _ _ _ := Process.disturbed_generate.retains
  exit _ _ _ := Process.shift_exit.disturbed.retains
  stop _ _ _ := Process.shift_stop.disturbed.retains
  resume _ _ := Process.shift_resume.disturbed.retains
  noticeChild p := (Process.disturbed_noticeChild p).retains
  goto c p := (Process.Retains.refl p).goto c
  told _ _ p := (Process.Retains.refl p).enter rfl _
  placed _ _ _ _ := ⟨rfl, rfl, rfl, fun _ h => h⟩
  buried _ := ⟨rfl, rfl, rfl, fun _ h => h⟩
  released _ := ⟨rfl, rfl, rfl, by simp [Process.invocations]⟩

/-- **What a move does about the installations of a process**: it manages them by a step of its
own, or it keeps them. -/
def Managed (m : Move) (pid : Pid) (p q : Process) : Prop :=
  p.Retains q ∨ m = .process pid ∧ ∃ t, p.task = some t ∧ p.Manages t.control q

/-- A `sigaction` installs what it is given, or keeps all. -/
theorem manages_sigaction (number : Nat) (new : Option (Disposition Handler)) :
    p.Manages (.execute (.sigaction number new)) (p.sigaction number new).1 := by
  have hp : p.Retains p := .refl p
  unfold Process.sigaction
  split
  · exact .retains (hp.goto _)
  · next sig hsig =>
    cases new with
    | none => exact .retains (hp.goto _)
    | some new =>
      exact .installs (by rw [Control.installs?, hsig]; rfl) (Process.Retains.goto (.refl _) _)

/-- A change of the mask keeps installations. -/
theorem retains_sigprocmask (how : Nat) (set : Option SignalSet) :
    p.Retains (p.sigprocmask how set) := by
  have hp : p.Retains p := .refl p
  unfold Process.sigprocmask
  split
  · exact hp.goto _
  split
  · exact hp.goto _
  · exact (hp.inbox _).goto _

/-- So does a `wait4` as it begins. -/
theorem retains_wait4 (selector : Int) (options : BitVec 32) :
    p.Retains (p.wait4 selector options).1 := by
  have hp : p.Retains p := .refl p
  unfold Process.wait4
  split
  · exact hp.goto _
  split
  · exact hp.goto _
  split <;> exact hp.goto _

/-- A change of limits keeps everybody's installations. -/
theorem keeps_prlimit (target : Pid) (resource : Nat) (new : Option Limit) :
    Keeps Process.Retains s (s.prlimit src pid target resource new) := by
  have hR : Respected Process.Retains := respected_retains
  rcases s.prlimit_cases src pid target resource new with
    ⟨e, h⟩ | ⟨r, q, e, h⟩ | ⟨r, q, old, limits, h⟩ <;> rw [h]
  · exact hR.answer _
  · exact hR.keeps_trans (hR.note _) (hR.answer _)
  · refine hR.keeps_trans ?_ (hR.answer _)
    exact hR.keeps_trans (hR.note _) (hR.update fun _ => ⟨rfl, rfl, rfl, fun _ h => h⟩)

/-- **No call but `sigaction` touches installations**, of the caller or of others. -/
theorem keeps_execute {call : SystemCall Handler}
    (hc : ∀ number new, call ≠ .sigaction number new) :
    Keeps Process.Retains s (s.execute src pid p call) := by
  have hR : Respected Process.Retains := respected_retains
  cases call with
  | kill recipient number => exact hR.kill recipient number
  | sigaction number new => exact absurd rfl (hc number new)
  | sigprocmask how set => exact hR.update fun _ => retains_sigprocmask how set
  | getpid | getppid | schedYield | sysinfo => exact hR.answer _
  | sigpending | nanosleep => exact hR.update fun p => (Process.Retains.refl p).goto _
  | sigtimedwait | sigwait =>
    exact hR.update fun p => ((Process.Retains.refl p).inbox _).goto _
  | sigsuspend =>
    exact hR.update fun p => (((Process.Retains.refl p).continued false).inbox _).goto _
  | fork => exact hR.forkCall
  | exit code =>
    show Keeps _ s (s.act src pid (·.exitCall pid code))
    refine hR.act fun p => ?_
    exact Process.shift_exit.disturbed.retains.goto _
  | wait4 selector options => exact hR.act fun _ => retains_wait4 selector options
  | prlimit target resource new => exact keeps_prlimit target resource new

/-- **Every move keeps the installations of a process, or is a step by which it manages them.** -/
theorem continues_managed (s : System) (m : Move) : Continues (Managed m) s (s.move m) := by
  have hkept : ∀ {s'}, Keeps Process.Retains s s' → Continues (Managed m) s s' :=
    fun h => h.mono fun _ _ _ => .inl
  cases m with
  | host step => exact hkept (respected_retains.host step)
  | clock t => exact hkept ((respected_retains.keeps_refl s).congr rfl fun _ => rfl)
  | process pid =>
    refine respected_retains.step (fun _ _ _ => .inl)
      (fun p t _ ht _ => .inr ⟨rfl, t, ht, p.manages_step ht⟩) fun src p t call hp ht hc => ?_
    by_cases hsig : ∃ number new, call = .sigaction number new
    · obtain ⟨number, new, rfl⟩ := hsig
      exact continues_alone (fun _ _ => .inl (.refl _)) hp
        (.inr ⟨rfl, t, ht, hc ▸ manages_sigaction number new⟩)
    · exact hkept (keeps_execute fun number new he => hsig ⟨number, new, he⟩)

/-! ## Newcomers -/

/-- Whoever comes into being waits for a command, if he has a context. -/
theorem Changed.waiting (h : Changed own s s') (ho : own ≠ some pid)
    (hnone : s.process? pid = none) (hq : s'.process? pid = some q) : Waiting q.task := by
  induction h generalizing q with
  | refl => simp [hnone] at hq
  | note _ _ ih => exact ih hq
  | wait _ ih => exact ih hq
  | @act s' src other f _ hf ih =>
    rcases process?_act_eq_some.1 hq with ⟨rfl, p, hp, rfl⟩ | ⟨-, hq⟩
    · rw [((hf p hp).disturbed ho).task]
      exact ih hp
    · exact ih hq
  | @birth s' other pids p _ _ hp ih =>
    -- only a birth puts somebody there, and whoever is born is idle
    rw [process?, Registry.get?_insert] at hq
    split at hq
    · obtain rfl := Option.some.inj hq
      exact fun t ht => hp.idle ⟨t.frames, t.control, p.inbox.blocked⟩
        (Process.context?_eq_some.2 ⟨t.root, ht, rfl⟩)
    · exact ih hq
  | drop _ _ ih =>
    obtain ⟨-, p, hp, hsame⟩ := exists_of_process?_drop hq
    have hwaits := ih hp
    obtain rfl | rfl := hsame <;> exact hwaits

/-- Whoever comes into being in a move waits for a command, if he has a context. -/
theorem waiting_of_move (hs : s.Sound) (hnone : s.process? pid = none)
    (hq : (s.move m).process? pid = some q) : Waiting q.task := by
  cases m with
  | clock t => exact absurd (hnone.symm.trans hq) (by simp)
  | process other =>
    change (s.step other).process? pid = some q at hq
    have ho : (some other : Option Pid) ≠ some pid := by
      rintro ⟨⟩
      rw [step_of_none hnone, hnone] at hq
      simp at hq
    rcases step_cases hs other with h | ⟨p, x, src, f, -, -, -, he, -⟩
    · exact h.waiting ho hnone hq
    · rw [he, process?_act, if_neg fun he => ho (congrArg some he.symm), hnone] at hq
      simp at hq
  | host step =>
    change (s.host step).2.process? pid = some q at hq
    refine (changed_host hs step).waiting (fun hf => ?_) hnone hq
    obtain ⟨c, rfl⟩ := command_of_focusOf hf
    change (s.command pid c).2.process? pid = some q at hq
    rcases s.command_cases pid c with he | ⟨p, -, -, -, hp, -⟩
    · simp [he, hnone] at hq
    · simp [hnone] at hp

/-- Whoever waits for a command is in no invocation. -/
theorem invocations_of_waiting (h : Waiting p.task) : p.invocations = [] := by
  cases ht : p.task with
  | none => simp [Process.invocations, ht]
  | some t => simp [Process.invocations, ht, (h t ht).1]

/-! ## In every reachable state -/

/-- **What newcomers have and managing keeps holds of everybody.** -/
theorem Reachable.managed {P : Process → Prop}
    (hborn : ∀ {s : System} {pid q}, s.Newcomer pid q → Waiting q.task →
      (∀ pid p, s.process? pid = some p → P p) → P q)
    (hmanages : ∀ {p q : Process} {c}, p.Manages c q → P p → P q) (h : Reachable s) :
    ∀ pid p, s.process? pid = some p → P p := by
  induction h with
  | initial =>
    intro pid p hp
    simp [System.initial, System.process?, Registry.get?] at hp
  | @move s h m ih =>
    intro pid q hq
    cases hp : s.process? pid with
    | none => exact hborn (newcomer_of_move h.sound hp hq) (waiting_of_move h.sound hp hq) ih
    | some p =>
      rcases (continues_managed s m).move h.sound hp hq with hr | ⟨-, t, -, hm⟩
      · exact hmanages (.retains (c := .idle) hr) (ih pid p hp)
      · exact hmanages hm (ih pid p hp)

/-- A root has nothing installed, and a child starts with the table of its parent. -/
theorem Newcomer.built (h : s.Newcomer pid q)
    (hall : ∀ pid p, s.process? pid = some p → p.dispositions.Built) : q.dispositions.Built := by
  cases h with
  | root => exact .empty
  | child hp =>
    have hparent := hall _ _ hp
    exact hparent

/-- **Every table of every reachable state came about by installing and resetting.** -/
theorem Reachable.built (h : Reachable s) :
    ∀ pid p, s.process? pid = some p → p.dispositions.Built :=
  h.managed (fun hn _ => hn.built) Process.Manages.built

/-- A root has nothing to tell apart, and a child the installations of its parent. -/
theorem Newcomer.distinct (h : s.Newcomer pid q) (hw : Waiting q.task)
    (hall : ∀ pid p, s.process? pid = some p → p.Distinct) : q.Distinct := by
  have hnone : ∀ {sig id}, (sig, id) ∈ q.invocations → False := fun hi => by
    simp [invocations_of_waiting hw] at hi
  cases h with
  | root name task =>
    have hempty : ∀ {sig action},
        (Process.root pid name task).dispositions.get sig = .handler action → False := fun hd => by
      rw [show (Process.root pid name task).dispositions = .empty from rfl,
        DispositionTable.get_empty] at hd
      simp at hd
    exact ⟨fun hd => (hempty hd).elim, fun hd => (hempty hd).elim, fun hi => (hnone hi).elim⟩
  | child hp task =>
    have hparent := hall _ _ hp
    exact ⟨hparent.below, hparent.once, fun hi => (hnone hi).elim⟩

/-- **In every reachable state installations are told apart**, in every process. -/
theorem Reachable.distinct (h : Reachable s) :
    ∀ pid p, s.process? pid = some p → p.Distinct :=
  h.managed Newcomer.distinct Process.Manages.distinct

end System

end PosixSignals
