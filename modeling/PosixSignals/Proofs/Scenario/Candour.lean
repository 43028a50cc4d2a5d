import PosixSignals.Proofs.Process.Candour
import PosixSignals.Proofs.Scenario.Reaping

/-!
# Candid runs

On a run on which no routine makes up that it must exit, every process is
candid at every moment. Its own steps keep it so: alone it puts no `BREAK` into
its task before it has ended, and of the steps that concern others only `exit`
answers with `BREAK`, which ends it, and a wait for children that finds it
ended. What others do neither shows in its task nor brings it back to life.
-/

namespace PosixSignals

namespace System

variable {s s' : System} {pid : Pid} {p q : Process} {x : Context} {src : Source}

/-- **Whether nobody makes up `BREAK`** by a move: no routine fails with it of its own
accord while its process has not ended. -/
def truthful (s : System) : Move → Bool
  | .process pid =>
    !(s.process? pid).any fun p => p.task.any (·.control.feigns) && !p.status.isExited
  | _ => true

/-- Every process is candid. -/
def Candid (s : System) : Prop := ∀ pid p, s.process? pid = some p → p.Candid

theorem candid_initial : initial.Candid := fun _ _ hp => by
  simp [initial, process?, Registry.get?] at hp

/-! ## What others do -/

theorem Blank.candid (h : Blank p) : p.Candid := fun t ht hb => by
  obtain ⟨fs, c, root⟩ := t
  obtain ⟨rfl, rfl⟩ : fs = [] ∧ c = .idle :=
    h ⟨fs, c, p.inbox.blocked⟩ (Process.context?_eq_some.2 ⟨root, ht, rfl⟩)
  cases hb

/-- Whoever is spared stays candid, and the newborn are. -/
theorem Spares.candid (h : Spares pid s s') (hc : s.Candid) (hq : s'.process? pid = some q) :
    q.Candid := by
  rcases h.known q hq with ⟨p, hp, hd⟩ | hb
  · exact (hc pid p hp).disturbed hd
  · exact hb.candid

/-- A command is no `BREAK`. -/
theorem candid_of_command {c : Command} (hc : s.Candid)
    (hq : (s.command pid c).2.process? pid = some q) : q.Candid := by
  unfold command at hq
  split at hq
  · exact hc pid q hq
  split at hq
  · exact hc pid q hq
  simp only [update, process?_act, if_true] at hq
  obtain ⟨p, hp, rfl⟩ := Option.map_eq_some_iff.1 hq
  cases c with
  | perform i => exact (hc pid p hp).enter rfl rfl
  | finish code => exact (hc pid p hp).goto rfl

/-! ## What a process does -/

theorem mustExit_of_change {l : Limits} {r : Resource} {new : Option Limit} {e : Errno}
    (h : l.change r new = .error e) : mustExit (.error e) = false := by
  unfold Limits.change at h
  split at h
  · cases h
  split at h
  · cases h
    rfl
  split at h <;> cases h
  rfl

/-- **Of the bodies of the system calls** only that of `exit` says `BREAK`, and the caller has
ended then. -/
theorem isExited_of_execute {call : SystemCall Handler} (hp : s.process? pid = some p)
    (hq : (s.execute src pid p call).process? pid = some q) (hx : q.context? = some x)
    (hb : x.control.bidsExit = true) : q.status.isExited = true := by
  have hgoto : ∀ {p : Process} {c : Control}, q = p.goto c → c.bidsExit = false →
      q.status.isExited = true := by
    rintro p c rfl hc
    rw [Process.control_of_goto hx, hc] at hb
    cases hb
  have hanswer : ∀ {u : System} {r : Reply}, (u.answer pid r).process? pid = some q →
      mustExit r = false → q.status.isExited = true := by
    intro u r hq hr
    rw [context?_of_answer hq hx] at hb
    exact absurd hb (by simp [Control.bidsExit, hr])
  cases call with
  | kill recipient number =>
    simp only [execute, kill] at hq
    split at hq
    · split at hq <;> exact hanswer hq rfl
    split at hq
    · exact hanswer hq rfl
    split at hq <;> exact hanswer hq rfl
  | sigaction number new =>
    have he : q = (p.sigaction number new).1 := eq_of_process?_act hp hq
    unfold Process.sigaction at he
    split at he
    · exact hgoto he rfl
    · exact hgoto he rfl
  | sigprocmask how set =>
    have he : q = p.sigprocmask how set := eq_of_process?_act hp hq
    unfold Process.sigprocmask at he
    split at he
    · exact hgoto he rfl
    split at he <;> exact hgoto he rfl
  | sigpending | sigtimedwait | sigwait | sigsuspend | nanosleep =>
    exact hgoto (eq_of_process?_act hp hq) rfl
  | fork =>
    simp only [execute, forkCall] at hq
    split at hq <;> exact hanswer hq rfl
  | exit code =>
    rw [eq_of_process?_act hp hq]
    exact Process.isExited_of_exit
  | wait4 selector options =>
    rw [eq_of_process?_act hp hq] at hx
    rcases control_of_wait4 hx with ⟨e, hne, he⟩ | ⟨noHang, he⟩
    · rw [he] at hb
      exact absurd hb (by simp [Control.bidsExit, mustExit_error hne])
    · rw [he] at hb
      cases hb
  | getpid | getppid | schedYield | sysinfo => exact hanswer hq rfl
  | prlimit target resource new =>
    simp only [execute, prlimit] at hq
    split at hq
    · exact hanswer hq rfl
    split at hq
    · exact hanswer hq rfl
    split at hq
    · next e he => exact hanswer hq (mustExit_of_change he)
    · exact hanswer hq rfl

/-- **A step that concerns others** leaves the frames as they are, so that what goes on then
decides. -/
theorem candid_of_isShared (hs : s.Sound) (hc : s.Candid) (hp : s.process? pid = some p)
    (hx : p.context? = some x) (hl : x.control.isShared = true) (hf : ∀ e, x.control ≠ .finish e)
    (hq : (s.step pid).process? pid = some q) : q.Candid := by
  obtain ⟨root, ht, -⟩ := Process.context?_eq_some.1 hx
  obtain ⟨q', y, hq', hy, hstep, hkeep⟩ := goes_of_step hs hp hx hf
  obtain rfl := Option.some.inj (hq.symm.trans hq')
  obtain ⟨root', htq, -⟩ := Process.context?_eq_some.1 hy
  intro t ht' hb
  obtain rfl := Option.some.inj (htq.symm.trans ht')
  rcases Bool.or_eq_true_iff.1 hb with hcontrol | hframes
  · -- who is told so now has ended before or by this step
    obtain ⟨frames, c, m⟩ := x
    cases c with
    | execute call =>
      rw [step_of_execute hp ht rfl] at hq
      exact isExited_of_execute hp hq hy hcontrol
    | loop l =>
      cases l with
      | wait4 selector noHang =>
        rw [step_of_wait4 hp ht rfl] at hq
        rcases control_of_look hs.ordered hp (by simp [ht]) hq hy with ⟨l, he⟩ | ⟨r, he, -, hr⟩
        · rw [he] at hcontrol
          cases hcontrol
        · rw [he] at hcontrol
          exact hkeep (hr hcontrol)
      | check | waitAny | suspend | sleep => simp [Control.isShared] at hl
    | finish e => exact absurd rfl (hf e)
    | idle | perform | proceed | blocked | reply | panic => simp [Control.isShared] at hl
  · rw [frames_of_isShared hstep hl] at hframes
    exact hkeep (hc pid p hp _ ht (Bool.or_eq_true_iff.2 (.inr hframes)))

/-- **A step of a process keeps it candid**, unless its routine makes up `BREAK`. -/
theorem candid_of_step (hs : s.Sound) (hc : s.Candid) (hm : s.truthful (.process pid) = true)
    (hq : (s.step pid).process? pid = some q) : q.Candid := by
  cases hp : s.process? pid with
  | none =>
    rw [step_of_none hp, hp] at hq
    cases hq
  | some p =>
  cases ht : p.task with
  | none =>
    rw [step_of_task_eq_none hp ht] at hq
    exact hc pid q hq
  | some t =>
  have hx : p.context? = some ⟨t.frames, t.control, p.inbox.blocked⟩ :=
    Process.context?_eq_some.2 ⟨t.root, ht, rfl⟩
  by_cases hf : ∃ e, t.control = .finish e
  · obtain ⟨e, hf⟩ := hf
    exact (blank_of_step hs hp hx hf hq).candid
  have hf : ∀ e, t.control ≠ .finish e := fun e he => hf ⟨e, he⟩
  cases hl : t.control.isShared with
  | true => exact candid_of_isShared hs hc hp hx hl hf hq
  | false =>
  cases he : p.status.isExited with
  | true =>
    obtain ⟨q', -, hq', -, -, hkeep⟩ := goes_of_step hs hp hx hf
    obtain rfl := Option.some.inj (hq.symm.trans hq')
    exact Process.candid_of_isExited (hkeep he)
  | false =>
    have hfeigns : t.control.feigns = false := by
      simpa [truthful, hp, ht, he] using hm
    rw [step_of_not_isShared hp ht hl] at hq
    obtain rfl := eq_of_process?_act hp hq
    exact (((hc pid p hp).unbidden he).step ht he hfeigns).candid

/-! ## Runs -/

/-- **A truthful move keeps everybody candid.** -/
theorem Candid.move (hc : s.Candid) (hs : s.Sound) {m : Move} (hm : s.truthful m = true) :
    (s.move m).Candid := by
  intro pid q hq
  cases m with
  | process pid' =>
    by_cases hne : pid = pid'
    · subst hne
      exact candid_of_step hs hc hm hq
    · exact (spares_of_step hs hne).candid hc hq
  | host step =>
    by_cases hf : focusOf step = some pid
    · obtain ⟨c, rfl⟩ := command_of_focusOf hf
      exact candid_of_command hc hq
    · exact ((changed_host hs step).spares hs.ordered hf).candid hc hq
  | clock t => exact ((changed_waitUntil t).spares hs.ordered (by simp)).candid hc hq

/-- **Where nobody makes up `BREAK` everybody is candid.** -/
theorem RunOf.candid (h : RunOf truthful s) : s.Candid := by
  induction h with
  | initial => exact candid_initial
  | move h hm ih => exact ih.move h.reachable.sound hm

end System

end PosixSignals
