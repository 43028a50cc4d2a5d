import Mathlib.Algebra.Module.Submodule.Lattice
import Mathlib.Computability.Primrec.List
import Mathlib.Computability.TuringMachine.StackTuringMachine
import Mathlib.Data.Fin.Tuple.Take
import Mathlib.Data.List.Permutation
import Mathlib.Logic.Relation
import PosixSignals.Scenario.Run
import PosixSignals.Proofs.System.Invariant

/-!
# Moves

A run is made of steps of processes, steps of the outside and the passing
of time. Every move keeps the system sound. To a process in the midst of
something a move is either its own step or no more than a disturbance, for
the outside commands idle processes only.

Some runs of fixed moves are evaluated further on. The library files imported
here besides `Relation` are those that hold the equations this goes by, of
`LE.le`, `List.lookup`, `List.tail`, `Fin.cast` and `Prod.snd`.
-/

namespace PosixSignals

/-- Whether a move is a step of this process. -/
def Move.isStepOf (pid : Pid) : Move → Bool
  | .process q => q == pid
  | _ => false

theorem Move.isStepOf_self (pid : Pid) : (Move.process pid).isStepOf pid = true :=
  beq_self_eq_true pid

theorem Move.isStepOf_of_ne {pid : Pid} {m : Move} (h : m ≠ .process pid) :
    m.isStepOf pid = false := by
  cases m with
  | process q => exact beq_false_of_ne fun he => h (he ▸ rfl)
  | host | clock => rfl

namespace System

variable {s s' : System} {own : Option Pid} {pid pid' : Pid} {p q : Process} {x : Context}

/-! ## A step of the outside -/

/-- The main routine of a process is told what to do next. -/
inductive Told : Context → Context → Prop
  | perform {fs m keep request} :
      Told ⟨fs, .idle, m⟩ ⟨.main keep :: fs, .perform request, m⟩
  | finish {fs m e} : Told ⟨fs, .idle, m⟩ ⟨fs, .finish e, m⟩

/-- To be told what to do leaves a sound context sound. -/
theorem Told.sound {x' : Context} (h : Told x x') (hx : x.Sound) : x'.Sound := by
  cases h with
  | @perform fs m keep request =>
    obtain rfl : fs = [] := hx.fits
    exact ⟨⟨rfl, trivial⟩, rfl, hx.blockable, hx.savedBlockable⟩
  | finish => exact ⟨hx.stacked, hx.fits, hx.blockable, hx.savedBlockable⟩

/-- A command reaches an idle main routine, or changes nothing. -/
theorem command_cases (s : System) (pid : Pid) (c : Command) :
    (s.command pid c).2 = s ∨
      ∃ p x x' f, s.process? pid = some p ∧ p.context? = some x ∧ Told x x' ∧
        (s.command pid c).2 = s.update pid f ∧ (f p).context? = some x' ∧
        (∀ p, (f p).inbox = p.inbox) ∧ ∀ p, (f p).status = p.status := by
  unfold command
  split
  · exact .inl rfl
  · next t ht =>
    obtain ⟨p, hp, ht⟩ := Option.bind_eq_some_iff.1 ht
    obtain ⟨fs, c', root⟩ := t
    split
    · exact .inl rfl
    · next hi =>
      obtain rfl : c' = .idle := by cases c' <;> simp [Task.isIdle] at hi ⊢
      have hx : p.context? = some ⟨fs, .idle, p.inbox.blocked⟩ :=
        Process.context?_eq_some.2 ⟨root, ht, rfl⟩
      right
      cases c with
      | perform i =>
        exact ⟨p, _, _, _, hp, hx, .perform, rfl, by simp [hx]; exact ⟨rfl, rfl⟩, fun _ => rfl,
          fun _ => rfl⟩
      | finish code =>
        exact ⟨p, _, _, _, hp, hx, .finish, rfl, by simp [hx]; rfl, fun _ => rfl, fun _ => rfl⟩

/-- A command shows as what the main routine was told, or not at all. -/
theorem context?_of_command {c : Command} (h : (s.command pid c).2.context? pid = some x) :
    s.context? pid = some x ∨
      ∃ p x₀, s.process? pid = some p ∧ p.context? = some x₀ ∧ Told x₀ x := by
  rcases s.command_cases pid c with he | ⟨p, x₀, x', f, hp, hx₀, htold, he, hx', -, -⟩
  · exact .inl (he ▸ h)
  · rw [he] at h
    obtain ⟨q, hq, hqx⟩ := context?_eq_some.1 h
    obtain rfl : f p = q := by simpa [update, process?_act, hp] using hq
    obtain rfl : x' = x := Option.some.inj (hx'.symm.trans hqx)
    exact .inr ⟨p, x₀, hp, hx₀, htold⟩

/-- The outside acts for a process only by commanding it. -/
theorem command_of_focusOf {step : HostStep} (h : focusOf step = some pid) :
    ∃ c, step = .command pid c := by
  cases step <;> simp [focusOf] at h
  exact ⟨_, by rw [h]⟩

/-! ## What the outside does -/

/-- What a command makes of an idle process. -/
def commanded : Command → Process → Process
  | .perform i, p => p.enter (.main i.keep) (.perform i.request)
  | .finish code, p => p.goto (.finish (.code code))

@[simp] theorem inbox_commanded (c : Command) (p : Process) : (commanded c p).inbox = p.inbox := by
  cases c <;> rfl

@[simp] theorem status_commanded (c : Command) (p : Process) :
    (commanded c p).status = p.status := by
  cases c <;> rfl

/-- **What a step of the outside does to the system**, and what it takes. -/
inductive Intervention (s : System) : HostStep → System → Prop
  /-- The step only asks, or is not possible. -/
  | nothing {step : HostStep} : Intervention s step s
  | told {pid : Pid} {c : Command} : Intervention s (.command pid c) (s.update pid (commanded c))
  | founded {name : String} :
      Intervention s (.root name) (s.addRoot .host name (some { root := true })).2
  /-- A refusal is noted. -/
  | refused {name : String} : Intervention s (.root name)
      ((s.addRoot .host name (some { root := true })).2.note .host (.rootRefused .again))
  | started {name : String} {n : Nat} : Intervention s (.newRoots name n) (s.addRoots name n).2
  | forked {pid : Pid} {p : Process} (hp : s.process? pid = some p)
      (hl : s.listed? pid = some p) : Intervention s (.fork pid) (s.fork .host pid p none).2
  | sent {pid : Pid} {info : SignalInfo} :
      Intervention s (.send pid info) (s.act .host pid (·.generate pid info))
  | removed {pid : Pid} : Intervention s (.remove pid) (s.unlist pid).sweep
  | exited {pid : Pid} {w : WaitStatus} :
      Intervention s (.exit pid w) (s.act .host pid fun p => p.orStay (p.exit pid w))
  | stopped {pid : Pid} {sig : Signal} :
      Intervention s (.stop pid sig) (s.act .host pid fun p => p.orStay (p.stop pid sig))
  | resumed {pid : Pid} :
      Intervention s (.resume pid) (s.act .host pid fun p => p.orStay (p.resume pid))
  | reaped {pid : Pid} {p : Process} {child : Pid} {selector : Int} {w : WaitStatus}
      (hr : s.ready? p selector = .ok (some (child, w))) :
      Intervention s (.reap pid selector) (s.disown pid child).sweep

/-- A change that is tried is made of whoever is in the table, or nothing happens. -/
theorem tryChange_cases (s : System) (pid : Pid)
    (change : Process → Option (Process × List Event)) :
    (s.tryChange pid change).2 = s ∨
      (s.tryChange pid change).2 = s.act .host pid fun p => p.orStay (change p) := by
  unfold tryChange
  split
  · exact .inl rfl
  split
  · exact .inl rfl
  · exact .inr rfl

/-- **A step of the outside** is all that it can be. -/
theorem intervention (s : System) (step : HostStep) : s.Intervention step (s.host step).2 := by
  unfold host
  cases step with
  | command pid c =>
    dsimp only
    unfold command
    split
    · exact .nothing
    split
    · exact .nothing
    · cases c <;> exact .told
  | outside request => cases request <;> exact .nothing
  | root name =>
    have hfounded : Intervention s (.root name) _ := .founded
    have hrefused : Intervention s (.root name) _ := .refused
    dsimp only
    split <;> next he =>
      rw [he] at hfounded hrefused
      first | exact hfounded | exact hrefused
  | newRoots name n => exact .started
  | fork pid =>
    dsimp only
    split
    · exact .nothing
    · next p hl =>
      have hforked : Intervention s (.fork pid) _ := .forked (Option.filter_eq_some_iff.1 hl).1 hl
      split <;> next he => rw [he] at hforked; exact hforked
  | send pid info =>
    dsimp only
    split
    · exact .nothing
    · exact .sent
  | remove pid => exact .removed
  | exit pid w =>
    rcases s.tryChange_cases pid (·.exit pid w) with h | h <;> dsimp only <;> rw [h]
    · exact .nothing
    · exact .exited
  | stop pid sig =>
    rcases s.tryChange_cases pid (·.stop pid sig) with h | h <;> dsimp only <;> rw [h]
    · exact .nothing
    · exact .stopped
  | resume pid =>
    rcases s.tryChange_cases pid (·.resume pid) with h | h <;> dsimp only <;> rw [h]
    · exact .nothing
    · exact .resumed
  | reap pid selector =>
    dsimp only
    split
    · exact .nothing
    split
    · exact .nothing
    · exact .nothing
    · next hr => exact .reaped hr
  | get pid | limits pid =>
    dsimp only
    unfold inspect
    split <;> exact .nothing
  | group pgid | live => exact .nothing

/-- Starting several processes is starting one after another. -/
theorem addRoots_induct {motive : System → Prop} {name : String} (h : motive s)
    (hstart : ∀ s, motive s → motive (s.addRoot .host name none).2) (n : Nat) :
    motive (s.addRoots name n).2 := by
  induction n generalizing s with
  | zero => exact h
  | succ n ih => exact ih (hstart s h)

/-- Roots are started one after the other. -/
theorem changed_addRoots {name : String} (n : Nat) : Changed own s (s.addRoots name n).2 :=
  addRoots_induct .refl (fun _ h => h.trans (changed_addRoot fun _ ht => by simp at ht)) n

/-- A change of status from outside disturbs whoever it is tried on. -/
theorem changed_shift {change : Process → Option (Process × List Event)}
    (h : ∀ p c, change p = some c → p.Shift pid c) :
    Changed own s (s.act .host pid fun p => p.orStay (change p)) :=
  Changed.refl.disturb (fun p => (Process.shift_orStay (h p)).disturbed)
    fun p => (Process.shift_orStay (h p)).quiet

/-- **The outside acts for the process it commands, and for nobody else.** -/
theorem changed_host (hs : s.Sound) (step : HostStep) :
    Changed (focusOf step) s (s.host step).2 := by
  have hfounded : ∀ {name}, Changed none s (s.addRoot .host name (some { root := true })).2 :=
    changed_addRoot fun t ht => Option.some.inj ht ▸ ⟨rfl, rfl⟩
  have hstep := s.intervention step
  generalize (s.host step).2 = s' at hstep ⊢
  cases hstep with
  | nothing => exact .refl
  | told =>
    exact Changed.refl.act fun p _ => quietly_own (by simp) (by simp)
      (Process.quiet_of_subset (by simp) (by simp))
  | founded => exact hfounded
  | refused => exact hfounded.note rfl
  | started => exact changed_addRoots _
  | forked hp => exact changed_fork (fun _ ht => by simp at ht) (hs.inboxes _ _ hp)
  | sent => exact changed_generate
  | removed => exact changed_unlist.sweep hs.ordered
  | exited => exact changed_shift fun _ _ => Process.shift_of_exit
  | stopped => exact changed_shift fun _ _ => Process.shift_of_stop
  | resumed => exact changed_shift fun _ _ => Process.shift_of_resume
  | reaped => exact changed_disown.sweep hs.ordered

/-! ## All moves -/

/-- Nobody acts when time passes. -/
theorem changed_waitUntil (t : Nat) : Changed none s (s.waitUntil t) := .wait .refl

/-- **The outside keeps the system sound.** -/
theorem Sound.host (hs : s.Sound) (step : HostStep) : (s.host step).2.Sound := by
  have h := changed_host hs step
  cases hf : focusOf step with
  | none => exact (hf ▸ h).sound hs
  | some pid =>
    obtain ⟨c, rfl⟩ := command_of_focusOf hf
    refine ⟨h.ordered hs.ordered, h.inboxesSound hs.inboxes, fun pid' y hy => ?_⟩
    by_cases hne : pid' = pid
    · subst hne
      rcases context?_of_command hy with hy | ⟨p, x, hp, hx, htold⟩
      · exact hs.contexts pid' y hy
      · exact htold.sound (hs.contexts pid' x (context?_eq_some.2 ⟨p, hp, hx⟩))
    · exact (h.spares hs.ordered (by simpa [hf] using Ne.symm hne)).sound hs
        (h.inboxesSound hs.inboxes) hy

/-- **Every move keeps the system sound.** -/
theorem Sound.move (hs : s.Sound) (m : Move) : (s.move m).Sound := by
  cases m with
  | process pid => exact hs.step pid
  | host step => exact hs.host step
  | clock t => exact (changed_waitUntil t).sound hs

/-- **Every reachable state is sound.** -/
theorem Reachable.sound (h : Reachable s) : s.Sound := by
  induction h with
  | initial => exact sound_initial
  | move _ m ih => exact ih.move m

/-- **Whoever is in the midst of something is spared by the moves of others.** -/
theorem spares_of_move (hs : s.Sound) (hx : s.context? pid = some x) (hc : x.control ≠ .idle)
    {m : Move} (hm : m ≠ .process pid) : Spares pid s (s.move m) := by
  cases m with
  | process pid' => exact spares_of_step hs fun he => hm (he ▸ rfl)
  | clock t => exact (changed_waitUntil t).spares hs.ordered (by simp)
  | host step =>
    by_cases hf : focusOf step = some pid
    · obtain ⟨c, rfl⟩ := command_of_focusOf hf
      change Spares pid s (s.command pid c).2
      rcases s.command_cases pid c with he | ⟨p, y, y', f, hp, hy, htold, -⟩
      · rw [he]
        exact .refl pid s
      · obtain rfl : y = x := by simpa [context?, hp, hy] using hx
        cases htold <;> exact absurd rfl hc
    · exact (changed_host hs step).spares hs.ordered hf

/-- **A move as one process sees it** that is neither idle nor at its end: its
own step, or a disturbance. -/
theorem move_cases (hs : s.Sound) (hp : s.process? pid = some p) (hx : p.context? = some x)
    (hi : x.control ≠ .idle) (hf : ∀ e, x.control ≠ .finish e) (m : Move) :
    (m = .process pid ∧ Goes pid p x (s.move m)) ∨
      m ≠ .process pid ∧ ∃ q, (s.move m).process? pid = some q ∧ p.Disturbed q := by
  by_cases hm : m = .process pid
  · subst hm
    exact .inl ⟨rfl, goes_of_step hs hp hx hf⟩
  · refine .inr ⟨hm, ?_⟩
    have ht : p.task ≠ none := fun ht => by simp [Process.context?, ht] at hx
    exact (spares_of_move hs (context?_eq_some.2 ⟨p, hp, hx⟩) hi hm).kept p hp ht

/-! ## Runs in parts -/

/-- A run is made in parts. -/
theorem run_append (s : System) (moves moves' : List Move) :
    s.run (moves ++ moves') = (s.run moves).run moves' :=
  List.foldl_append

/-- The last move of a run is one after the others. -/
theorem run_concat (s : System) (moves : List Move) (m : Move) :
    s.run (moves ++ [m]) = (s.run moves).move m :=
  run_append _ _ _

/-! ## Runs that are given move by move -/

section Checks

variable {σ : Type} {next : σ → Move → σ} {ok : σ → Move → Bool} {a : σ}

/-- Whether every move of a list passes a test, each in the state it is made in. -/
def checks (next : σ → Move → σ) (ok : σ → Move → Bool) (a : σ) : List Move → Bool
  | [] => true
  | m :: moves => ok a m && checks next ok (next a m) moves

/-- What is checked of each move of a run holds along the closure of these moves. -/
theorem reflTransGen_of_checks {moves : List Move} (h : checks next ok a moves = true) :
    Relation.ReflTransGen (fun a b => ∃ m, b = next a m ∧ ok a m = true) a
      (moves.foldl next a) := by
  induction moves generalizing a with
  | nil => exact .refl
  | cons m moves ih =>
    obtain ⟨hm, hrest⟩ := Bool.and_eq_true_iff.1 h
    exact .head ⟨m, rfl, hm⟩ (ih hrest)

end Checks

end System

end PosixSignals
