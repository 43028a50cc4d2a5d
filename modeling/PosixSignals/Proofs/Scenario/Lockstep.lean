import Mathlib.Logic.Relation
import PosixSignals.Proofs.Scenario.Moves

/-!
# Lockstep

In a run in lockstep the process that has begun goes on for as long as it
can, another one begins only then, and time passes and the outside acts
only when nobody can go on. Settling goes by these rules, so a scenario is
a run in lockstep whenever each of its steps comes to rest. What the rules
give is that at most one process is in the midst of anything: all others
are idle or blocked, and nobody can get in between two steps of the one.
-/

namespace PosixSignals

/-- Whose move it is. -/
def Move.focus : Move → Option Pid
  | .process pid => some pid
  | .host step => System.focusOf step
  | .clock _ => none

namespace System

variable {s s' : System} {pid : Pid} {focus : Option Pid} {x : Context}

/-- Whether a move can be made now, if `focus` moved last. -/
def InTurn (s : System) (focus : Option Pid) : Move → Prop
  | .process pid => pid ∈ s.runnable ∧ ∀ q ∈ focus, q ∈ s.runnable → q = pid
  | .host _ | .clock _ => s.runnable = []

/-- **One move of a run in lockstep**, and who moved last. -/
def Lockstep (a b : System × Option Pid) : Prop :=
  ∃ m : Move, a.1.InTurn a.2 m ∧ b = (a.1.move m, m.focus)

/-! ## Scenarios -/

theorem runnable_of_next? (h : s.next? focus = none) : s.runnable = [] := by
  unfold next? at h
  split at h
  · simp at h
  · exact List.head?_eq_none_iff.1 h

theorem inTurn_of_next? (h : s.next? focus = some pid) : s.InTurn focus (.process pid) := by
  unfold next? at h
  split at h
  · next q hq =>
    obtain rfl : q = pid := Option.some.inj h
    obtain ⟨rfl, hc⟩ := Option.filter_eq_some_iff.1 hq
    exact ⟨List.contains_iff_mem.1 hc, fun q hq _ => (Option.some.inj hq).symm⟩
  · next hnone =>
    refine ⟨List.mem_of_head? h, fun q hq hr => ?_⟩
    have hnot : q ∉ s.runnable := by simpa using Option.filter_eq_none_iff.1 hnone q hq
    exact absurd hr hnot

/-- **Settling is a run in lockstep.** -/
theorem lockstep_settleFrom (s : System) (focus : Option Pid) (n : Nat) :
    ∃ focus', Relation.ReflTransGen Lockstep (s, focus) (s.settleFrom n focus, focus') := by
  induction n generalizing s focus with
  | zero => exact ⟨focus, .refl⟩
  | succ n ih =>
    unfold settleFrom
    split
    · next pid hn =>
      obtain ⟨focus', h⟩ := ih (s.step pid) (some pid)
      exact ⟨focus', .head ⟨.process pid, inTurn_of_next? hn, rfl⟩ h⟩
    next hn =>
    split
    · next t _ =>
      obtain ⟨focus', h⟩ := ih (s.waitUntil t) none
      exact ⟨focus', .head ⟨.clock t, runnable_of_next? hn, rfl⟩ h⟩
    · exact ⟨focus, .refl⟩

theorem lockstep_advance (hs : s.runnable = []) (focus : Option Pid) (step : HostStep) :
    ∃ focus', Relation.ReflTransGen Lockstep (s, focus) ((s.advance step).2, focus') := by
  obtain ⟨focus', h⟩ := lockstep_settleFrom (s.host step).2 (focusOf step) settleBound
  exact ⟨focus', .head ⟨.host step, hs, rfl⟩ h⟩

/-- **A scenario each of whose steps comes to rest is a run in lockstep.** -/
theorem lockstep_play (steps : List HostStep) (hs : s.runnable = []) (focus : Option Pid)
    (hrest : ∀ done left, steps = done ++ left → (s.play done).2.AtRest) :
    ∃ focus', Relation.ReflTransGen Lockstep (s, focus) ((s.play steps).2, focus') := by
  induction steps generalizing s focus with
  | nil => exact ⟨focus, .refl⟩
  | cons step steps ih =>
    obtain ⟨focus', h⟩ := lockstep_advance hs focus step
    have hstep : (s.advance step).2.runnable = [] := (hrest [step] steps rfl).1
    obtain ⟨focus'', h'⟩ := ih hstep focus' fun done left he =>
      hrest (step :: done) left (congrArg (step :: ·) he)
    exact ⟨focus'', h.trans h'⟩

/-! ## One at a time -/

/-- A process in the midst of anything can go on. -/
theorem mem_runnable (hx : s.context? pid = some x) (hr : x.control.isResting = false) :
    pid ∈ s.runnable := by
  obtain ⟨p, hp, hpx⟩ := context?_eq_some.1 hx
  obtain ⟨root, ht, -⟩ := Process.context?_eq_some.1 hpx
  refine List.mem_map.2 ⟨(pid, p), List.mem_filter.2 ⟨Registry.mem_of_get? hp, ?_⟩, rfl⟩
  simp only [Process.isRunnable, ht]
  cases hc : x.control <;> simp [hc, Control.isResting] at hr ⊢

/-- **Only the process that moved last is in the midst of anything.** -/
def Focused (a : System × Option Pid) : Prop :=
  ∀ pid x, a.1.context? pid = some x → x.control.isResting = false → a.2 = some pid

theorem focused_initial : Focused (initial, none) := by
  intro pid x hx
  simp [context?, initial, process?, Registry.get?] at hx

/-- Whoever has not moved is spared. -/
theorem spares_of_focus (hs : s.Sound) {m : Move} (hm : m.focus ≠ some pid) :
    Spares pid s (s.move m) := by
  cases m with
  | process pid' => exact spares_of_step hs fun he => hm (congrArg some he.symm)
  | host step => exact (changed_host hs step).spares hs.ordered hm
  | clock t => exact (changed_waitUntil t).spares hs.ordered (by simp [Move.focus] at hm ⊢)

/-- What a process that has not moved is in the midst of, it was before. -/
theorem Spares.context? (h : Spares pid s s') (hx : s'.context? pid = some x)
    (hr : x.control.isResting = false) : s.context? pid = some x := by
  obtain ⟨q, hq, hqx⟩ := context?_eq_some.1 hx
  rcases h.known q hq with ⟨p, hp, hd⟩ | hb
  · exact context?_eq_some.2 ⟨p, hp, (Process.context?_congr hd.task hd.blocked).symm.trans hqx⟩
  · simp [(hb x hqx).2, Control.isResting] at hr

theorem Focused.lockstep {a b : System × Option Pid} (ha : Focused a) (hs : a.1.Sound)
    (h : Lockstep a b) : Focused b := by
  obtain ⟨m, hturn, rfl⟩ := h
  intro pid x hx hr
  -- the process could go on before already, so nobody else could have moved
  refine Decidable.byContradiction fun hm => ?_
  have hx' := (spares_of_focus hs hm).context? hx hr
  have hrun := mem_runnable hx' hr
  cases m with
  | process pid' => exact hm (congrArg some (hturn.2 pid (ha pid x hx' hr) hrun).symm)
  | host step => exact List.ne_nil_of_mem hrun hturn
  | clock t => exact List.ne_nil_of_mem hrun hturn

/-- **Whoever is in the midst of something moves next.** -/
theorem Lockstep.of_acting {a b : System × Option Pid} (h : Lockstep a b) (ha : Focused a)
    (hx : a.1.context? pid = some x) (hr : x.control.isResting = false) :
    b = (a.1.step pid, some pid) := by
  have hrun := mem_runnable hx hr
  obtain ⟨m, hturn, rfl⟩ := h
  cases m with
  | process pid' =>
    obtain rfl : pid = pid' := hturn.2 pid (ha pid x hx hr) hrun
    rfl
  | host step => exact absurd hturn (List.ne_nil_of_mem hrun)
  | clock t => exact absurd hturn (List.ne_nil_of_mem hrun)

/-- **How a process comes to be in the midst of something**: by its own step, or by
a command to an idle main routine. -/
theorem Lockstep.of_busy {a b : System × Option Pid} (h : Lockstep a b) (hs : a.1.Sound)
    (ha : Focused a) (hx : b.1.context? pid = some x) (hr : x.control.isResting = false) :
    b = (a.1.step pid, some pid) ∨
      ∃ p x₀, a.1.process? pid = some p ∧ p.context? = some x₀ ∧ Told x₀ x := by
  have hb := (ha.lockstep hs h) pid x hx hr
  obtain ⟨m, hturn, rfl⟩ := h
  cases m with
  | process pid' =>
    obtain rfl : pid' = pid := Option.some.inj hb
    exact .inl rfl
  | clock t => simp [Move.focus] at hb
  | host step =>
    obtain ⟨c, rfl⟩ := command_of_focusOf hb
    rcases context?_of_command hx with hx₀ | htold
    · -- the command is lost, so the process was in the midst of the same before
      exact absurd hturn (List.ne_nil_of_mem (mem_runnable hx₀ hr))
    · exact .inr htold

/-! ## Runs in lockstep -/

/-- A run in lockstep is a run. -/
theorem reachable_of_lockstep {a b : System × Option Pid}
    (h : Relation.ReflTransGen Lockstep a b) (ha : Reachable a.1) : Reachable b.1 := by
  induction h with
  | refl => exact ha
  | tail _ hm ih =>
    obtain ⟨m, -, rfl⟩ := hm
    exact ih.move m

theorem focused_of_lockstep {a b : System × Option Pid}
    (h : Relation.ReflTransGen Lockstep a b) (hr : Reachable a.1) (ha : Focused a) :
    Focused b := by
  induction h with
  | refl => exact ha
  | tail hab hm ih => exact ih.lockstep (reachable_of_lockstep hab hr).sound hm

/-! ## Runs that are given move by move -/

instance (s : System) (focus : Option Pid) : (m : Move) → Decidable (s.InTurn focus m)
  | .process pid =>
    inferInstanceAs (Decidable (pid ∈ s.runnable ∧ ∀ q ∈ focus, q ∈ s.runnable → q = pid))
  | .host _ | .clock _ => inferInstanceAs (Decidable (s.runnable = []))

/-- Makes a move, and remembers whose it was. -/
def turn (a : System × Option Pid) (m : Move) : System × Option Pid := (a.1.move m, m.focus)

/-- Whether a move can be made now. -/
def inTurn (a : System × Option Pid) (m : Move) : Bool := decide (a.1.InTurn a.2 m)

theorem lockstep_of_inTurn {a : System × Option Pid} {m : Move} (h : inTurn a m = true) :
    Lockstep a (turn a m) :=
  ⟨m, of_decide_eq_true h, rfl⟩

theorem lockstep_of_checks {a : System × Option Pid} {moves : List Move}
    (h : checks turn inTurn a moves = true) :
    Relation.ReflTransGen Lockstep a (moves.foldl turn a) :=
  (reflTransGen_of_checks h).lift id fun _ _ ⟨_, he, hm⟩ => he ▸ lockstep_of_inTurn hm

end System

end PosixSignals
