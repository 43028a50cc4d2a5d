import PosixSignals.System.Step
import PosixSignals.Proofs.Process.Turn
import PosixSignals.Proofs.System.Registry

/-!
# How the system changes

Everything that happens outside a task alone is made of a few changes:
something is noted, a process is changed quietly, a process is born or
forgotten, time passes. `Changed` is the closure of these. One process may
be named as the one that acts; all the others are only disturbed. What
holds of every single change, such as that contexts stay and that no
handler starts, holds of every sequence of them by one induction.
-/

namespace PosixSignals

namespace System

variable {s s' s'' : System} {own : Option Pid} {pid pid' : Pid} {src : Source}
  {f : Process → Process × List Event}

/-! ## Changing one process -/

@[simp] theorem noteAll_processes (events : List Event) :
    (s.noteAll src events).processes = s.processes := by
  unfold noteAll
  induction events generalizing s with
  | nil => rfl
  | cons e events ih => exact ih

@[simp] theorem noteAll_pids (events : List Event) :
    (s.noteAll src events).pids = s.pids := by
  unfold noteAll
  induction events generalizing s with
  | nil => rfl
  | cons e events ih => exact ih

@[simp] theorem noteAll_now (events : List Event) : (s.noteAll src events).now = s.now := by
  unfold noteAll
  induction events generalizing s with
  | nil => rfl
  | cons e events ih => exact ih

theorem noteAll_history (events : List Event) :
    (s.noteAll src events).history =
      (events.map fun e => (⟨src, e⟩ : Record)).reverse ++ s.history := by
  unfold noteAll
  induction events generalizing s with
  | nil => rfl
  | cons e events ih =>
    rw [List.foldl_cons, ih]
    simp [note]

theorem act_of_none (h : s.process? pid = none) : s.act src pid f = s := by
  simp [act, h]

theorem act_of_some {p : Process} (h : s.process? pid = some p) :
    s.act src pid f =
      { s with processes := s.processes.insert pid (f p).1 }.noteAll src (f p).2 := by
  simp [act, h]

/-- What a change of one process notes is what the function says, in order. -/
theorem act_history {p : Process} (h : s.process? pid = some p) :
    (s.act src pid f).history =
      ((f p).2.map fun e => (⟨src, e⟩ : Record)).reverse ++ s.history := by
  rw [act_of_some h, noteAll_history]

@[simp] theorem update_history {g : Process → Process} :
    (s.update pid g).history = s.history := by
  cases h : s.process? pid with
  | none => rw [update, act_of_none h]
  | some p => rw [update, act_history h]; rfl

/-- **A change of one process leaves every other process as it is.** -/
theorem process?_act :
    (s.act src pid f).process? pid' =
      if pid' = pid then (s.process? pid).map fun p => (f p).1 else s.process? pid' := by
  cases h : s.process? pid with
  | none =>
    rw [act_of_none h]
    split
    · next he => rw [he, h]; rfl
    · rfl
  | some p =>
    rw [act_of_some h]
    simp only [process?, noteAll_processes, Registry.get?_insert]
    rfl

/-- Whoever is there after a change of one process is that one, or is as he was. -/
theorem process?_act_eq_some {q : Process} : (s.act src pid f).process? pid' = some q ↔
    (pid' = pid ∧ ∃ p, s.process? pid = some p ∧ q = (f p).1) ∨
      (pid' ≠ pid ∧ s.process? pid' = some q) := by
  rw [process?_act]
  split <;> simp [*, eq_comm (a := q)]

/-- What a change of one process makes of it. -/
theorem process?_act_self {p : Process} (hp : s.process? pid = some p) :
    (s.act src pid f).process? pid = some (f p).1 := by
  rw [process?_act, if_pos rfl, hp]
  rfl

theorem eq_of_process?_act {p q : Process} (hp : s.process? pid = some p)
    (hq : (s.act src pid f).process? pid = some q) : q = (f p).1 :=
  Option.some.inj (hq.symm.trans (process?_act_self hp))

/-- What an update makes of everybody. -/
theorem process?_update {g : Process → Process} (q : Pid) : (s.update pid g).process? q =
    (s.process? q).map fun p => if q = pid then g p else p := by
  rw [update, process?_act]
  by_cases hq : q = pid
  · simp [hq]
  · simp [hq]

@[simp] theorem act_pids : (s.act src pid f).pids = s.pids := by
  cases h : s.process? pid with
  | none => rw [act_of_none h]
  | some p => rw [act_of_some h, noteAll_pids]

@[simp] theorem act_now : (s.act src pid f).now = s.now := by
  cases h : s.process? pid with
  | none => rw [act_of_none h]
  | some p => rw [act_of_some h, noteAll_now]

/-! ## The closure -/

/-- A process that has just come into being: nothing pends, and its main
routine, if it has one, waits for a command. -/
structure Newborn (p : Process) : Prop where
  sound : p.inbox.Sound
  pending : ∀ sig, sig ∉ p.inbox.pending
  idle : ∀ c, p.context? = some c → c.frames = [] ∧ c.control = .idle

/-- A quiet change of one process, which is no more than a disturbance unless
the process does it itself. -/
structure Quietly (own : Option Pid) (pid : Pid) (p : Process) (r : Process × List Event) :
    Prop where
  quiet : p.Quiet pid r
  sound : p.inbox.Sound → r.1.inbox.Sound
  ended : p.status.isExited = true → r.1.status.isExited = true
  disturbed : own ≠ some pid → p.Disturbed r.1

/-- **What becomes of the system by changes that start no handler.** -/
inductive Changed (own : Option Pid) (s : System) : System → Prop
  | refl : Changed own s s
  | note {s' : System} {src : Source} {e : Event} (h : Changed own s s')
      (he : e.isEntry = false) : Changed own s (s'.note src e)
  | act {s' : System} {src : Source} {pid : Pid} {f : Process → Process × List Event}
      (h : Changed own s s')
      (hf : ∀ p, s'.process? pid = some p → Quietly own pid p (f p)) :
      Changed own s (s'.act src pid f)
  | birth {s' : System} {pid : Pid} {pids : IdPool} {p : Process} (h : Changed own s s')
      (ha : s'.pids.alloc = (some pid, pids)) (hp : Newborn p) :
      Changed own s { s' with pids, processes := s'.processes.insert pid p }
  /-- A process without context is forgotten. -/
  | drop {s' : System} {pid : Pid} (h : Changed own s s')
      (hp : ∀ p, s'.process? pid = some p → p.task = none) : Changed own s (s'.drop pid)
  | wait {s' : System} {t : Nat} (h : Changed own s s') : Changed own s (s'.waitUntil t)

theorem Changed.trans (h : Changed own s s') (h' : Changed own s' s'') : Changed own s s'' := by
  induction h' with
  | refl => exact h
  | note _ he ih => exact ih.note he
  | act _ hf ih => exact ih.act hf
  | birth _ ha hp ih => exact ih.birth ha hp
  | drop _ hp ih => exact ih.drop hp
  | wait _ ih => exact ih.wait

/-- What nobody in particular does, a process may do. -/
theorem Changed.mono (h : Changed none s s') : Changed own s s' := by
  induction h with
  | refl => exact .refl
  | note _ he ih => exact ih.note he
  | act _ hf ih =>
    exact ih.act fun p hp =>
      ⟨(hf p hp).quiet, (hf p hp).sound, (hf p hp).ended, fun _ => (hf p hp).disturbed (by simp)⟩
  | birth _ ha hp ih => exact ih.birth ha hp
  | drop _ hp ih => exact ih.drop hp
  | wait _ ih => exact ih.wait

/-- A disturbance, by whomever. -/
theorem quietly_of_disturbed {p : Process} {r : Process × List Event} (hd : p.Disturbed r.1)
    (hq : p.Quiet pid r) : Quietly own pid p r :=
  ⟨hq, hd.inbox.sound, hd.isExited, fun _ => hd⟩

/-- What a process does itself. -/
theorem quietly_own {p : Process} {r : Process × List Event}
    (hs : p.inbox.Sound → r.1.inbox.Sound)
    (he : p.status.isExited = true → r.1.status.isExited = true) (hq : p.Quiet pid r) :
    Quietly (some pid) pid p r :=
  ⟨hq, hs, he, fun h => absurd rfl h⟩

theorem Changed.disturb (h : Changed own s s') (hd : ∀ p : Process, p.Disturbed (f p).1)
    (hq : ∀ p : Process, p.Quiet pid (f p)) : Changed own s (s'.act src pid f) :=
  h.act fun p _ => quietly_of_disturbed (hd p) (hq p)

/-- A change of a field that no signal depends on. -/
theorem Changed.adjust {g : Process → Process} (h : Changed own s s')
    (hd : ∀ p : Process, p.Disturbed (g p)) (hi : ∀ p : Process, (g p).inbox = p.inbox) :
    Changed own s (s'.update pid g) :=
  h.disturb hd fun p => Process.quiet_of_subset (hi p ▸ fun _ hs => hs) (by simp)

end System

end PosixSignals
