import PosixSignals.Scenario.Basic
import PosixSignals.Proofs.Process.Inversion
import PosixSignals.Proofs.System.Calls

/-!
# What processes do to one another

The operations that reach beyond one process, each shown to be a change
that spares everyone's context: sending signals, birth, letting go, death.
A system call that concerns others is such a change, in the midst of which
its caller takes a turn of its own.
-/

namespace PosixSignals

namespace System

variable {s s' s₁ : System} {own : Option Pid} {pid : Pid} {src : Source}

/-! ## Sending signals -/

/-- A signal disturbs whoever it is generated against, and starts nothing. -/
theorem changed_generate {info : SignalInfo} :
    Changed own s (s.act src pid (·.generate pid info)) :=
  Changed.refl.disturb (fun _ => Process.disturbed_generate) fun _ => Process.quiet_generate

/-- So do many, one after the other. -/
theorem changed_sendAll {info : SignalInfo} (targets : List Pid) :
    Changed own s (s.sendAll src info targets) := by
  unfold sendAll
  induction targets generalizing s with
  | nil => exact .refl
  | cons q targets ih => exact changed_generate.trans ih

/-! ## Birth -/

/-- Who is born with a main routine or without. -/
def Waiting (task : Option Task) : Prop := ∀ t, task = some t → t.frames = [] ∧ t.control = .idle

/-- A root starts idle, with nothing pending and nothing blocked. -/
theorem newborn_root {name : String} {task : Option Task} (ht : Waiting task) :
    Newborn (.root pid name task) where
  sound := Inbox.sound_empty
  pending sig := SignalSet.not_mem_empty sig
  idle c hc := by
    obtain ⟨root, htask, -⟩ := Process.context?_eq_some.1 hc
    exact ht _ htask

/-- A child starts idle, with nothing pending and the mask of its parent. -/
theorem newborn_childOf {p : Process} {parent : Pid} {task : Option Task} (ht : Waiting task)
    (hp : p.inbox.Sound) : Newborn (p.childOf parent task) where
  sound := hp.fork
  pending sig := SignalSet.not_mem_empty sig
  idle c hc := by
    obtain ⟨root, htask, -⟩ := Process.context?_eq_some.1 hc
    exact ht _ htask

/-- A root is born, unless the numbers have run out. -/
theorem changed_addRoot {name : String} {task : Option Task} (ht : Waiting task) :
    Changed own s (s.addRoot src name task).2 := by
  unfold addRoot
  split
  · exact .refl
  · next ha => exact (Changed.refl.birth ha (newborn_root ht)).note rfl

/-- A child is born and put on the list of its parent, unless the numbers have run out. -/
theorem changed_fork {p : Process} {task : Option Task} (ht : Waiting task)
    (hp : p.inbox.Sound) : Changed own s (s.fork src pid p task).2 := by
  unfold fork
  split
  · exact .refl
  · next ha =>
    refine .note (Changed.adjust (.birth .refl ha (newborn_childOf ht hp)) ?_ fun _ => rfl) rfl
    exact fun _ => Process.disturbed_of_eq rfl rfl rfl rfl rfl rfl rfl

/-! ## Letting go -/

/-- To be taken off a list of children leaves every context as it is. -/
theorem changed_disown {child : Pid} : Changed own s (s.disown pid child) :=
  Changed.refl.adjust (fun _ => Process.disturbed_of_eq rfl rfl rfl rfl rfl rfl rfl) fun _ => rfl

/-- So does leaving the table. -/
theorem changed_unlist : Changed own s (s.unlist pid) :=
  Changed.refl.adjust (fun _ => Process.disturbed_of_eq rfl rfl rfl rfl rfl rfl rfl) fun _ => rfl

/-- An orphan loses its parent, and its place in the table if it is dead. -/
theorem changed_orphan {child : Pid} : Changed own s (s.orphan child) :=
  Changed.refl.adjust (fun _ => Process.disturbed_of_eq rfl rfl rfl rfl rfl rfl rfl) fun _ => rfl

/-- All children of the dead are orphaned, one after the other. -/
theorem changed_orphans (children : List Pid) : Changed own s (children.foldl orphan s) := by
  induction children generalizing s with
  | nil => exact .refl
  | cons c children ih => exact changed_orphan.trans ih

/-- **Only processes without context are forgotten.** What nothing refers to has
no context; that the search finds the process itself needs the order. -/
theorem changed_sweepFrom (n : Nat) (ho : s.Ordered) : Changed own s (sweepFrom n s) := by
  induction n generalizing s with
  | zero => exact .refl
  | succ n ih =>
    unfold sweepFrom
    split
    · exact .refl
    · next e he =>
      have hdrop : Changed own s (s.drop e.1) := .drop .refl fun p hp => by
        obtain rfl : e.2 = p :=
          Option.some.inj ((ho.ascending.get?_of_mem (List.mem_of_find?_eq_some he)).symm.trans hp)
        have hu := List.find?_some he
        cases ht : e.2.task with
        | none => rfl
        | some t => simp [isReferenced, ht] at hu
      exact hdrop.trans (ih ho.drop)

/-- A change may end with a sweep. -/
theorem Changed.sweep (h : Changed own s s') (ho : s.Ordered) : Changed own s s'.sweep :=
  h.trans (changed_sweepFrom _ (h.ordered ho))

/-! ## Death -/

/-- An end is marked, if it has not been. -/
theorem changed_exit {w : WaitStatus} :
    Changed own s (s.act src pid fun p => p.orStay (p.exit pid w)) :=
  Changed.refl.disturb (fun _ => Process.shift_exit.disturbed)
    fun _ => Process.shift_exit.quiet

/-- The end that the main routine came to is marked. -/
theorem changed_conclude {e : Ending} : Changed own s (s.conclude src pid e) := by
  cases e with
  | code n => exact changed_exit
  | panic => exact (Changed.refl.note rfl).trans changed_exit
  | error e =>
    cases e with
    | mustExit => exact .refl
    | _ => exact (Changed.refl.note rfl).trans changed_exit

/-- A burial orphans the children and tells the parent. More than disturbed is only the dead
itself. -/
theorem changed_bury {p : Process} : Changed (some pid) s (s.bury src pid p) := by
  unfold bury
  dsimp only
  refine (changed_orphans p.children).trans ?_
  -- what has become of the children does not matter any more
  generalize p.children.foldl orphan s = s
  have hz : Changed (some pid) s (s.act src pid fun p =>
      ({ p with children := [], status := p.status.toZombie }, [.becameZombie pid])) :=
    Changed.refl.act fun p _ => quietly_own id (fun _ => rfl)
      (Process.quiet_of_subset (fun _ h => h) (by simp [Event.isEntry]))
  refine hz.trans ?_
  split
  · exact changed_generate.adjust Process.disturbed_noticeChild fun _ => rfl
  · exact changed_unlist

end System

end PosixSignals
