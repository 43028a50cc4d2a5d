import PosixSignals.Process.Generation
import PosixSignals.Proofs.Inbox.Growth

/-!
# All that a generation can do

A status changes in three ways, each from some statuses only, and what else a
signal does as it is generated is for the inbox to decide. `Shift` and
`Generation` list the cases with the conditions under which they come about.
Most of what later modules say of a generation is a relation that composes and
holds of each of its parts: it is `Carried` through the whole.
-/

namespace PosixSignals

namespace Process

variable {p q r : Process} {pid : Pid} {info : SignalInfo} {sig : Signal} {w : WaitStatus}
  {c : Process × List Event} {e : Event}

/-! ## Changes of status -/

/-- An end is marked once, and wakes whatever waits. -/
theorem exit_eq_some : p.exit pid w = some c ↔ p.status.isExited = false ∧
    c = (wake { p with status := .exited w }, [.exited pid w]) := by
  unfold exit
  cases p.status <;> simp [Status.exit?, Status.isExited, eq_comm (a := c)]

/-- Only what runs is stopped. -/
theorem stop_eq_some : p.stop pid sig = some c ↔ p.status = .normal ∧
    c = (wake { p with status := .stopped sig }, [.stopped pid sig]) := by
  unfold stop
  cases p.status <;> simp [Status.stop?, eq_comm (a := c)]

/-- Only what is stopped is continued. -/
theorem resume_eq_some : p.resume pid = some c ↔ p.status.isStopped = true ∧
    c = (wake { p with status := .normal, continued := true }, [.continued pid]) := by
  unfold resume
  cases p.status <;> simp [Status.continue?, Status.isStopped, eq_comm (a := c)]

/-- **All that a change of status can be**, with the status that it starts from. -/
inductive Shift (pid : Pid) (p : Process) : Process × List Event → Prop
  | none : Shift pid p (p, [])
  | exited {w : WaitStatus} (h : p.status.isExited = false) :
      Shift pid p (wake { p with status := .exited w }, [.exited pid w])
  | stopped {sig : Signal} (h : p.status = .normal) :
      Shift pid p (wake { p with status := .stopped sig }, [.stopped pid sig])
  | continued (h : p.status.isStopped = true) :
      Shift pid p (wake { p with status := .normal, continued := true }, [.continued pid])

/-- An end that happens is a change of status. -/
theorem shift_of_exit (h : p.exit pid w = some c) : p.Shift pid c := by
  obtain ⟨he, rfl⟩ := exit_eq_some.1 h
  exact .exited he

/-- A stop that happens is a change of status. -/
theorem shift_of_stop (h : p.stop pid sig = some c) : p.Shift pid c := by
  obtain ⟨hn, rfl⟩ := stop_eq_some.1 h
  exact .stopped hn

/-- A continue that happens is a change of status. -/
theorem shift_of_resume (h : p.resume pid = some c) : p.Shift pid c := by
  obtain ⟨hst, rfl⟩ := resume_eq_some.1 h
  exact .continued hst

/-- A change that may be impossible. -/
theorem shift_orStay {change : Option (Process × List Event)}
    (h : ∀ c, change = some c → p.Shift pid c) : p.Shift pid (p.orStay change) := by
  cases hc : change with
  | none => exact .none
  | some c => exact h c hc

/-- An attempt to end a process is a change of status, or nothing. -/
theorem shift_exit : p.Shift pid (p.orStay (p.exit pid w)) := shift_orStay fun _ => shift_of_exit

/-- An attempt to stop a process is one, or nothing. -/
theorem shift_stop : p.Shift pid (p.orStay (p.stop pid sig)) := shift_orStay fun _ => shift_of_stop

/-- An attempt to continue a process is one, or nothing. -/
theorem shift_resume : p.Shift pid (p.orStay (p.resume pid)) :=
  shift_orStay fun _ => shift_of_resume

/-- **A default action does no more than change the status.** -/
theorem shift_act (sig : Signal) (action : DefaultAction) :
    p.Shift pid (p.act pid sig action) := by
  cases action with
  | terminate | coreDump => exact shift_exit
  | stop => exact shift_stop
  | ignore | «continue» => exact .none

/-- A change of status leaves the inbox as it is. -/
theorem Shift.inbox (h : p.Shift pid c) : c.1.inbox = p.inbox := by
  cases h <;> rfl

/-- A default action leaves the inbox as it is. -/
@[simp] theorem act_inbox (sig : Signal) (action : DefaultAction) :
    (p.act pid sig action).1.inbox = p.inbox :=
  (shift_act sig action).inbox

/-! ### What a change of status notes -/

/-- What is noted of a change was done. -/
theorem exists_of_mem_orStay {change : Option (Process × List Event)}
    (he : e ∈ (p.orStay change).2) : ∃ c, change = some c ∧ e ∈ c.2 := by
  cases hc : change with
  | none => simp [hc, orStay] at he
  | some c => exact ⟨c, rfl, by simpa [hc, orStay] using he⟩

/-- An attempt to end a process notes an end, if anything. -/
theorem eq_exited_of_mem (he : e ∈ (p.orStay (p.exit pid w)).2) : e = .exited pid w := by
  obtain ⟨c, hc, he⟩ := exists_of_mem_orStay he
  obtain ⟨-, rfl⟩ := exit_eq_some.1 hc
  exact List.mem_singleton.1 he

/-- An attempt to stop it notes a stop, if anything. -/
theorem eq_stopped_of_mem (he : e ∈ (p.orStay (p.stop pid sig)).2) : e = .stopped pid sig := by
  obtain ⟨c, hc, he⟩ := exists_of_mem_orStay he
  obtain ⟨-, rfl⟩ := stop_eq_some.1 hc
  exact List.mem_singleton.1 he

/-- An attempt to continue it notes a continue, if anything. -/
theorem eq_continued_of_mem (he : e ∈ (p.orStay (p.resume pid)).2) : e = .continued pid := by
  obtain ⟨c, hc, he⟩ := exists_of_mem_orStay he
  obtain ⟨-, rfl⟩ := resume_eq_some.1 hc
  exact List.mem_singleton.1 he

/-! ### Default actions on a process that runs -/

/-- Termination ends what has not ended, with the word of the signal. -/
theorem act_terminate (h : p.status.isExited = false) : p.act pid sig .terminate =
    (wake { p with status := .exited (.ofSignal sig) }, [.exited pid (.ofSignal sig)]) := by
  rw [act, exit_eq_some.2 ⟨h, rfl⟩]
  rfl

/-- A core dump ends like a termination. -/
theorem act_coreDump (h : p.status.isExited = false) : p.act pid sig .coreDump =
    (wake { p with status := .exited (.ofSignal sig) }, [.exited pid (.ofSignal sig)]) :=
  act_terminate h

/-- A stop stops what runs. -/
theorem act_stop (h : p.status = .normal) : p.act pid sig .stop =
    (wake { p with status := .stopped sig }, [.stopped pid sig]) := by
  rw [act, stop_eq_some.2 ⟨h, rfl⟩]
  rfl

/-! ## A signal arrives -/

/-- **All that can become of a signal that has come to the inbox**: what is noted is where it
went, and a default action is carried out at once. -/
inductive Acceptance (pid : Pid) (info : SignalInfo) (p : Process) : Process × List Event → Prop
  | noted {outcome : Generated} {inbox : Inbox}
      (hr : p.inbox.Reception info (p.dispositions.get info.signal) (outcome, inbox))
      (ho : ∀ action, outcome ≠ .defaultAction action) :
      Acceptance pid info p ({ p with inbox }, [.generated info pid outcome])
  | acted (hr : p.inbox.Reception info (p.dispositions.get info.signal)
        (.defaultAction info.signal.defaultAction, p.inbox)) :
      Acceptance pid info p ((p.act pid info.signal info.signal.defaultAction).1,
        .generated info pid (.defaultAction info.signal.defaultAction) ::
          (p.act pid info.signal info.signal.defaultAction).2)

/-- **What an inbox makes of a signal** is all that can become of it. -/
theorem acceptance (p : Process) : p.Acceptance pid info (p.accept pid info) := by
  have hr := p.inbox.reception info (p.dispositions.get info.signal)
  unfold accept
  generalize p.inbox.receive info (p.dispositions.get info.signal) = received at hr ⊢
  obtain ⟨outcome, inbox⟩ := received
  cases outcome with
  | defaultAction action =>
    obtain ⟨rfl, rfl⟩ := hr.of_defaultAction
    exact .acted hr
  | discarded | queued | handlerReady => exact .noted hr nofun

/-- Where the signal went is noted. -/
theorem Acceptance.mem_generated (h : p.Acceptance pid info c) :
    ∃ outcome, .generated info pid outcome ∈ c.2 := by
  cases h <;> exact ⟨_, List.mem_cons_self⟩

/-- **All that a generation can do**: nothing reaches a process that has ended; `cont` lifts a stop
before it comes to the inbox, every other signal comes to it at once; and at the end whatever
waits is woken. -/
inductive Generation (pid : Pid) (info : SignalInfo) (p : Process) : Process × List Event → Prop
  | dropped (h : p.status.isExited = true) :
      Generation pid info p (p, [.dropped info.signal pid])
  | lifted {c : Process × List Event} (hc : info.signal = .cont) (h : p.status.isStopped = true)
      (ha : (wake { p with status := .normal, continued := true }).Acceptance pid info c) :
      Generation pid info p (c.1.wake, .continued pid :: c.2)
  | accepted {c : Process × List Event} (h : p.status.isExited = false)
      (hc : info.signal = .cont → p.status = .normal) (ha : p.Acceptance pid info c) :
      Generation pid info p (c.1.wake, c.2)

/-- **What a generation does** is all that it can do. -/
theorem generation (p : Process) (pid : Pid) (info : SignalInfo) :
    p.Generation pid info (p.generate pid info) := by
  cases hex : p.status.isExited with
  | true =>
    rw [generate, if_pos hex]
    exact .dropped hex
  | false =>
    rw [generate, if_neg (by simp [hex])]
    by_cases hc : info.signal = .cont
    · rw [if_pos hc]
      cases hres : p.resume pid with
      | none =>
        have hn : p.status = .normal := by
          cases hst : p.status <;> simp [resume, hst, Status.continue?, Status.isExited] at hres hex
          rfl
        exact .accepted hex (fun _ => hn) (acceptance p)
      | some c =>
        obtain ⟨hst, rfl⟩ := resume_eq_some.1 hres
        exact .lifted hc hst (acceptance _)
    · rw [if_neg hc]
      exact .accepted hex (fun h => absurd h hc) (acceptance p)

/-! ## What is carried through -/

/-- **A relation that a generation carries through**: it composes, and holds of a change of
status, of what the inbox does, of waking whatever waits and of a signal that is dropped. -/
structure Carried (pid : Pid) (info : SignalInfo) (R : Process → Process × List Event → Prop) :
    Prop where
  append {p q r : Process} {events others : List Event} :
    R p (q, events) → R q (r, others) → R p (r, events ++ others)
  shift {p : Process} {c : Process × List Event} : p.Shift pid c → R p c
  receive {p : Process} {outcome : Generated} {inbox : Inbox} :
    p.inbox.Reception info (p.dispositions.get info.signal) (outcome, inbox) →
      R p ({ p with inbox }, [.generated info pid outcome])
  wake (p : Process) : R p (p.wake, [])
  dropped (p : Process) : R p (p, [.dropped info.signal pid])

variable {R : Process → Process × List Event → Prop}

/-- What comes to the inbox is carried through. -/
theorem Carried.accept (h : Carried pid info R) (ha : p.Acceptance pid info c) : R p c := by
  cases ha with
  | noted hr => exact h.receive hr
  | acted hr => exact h.append (h.receive hr) (h.shift (shift_act _ _))

/-- **What is carried through holds of every generation.** -/
theorem Carried.generate (h : Carried pid info R) (p : Process) : R p (p.generate pid info) := by
  have hg := p.generation pid info
  generalize p.generate pid info = c at hg
  have hwoken : ∀ {q : Process} {c : Process × List Event}, q.Acceptance pid info c →
      R q (c.1.wake, c.2) := fun ha => by
    have hw := h.append (h.accept ha) (h.wake _)
    rwa [List.append_nil] at hw
  cases hg with
  | dropped => exact h.dropped p
  | lifted _ hst ha => exact h.append (h.shift (.continued hst)) (hwoken ha)
  | accepted _ _ ha => exact hwoken ha

end Process

end PosixSignals
