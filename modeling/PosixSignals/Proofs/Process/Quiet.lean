import PosixSignals.Proofs.Process.Disturbance

/-!
# Changes that enter no handler

Which signals a change makes pending, and what it notes. A quiet change
enters no handler and makes a signal pending only by an occurrence that it
notes. Everything that one process does to another is quiet, and so is
everything a process does itself, apart from starting a handler.
-/

namespace PosixSignals

/-- Whether a handler starts. -/
def Event.isEntry : Event → Bool
  | .entered .. => true
  | _ => false

namespace Process

variable {p q r : Process} {pid : Pid} {info : SignalInfo} {events others : List Event}

/-- **No handler starts, and what becomes pending was generated.** -/
structure Quiet (pid : Pid) (p : Process) (r : Process × List Event) : Prop where
  enters : ∀ e ∈ r.2, e.isEntry = false
  pending : ∀ sig ∈ r.1.inbox.pending, sig ∈ p.inbox.pending ∨
    ∃ info outcome, .generated info pid outcome ∈ r.2 ∧ info.signal = sig

/-- A change that leaves the pending signals alone, or takes some out. -/
theorem quiet_of_subset (hp : ∀ sig ∈ q.inbox.pending, sig ∈ p.inbox.pending)
    (he : ∀ e ∈ events, e.isEntry = false) : p.Quiet pid (q, events) :=
  ⟨he, fun sig hs => .inl (hp sig hs)⟩

theorem quiet_refl (p : Process) : p.Quiet pid (p, []) :=
  quiet_of_subset (fun _ hs => hs) (by simp)

/-- One quiet change after the other. -/
theorem Quiet.append (h : p.Quiet pid (q, events)) (h' : q.Quiet pid (r, others)) :
    p.Quiet pid (r, events ++ others) where
  enters e he := (List.mem_append.1 he).elim (h.enters e) (h'.enters e)
  pending sig hs := by
    rcases h'.pending sig hs with hs | ⟨info, outcome, he, hi⟩
    · rcases h.pending sig hs with hs | ⟨info, outcome, he, hi⟩
      · exact .inl hs
      · exact .inr ⟨info, outcome, List.mem_append_left _ he, hi⟩
    · exact .inr ⟨info, outcome, List.mem_append_right _ he, hi⟩

/-! ## Generations -/

theorem Shift.quiet {c : Process × List Event} (h : p.Shift pid c) : p.Quiet pid c := by
  cases h with
  | none => exact quiet_refl p
  | exited | stopped | continued => exact quiet_of_subset (fun _ hs => hs) (by simp [Event.isEntry])

theorem carried_quiet : Carried pid info (Quiet pid) where
  append := .append
  shift := Shift.quiet
  receive hr := ⟨by simp [Event.isEntry], fun _ hs => (hr.mem_pending hs).imp_right fun he =>
    ⟨info, _, List.mem_singleton.2 rfl, he.symm⟩⟩
  wake _ := quiet_of_subset (fun _ hs => hs) (by simp)
  dropped _ := quiet_of_subset (fun _ hs => hs) (by simp [Event.isEntry])

/-- **A signal generated against a process starts no handler**: that waits for
the process itself. -/
theorem quiet_generate : p.Quiet pid (p.generate pid info) := carried_quiet.generate p

end Process

end PosixSignals
