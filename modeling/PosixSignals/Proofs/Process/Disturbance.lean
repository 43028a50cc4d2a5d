import PosixSignals.Proofs.Process.Generation

/-!
# What others do to a process

A process generates signals against another, reaps it, orphans it or
changes its limits, and none of that touches what the other is in the
midst of: its context, its dispositions and its mask stay, its pending
signals only become more, and once it has ended its status stays too.
`Disturbed` says so, is closed under composition, and holds of every
change that one process or the outside makes to another.
-/

namespace PosixSignals

namespace Process

variable {p q r : Process} {pid : Pid} {info : SignalInfo}

/-- **What others leave alone in a process.** -/
structure Disturbed (p q : Process) : Prop where
  pgid : q.pgid = p.pgid
  task : q.task = p.task
  dispositions : q.dispositions = p.dispositions
  installs : q.installs = p.installs
  runs : q.runs = p.runs
  inbox : p.inbox.Grown q.inbox
  ended : p.status.isExited = true → q.status = p.status

/-- Whoever is left alone is disturbed at most. -/
theorem Disturbed.refl (p : Process) : p.Disturbed p :=
  ⟨rfl, rfl, rfl, rfl, rfl, .refl, fun _ => rfl⟩

/-- To be disturbed twice is to be disturbed. -/
theorem Disturbed.trans (h : p.Disturbed q) (h' : q.Disturbed r) : p.Disturbed r where
  pgid := h'.pgid.trans h.pgid
  task := h'.task.trans h.task
  dispositions := h'.dispositions.trans h.dispositions
  installs := h'.installs.trans h.installs
  runs := h'.runs.trans h.runs
  inbox := h.inbox.trans h'.inbox
  ended := fun he => by
    have hq := h.ended he
    rw [← hq] at he
    exact (h'.ended he).trans hq

/-- The mask is out of reach for others. -/
theorem Disturbed.blocked (h : p.Disturbed q) : q.inbox.blocked = p.inbox.blocked :=
  h.inbox.blocked_eq

/-- An end is not undone from outside. -/
theorem Disturbed.isExited (h : p.Disturbed q) (he : p.status.isExited = true) :
    q.status.isExited = true := by
  rw [h.ended he, he]

/-! ## Changes that leave the signal state alone -/

/-- A change of anything but the fields that `Disturbed` is about. -/
theorem disturbed_of_eq (hg : q.pgid = p.pgid) (ht : q.task = p.task)
    (hd : q.dispositions = p.dispositions) (hi : q.installs = p.installs)
    (hr : q.runs = p.runs) (hb : q.inbox = p.inbox) (hs : q.status = p.status) :
    p.Disturbed q :=
  ⟨hg, ht, hd, hi, hr, hb ▸ .refl, fun _ => hs⟩

/-- To be woken is to be disturbed. -/
theorem disturbed_wake (p : Process) : p.Disturbed p.wake :=
  disturbed_of_eq rfl rfl rfl rfl rfl rfl rfl

/-- So is to be told of a child. -/
theorem disturbed_noticeChild (p : Process) : p.Disturbed p.noticeChild :=
  disturbed_of_eq rfl rfl rfl rfl rfl rfl rfl

/-! ## Generations -/

/-- A change of status starts from one that is not the last. -/
theorem Shift.disturbed {c : Process × List Event} (h : p.Shift pid c) : p.Disturbed c.1 := by
  cases h with
  | none => exact .refl p
  | exited h => exact ⟨rfl, rfl, rfl, rfl, rfl, .refl, fun he => by simp [h] at he⟩
  | stopped h =>
    exact ⟨rfl, rfl, rfl, rfl, rfl, .refl, fun he => by simp [h, Status.isExited] at he⟩
  | continued h =>
    refine ⟨rfl, rfl, rfl, rfl, rfl, .refl, fun he => ?_⟩
    cases hp : p.status <;> simp [hp, Status.isStopped, Status.isExited] at h he

/-- **All that a generation is made of disturbs at most.** -/
theorem carried_disturbed : Carried pid info fun p c => p.Disturbed c.1 where
  append := .trans
  shift := Shift.disturbed
  receive hr := ⟨rfl, rfl, rfl, rfl, rfl, hr.grown, fun _ => rfl⟩
  wake := disturbed_wake
  dropped := .refl

/-- **A signal generated against a process does no more than disturb it.** -/
theorem disturbed_generate : p.Disturbed (p.generate pid info).1 := carried_disturbed.generate p

end Process

end PosixSignals
