import PosixSignals.Proofs.System.Frame

/-!
# What calls come to

The body of a call that concerns others, and a turn of a wait for children,
come to one of a few things: an answer, or an answer after signals were
sent, a child was born, a limit was set or a child was reaped. This is said
once here, so what a relation between states says of a call follows from
what it says of these parts.
-/

namespace PosixSignals

namespace System

variable {s : System} {src : Source} {pid : Pid}

/-! ## Bodies of calls -/

/-- A signal that is sent is answered with success, and nothing else is done. -/
theorem kill_cases (s : System) (src : Source) (pid : Pid) (p : Process) (recipient : Recipient)
    (number : Nat) :
    (∃ e, s.kill src pid p recipient number = s.answer pid (.error e)) ∨
      s.kill src pid p recipient number = s.answer pid (.ok .done) ∨
      ∃ sig, s.kill src pid p recipient number =
        (s.sendAll src (.user sig pid)
          (s.addressed p (recipientNumber pid p recipient))).answer pid (.ok .done) := by
  unfold kill
  split
  · split
    · exact .inl ⟨_, rfl⟩
    · exact .inr (.inl rfl)
  split
  · exact .inl ⟨_, rfl⟩
  dsimp only
  split
  · exact .inl ⟨_, rfl⟩
  · exact .inr (.inr ⟨_, rfl⟩)

/-- What a fork is answered with. -/
def birthReply : Option Pid → Reply
  | none => .error .again
  | some child => .ok (.number child)

/-- A fork is answered, whether it begets a child or not. -/
theorem forkCall_eq (s : System) (src : Source) (pid : Pid) (p : Process) :
    s.forkCall src pid p =
      (s.fork src pid p (some {})).2.answer pid (birthReply (s.fork src pid p (some {})).1) := by
  unfold forkCall
  split <;> next he => rw [he]; rfl

/-- A limit is looked at and set, or there is nothing to look at, or it must not be set. -/
theorem prlimit_cases (s : System) (src : Source) (pid target : Pid) (resource : Nat)
    (new : Option Limit) :
    (∃ e, s.prlimit src pid target resource new = s.answer pid (.error e)) ∨
      (∃ r q e, s.prlimit src pid target resource new =
        (s.note src (.limitAccessed r q)).answer pid (.error e)) ∨
      ∃ r q old limits, s.prlimit src pid target resource new =
        ((s.note src (.limitAccessed r q)).update q fun p => { p with limits }).answer pid
          (.ok (.limit old)) := by
  unfold prlimit
  split
  · exact .inl ⟨_, rfl⟩
  dsimp only
  split
  · exact .inl ⟨_, rfl⟩
  split
  · exact .inr (.inl ⟨_, _, _, rfl⟩)
  · exact .inr (.inr ⟨_, _, _, _, rfl⟩)

/-! ## A turn of a wait for children -/

/-- A child is taken off the list and out of the table. -/
def reap (s : System) (src : Source) (pid child : Pid) : System :=
  ((s.disown pid child).unlist child).note src (.reaped child)

/-- A reaping keeps the table in order. -/
theorem ordered_reap {child : Pid} (ho : s.Ordered) : (s.reap src pid child).Ordered := by
  have hlists : ((s.disown pid child).unlist child).Ordered := ordered_update (ordered_update ho)
  exact ⟨hlists.ascending, hlists.used⟩

/-- **What a turn of a wait for children comes to**, and what it found. -/
inductive Glance (s : System) (src : Source) (pid : Pid) (p : Process) (selector : Int)
    (noHang : Bool) : System → Prop
  | failed {e : Errno} (hr : s.ready? p selector = .error e) :
      Glance s src pid p selector noHang (s.answer pid (.error e))
  | reaped {child : Pid} {w : WaitStatus} (hr : s.ready? p selector = .ok (some (child, w))) :
      Glance s src pid p selector noHang
        ((s.reap src pid child).answer pid (.ok (.child child w))).sweep
  | hurried (hr : s.ready? p selector = .ok none) (hn : noHang = true) :
      Glance s src pid p selector noHang (s.answer pid (.ok (.child 0 0)))
  | left (hr : s.ready? p selector = .ok none) (hn : noHang = false)
      (he : p.status.isExited = true) :
      Glance s src pid p selector noHang (s.answer pid (.error .mustExit))
  | interrupted (hr : s.ready? p selector = .ok none) (hn : noHang = false)
      (he : p.status.isExited = false) (hd : p.inbox.hasDeliverable = true) :
      Glance s src pid p selector noHang (s.answer pid (.error .intr))
  | blocked (hr : s.ready? p selector = .ok none) (hn : noHang = false)
      (he : p.status.isExited = false) (hd : p.inbox.hasDeliverable = false) :
      Glance s src pid p selector noHang (s.act src pid fun p =>
        (p.goto (.blocked (.wait4 selector noHang) (p.listen .child none)), [.noChildReady]))

/-- **A turn of a wait for children** is all that it can be. -/
theorem glance (s : System) (src : Source) (pid : Pid) (p : Process) (selector : Int)
    (noHang : Bool) :
    s.Glance src pid p selector noHang (s.wait4 src pid p selector noHang) := by
  unfold wait4
  split
  · next hr => exact .failed hr
  · next hr => exact .reaped hr
  next hr =>
  split
  · next hn => exact .hurried hr hn
  next hn =>
  rw [Bool.not_eq_true] at hn
  split
  · next he => exact .left hr hn he
  next he =>
  rw [Bool.not_eq_true] at he
  split
  · next hd => exact .interrupted hr hn he hd
  next hd =>
  rw [Bool.not_eq_true] at hd
  exact .blocked hr hn he hd

/-! ## A step of a process -/

section Step

variable {p : Process} {t : Task}

/-- Nobody steps who is not there. -/
theorem step_of_none (hp : s.process? pid = none) : s.step pid = s := by
  simp [step, hp]

/-- Nobody steps who has no task. -/
theorem step_of_task_eq_none (hp : s.process? pid = some p) (ht : p.task = none) :
    s.step pid = s := by
  simp [step, hp, ht]

/-- The body of a call runs in one step. -/
theorem step_of_execute {call : SystemCall Handler} (hp : s.process? pid = some p)
    (ht : p.task = some t) (hc : t.control = .execute call) :
    s.step pid = s.execute ⟨some pid, t.openCalls⟩ pid p call := by
  simp only [step, hp, ht, hc]

/-- A wait for children looks in one step. -/
theorem step_of_wait4 {selector : Int} {noHang : Bool} (hp : s.process? pid = some p)
    (ht : p.task = some t) (hc : t.control = .loop (.wait4 selector noHang)) :
    s.step pid = s.wait4 ⟨some pid, t.openCalls⟩ pid p selector noHang := by
  simp only [step, hp, ht, hc]

/-- A main routine ends in one step. -/
theorem step_of_finish {e : Ending} (hp : s.process? pid = some p)
    (ht : p.task = some t) (he : t.control = .finish e) :
    s.step pid = s.finish ⟨some pid, t.openCalls⟩ pid t e := by
  simp only [step, hp, ht, he]

/-- **What concerns the process alone is a change of the process alone.** -/
theorem step_of_not_isShared (hp : s.process? pid = some p) (ht : p.task = some t)
    (hl : t.control.isShared = false) :
    s.step pid = s.act ⟨some pid, t.openCalls⟩ pid (·.step s.now pid t) := by
  unfold step
  simp only [hp, ht]
  split <;> next hc => first | rfl | simp [hc, Control.isShared] at hl

/-- **What a step of a process is**, by what it is about to do. -/
inductive Stride (s : System) (pid : Pid) : System → Prop
  /-- There is no such process, or it has no context. -/
  | nobody : Stride s pid s
  | alone {p : Process} {t : Task} (hp : s.process? pid = some p) (ht : p.task = some t)
      (hl : t.control.isShared = false) :
      Stride s pid (s.act ⟨some pid, t.openCalls⟩ pid (·.step s.now pid t))
  | executes {p : Process} {t : Task} {call : SystemCall Handler} (hp : s.process? pid = some p)
      (ht : p.task = some t) (hc : t.control = .execute call) :
      Stride s pid (s.execute ⟨some pid, t.openCalls⟩ pid p call)
  | looks {p : Process} {t : Task} {selector : Int} {noHang : Bool}
      (hp : s.process? pid = some p) (ht : p.task = some t)
      (hc : t.control = .loop (.wait4 selector noHang)) :
      Stride s pid (s.wait4 ⟨some pid, t.openCalls⟩ pid p selector noHang)
  | finishes {p : Process} {t : Task} {e : Ending} (hp : s.process? pid = some p)
      (ht : p.task = some t) (hc : t.control = .finish e) :
      Stride s pid (s.finish ⟨some pid, t.openCalls⟩ pid t e)

/-- **A step of a process** is all that it can be. -/
theorem stride (s : System) (pid : Pid) : s.Stride pid (s.step pid) := by
  cases hp : s.process? pid with
  | none =>
    rw [step_of_none hp]
    exact .nobody
  | some p =>
    cases ht : p.task with
    | none =>
      rw [step_of_task_eq_none hp ht]
      exact .nobody
    | some t =>
      cases hl : t.control.isShared with
      | false => exact step_of_not_isShared hp ht hl ▸ .alone hp ht hl
      | true =>
        unfold step
        simp only [hp, ht]
        split
        · next hc => exact .executes hp ht hc
        · next hc => exact .looks hp ht hc
        · next hc => exact .finishes hp ht hc
        · simp_all [Control.isShared]

end Step

end System

end PosixSignals
