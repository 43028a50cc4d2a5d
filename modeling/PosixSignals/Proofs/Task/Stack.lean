import PosixSignals.Process.Basic
import PosixSignals.Proofs.Signal.Mask

/-!
# The shape of a stack

Which frame can stand on which, and what the control of a task can be
doing on top of them. A handler's body stands on its delivery, a delivery
on the check point that made it or on the routine that asked for it, a
check point on whatever runs one, and a system call on a routine. So a
routine that is not main always has a delivery under it, and with it a
mask to go back to: everything a handler does to the mask ends with it.
-/

namespace PosixSignals

namespace Frame

/-- Main, or the body of a handler: what makes calls. -/
def isRoutine : Frame → Bool
  | .main _ | .body .. => true
  | _ => false

def isBody : Frame → Bool
  | .body .. => true
  | _ => false

def isDelivery : Frame → Bool
  | .delivery .. => true
  | _ => false

def isCallBody : Frame → Bool
  | .callBody _ => true
  | _ => false

/-- What runs a check point: the end of a call, a wait in the middle of
one, or a routine that asks for it. -/
def hostsCheck : Frame → Bool
  | .main _ | .body .. | .callExit _ | .waiting _ | .suspended .. | .asleep .. => true
  | _ => false

/-- What a handler is run for: a check point, or a routine that asks for it. -/
def hostsDelivery : Frame → Bool
  | .main _ | .body .. | .round => true
  | _ => false

/-- What a wait is made for: the body of a call, or a routine. -/
def hostsWait : Frame → Bool
  | .main _ | .body .. | .callBody _ => true
  | _ => false

/-- The mask that is put back when a frame is left, if it holds one. -/
def saved? : Frame → Option SignalSet
  | .delivery _ _ saved => some saved
  | .waiting w => some w.saved
  | .suspended saved _ => some saved
  | _ => none

end Frame

/-- There is a frame on top, and it is of this kind. -/
def TopIs (kind : Frame → Bool) (fs : List Frame) : Prop := fs.head?.any kind = true

@[simp] theorem topIs_cons {kind : Frame → Bool} {f : Frame} {fs : List Frame} :
    TopIs kind (f :: fs) ↔ kind f = true := by
  simp [TopIs]

@[simp] theorem not_topIs_nil {kind : Frame → Bool} : ¬ TopIs kind [] := by
  simp [TopIs]

/-- A frame of one kind may be of another. -/
theorem TopIs.mono {kind kind' : Frame → Bool} {fs : List Frame} (h : TopIs kind fs)
    (hk : ∀ f, kind f = true → kind' f = true) : TopIs kind' fs := by
  cases fs with
  | nil => exact absurd h not_topIs_nil
  | cons f fs => exact topIs_cons.2 (hk f (topIs_cons.1 h))

/-- Where a frame is on top, there is one. -/
theorem TopIs.ne_nil {kind : Frame → Bool} {fs : List Frame} (h : TopIs kind fs) : fs ≠ [] := by
  rintro rfl
  exact not_topIs_nil h

/-- A routine can run a check point itself. -/
theorem TopIs.hostsCheck {fs : List Frame} (h : TopIs Frame.isRoutine fs) :
    TopIs Frame.hostsCheck fs :=
  h.mono fun f hf => by cases f <;> first | rfl | simp [Frame.isRoutine] at hf

/-- A routine can have a handler run for it. -/
theorem TopIs.hostsDelivery {fs : List Frame} (h : TopIs Frame.isRoutine fs) :
    TopIs Frame.hostsDelivery fs :=
  h.mono fun f hf => by cases f <;> first | rfl | simp [Frame.isRoutine] at hf

namespace Loop

/-- The mask a construct puts back when it ends. -/
def saved? : Loop → Option SignalSet
  | .waitAny w => some w.saved
  | .suspend saved => some saved
  | .check _ | .sleep _ | .wait4 .. => none

/-- What a construct can run on. -/
def host : Loop → Frame → Bool
  | .check _ => Frame.hostsCheck
  | .waitAny _ | .suspend _ | .sleep _ => Frame.hostsWait
  | .wait4 .. => Frame.isCallBody

end Loop

namespace Control

/-- The mask that what goes on now puts back when it ends. -/
def saved? : Control → Option SignalSet
  | .loop l | .blocked l _ => l.saved?
  | _ => none

/-- What can go on over which stack. -/
def Fits : Control → List Frame → Prop
  | .idle, fs | .finish _, fs => fs = []
  | .perform _, fs => TopIs Frame.isRoutine fs
  | .execute call, fs => fs.head? = some (.callBody call)
  | .proceed, fs => TopIs Frame.isBody fs
  | .loop l, fs | .blocked l _, fs => TopIs l.host fs
  | .reply _, fs => fs ≠ []
  | .panic, _ => True

/-- The construct that looks at the state now, or is blocked. -/
def loop? : Control → Option Loop
  | .loop l | .blocked l _ => some l
  | _ => none

/-- A construct that loops looks, or is blocked. -/
theorem loop?_eq_some {c : Control} {l : Loop} (h : c.loop? = some l) :
    c = .loop l ∨ ∃ y, c = .blocked l y := by
  cases c <;> simp [loop?] at h
  · exact .inl (congrArg Control.loop h)
  · next y => exact .inr ⟨y, by rw [h]⟩

/-- Whether a reply is handed on, or a panic. -/
def isBack : Control → Bool
  | .reply _ | .panic => true
  | _ => false

/-- **Between two commands or blocked**: what a process does that is in the
midst of nothing. -/
def isResting : Control → Bool
  | .idle | .blocked .. => true
  | _ => false

end Control

/-- **What a frame can stand on.** -/
def Frame.StandsOn : Frame → List Frame → Prop
  | .main _, fs => fs = []
  | .body .., fs => TopIs Frame.isDelivery fs
  | .delivery .., fs => TopIs Frame.hostsDelivery fs
  | .round, fs => TopIs Frame.hostsCheck fs
  | .waiting _, fs | .suspended .., fs | .asleep .., fs => TopIs Frame.hostsWait fs
  | .callBody _, fs | .callExit _, fs => TopIs Frame.isRoutine fs

/-- Every frame stands on one it can stand on. -/
def Stacked : List Frame → Prop
  | [] => True
  | f :: fs => f.StandsOn fs ∧ Stacked fs

@[simp] theorem stacked_nil : Stacked [] := trivial

@[simp] theorem stacked_cons {f : Frame} {fs : List Frame} :
    Stacked (f :: fs) ↔ f.StandsOn fs ∧ Stacked fs := Iff.rfl

/-- What is under some frames of a stack is a stack. -/
theorem stacked_of_append {fs gs : List Frame} (h : Stacked (fs ++ gs)) : Stacked gs := by
  induction fs with
  | nil => exact h
  | cons f fs ih => exact ih h.2

/-! ## Contexts -/

/-- What a process is in the midst of, with the mask it does it under. -/
structure Context where
  frames : List Frame
  control : Control
  blocked : SignalSet

namespace Context

/-- The masks that are put back one after the other, the next one first. -/
def saved (c : Context) : List SignalSet :=
  c.control.saved?.toList ++ c.frames.filterMap Frame.saved?

/-- **What every context of the system satisfies.** -/
structure Sound (c : Context) : Prop where
  stacked : Stacked c.frames
  fits : c.control.Fits c.frames
  blockable : c.blocked.Blockable
  savedBlockable : ∀ m ∈ c.saved, m.Blockable

end Context

namespace Process

/-- What a process is in the midst of, until its main routine is over. -/
def context? (p : Process) : Option Context :=
  p.task.map fun t => ⟨t.frames, t.control, p.inbox.blocked⟩

/-- A context is the task, but for whether it is that of a root, and the mask. -/
theorem context?_eq_some {p : Process} {c : Context} :
    p.context? = some c ↔
      ∃ root, p.task = some ⟨c.frames, c.control, root⟩ ∧ p.inbox.blocked = c.blocked := by
  unfold context?
  constructor
  · intro h
    obtain ⟨t, ht, rfl⟩ := Option.map_eq_some_iff.1 h
    exact ⟨t.root, ht, rfl⟩
  · rintro ⟨root, ht, hb⟩
    rw [ht, Option.map_some, hb]

end Process

end PosixSignals
