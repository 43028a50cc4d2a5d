import PosixSignals.Proofs.Scenario.Continuity

/-!
# What changes of the system respect

Signals, births, ends, reapings and the steps of the outside are put together
from a few changes of single processes. A relation between a process and what
has become of it that each of these few respects is respected by all that is
put together from them, for everybody who is known. What a process does in a
call that is about itself alone is left to whoever uses this.
-/

namespace PosixSignals

namespace System

variable {s s' s'' : System} {pid : Pid} {p : Process} {src : Source}
  {R : Process → Process → Prop}

/-- **A relation that the changes respect** of which signals, births and ends are made. -/
structure Respected (R : Process → Process → Prop) : Prop where
  refl (p : Process) : R p p
  trans {p q r : Process} (h : R p q) (h' : R q r) : R p r
  generate (pid : Pid) (info : SignalInfo) (p : Process) : R p (p.generate pid info).1
  exit (pid : Pid) (w : WaitStatus) (p : Process) : R p (p.orStay (p.exit pid w)).1
  stop (pid : Pid) (sig : Signal) (p : Process) : R p (p.orStay (p.stop pid sig)).1
  resume (pid : Pid) (p : Process) : R p (p.orStay (p.resume pid)).1
  noticeChild (p : Process) : R p p.noticeChild
  goto (c : Control) (p : Process) : R p (p.goto c)
  /-- The main routine is told what to do. -/
  told (keep : Bool) (request : Request Handler) (p : Process) :
    R p (p.enter (.main keep) (.perform request))
  /-- Its place among the others is another. -/
  placed (parent : Option Pid) (children : List Pid) (listed : Bool) (p : Process) :
    R p { p with parent, children, listed }
  buried (p : Process) : R p { p with children := [], status := p.status.toZombie }
  released (p : Process) : R p { p with task := none }

/-- A relation that the changes respect can be followed from one move to the next. -/
theorem Respected.durable (hR : Respected R) : Durable fun _ => R where
  refl _ := hR.refl
  trans _ _ _ _ := hR.trans
  unparent _ p := hR.placed none p.children p.listed p

/-- What is done to one process in itself leaves the others as they are. -/
theorem continues_alone {R : Pid → Process → Process → Prop} (hrefl : ∀ pid p, R pid p p)
    {f : Process → Process × List Event} (hp : s.process? pid = some p) (hf : R pid p (f p).1) :
    Continues R s (s.act src pid f) := by
  refine ⟨⟨_, act_history hp⟩, fun q r hr _ => ?_⟩
  rcases process?_act_eq_some.1 hr with ⟨rfl, p', hp', rfl⟩ | ⟨-, hr⟩
  · obtain rfl := Option.some.inj (hp.symm.trans hp')
    exact ⟨p, hp, hf⟩
  · exact ⟨r, hr, hrefl q r⟩

/-- **Everybody known is related** to what has become of him. -/
abbrev Keeps (R : Process → Process → Prop) : System → System → Prop := Continues fun _ => R

section Changes

variable (hR : Respected R)
include hR

/-- Nothing has become of anybody. -/
theorem Respected.keeps_refl (s : System) : Keeps R s s := Continues.refl hR.durable s

/-- What has become of somebody may have done so by stages. -/
theorem Respected.keeps_trans (h : Keeps R s s') (h' : Keeps R s' s'') : Keeps R s s'' :=
  Continues.trans hR.durable h h'

/-- A remark changes nobody. -/
theorem Respected.note (e : Event) : Keeps R s (s.note src e) :=
  continues_note hR.durable s src e

/-- A change that is related to what it changes keeps everybody related. -/
theorem Respected.act {f : Process → Process × List Event} (hf : ∀ p, R p (f p).1) :
    Keeps R s (s.act src pid f) :=
  continues_act hR.durable fun p _ => hf p

/-- An update that is related to what it changes keeps everybody related. -/
theorem Respected.update {g : Process → Process} (hg : ∀ p, R p (g p)) :
    Keeps R s (s.update pid g) :=
  hR.act hg

/-- An answer only moves its caller on. -/
theorem Respected.answer (r : Reply) : Keeps R s (s.answer pid r) := hR.update (hR.goto _)

/-- A signal that is generated is one of the changes. -/
theorem Respected.signal (info : SignalInfo) : Keeps R s (s.act src pid (·.generate pid info)) :=
  hR.act (hR.generate pid info)

/-- Whoever is swept away is no longer known, and those who are left only lose a parent. -/
theorem Respected.sweep : Keeps R s s.sweep := continues_sweep hR.durable s

/-- To leave the table is to have another place. -/
theorem Respected.unlist : Keeps R s (s.unlist pid) :=
  hR.update fun p => hR.placed p.parent p.children false p

/-- So is to leave a list. -/
theorem Respected.disown (child : Pid) : Keeps R s (s.disown pid child) :=
  hR.update fun p => hR.placed p.parent (p.children.erase child) p.listed p

/-! ## Births and ends -/

/-- A root was not known before. -/
theorem Respected.addRoot (name : String) (task : Option Task) :
    Keeps R s (s.addRoot src name task).2 := by
  rcases s.addRoot_cases src name task with h | ⟨child, pids, -, h⟩ <;> rw [h]
  · exact hR.keeps_refl s
  · exact continues_bear hR.durable

/-- A child was not known before, and its parent has one more on its list. -/
theorem Respected.fork (task : Option Task) : Keeps R s (s.fork src pid p task).2 := by
  rcases s.fork_cases src pid p task with h | ⟨child, pids, -, h⟩ <;> rw [h]
  · exact hR.keeps_refl s
  · exact hR.keeps_trans (continues_bear hR.durable)
      (hR.update fun p => hR.placed p.parent (p.children ++ [child]) p.listed p)

/-- Orphans have another place. -/
theorem Respected.orphans (children : List Pid) : Keeps R s (children.foldl orphan s) := by
  induction children generalizing s with
  | nil => exact hR.keeps_refl s
  | cons c children ih =>
    have horphan : Keeps R s (s.orphan c) :=
      hR.update fun c => hR.placed none c.children (c.listed && !c.status.isZombie) c
    exact hR.keeps_trans horphan ih

/-- A burial orphans the children, makes the dead a zombie, and tells its parent or takes it out of
the table. -/
theorem Respected.bury : Keeps R s (s.bury src pid p) := by
  have hmarked : Keeps R s ((p.children.foldl System.orphan s).act src pid fun p =>
      ({ p with children := [], status := p.status.toZombie }, [.becameZombie pid])) :=
    hR.keeps_trans (hR.orphans p.children) (hR.act hR.buried)
  unfold System.bury
  dsimp only
  split
  · exact hR.keeps_trans (hR.keeps_trans hmarked (hR.signal _)) (hR.update hR.noticeChild)
  · exact hR.keeps_trans hmarked hR.unlist

/-- The end that a main routine comes to is marked. -/
theorem Respected.conclude (e : Ending) : Keeps R s (s.conclude src pid e) := by
  have hexit : ∀ {s : System} (w : WaitStatus),
      Keeps R s (s.act src pid fun p => p.orStay (p.exit pid w)) :=
    fun w => hR.act (hR.exit pid w)
  unfold System.conclude
  split
  · exact hexit _
  · exact hR.keeps_refl s
  · exact hR.keeps_trans (hR.note _) (hexit _)
  · exact hR.keeps_trans (hR.note _) (hexit _)

/-- **A main routine ends**: the end is marked, the process is laid to rest, and the system is
swept. -/
theorem Respected.finish (t : Task) (e : Ending) : Keeps R s (s.finish src pid t e) := by
  have hend : Keeps R s (s.conclude src pid e) := hR.conclude e
  unfold System.finish
  dsimp only
  split
  · exact hend
  · next p _ =>
    have hfreed : Keeps R s (((s.conclude src pid e).bury src pid p).update pid
        fun p => { p with task := none }) :=
      hR.keeps_trans (hR.keeps_trans hend hR.bury) (hR.update hR.released)
    refine hR.keeps_trans ?_ hR.sweep
    split
    · exact hR.keeps_trans hfreed (hR.note _)
    · exact hfreed

/-! ## Calls that reach beyond the caller -/

/-- A signal is generated against each of its targets. -/
theorem Respected.sendAll (info : SignalInfo) (targets : List Pid) :
    Keeps R s (s.sendAll src info targets) := by
  unfold System.sendAll
  induction targets generalizing s with
  | nil => exact hR.keeps_refl s
  | cons q targets ih => exact hR.keeps_trans (hR.signal info) ih

/-- A `kill` does nothing but generate signals and answer. -/
theorem Respected.kill (recipient : Recipient) (number : Nat) :
    Keeps R s (s.kill src pid p recipient number) := by
  rcases s.kill_cases src pid p recipient number with ⟨e, h⟩ | h | ⟨sig, h⟩ <;> rw [h]
  · exact hR.answer _
  · exact hR.answer _
  · exact hR.keeps_trans (hR.sendAll _ _) (hR.answer _)

/-- A `fork` begets a child and answers. -/
theorem Respected.forkCall : Keeps R s (s.forkCall src pid p) := by
  rw [forkCall_eq]
  exact hR.keeps_trans (hR.fork (some {})) (hR.answer _)

/-- A turn of a `wait4` reaps a child, or leaves all as they are but for where its caller is. -/
theorem Respected.wait4 (selector : Int) (noHang : Bool) :
    Keeps R s (s.wait4 src pid p selector noHang) := by
  have hglance := s.glance src pid p selector noHang
  generalize s.wait4 src pid p selector noHang = s' at hglance ⊢
  cases hglance with
  | failed | hurried | left | interrupted => exact hR.answer _
  | @reaped child w =>
    have hunlisted : Keeps R s ((s.disown pid child).unlist child) :=
      hR.keeps_trans (hR.disown child) hR.unlist
    exact hR.keeps_trans (hR.keeps_trans (hR.keeps_trans hunlisted (hR.note _)) (hR.answer _))
      hR.sweep
  | blocked => exact hR.act fun p => hR.goto _ p

/-! ## Steps of the outside -/

/-- **The outside respects it.** -/
theorem Respected.host (step : HostStep) : Keeps R s (s.host step).2 := by
  have hstep := s.intervention step
  generalize (s.host step).2 = s' at hstep ⊢
  cases hstep with
  | nothing => exact hR.keeps_refl s
  | @told pid c =>
    refine hR.update fun p => ?_
    cases c with
    | perform i => exact hR.told i.keep i.request p
    | finish code => exact hR.goto _ p
  | founded => exact hR.addRoot _ _
  | refused => exact hR.keeps_trans (hR.addRoot _ _) (hR.note _)
  | started =>
    exact addRoots_induct (hR.keeps_refl s) (fun _ h => hR.keeps_trans h (hR.addRoot _ none)) _
  | forked => exact hR.fork none
  | sent => exact hR.signal _
  | removed => exact hR.keeps_trans hR.unlist hR.sweep
  | exited => exact hR.act (hR.exit _ _)
  | stopped => exact hR.act (hR.stop _ _)
  | resumed => exact hR.act (hR.resume _)
  | reaped => exact hR.keeps_trans (hR.disown _) hR.sweep

/-! ## Steps of processes -/

/-- **What a step of a process amounts to**, for a relation that is as weak: what the process does
to itself, and the bodies of calls, are all that is left to look at. -/
theorem Respected.step {Q : Pid → Process → Process → Prop} (hQ : ∀ x p q, R p q → Q x p q)
    (halone : ∀ p t, s.process? pid = some p → p.task = some t →
      t.control.isShared = false → Q pid p (p.step s.now pid t).1)
    (hexecute : ∀ src p t call, s.process? pid = some p → p.task = some t →
      t.control = .execute call → Continues Q s (s.execute src pid p call)) :
    Continues Q s (s.step pid) := by
  have hkept : ∀ {s'}, Keeps R s s' → Continues Q s s' := fun h => h.mono hQ
  have hstride := s.stride pid
  generalize s.step pid = s' at hstride ⊢
  cases hstride with
  | nobody => exact hkept (hR.keeps_refl s)
  | alone hp ht hl =>
    exact continues_alone (fun x p => hQ x p p (hR.refl p)) hp (halone _ _ hp ht hl)
  | executes hp ht hc => exact hexecute _ _ _ _ hp ht hc
  | looks => exact hkept (hR.wait4 _ _)
  | finishes => exact hkept (hR.finish _ _)

end Changes

end System

end PosixSignals
