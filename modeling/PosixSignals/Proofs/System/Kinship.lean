import PosixSignals.Proofs.System.Evolution

/-!
# Who is kin to whom

The place of a process among the others: its group, its parent, its
children, whether the table has it, whether it is a zombie and whether it
still runs. Most of what happens leaves every place as it is. What does not
is one of a few affairs: a birth, a parent reaping a child, an end, a step
of the outside that takes a process off a list, and the sweep that forgets
whoever nothing refers to any more. For each this module says what becomes
of every place.
-/

namespace PosixSignals

/-- The place of a process among the others. -/
structure Kin where
  pgid : Pid
  parent : Option Pid
  children : List Pid
  listed : Bool
  zombie : Bool
  running : Bool

namespace Kin

/-- Without a parent, and out of the table if it is a zombie. -/
def orphaned (k : Kin) : Kin := { k with parent := none, listed := k.listed && !k.zombie }

/-- Dead and without children; in the table only if somebody can reap it. -/
def buried (reapable : Bool) (k : Kin) : Kin :=
  { k with children := [], listed := k.listed && reapable, zombie := true, running := false }

/-- Without its parent, if that was this process. -/
def forgetting (pid : Pid) (k : Kin) : Kin :=
  if k.parent = some pid then { k with parent := none } else k

@[simp] theorem forgetting_children (pid : Pid) (k : Kin) :
    (k.forgetting pid).children = k.children := by
  unfold forgetting
  split <;> rfl

@[simp] theorem forgetting_zombie (pid : Pid) (k : Kin) :
    (k.forgetting pid).zombie = k.zombie := by
  unfold forgetting
  split <;> rfl

@[simp] theorem forgetting_listed (pid : Pid) (k : Kin) :
    (k.forgetting pid).listed = k.listed := by
  unfold forgetting
  split <;> rfl

@[simp] theorem forgetting_running (pid : Pid) (k : Kin) :
    (k.forgetting pid).running = k.running := by
  unfold forgetting
  split <;> rfl

@[simp] theorem forgetting_pgid (pid : Pid) (k : Kin) : (k.forgetting pid).pgid = k.pgid := by
  unfold forgetting
  split <;> rfl

/-- A parent that is left is one that is not forgotten. -/
theorem forgetting_parent_eq_some {pid r : Pid} {k : Kin} :
    (k.forgetting pid).parent = some r ↔ k.parent = some r ∧ r ≠ pid := by
  unfold forgetting
  split
  · next he => simp [he, eq_comm (a := pid)]
  · next hne => exact ⟨fun h => ⟨h, fun he => hne (he ▸ h)⟩, And.left⟩

@[simp] theorem orphaned_orphaned (k : Kin) : k.orphaned.orphaned = k.orphaned := by
  simp [orphaned]

end Kin

namespace Process

variable {p q : Process} {pid : Pid} {r : Process × List Event}

def kin (p : Process) : Kin :=
  ⟨p.pgid, p.parent, p.children, p.listed, p.status.isZombie, p.task.isSome⟩

/-- A place is part of the standing. -/
theorem kin_of_standing (h : q.standing = p.standing) : q.kin = p.kin :=
  congrArg (fun s : Standing =>
    Kin.mk s.pgid s.parent s.children s.listed s.status.isZombie s.running) h

/-! ## What leaves a place as it is -/

/-- Nobody becomes a zombie, or stops being one, by any other change of status. -/
theorem Shift.kin (h : p.Shift pid r) : r.1.kin = p.kin := by
  have hkin : ∀ st : Status, st.isZombie = p.status.isZombie →
      (wake { p with status := st }).kin = p.kin := fun st hz => by
    simp [Process.kin, wake, hz]
  cases h with
  | none => rfl
  | exited h => exact hkin _ (by cases hp : p.status <;> simp [hp, Status.isExited] at h <;> rfl)
  | stopped h => exact hkin _ (h ▸ rfl)
  | continued h => exact hkin _ (by cases hp : p.status <;> simp [hp, Status.isStopped] at h; rfl)

theorem carried_kin {info : SignalInfo} : Carried pid info fun p c => c.1.kin = p.kin where
  append h h' := h'.trans h
  shift := Shift.kin
  receive _ := rfl
  wake _ := rfl
  dropped _ := rfl

theorem kin_generate (info : SignalInfo) : (p.generate pid info).1.kin = p.kin :=
  carried_kin.generate p

theorem observed_kin : Observed pid fun p q => q.kin = p.kin where
  trans h h' := h'.trans h
  standing := kin_of_standing
  without _ _ := rfl
  shift := Shift.kin

end Process

namespace System

variable {s s' s'' : System} {actor : Option Pid} {kin mortal : Bool} {pid q : Pid} {src : Source}
  {f : Process → Process × List Event}

/-- The place of a process, if it is known. -/
def kin? (s : System) (pid : Pid) : Option Kin := (s.process? pid).map (·.kin)

theorem kin?_eq_some {k : Kin} :
    s.kin? pid = some k ↔ ∃ p, s.process? pid = some p ∧ p.kin = k :=
  Option.map_eq_some_iff

theorem kin?_of_process? {p : Process} (h : s.process? pid = some p) : s.kin? pid = some p.kin := by
  rw [kin?, h]
  rfl

theorem kin?_act : (s.act src pid f).kin? q =
    if q = pid then (s.process? pid).map fun p => (f p).1.kin else s.kin? q := by
  rw [kin?, process?_act]
  split
  · rw [Option.map_map]
    rfl
  · rfl

/-- A change of one process by which its place changes like this. -/
theorem kin?_act_of {g : Kin → Kin} (h : ∀ p, (f p).1.kin = g p.kin) :
    (s.act src pid f).kin? q = (s.kin? q).map fun k => if q = pid then g k else k := by
  rw [kin?_act]
  by_cases hq : q = pid
  · subst hq
    simp only [if_true, kin?, Option.map_map, Function.comp_def, h]
  · simp [hq]

theorem kin?_act_same (h : ∀ p, s.process? pid = some p → (f p).1.kin = p.kin) :
    (s.act src pid f).kin? q = s.kin? q := by
  rw [kin?_act]
  split
  · next he =>
    subst he
    cases hp : s.process? q with
    | none => simp [kin?, hp]
    | some p => simp [kin?, hp, h p hp]
  · rfl

theorem kin_of_deed {p : Process} {r : Process × List Event} (h : Deed actor false false pid p r) :
    r.1.kin = p.kin := by
  cases h with
  | generate info => exact Process.kin_generate info
  | exit w => exact Process.shift_exit.kin
  | stop sig => exact Process.shift_stop.kin
  | resume => exact Process.shift_resume.kin
  | noticeChild | limits => rfl
  | mild _ h => exact Process.observed_kin.mild h
  | placed h | buried h | released h => simp at h

/-- **What leaves kin alone leaves every place as it is.** -/
theorem kin?_of_evolves (h : Evolves actor false false s s') (q : Pid) : s'.kin? q = s.kin? q := by
  induction h with
  | refl => rfl
  | tail _ h ih =>
    refine Eq.trans ?_ ih
    cases h with
    | remark | wait => rfl
    | deed _ hf => exact kin?_act_same fun p hp => kin_of_deed (hf p hp)
    | root hk | child hk | forget hk => simp at hk

/-! ## Who stays -/

/-- Nobody loses the context but by an end of its own. -/
theorem running_of_deed {p : Process} {r : Process × List Event}
    (h : Deed actor kin mortal pid p r) (hm : mortal = true → actor ≠ some pid) :
    r.1.task.isSome = p.task.isSome := by
  have hrunning : ∀ {q : Process}, q.kin = p.kin → q.task.isSome = p.task.isSome :=
    fun h => congrArg Kin.running h
  cases h with
  | generate info => exact hrunning (Process.kin_generate info)
  | exit w => exact hrunning Process.shift_exit.kin
  | stop sig => exact hrunning Process.shift_stop.kin
  | resume => exact hrunning Process.shift_resume.kin
  | noticeChild | limits | placed | buried => rfl
  | mild _ h => exact hrunning (Process.observed_kin.mild h)
  | released hm' ha => exact absurd ha (hm hm')

/-- **A process with a context stays**, and one change does at most one deed to it. -/
theorem Happens.kept {p : Process} (h : Happens actor kin mortal s s') (ho : s.Ordered)
    (hm : mortal = true → actor ≠ some pid) (hp : s.process? pid = some p) (ht : p.task ≠ none) :
    ∃ q, s'.process? pid = some q ∧ q.task ≠ none ∧ (q = p ∨ q = { p with parent := none } ∨
      ∃ events, Deed actor kin mortal pid p (q, events)) := by
  cases h with
  | remark | wait => exact ⟨p, hp, ht, .inl rfl⟩
  | @deed src pid' f _ hf =>
    by_cases he : pid = pid'
    · subst he
      refine ⟨(f p).1, process?_act_self hp, ?_, .inr (.inr ⟨_, hf p hp⟩)⟩
      have hrun := running_of_deed (hf p hp) hm
      rwa [← Option.isSome_iff_ne_none, hrun, Option.isSome_iff_ne_none]
    · exact ⟨p, by rw [process?_act, if_neg he, hp], ht, .inl rfl⟩
  | @root src pid' _ _ _ _ _ ha =>
    have hne : pid ≠ pid' := by
      rintro rfl
      simp [ho.fresh ha] at hp
    exact ⟨p, by rw [process?_bear, if_neg hne, hp], ht, .inl rfl⟩
  | @child src pid' _ _ _ _ _ _ ha =>
    have hne : pid ≠ pid' := by
      rintro rfl
      simp [ho.fresh ha] at hp
    exact ⟨p, by rw [process?_bear, if_neg hne, hp], ht, .inl rfl⟩
  | @forget pid' _ hu =>
    have hne : pid ≠ pid' := by
      rintro rfl
      have hnone := hu p hp
      simp [isReferenced, Option.isSome_iff_ne_none.2 ht] at hnone
    refine ⟨_, by rw [process?_drop, if_neg hne, hp]; rfl, ?_⟩
    dsimp only
    split
    · exact ⟨ht, .inr (.inl rfl)⟩
    · exact ⟨ht, .inl rfl⟩

/-- **What every deed respects is respected by the whole evolution.** -/
theorem Evolves.kept {R : Process → Process → Prop} (hrefl : ∀ p, R p p)
    (htrans : ∀ p q r, R p q → R q r → R p r) (hparent : ∀ p, R p { p with parent := none })
    (hdeed : ∀ p r, Deed actor kin mortal pid p r → R p r.1) {p : Process}
    (h : Evolves actor kin mortal s s') (ho : s.Ordered) (hm : mortal = true → actor ≠ some pid)
    (hp : s.process? pid = some p) (ht : p.task ≠ none) :
    ∃ q, s'.process? pid = some q ∧ q.task ≠ none ∧ R p q := by
  induction h with
  | refl => exact ⟨p, hp, ht, hrefl p⟩
  | tail h h' ih =>
    obtain ⟨q, hq, htq, hr⟩ := ih
    obtain ⟨q', hq', htq', hone⟩ := h'.kept (Evolves.ordered h ho) hm hq htq
    refine ⟨q', hq', htq', htrans _ _ _ hr ?_⟩
    rcases hone with rfl | rfl | ⟨events, hd⟩
    · exact hrefl q'
    · exact hparent q
    · exact hdeed q _ hd

/-! ## Places that change -/

theorem kin?_bear {pids : IdPool} {p : Process} :
    (s.bear src pid pids p).kin? q = if q = pid then some p.kin else s.kin? q := by
  rw [kin?, process?_bear]
  split <;> rfl

theorem kin?_bear_eq_some {pids : IdPool} {p : Process} {k : Kin} :
    (s.bear src pid pids p).kin? q = some k ↔
      q = pid ∧ p.kin = k ∨ q ≠ pid ∧ s.kin? q = some k := by
  rw [kin?_bear]
  split <;> simp [*]

theorem kin?_drop : (s.drop pid).kin? q =
    if q = pid then none else (s.kin? q).map (Kin.forgetting pid) := by
  rw [kin?, process?_drop]
  split
  · rfl
  · simp only [kin?, Option.map_map, Function.comp_def]
    congr 1
    funext p
    unfold Kin.forgetting Process.kin
    split <;> simp_all

theorem kin?_drop_eq_some {k' : Kin} : (s.drop pid).kin? q = some k' ↔
    q ≠ pid ∧ ∃ k, s.kin? q = some k ∧ k.forgetting pid = k' := by
  rw [kin?_drop]
  split <;> simp [*]

theorem kin?_update_children (children : List Pid → List Pid) :
    (s.update pid fun p => { p with children := children p.children }).kin? q =
      (s.kin? q).map fun k => if q = pid then { k with children := children k.children } else k :=
  kin?_act_of fun _ => rfl

theorem kin?_unlist : (s.unlist pid).kin? q =
    (s.kin? q).map fun k => if q = pid then { k with listed := false } else k :=
  kin?_act_of fun _ => rfl

theorem kin?_orphan {child : Pid} : (s.orphan child).kin? q =
    (s.kin? q).map fun k => if q = child then k.orphaned else k :=
  kin?_act_of fun _ => rfl

/-- To be orphaned twice is to be orphaned. -/
theorem kin?_orphans (children : List Pid) : (children.foldl orphan s).kin? q =
    (s.kin? q).map fun k => if q ∈ children then k.orphaned else k := by
  induction children generalizing s with
  | nil => simp
  | cons c children ih =>
    rw [List.foldl_cons, ih, kin?_orphan, Option.map_map]
    congr 1
    funext k
    by_cases hc : q = c <;> by_cases hm : q ∈ children <;> simp [hc, hm]

/-! ## An end, part by part -/

/-- The end of a process: it is buried and loses its context. -/
def lay (s : System) (src : Source) (pid : Pid) (p : Process) : System :=
  (s.bury src pid p).update pid fun p => { p with task := none }

/-- A process becomes a zombie. -/
def entomb (s : System) (src : Source) (pid : Pid) : System :=
  s.act src pid fun p =>
    ({ p with children := [], status := p.status.toZombie }, [.becameZombie pid])

/-- The parent is told of an end; without one, the process leaves the table. -/
def tell (s : System) (src : Source) (pid : Pid) : Option Pid → System
  | some parent =>
    (s.act src parent (·.generate parent (.kernel .chld))).update parent (·.noticeChild)
  | none => s.unlist pid

theorem lay_eq (p : Process) : s.lay src pid p =
    (((p.children.foldl orphan s).entomb src pid).tell src pid p.parent).update pid
      fun p => { p with task := none } := by
  unfold lay bury
  dsimp only
  cases p.parent <;> rfl

theorem kin?_entomb : (s.entomb src pid).kin? q =
    (s.kin? q).map fun k => if q = pid then { k with children := [], zombie := true } else k :=
  kin?_act_of fun _ => rfl

theorem kin?_tell (parent : Option Pid) : (s.tell src pid parent).kin? q = (s.kin? q).map fun k =>
    if q = pid then { k with listed := k.listed && parent.isSome } else k := by
  cases parent with
  | none => simp [tell, kin?_unlist]
  | some parent =>
    have hnotice : ∀ s : System, (s.update parent (·.noticeChild)).kin? q = s.kin? q :=
      fun s => kin?_act_same fun _ _ => rfl
    have hgenerate : (s.act src parent (·.generate parent (.kernel .chld))).kin? q = s.kin? q :=
      kin?_act_same fun _ _ => Process.kin_generate _
    rw [tell, hnotice, hgenerate]
    simp

/-- **What an end makes of every place**: the children are orphaned, and the
process itself is buried. -/
theorem kin?_lay (p : Process) : (s.lay src pid p).kin? q = (s.kin? q).map fun k =>
    let k := if q ∈ p.children then k.orphaned else k
    if q = pid then k.buried p.parent.isSome else k := by
  have htask : ∀ s : System, (s.update pid fun p => { p with task := none }).kin? q =
      (s.kin? q).map fun k => if q = pid then { k with running := false } else k :=
    fun s => kin?_act_of fun _ => rfl
  rw [lay_eq, htask, kin?_tell, kin?_entomb, kin?_orphans]
  simp only [Option.map_map]
  congr 1
  funext k
  by_cases hq : q = pid <;> simp [hq, Kin.buried]

/-- **What an end makes of one place**: that of the dead, that of a child of it, or that of
somebody else, which stays. -/
inductive Bereft (pid : Pid) (p : Process) (q : Pid) (k : Kin) : Kin → Prop
  | dead (hq : q = pid) : Bereft pid p q k (k.buried p.parent.isSome)
  | orphan (hq : q ≠ pid) (hc : q ∈ p.children) : Bereft pid p q k k.orphaned
  | other (hq : q ≠ pid) (hc : q ∉ p.children) : Bereft pid p q k k

theorem kin?_lay_cases (s : System) (src : Source) {p : Process} (hself : pid ∉ p.children) :
    ∃ g : Pid → Kin → Kin, (∀ q, (s.lay src pid p).kin? q = (s.kin? q).map (g q)) ∧
      ∀ q k, Bereft pid p q k (g q k) := by
  refine ⟨_, fun _ => kin?_lay p, fun q k => ?_⟩
  dsimp only
  by_cases hq : q = pid
  · rw [if_pos hq, if_neg (hq ▸ hself)]
    exact .dead hq
  · rw [if_neg hq]
    split
    · next hc => exact .orphan hq hc
    · next hc => exact .other hq hc

namespace Bereft

variable {p : Process} {r c : Pid} {k k' : Kin} (h : Bereft pid p q k k')
include h

/-- The lists do not grow. -/
theorem sublist : k'.children.Sublist k.children := by
  cases h with
  | dead => exact List.nil_sublist _
  | orphan | other => exact .refl _

/-- Nobody is on the list of the dead. -/
theorem ne_of_mem (hc : c ∈ k'.children) : q ≠ pid := by
  cases h with
  | dead => cases hc
  | orphan hq | other hq => exact hq

/-- The other lists are what they were. -/
theorem children_eq (hq : q ≠ pid) : k'.children = k.children := by
  cases h with
  | dead he => exact absurd he hq
  | orphan | other => rfl

/-- Nobody gets another parent. -/
theorem parent_eq (hr : k'.parent = some r) : k.parent = some r := by
  cases h with
  | orphan => cases hr
  | dead | other => exact hr

/-- The children of the dead name no parent any more. -/
theorem not_mem_of_parent (hq : q ≠ pid) (hr : k'.parent = some r) : q ∉ p.children := by
  cases h with
  | dead he => exact absurd he hq
  | orphan => cases hr
  | other _ hc => exact hc

/-- Nobody comes back into the table. -/
theorem listed_eq (hl : k'.listed = true) : k.listed = true := by
  cases h with
  | dead | orphan => exact (Bool.and_eq_true_iff.1 hl).1
  | other => exact hl

/-- Nobody comes back to life. -/
theorem ne_of_zombie (hz : k'.zombie = false) : q ≠ pid ∧ k.zombie = false := by
  cases h with
  | dead => cases hz
  | orphan hq | other hq => exact ⟨hq, hz⟩

/-- Whoever is dead afterwards has no children and no context, or was dead. -/
theorem of_zombie (hz : k'.zombie = true) : (k'.children = [] ∧ k'.running = false) ∨
    k.zombie = true ∧ k'.children = k.children ∧ k'.running = k.running := by
  cases h with
  | dead => exact .inl ⟨rfl, rfl⟩
  | orphan | other => exact .inr ⟨hz, rfl, rfl⟩

end Bereft

end System

end PosixSignals
