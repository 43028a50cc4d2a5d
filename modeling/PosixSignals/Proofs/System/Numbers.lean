import PosixSignals.Proofs.Pool.Supply
import PosixSignals.Proofs.System.Affair
import PosixSignals.Proofs.System.Invariant
import PosixSignals.Scenario.Run

/-!
# The numbers in use

The pool and the registry are kept by separate statements: a birth takes a
number out of the one and enters a process into the other, and forgetting
does the reverse. They agree after every change, so a number that is handed
out is nobody's, and one that is released was handed out. `move?` is a
move with every release put to the pool, which would complain; it never does.
-/

namespace PosixSignals

namespace System

variable {s s' : System} {actor : Option Pid} {kin mortal : Bool} {pid : Pid} {src : Source}
  {p : Process} {f : Process → Process × List Event}

/-- **The numbers in use are those of the processes that are known**, no number is in use
twice, and all are in the range. -/
structure Supplied (s : System) : Prop where
  pool : s.pids.Sound
  lower : s.pids.lower = 1
  limit : s.pids.limit = Configuration.processLimit + 1
  known : ∀ pid, pid ∈ s.pids.used ↔ (s.process? pid).isSome = true

/-- At first nobody has a number. -/
theorem supplied_initial : initial.Supplied where
  pool := IdPool.sound_range _ _
  lower := rfl
  limit := rfl
  known := by simp [initial, process?, Registry.get?, IdPool.range]

/-- Only who is known, and the pool, matter. -/
theorem Supplied.congr (h : s.Supplied) (hpids : s'.pids = s.pids)
    (hknown : ∀ q, (s'.process? q).isSome = (s.process? q).isSome) : s'.Supplied where
  pool := hpids ▸ h.pool
  lower := hpids ▸ h.lower
  limit := hpids ▸ h.limit
  known q := by rw [hpids, hknown, h.known]

/-- To change a process is to make nobody known and to forget nobody. -/
theorem isSome_process?_act (q : Pid) :
    ((s.act src pid f).process? q).isSome = (s.process? q).isSome := by
  rw [process?_act]
  split
  · next he => rw [he, Option.isSome_map]
  · rfl

/-- To change a process is to give no number and to take none back. -/
theorem Supplied.act (h : s.Supplied) : (s.act src pid f).Supplied :=
  h.congr act_pids isSome_process?_act

/-- A birth takes a number that is not in use. -/
theorem Supplied.bear (h : s.Supplied) {pids : IdPool} (ha : s.pids.alloc = (some pid, pids)) :
    (s.bear src pid pids p).Supplied := by
  obtain ⟨hc, rfl⟩ := IdPool.alloc_eq_some ha
  refine ⟨h.pool.occupy hc, h.lower, h.limit, fun q => ?_⟩
  rw [process?_bear]
  show q ∈ pid :: s.pids.used ↔ _
  rw [List.mem_cons, h.known]
  by_cases hq : q = pid <;> simp [hq]

/-- Whoever is forgotten gives his number back. -/
theorem Supplied.drop (h : s.Supplied) (pid : Pid) : (s.drop pid).Supplied where
  pool := h.pool.free pid
  lower := h.lower
  limit := h.limit
  known q := by
    show q ∈ s.pids.used.erase pid ↔ _
    rw [process?_drop, h.pool.nodup.mem_erase_iff, h.known]
    by_cases hq : q = pid <;> simp [hq]

/-- **Every change keeps the pool to those who are known.** -/
theorem Happens.supplied (h : Happens actor kin mortal s s') (hs : s.Supplied) : s'.Supplied := by
  cases h with
  | remark | wait => exact ⟨hs.pool, hs.lower, hs.limit, hs.known⟩
  | deed => exact hs.act
  | root _ _ ha | child _ _ ha => exact hs.bear ha
  | forget => exact hs.drop _

/-- Any number of changes keeps the pool to those who are known. -/
theorem Evolves.supplied (h : Evolves actor kin mortal s s') (hs : s.Supplied) : s'.Supplied := by
  induction h with
  | refl => exact hs
  | tail _ h ih => exact h.supplied ih

/-! ## Handing out -/

/-- **The number of a newborn is nobody's.** -/
theorem Supplied.fresh (h : s.Supplied) {pids : IdPool} (ha : s.pids.alloc = (some pid, pids)) :
    s.process? pid = none := by
  have hfree := (IdPool.not_mem_of_alloc ha).1
  simpa using mt (h.known pid).2 hfree

/-- There is no number left just if all of them are in use. -/
theorem Supplied.alloc_eq_none_iff (h : s.Supplied) :
    s.pids.alloc.1 = none ↔ s.pids.used.length = Configuration.processLimit := by
  rw [h.pool.alloc_eq_none_iff, h.lower, h.limit]
  rfl

/-- The numbers in use, in the order of the registry. -/
theorem Supplied.perm_keys (h : s.Supplied) (ho : s.Ordered) :
    s.pids.used.Perm s.processes.keys := by
  have hkeys : s.processes.keys.Nodup :=
    List.pairwise_map.2 (ho.ascending.imp fun hlt => Nat.ne_of_lt hlt)
  refine (List.perm_ext_iff_of_nodup h.pool.nodup hkeys).2 fun pid => ?_
  rw [h.known]
  constructor
  · intro hp
    obtain ⟨p, hp⟩ := Option.isSome_iff_exists.1 hp
    exact List.mem_map_of_mem (Registry.mem_of_get? hp)
  · intro hmem
    obtain ⟨e, he, rfl⟩ := List.mem_map.1 hmem
    have hp : s.process? e.1 = some e.2 := ho.ascending.get?_of_mem he
    simp [hp]

/-! ## Giving back -/

/-- Forgets a process and puts the release of its number to the pool. -/
def drop? (s : System) (pid : Pid) : Except IdPool.NotInUse System :=
  (s.pids.release pid).map fun pids => { s.drop pid with pids }

/-- Forgets unreferenced processes as `sweepFrom` does, if the pool does not complain. -/
def sweepFrom? : Nat → System → Except IdPool.NotInUse System
  | 0, s => .ok s
  | n + 1, s =>
    match s.processes.entries.find? fun e => !s.isReferenced e.1 e.2 with
    | none => .ok s
    | some e => (s.drop? e.1).bind (sweepFrom? n)

def sweep? (s : System) : Except IdPool.NotInUse System :=
  sweepFrom? s.processes.entries.length s

/-- A number that is given back was in use, so there is no complaint. -/
theorem Supplied.drop?_eq (h : s.Supplied) (hp : s.process? pid = some p) :
    s.drop? pid = .ok (s.drop pid) := by
  have hused : pid ∈ s.pids.used := (h.known pid).2 (by simp [hp])
  rw [drop?, IdPool.release_of_mem hused]
  rfl

/-- Nor is there one about many. -/
theorem Supplied.sweepFrom?_eq (h : s.Supplied) (ho : s.Ordered) (n : Nat) :
    sweepFrom? n s = .ok (sweepFrom n s) := by
  induction n generalizing s with
  | zero => rfl
  | succ n ih =>
    unfold sweepFrom? sweepFrom
    cases he : s.processes.entries.find? fun e => !s.isReferenced e.1 e.2 with
    | none => rfl
    | some e =>
      have hp : s.process? e.1 = some e.2 :=
        ho.ascending.get?_of_mem (List.mem_of_find?_eq_some he)
      simp only [h.drop?_eq hp]
      exact ih (h.drop e.1) ho.drop

/-- **The pool never complains.** -/
theorem Supplied.sweep?_eq (h : s.Supplied) (ho : s.Ordered) : s.sweep? = .ok s.sweep :=
  h.sweepFrom?_eq ho _

/-- What follows a change that keeps the numbers is swept without a complaint. -/
theorem Supplied.sweep?_of_evolves (h : s.Supplied) (ho : s.Ordered)
    (he : Evolves actor kin mortal s s') : s'.sweep? = .ok s'.sweep :=
  (he.supplied h).sweep?_eq (he.ordered ho)

/-! ## Steps that give numbers back -/

/-- A turn of a wait for children, with every release put to the pool. -/
def wait4? (s : System) (src : Source) (pid : Pid) (p : Process) (selector : Int)
    (noHang : Bool) : Except IdPool.NotInUse System :=
  match s.ready? p selector with
  | .ok (some (child, w)) => ((s.reap src pid child).answer pid (.ok (.child child w))).sweep?
  | _ => .ok (s.wait4 src pid p selector noHang)

/-- The end of a main routine, with every release put to the pool. -/
def finish? (s : System) (src : Source) (pid : Pid) (t : Task) (e : Ending) :
    Except IdPool.NotInUse System :=
  let s := s.conclude src pid e
  match s.process? pid with
  | none => .ok s
  | some p =>
    let s := s.lay src pid p
    (if t.root then s.note src (.rootEnded p.status.waitStatus) else s).sweep?

/-- A step of a process, with every release put to the pool. -/
def step? (s : System) (pid : Pid) : Except IdPool.NotInUse System :=
  match s.process? pid with
  | none => .ok s
  | some p =>
    match p.task with
    | none => .ok s
    | some t =>
      let src : Source := ⟨some pid, t.openCalls⟩
      match t.control with
      | .loop (.wait4 selector noHang) => s.wait4? src pid p selector noHang
      | .finish e => s.finish? src pid t e
      | _ => .ok (s.step pid)

/-- A step of the outside, with every release put to the pool. -/
def host? (s : System) (step : HostStep) : Except IdPool.NotInUse System :=
  match step with
  | .remove pid => (s.unlist pid).sweep?
  | .reap pid selector =>
    match (s.listed? pid).map (s.ready? · selector) with
    | some (.ok (some (child, _))) => (s.disown pid child).sweep?
    | _ => .ok (s.host step).2
  | _ => .ok (s.host step).2

def move? (s : System) : Move → Except IdPool.NotInUse System
  | .process pid => s.step? pid
  | .host step => s.host? step
  | .clock t => .ok (s.waitUntil t)

section Complaints

variable (h : s.Supplied) (ho : s.Ordered)
include h ho

/-- A `wait4` gives back the number of whom it reaps, without complaint. -/
theorem Supplied.wait4?_eq (hsrc : src.pid = some pid) (selector : Int) (noHang : Bool) :
    s.wait4? src pid p selector noHang = .ok (s.wait4 src pid p selector noHang) := by
  unfold wait4?
  split
  · next child w hr =>
    have hlists : Evolves (some pid) true true s ((s.disown pid child).unlist child) :=
      .trans (evolves_place fun _ => ⟨_, _, _, rfl⟩) (evolves_place fun _ => ⟨_, _, _, rfl⟩)
    have hreap : Evolves (some pid) true true s (s.reap src pid child) :=
      hlists.trans (evolves_note hsrc rfl)
    rw [h.sweep?_of_evolves ho (hreap.trans (evolves_answer rfl)), wait4, hr]
    rfl
  · rfl

/-- An end gives numbers back without complaint. -/
theorem Supplied.finish?_eq (hsrc : src.pid = some pid) (t : Task) (e : Ending) :
    s.finish? src pid t e = .ok (s.finish src pid t e) := by
  have hend : Evolves (some pid) true true s (s.conclude src pid e) := evolves_conclude hsrc e
  unfold finish?
  dsimp only
  split
  · next hp => simp only [finish, hp]
  · next p hp =>
    have hlay := hend.trans (evolves_lay (p := p) hsrc)
    rw [finish_eq t e hp]
    split
    · exact h.sweep?_of_evolves ho (hlay.trans (evolves_note hsrc rfl))
    · exact h.sweep?_of_evolves ho hlay

/-- So does every step of a process. -/
theorem Supplied.step?_eq (pid : Pid) : s.step? pid = .ok (s.step pid) := by
  unfold step?
  split
  · next hp => rw [step_of_none hp]
  · next p hp =>
    split
    · next ht => rw [step_of_task_eq_none hp ht]
    · next t ht =>
      have hsrc : (⟨some pid, t.openCalls⟩ : Source).pid = some pid := rfl
      dsimp only
      split
      · next selector noHang hc =>
        simp only [h.wait4?_eq ho hsrc, step, hp, ht, hc]
      · next e hc => simp only [h.finish?_eq ho hsrc, step, hp, ht, hc]
      · rfl

/-- And so does every step of the outside. -/
theorem Supplied.host?_eq (step : HostStep) : s.host? step = .ok (s.host step).2 := by
  have hplace : ∀ (pid : Pid) (g : Process → Process),
      (∀ p, ∃ parent children listed, g p = { p with parent, children, listed }) →
        (s.update pid g).sweep? = .ok (s.update pid g).sweep := fun pid g hg => by
    have hev : Evolves none true true s (s.update pid g) := evolves_place hg
    exact h.sweep?_of_evolves ho hev
  unfold host?
  split
  · exact hplace _ _ fun _ => ⟨_, _, _, rfl⟩
  · next pid selector =>
    split
    · next child w hr =>
      obtain ⟨p, hp, hr⟩ := Option.map_eq_some_iff.1 hr
      simp only [host, hp, hr]
      exact hplace _ _ fun _ => ⟨_, _, _, rfl⟩
    · rfl
  · rfl

/-- **No move makes the pool complain.** -/
theorem Supplied.move?_eq (m : Move) : s.move? m = .ok (s.move m) := by
  cases m with
  | process pid => exact h.step?_eq ho pid
  | host step => exact h.host?_eq ho step
  | clock t => rfl

end Complaints

end System

end PosixSignals
