import Mathlib.Data.List.Induction
import PosixSignals.Proofs.Scenario.Forest
import PosixSignals.Proofs.System.Numbers
import PosixSignals.Proofs.System.Ties

/-!
# Numbers in use

The numbers in use are those of the table and of the processes that the
outside has taken out of it while something still referred to them. So a
number that is handed out is nobody's, and one that is given back was in
use. There are none left just if the table and those that were taken out of
it make up the whole range; in a run in which nobody is taken out of the
table that is the table alone.
-/

namespace PosixSignals

namespace System

variable {s s' : System} {out : Pid → Prop} {pid child q : Pid} {src : Source} {p : Process}
  {m : Move} {moves : List Move}

/-! ## Who is known -/

/-- A sweep makes nobody known. -/
theorem isSome_of_sweep (ho : s.Ordered) (h : (s.sweep.process? q).isSome = true) :
    (s.process? q).isSome = true := by
  refine sweep_induct (motive := fun s' => (s'.process? q).isSome = true →
    (s.process? q).isSome = true) ho id (fun s' pid _ _ ih _ _ h => ih ?_) h
  obtain ⟨p', hp'⟩ := Option.isSome_iff_exists.1 h
  obtain ⟨-, p, hp, -⟩ := exists_of_process?_drop hp'
  rw [hp]
  rfl

/-- **In every reachable state the numbers in use are those of who is known.** -/
theorem Reachable.supplied (h : Reachable s) : s.Supplied := by
  induction h with
  | initial => exact supplied_initial
  | @move s h m ih =>
    rcases alone_or_affairs h.sound m with ⟨pid, rfl, p, t, hp, -, -, he, -⟩ | ha
    · rw [show s.move (.process pid) = s.step pid from rfl, he]
      exact ih.act
    · exact (ha.evolves h.sound.ordered).supplied ih

/-! ## What ties processes together -/

/-- What the outside does, if it is not natural. -/
theorem host_of_not_natural (h : s.natural m = false) : s.move m = s ∨
    (∃ pid, m = .host (.remove pid) ∧ s.move m = (s.unlist pid).sweep) ∨
    (∃ pid selector child c, m = .host (.reap pid selector) ∧ s.process? child = some c ∧
      c.status.isZombie = true ∧ s.move m = (s.disown pid child).sweep) ∨
    ∃ pid p child pids, s.process? pid = some p ∧ s.pids.alloc = (some child, pids) ∧
      s.move m = s.beget .host pid child pids p none := by
  cases m with
  | process pid => simp [natural] at h
  | clock t => simp [natural] at h
  | host step =>
    cases step with
    | remove pid => exact .inr (.inl ⟨pid, rfl, rfl⟩)
    | reap pid selector =>
      unfold move host
      dsimp only
      split
      · exact .inl rfl
      split
      · exact .inl rfl
      · exact .inl rfl
      · next child w hr =>
        obtain ⟨-, c, hc, hst⟩ := ready?_eq_some hr
        exact .inr (.inr (.inl ⟨pid, selector, child, c, rfl, hc, by rw [hst]; rfl, rfl⟩))
    | fork pid =>
      unfold move host
      dsimp only
      cases hp : s.listed? pid with
      | none => exact .inl rfl
      | some p =>
        rcases s.fork_cases .host pid p none with he | ⟨child, pids, ha, he⟩
        · simp only [he]
          exact .inl trivial
        · simp only [he]
          exact .inr (.inr (.inr ⟨pid, p, child, pids, (listed?_eq_some.1 hp).1, ha, rfl⟩))
    | _ => simp [natural] at h

/-- **A move keeps the ties**, but for that of whom it takes out of the table. -/
theorem Tied.move (h : s.Tied out) (hs : s.Sound) (m : Move) :
    (s.move m).Tied fun q => out q ∨ m = .host (.remove q) := by
  have hmono : ∀ {s' : System}, s'.Tied out → s'.Tied fun q => out q ∨ m = .host (.remove q) :=
    fun h => h.mono fun _ _ _ ho => .inl ho
  have hlinked : ∀ {s' : System}, Affair none true true s s' → s'.Linked := fun ha =>
    ha.linked hs.ordered h.linked
  cases hm : s.natural m with
  | true =>
    rcases alone_or_affairs hs m with ⟨pid, rfl, ha⟩ | ha
    · exact hmono (h.congr ha.kin?)
    · rw [hm] at ha
      exact hmono (ha.tied hs.ordered h).2
  | false =>
    rcases host_of_not_natural hm with he | ⟨pid, rfl, he⟩ | ⟨pid, -, child, c, -, hc, hz, he⟩ |
      ⟨pid, p, child, pids, hp, ha, he⟩
    all_goals rw [he]
    · exact hmono h
    · exact (h.unlist (hlinked (.unlisted rfl)) (fun _ ho => .inl ho) (.inr rfl)).sweep
        (ordered_update hs.ordered)
    · exact hmono ((h.disown (kin?_of_process? hc) hz (hlinked (.disowned rfl hc hz))).sweep
        (ordered_update hs.ordered))
    · exact hmono (h.beget (kin?_of_alloc hs.ordered ha) hp)

/-- **After every move everybody who is known is referred to.** -/
theorem Anchored.move (h : s.Anchored) (hs : s.Sound) (m : Move) : (s.move m).Anchored := by
  cases hm : s.natural m with
  | false =>
    rcases host_of_not_natural hm with he | ⟨pid, rfl, he⟩ | ⟨pid, -, child, c, -, hc, hz, he⟩ |
      ⟨pid, p, child, pids, hp, ha, he⟩
    all_goals rw [he]
    · exact h
    · exact anchored_sweep (ordered_update hs.ordered)
    · exact anchored_sweep (ordered_update hs.ordered)
    · exact h.beget (kin?_of_alloc hs.ordered ha)
  | true =>
    cases m with
    | clock t => exact h.congr fun _ => rfl
    | host step =>
      rcases evolves_or_affairs_host hm with ⟨actor, he⟩ | ha
      · exact h.congr (kin?_of_evolves he)
      · exact (ha.anchored hs.ordered h).2
    | process pid =>
      show (s.step pid).Anchored
      have htakes := takes_step hs pid
      generalize s.step pid = s' at htakes ⊢
      cases htakes with
      | alone ha => exact h.congr ha.kin?
      | apart ha => exact h.congr (kin?_of_evolves ha)
      | forked hsrc ha hp ht hr =>
        exact (h.beget (kin?_of_alloc hs.ordered ha)).congr (kin?_of_evolves (evolves_answer hr))
      | reaped hsrc hp hmem hc hz hr =>
        have ha : Affairs (some pid) false false s _ := affairs_reaped hsrc hp hmem hc hz hr
        exact anchored_sweep ((ha.evolves hs.ordered).ordered hs.ordered)
      | ended hend hsrc hp ht hu hq hkin hv =>
        have ha : Affairs (some pid) true false s _ := affairs_ended hsrc rfl ht hu hq hkin hv
        exact anchored_sweep ((ha.evolves hs.ordered).ordered hs.ordered)

/-- In every reachable state processes are tied, if anybody may have been taken out of the table. -/
theorem Reachable.tied (h : Reachable s) : s.Tied fun _ => True := by
  induction h with
  | initial => exact tied_initial
  | move h m ih => exact (ih.move h.sound m).mono fun _ _ _ _ => trivial

/-- In every reachable state whoever is known is in the table, runs, or is on a list. -/
theorem Reachable.anchored (h : Reachable s) : s.Anchored := by
  induction h with
  | initial => exact fun pid k hk => by simp [kin?_initial] at hk
  | move h m ih => exact ih.move h.sound m

/-! ## Who is out of the table -/

/-- Those who are known but not in the table. -/
def withdrawn (s : System) : List Pid :=
  (s.processes.entries.filter fun e => !e.2.listed).map (·.1)

/-- **The outside has taken a process of the table out of it**, and the process has been
known ever since. -/
def Withdrawn (moves : List Move) (pid : Pid) : Prop :=
  ∃ before after, moves = before ++ .host (.remove pid) :: after ∧
    ((initial.run before).listed? pid).isSome = true ∧
    ∀ part, part <+: after →
      ((initial.run (before ++ .host (.remove pid) :: part)).process? pid).isSome = true

/-- Whoever has been withdrawn stays so, for as long as he is known. -/
theorem Withdrawn.append (h : Withdrawn moves pid)
    (hk : ((initial.run (moves ++ [m])).process? pid).isSome = true) :
    Withdrawn (moves ++ [m]) pid := by
  obtain ⟨before, after, rfl, hl, hknown⟩ := h
  refine ⟨before, after ++ [m], by simp, hl, fun part hpart => ?_⟩
  rcases List.prefix_concat_iff.1 hpart with rfl | hpart
  · simpa using hk
  · exact hknown part hpart

/-- A process that is taken out of the table has been in it, or was taken out before. -/
theorem withdrawn_of_remove (ht : (initial.run moves).Tied (Withdrawn moves))
    (hk : ((initial.run (moves ++ [.host (.remove pid)])).process? pid).isSome = true) :
    Withdrawn (moves ++ [.host (.remove pid)]) pid := by
  have hs : Reachable (initial.run moves) := Reachable.initial.run moves
  have hbefore : ((initial.run moves).process? pid).isSome = true := by
    rw [run_concat] at hk
    have hsome := isSome_of_sweep (ordered_update hs.sound.ordered) hk
    rwa [System.update, isSome_process?_act] at hsome
  obtain ⟨p, hp⟩ := Option.isSome_iff_exists.1 hbefore
  by_cases hl : p.listed = true
  · refine ⟨moves, [], rfl, by simp [listed?, hp, hl], fun part hpart => ?_⟩
    rw [List.prefix_nil.1 hpart]
    exact hk
  · exact Withdrawn.append (Classical.byContradiction fun hout =>
      hl (ht.listed hs.anchored (kin?_of_process? hp) hout)) hk

/-- **After a run processes are tied**, but for those that the outside has withdrawn in it. -/
theorem tied_run (moves : List Move) : (initial.run moves).Tied (Withdrawn moves) := by
  induction moves using List.reverseRecOn with
  | nil => exact tied_initial
  | append_singleton moves m ih =>
    have hs : Reachable (initial.run moves) := Reachable.initial.run moves
    rw [run_concat]
    refine (ih.move hs.sound m).mono fun q k hk hout => ?_
    obtain ⟨p, hp, -⟩ := kin?_eq_some.1 hk
    have hsome : ((initial.run (moves ++ [m])).process? q).isSome = true := by
      rw [run_concat, hp]
      rfl
    rcases hout with hout | rfl
    · exact hout.append hsome
    · exact withdrawn_of_remove ih hsome

/-! ## Births -/

/-- **A process comes into being** under a number that nobody had, and nobody else is
touched, but that its parent has it on its list. -/
structure Born (s : System) (parent : Option Pid) (pid : Pid) (s' : System) : Prop where
  range : 1 ≤ pid ∧ pid ≤ Configuration.processLimit
  unknown : s.process? pid = none
  listed : (s'.listed? pid).isSome = true
  used : s'.pids.used = pid :: s.pids.used
  others : ∀ q p, s.process? q = some p → s'.process? q =
    some (if parent = some q then { p with children := p.children ++ [pid] } else p)

/-- The numbers in use are those of the range. -/
theorem Supplied.range_of_mem (h : s.Supplied) (hpid : pid ∈ s.pids.used) :
    1 ≤ pid ∧ pid ≤ Configuration.processLimit := by
  obtain ⟨hle, hlt⟩ := h.pool.within pid hpid
  rw [h.lower] at hle
  rw [h.limit] at hlt
  exact ⟨hle, Nat.le_of_lt_succ hlt⟩

section Births

variable {pids : IdPool} {task : Option Task} (h : s.Supplied)
  (ha : s.pids.alloc = (some pid, pids))
include h ha

/-- A root is born with a number that was not in use. -/
theorem Supplied.born_bear (hl : p.listed = true) : s.Born none pid (s.bear src pid pids p) where
  range := by
    have hborn : (s.bear src pid pids p).Supplied := h.bear ha
    obtain ⟨-, rfl⟩ := IdPool.alloc_eq_some ha
    exact hborn.range_of_mem List.mem_cons_self
  unknown := h.fresh ha
  listed := by simp [listed?, process?_bear, hl]
  used := by
    obtain ⟨-, rfl⟩ := IdPool.alloc_eq_some ha
    rfl
  others q p hp := by
    have hne : q ≠ pid := by
      rintro rfl
      simp [h.fresh ha] at hp
    simp [process?_bear, hne, hp]

/-- So is a child, and its parent has it on its list. -/
theorem Supplied.born_beget (hp : s.process? q = some p) :
    s.Born (some q) pid (s.beget src q pid pids p task) := by
  have hborn : s.Born none pid (s.bear src pid pids (p.childOf q task)) := h.born_bear ha rfl
  have hne : pid ≠ q := by
    rintro rfl
    simp [hborn.unknown] at hp
  refine ⟨hborn.range, hborn.unknown, ?_, ?_, fun r pr hr => ?_⟩
  · have hsame : (s.beget src q pid pids p task).listed? pid =
        (s.bear src pid pids (p.childOf q task)).listed? pid := by
      rw [listed?, beget, System.update, process?_act, if_neg hne, listed?]
    rw [hsame]
    exact hborn.listed
  · rw [beget, System.update, act_pids]
    exact hborn.used
  · have hsome := hborn.others r pr hr
    rw [beget, System.update, process?_act]
    by_cases hrq : r = q
    · subst hrq
      simp [hsome]
    · simp [hrq, hsome, Ne.symm hrq]

end Births

/-- To start several processes is to start one after the other. -/
theorem addRoots_eq_run (s : System) (name : String) (n : Nat) :
    (s.addRoots name n).2 = s.run (.replicate n (.host (.newRoots name 1))) := by
  induction n generalizing s with
  | zero => rfl
  | succ n ih => exact ih _

/-! ## The numbers -/

/-- Something refers to a process though it is not in the table: its context, or the list
of another. -/
def Referred (s : System) (pid : Pid) : Prop :=
  (∃ p, s.process? pid = some p ∧ p.task ≠ none) ∨
    ∃ q p, s.process? q = some p ∧ pid ∈ p.children

/-- There is no number left. -/
def Full (s : System) : Prop :=
  s.table.length + s.withdrawn.length = Configuration.processLimit

/-- **How numbers are handed out and given back** in the state after these moves. -/
structure Numbered (moves : List Move) (s : System) : Prop where
  /-- The numbers in use are those of the table, and of those who were taken out of it. -/
  used : s.pids.used.Perm (s.table.map (·.1) ++ s.withdrawn)
  nodup : s.pids.used.Nodup
  range : ∀ pid ∈ s.pids.used, 1 ≤ pid ∧ pid ≤ Configuration.processLimit
  /-- Whoever is known without being in the table has been taken out of it by the outside,
  and something refers to him yet. -/
  withdrawn : ∀ pid ∈ s.withdrawn, Withdrawn moves pid ∧ s.Referred pid
  /-- Where nobody was, the numbers in use are those of the table. -/
  tabled : (∀ pid, Move.host (.remove pid) ∉ moves) → s.pids.used.Perm (s.table.map (·.1))
  /-- To start several processes is to start one after the other. -/
  several : ∀ name n, (s.addRoots name n).2 = s.run (.replicate n (.host (.newRoots name 1)))
  /-- A process without parent gets a number that is nobody's. -/
  root : ∀ src name task pid s', s.addRoot src name task = (some pid, s') → s.Born none pid s'
  /-- So does a child. -/
  fork : ∀ src parent p task child s', s.process? parent = some p →
    s.fork src parent p task = (some child, s') → s.Born (some parent) child s'
  /-- Starting a process fails just if there is no number left, and changes nothing then. -/
  rootFails : ∀ src name task, ((s.addRoot src name task).1 = none ↔ s.Full) ∧
    (s.Full → (s.addRoot src name task).2 = s)
  forkFails : ∀ src parent p task, ((s.fork src parent p task).1 = none ↔ s.Full) ∧
    (s.Full → (s.fork src parent p task).2 = s)
  /-- A process that forks is told so, and is the only one to notice. -/
  refused : ∀ pid p t, s.process? pid = some p → p.task = some t → t.control = .execute .fork →
    s.Full → s.step pid = s.answer pid (.error .again) ∧ (s.step pid).pids = s.pids ∧
      (∀ q, (s.step pid).kin? q = s.kin? q) ∧
      ∀ q, q ≠ pid → (s.step pid).process? q = s.process? q
  /-- Otherwise it is told the number of its child. -/
  granted : ∀ pid p t, s.process? pid = some p → p.task = some t → t.control = .execute .fork →
    ¬s.Full → ∃ child s', s.Born (some pid) child s' ∧
      s.step pid = s'.answer pid (.ok (.number child))
  /-- No number is given back that is not in use. -/
  released : ∀ m, s.move? m = .ok (s.move m)

/-- The known are those in the table and those withdrawn from it. -/
theorem perm_table (s : System) :
    s.processes.keys.Perm (s.table.map (·.1) ++ s.withdrawn) := by
  have hperm := List.filter_append_perm (fun e : Pid × Process => e.2.listed) s.processes.entries
  rw [table, System.withdrawn, ← List.map_append]
  exact (hperm.map (·.1)).symm

/-- **There is no number left exactly if all are those of processes**, in the table or withdrawn. -/
theorem Supplied.alloc_eq_none_iff_full (h : s.Supplied) (ho : s.Ordered) :
    s.pids.alloc.1 = none ↔ s.Full := by
  have hlength := ((h.perm_keys ho).trans s.perm_table).length_eq
  rw [List.length_append, List.length_map] at hlength
  rw [h.alloc_eq_none_iff, hlength, Full]

/-- Whoever is withdrawn is known, and not in the table. -/
theorem mem_withdrawn (h : q ∈ s.withdrawn) (ho : s.Ordered) :
    ∃ p, s.process? q = some p ∧ p.listed = false := by
  obtain ⟨e, he, rfl⟩ := List.mem_map.1 h
  obtain ⟨hmem, hl⟩ := List.mem_filter.1 he
  exact ⟨e.2, ho.ascending.get?_of_mem hmem, by simpa using hl⟩

/-! ## Forking -/

section Forking

variable {t : Task} (hp : s.process? pid = some p) (ht : p.task = some t)
  (hc : t.control = .execute .fork)
include hp ht hc

/-- A step at a `fork` is the body of the call. -/
theorem step_of_fork : s.step pid = s.forkCall ⟨some pid, t.openCalls⟩ pid p :=
  step_of_execute hp ht hc

/-- Where there is no number left, to fork is to be refused. -/
theorem step_of_full (ha : s.pids.alloc.1 = none) : s.step pid = s.answer pid (.error .again) := by
  rw [step_of_fork hp ht hc, forkCall]
  rcases s.fork_cases ⟨some pid, t.openCalls⟩ pid p (some {}) with he | ⟨child, pids, ha', -⟩
  · rw [he]
  · simp [ha'] at ha

/-- Where there is a number, a `fork` answers with the one of its child. -/
theorem step_of_not_full (h : s.Supplied) (ha : s.pids.alloc.1 ≠ none) :
    ∃ child s', s.Born (some pid) child s' ∧
      s.step pid = s'.answer pid (.ok (.number child)) := by
  rw [step_of_fork hp ht hc, forkCall]
  cases hal : s.pids.alloc with
  | mk child? pids =>
    cases child? with
    | none => simp [hal] at ha
    | some child =>
      have hfork : s.fork ⟨some pid, t.openCalls⟩ pid p (some {}) =
          (some child, s.beget ⟨some pid, t.openCalls⟩ pid child pids p (some {})) := by
        rcases s.fork_cases ⟨some pid, t.openCalls⟩ pid p (some {}) with he | ⟨c, pids', ha', he⟩
        · simp [fork, hal] at he
        · obtain ⟨hchild, rfl⟩ := Prod.mk.inj (hal.symm.trans ha')
          rw [he, Option.some.inj hchild]
      rw [hfork]
      exact ⟨child, _, h.born_beget hal hp, rfl⟩

end Forking

/-- Whoever is known and out of the table is still referred to. -/
theorem referred_of_anchored (ha : s.Anchored) (hp : s.process? pid = some p)
    (hl : p.listed = false) : s.Referred pid := by
  rcases ha pid p.kin (kin?_of_process? hp) with hl' | hr | ⟨q, kq, hkq, hmem⟩
  · exact absurd (hl.symm.trans hl') (by simp)
  · exact .inl ⟨p, hp, Option.isSome_iff_ne_none.1 hr⟩
  · obtain ⟨r, hr, rfl⟩ := kin?_eq_some.1 hkq
    exact .inr ⟨q, r, hr, hmem⟩

/-- Nobody comes into being just if there is no number left. -/
theorem fork_of_alloc (hf : s.pids.alloc.1 = none ↔ s.Full) (src : Source) (parent : Pid)
    (p : Process) (task : Option Task) : ((s.fork src parent p task).1 = none ↔ s.Full) ∧
      (s.Full → (s.fork src parent p task).2 = s) := by
  rw [← hf]
  unfold System.fork
  split <;> next ha => simp [ha]

/-- A root is refused exactly if no number is left, and then nothing happens. -/
theorem addRoot_of_alloc (hf : s.pids.alloc.1 = none ↔ s.Full) (src : Source) (name : String)
    (task : Option Task) : ((s.addRoot src name task).1 = none ↔ s.Full) ∧
      (s.Full → (s.addRoot src name task).2 = s) := by
  rw [← hf]
  unfold System.addRoot
  split <;> next ha => simp [ha]

/-- **Numbers are unique and never collide.** -/
theorem numbered_run (moves : List Move) : Numbered moves (initial.run moves) := by
  have hr : Reachable (initial.run moves) := Reachable.initial.run moves
  generalize hs : initial.run moves = s at hr
  have hsup : s.Supplied := hr.supplied
  have ho : s.Ordered := hr.sound.ordered
  have hfull := hsup.alloc_eq_none_iff_full ho
  have hout : ∀ pid ∈ s.withdrawn, Withdrawn moves pid ∧ s.Referred pid := by
    intro pid hmem
    obtain ⟨p, hp, hl⟩ := mem_withdrawn hmem ho
    refine ⟨Classical.byContradiction fun hnot => ?_, referred_of_anchored hr.anchored hp hl⟩
    have hl' := (hs ▸ tied_run moves).listed hr.anchored (kin?_of_process? hp) hnot
    exact absurd (hl.symm.trans hl') (by simp)
  have hused := (hsup.perm_keys ho).trans s.perm_table
  exact {
    used := hused
    nodup := hsup.pool.nodup
    range := fun pid hpid => hsup.range_of_mem hpid
    withdrawn := hout
    tabled := fun hnone => by
      have hempty : s.withdrawn = [] := List.eq_nil_iff_forall_not_mem.2 fun pid hmem => by
        obtain ⟨⟨before, after, hmoves, -⟩, -⟩ := hout pid hmem
        exact hnone pid (by simp [hmoves])
      rwa [hempty, List.append_nil] at hused
    several := fun name n => addRoots_eq_run s name n
    root := fun src name task pid s' he => by
      rcases s.addRoot_cases src name task with he' | ⟨pid', pids, ha, he'⟩
      · simp [he] at he'
      · obtain ⟨hpid, rfl⟩ := Prod.mk.inj (he'.symm.trans he)
        obtain rfl := Option.some.inj hpid
        exact hsup.born_bear ha rfl
    fork := fun src parent p task child s' hp he => by
      rcases s.fork_cases src parent p task with he' | ⟨child', pids, ha, he'⟩
      · simp [he] at he'
      · obtain ⟨hchild, rfl⟩ := Prod.mk.inj (he'.symm.trans he)
        obtain rfl := Option.some.inj hchild
        exact hsup.born_beget ha hp
    rootFails := addRoot_of_alloc hfull
    forkFails := fork_of_alloc hfull
    refused := fun pid p t hp ht hc hf => by
      have he := step_of_full hp ht hc (hfull.2 hf)
      refine ⟨he, ?_, fun q => ?_, fun q hq => ?_⟩
      · rw [he, answer, System.update, act_pids]
      · rw [he]
        exact kin?_of_evolves (evolves_answer rfl) q
      · rw [he, answer, System.update, process?_act, if_neg hq]
    granted := fun pid p t hp ht hc hf => step_of_not_full hp ht hc hsup (mt hfull.1 hf)
    released := fun m => hsup.move?_eq ho m }

/-- Two processes are started, and the second is taken out of the table. -/
def withdrawing : List Move :=
  [.host (.root "first"), .host (.root "second"), .host (.remove 2)]

/-- **The number of a process that has been taken out of the table stays in use** while
its context is there. -/
theorem number_of_withdrawn :
    (initial.run withdrawing).AtRest ∧ 2 ∈ (initial.run withdrawing).pids.used ∧
      ((initial.run withdrawing).listed? 2).isSome = false ∧
      ¬∀ moves, (initial.run moves).pids.used.Perm ((initial.run moves).table.map (·.1)) := by
  have hused : (initial.run withdrawing).pids.used = [2, 1] := by cbv
  have htable : (initial.run withdrawing).table.map (·.1) = [1] := by cbv
  have hrun : (initial.run withdrawing).runnable = [] := by cbv
  have hnext : (initial.run withdrawing).nextDeadline?.isSome = false := by cbv
  refine ⟨⟨hrun, by simpa using hnext⟩, by simp [hused], by cbv, fun h => ?_⟩
  have hlength := (h withdrawing).length_eq
  simp [hused, htable] at hlength

end System

end PosixSignals
