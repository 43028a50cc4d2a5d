import PosixSignals.Proofs.Scenario.Owed

/-!
# The same process, later

A number says who a process is only until it is handed out again. So what a
run does to a process is said of the numbers that were not handed out
meanwhile: whoever has one of these afterwards had it before, and is related
to what he was, `Continues`. A relation that every single change respects is
respected by whole runs. Who has a number that nobody had is a newcomer: a
root as it is started, or the child of somebody as it is forked.
-/

namespace PosixSignals

namespace System

variable {s s' s'' : System} {actor : Option Pid} {kin mortal : Bool} {pid : Pid} {p q : Process}
  {src : Source} {m : Move} {f : Process → Process × List Event} {g : Process → Process}
  {R R' : Pid → Process → Process → Prop}

/-! ## What a relation is to respect -/

/-- **A relation between a process and what has become of it**: what nobody does to it keeps
it, and so does losing a parent. -/
structure Durable (R : Pid → Process → Process → Prop) : Prop where
  refl : ∀ pid p, R pid p p
  trans : ∀ pid p q r, R pid p q → R pid q r → R pid p r
  unparent : ∀ pid p, R pid p { p with parent := none }

/-- **Whoever is known afterwards was known before**, if his number was not handed out
meanwhile, and is related to what he was. -/
structure Continues (R : Pid → Process → Process → Prop) (s s' : System) : Prop where
  history : ∃ new, s'.history = new ++ s.history
  same : ∀ pid q, s'.process? pid = some q → births pid s'.history = births pid s.history →
    ∃ p, s.process? pid = some p ∧ R pid p q

/-- Whoever is related in one way may be related in a weaker one. -/
theorem Continues.mono (h : Continues R s s') (hR : ∀ pid p q, R pid p q → R' pid p q) :
    Continues R' s s' where
  history := h.history
  same pid q hq hb := by
    obtain ⟨p, hp, hr⟩ := h.same pid q hq hb
    exact ⟨p, hp, hR pid p q hr⟩

/-- What is the same for everybody, but for what is on record. -/
theorem Continues.congr (h : Continues R s s') (hn : s''.history = s'.history)
    (hp : ∀ pid, s''.process? pid = s'.process? pid) : Continues R s s'' where
  history := hn ▸ h.history
  same pid q hq hb := h.same pid q (hp pid ▸ hq) (hn ▸ hb)

section Changes

variable (hR : Durable R)
include hR

/-- Nothing has become of anybody. -/
theorem Continues.refl (s : System) : Continues R s s :=
  ⟨⟨[], rfl⟩, fun pid q hq _ => ⟨q, hq, hR.refl pid q⟩⟩

/-- What has become of somebody may have done so by stages. -/
theorem Continues.trans (h : Continues R s s') (h' : Continues R s' s'') : Continues R s s'' where
  history := by
    obtain ⟨new, hs⟩ := h.history
    obtain ⟨new', hs'⟩ := h'.history
    exact ⟨new' ++ new, by rw [hs', hs, List.append_assoc]⟩
  same pid r hr hb := by
    -- no birth is taken off the record, so there was none in either part
    have hle : births pid s.history ≤ births pid s'.history := births_le h.history
    have hle' : births pid s'.history ≤ births pid s''.history := births_le h'.history
    obtain ⟨q, hq, hqr⟩ := h'.same pid r hr (by omega)
    obtain ⟨p, hp, hpq⟩ := h.same pid q hq (by omega)
    exact ⟨p, hp, hR.trans pid p q r hpq hqr⟩

/-- A remark changes nobody. -/
theorem continues_note (s : System) (src : Source) (e : Event) : Continues R s (s.note src e) :=
  ⟨⟨[⟨src, e⟩], rfl⟩, fun pid q hq _ => ⟨q, hq, hR.refl pid q⟩⟩

/-- A change that is related to what it changes leaves everybody related. -/
theorem continues_act (hf : ∀ p, s.process? pid = some p → R pid p (f p).1) :
    Continues R s (s.act src pid f) := by
  cases hp : s.process? pid with
  | none =>
    rw [act_of_none hp]
    exact .refl hR s
  | some p =>
    refine ⟨⟨_, act_history hp⟩, fun pid' q hq _ => ?_⟩
    rcases process?_act_eq_some.1 hq with ⟨rfl, p', hp', rfl⟩ | ⟨-, hq⟩
    · exact ⟨p', hp', hf p' hp'⟩
    · exact ⟨q, hq, hR.refl pid' q⟩

/-- So does an update. -/
theorem continues_update (hg : ∀ p, R pid p (g p)) : Continues R s (s.update pid g) :=
  continues_act hR fun p _ => hg p

/-- A birth is of somebody else. -/
theorem continues_bear {pids : IdPool} : Continues R s (s.bear src pid pids p) := by
  refine ⟨⟨[_], rfl⟩, fun pid' q hq hb => ?_⟩
  have hne : pid' ≠ pid := by
    rintro rfl
    rw [births_bear, if_pos rfl] at hb
    omega
  rw [process?_bear, if_neg hne] at hq
  exact ⟨q, hq, hR.refl pid' q⟩

/-- Whoever is forgotten is not followed any further, and his children lose a parent. -/
theorem continues_drop : Continues R s (s.drop pid) := by
  refine ⟨⟨[], rfl⟩, fun pid' q hq _ => ?_⟩
  obtain ⟨-, p, hp, rfl | rfl⟩ := exists_of_process?_drop hq
  · exact ⟨p, hp, hR.refl pid' p⟩
  · exact ⟨p, hp, hR.unparent pid' p⟩

/-- A sweep does so to many. -/
theorem continues_sweep (s : System) : Continues R s s.sweep := by
  have hfrom : ∀ n s, Continues R s (sweepFrom n s) := by
    intro n
    induction n with
    | zero => exact .refl hR
    | succ n ih =>
      intro s
      unfold sweepFrom
      split
      · exact .refl hR s
      · exact .trans hR (continues_drop hR) (ih _)
  exact hfrom _ s

/-- **Every change leaves everybody related, if deeds do.** -/
theorem Happens.continues (hd : ∀ pid p r, Deed actor kin mortal pid p r → R pid p r.1)
    (h : Happens actor kin mortal s s') : Continues R s s' := by
  cases h with
  | remark => exact continues_note hR s _ _
  | deed _ hf => exact continues_act hR fun p hp => hd _ p _ (hf p hp)
  | root | child => exact continues_bear hR
  | forget => exact continues_drop hR
  | wait => exact ⟨⟨[], rfl⟩, fun pid q hq _ => ⟨q, hq, hR.refl pid q⟩⟩

/-- **What every deed respects is respected throughout.** -/
theorem Evolves.continues (hd : ∀ pid p r, Deed actor kin mortal pid p r → R pid p r.1)
    (h : Evolves actor kin mortal s s') : Continues R s s' := by
  induction h with
  | refl => exact .refl hR s
  | tail _ h ih => exact .trans hR ih (h.continues hR hd)

/-- **What every move of a run respects, the run respects.** -/
theorem continues_run {moves : List Move} (hs : Reachable s)
    (hm : ∀ s m, Reachable s → m ∈ moves → Continues R s (s.move m)) :
    Continues R s (s.run moves) := by
  induction moves generalizing s with
  | nil => exact .refl hR s
  | cons m moves ih =>
    have hrest := ih (hs.move m) fun s m' hs hmem => hm s m' hs (List.mem_cons_of_mem m hmem)
    exact .trans hR (hm s m hs List.mem_cons_self) hrest

end Changes

/-- **A process that is known before a move and after it** is the same, and related to what it
was. -/
theorem Continues.move (h : Continues R s (s.move m)) (hs : s.Sound)
    (hp : s.process? pid = some p) (hq : (s.move m).process? pid = some q) : R pid p q := by
  obtain ⟨p', hp', hr⟩ := h.same pid q hq (births_move hs (by simp [hp]) m)
  obtain rfl := Option.some.inj (hp.symm.trans hp')
  exact hr

/-! ## Newcomers -/

/-- **Who comes into being in a move**: a root as it is started, or a child of somebody known
as it is forked. -/
inductive Newcomer (s : System) (pid : Pid) : Process → Prop
  | root (name : String) (task : Option Task) : Newcomer s pid (.root pid name task)
  | child {parent : Pid} {p : Process} (hp : s.process? parent = some p) (task : Option Task) :
      Newcomer s pid (p.childOf parent task)

/-- Nobody comes into being by ageing. -/
theorem Aged.process? (h : Aged s s') (hnone : s.process? pid = none) :
    s'.process? pid = none := by
  cases hq : s'.process? pid with
  | none => rfl
  | some q =>
    obtain ⟨k, hk, -⟩ := h.known pid q.kin (kin?_of_process? hq)
    simp [kin?, hnone] at hk

/-- Whoever is known after the start of a root was known, or is that root. -/
theorem root_of_addRoot {name : String} {task : Option Task}
    (hq : (s.addRoot src name task).2.process? pid = some q) :
    s.process? pid = some q ∨ q = .root pid name task := by
  rcases s.addRoot_cases src name task with h | ⟨pid', pids, -, h⟩
  · rw [h] at hq
    exact .inl hq
  · rw [h, process?_bear] at hq
    split at hq
    · next he =>
      subst he
      exact .inr (Option.some.inj hq).symm
    · exact .inl hq

/-- Whoever is there after roots were started is one of them, or was there. -/
theorem root_of_addRoots {name : String} {n : Nat}
    (hq : (s.addRoots name n).2.process? pid = some q) :
    s.process? pid = some q ∨ q = .root pid name none :=
  addRoots_induct (motive := fun s' => s'.process? pid = some q →
      s.process? pid = some q ∨ q = .root pid name none)
    .inl (fun _ ih h => (root_of_addRoot h).elim ih .inr) n hq

/-- Whoever is there after a birth and was not before is the newborn. -/
theorem newcomer_of_beget {parent child : Pid} {pids : IdPool} {task : Option Task}
    (ho : s.Ordered) (ha : s.pids.alloc = (some child, pids)) (hp : s.process? parent = some p)
    (hnone : s.process? pid = none)
    (hq : (s.beget src parent child pids p task).process? pid = some q) : s.Newcomer pid q := by
  have hne : parent ≠ child := ne_of_kin? (kin?_of_alloc ho ha) (kin?_of_process? hp)
  rw [process?_beget hne] at hq
  split at hq
  · exact Option.some.inj hq ▸ .child hp task
  · simp [hnone] at hq

/-- **Whoever is known after a move and was not before is a newcomer.** -/
theorem newcomer_of_move (hs : s.Sound) (hnone : s.process? pid = none)
    (hq : (s.move m).process? pid = some q) : s.Newcomer pid q := by
  have hold : s.process? pid ≠ some q := by simp [hnone]
  have haged : ¬Aged s (s.move m) := fun h => by simp [h.process? hnone] at hq
  cases m with
  | clock t => exact absurd hq hold
  | process caller =>
    rcases aged_or_begotten hs caller with h | ⟨src, child, pids, p, r, ha, hp, -, he⟩
    · exact absurd h haged
    · have hne : pid ≠ caller := fun heq => by simp [heq, hp] at hnone
      rw [show s.move (.process caller) = s.step caller from rfl, he, answer, update,
        process?_act, if_neg hne] at hq
      exact newcomer_of_beget hs.ordered ha hp hnone hq
  | host step =>
    have hroot : ∀ {name task}, (s.addRoot .host name task).2.process? pid = some q →
        s.Newcomer pid q := fun h => by
      obtain rfl := (root_of_addRoot h).resolve_left hold
      exact .root _ _
    cases hb : step.bears with
    | false => exact absurd (aged_host hs.ordered hb) haged
    | true =>
      have hstep := s.intervention step
      change (s.host step).2.process? pid = some q at hq
      generalize (s.host step).2 = s' at hstep hq
      cases hstep with
      | nothing => exact absurd hq hold
      | founded | refused => exact hroot hq
      | started =>
        obtain rfl := (root_of_addRoots hq).resolve_left hold
        exact .root _ none
      | @forked parent p hp =>
        rcases s.fork_cases .host parent p none with h | ⟨child, pids, ha, h⟩ <;> rw [h] at hq
        · exact absurd hq hold
        · exact newcomer_of_beget hs.ordered ha hp hnone hq
      | _ => simp [HostStep.bears] at hb

end System

end PosixSignals
