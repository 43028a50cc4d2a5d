import PosixSignals.Proofs.Scenario.Course
import PosixSignals.Proofs.System.Family

/-!
# The process forest

Parents and children of the table form a forest, as long as nobody but
processes takes a child off a list or a process out of the table. Who is
dead has a parent that lives and has him on its list, so that he can be
reaped; and he leaves the table by being reaped, or with the parent that
would have reaped him, or at his own end if he has none. The invariant is
`Family`, which is about the places of all processes that are known; the
forest is what it says of those in the table.
-/

namespace PosixSignals

namespace System

variable {s : System} {pid q : Pid} {p : Process} {m : Move} {moves : List Move} {src : Source}

/-! ## Natural runs -/

/-- **The states of all natural runs.** -/
abbrev Natural (s : System) : Prop := RunOf natural s

/-- **On natural runs the family keeps together.** -/
theorem Natural.family (h : s.Natural) : s.Family := by
  induction h with
  | initial => exact family_initial
  | @move s h m hm ih =>
    have hs : s.Sound := h.reachable.sound
    rcases alone_or_affairs hs m with ⟨pid, rfl, ha⟩ | ha
    · exact ih.congr ha.kin?
    · rw [hm] at ha
      exact (ha.family hs.ordered ih).2

/-- What the outside does, if it is natural, is to tell a process what to do, or it is a
matter of births. -/
theorem evolves_or_affairs_host {step : HostStep} (hm : s.natural (.host step) = true) :
    (∃ actor, Evolves actor false false s (s.host step).2) ∨
      Affairs none false false s (s.host step).2 := by
  cases hf : focusOf step with
  | some q =>
    cases step with
    | command q c => exact .inl ⟨some q, evolves_command c⟩
    | _ => simp [focusOf] at hf
  | none => exact .inr (hf ▸ affairs_host step fun hm' => by simp [hm] at hm')

/-- **On natural runs nobody is known who is not in the table.** -/
theorem Natural.tidy (h : s.Natural) : s.Tidy := by
  induction h with
  | initial => exact fun pid k hk => by simp [kin?_initial] at hk
  | @move s h m hm ih =>
    have hs : s.Sound := h.reachable.sound
    have hf : s.Family := Natural.family h
    cases m with
    | process pid =>
      show (s.step pid).Tidy
      have htakes := takes_step hs pid
      generalize s.step pid = s' at htakes ⊢
      cases htakes with
      | alone ha => exact ih.congr ha.kin?
      | apart ha => exact ih.congr (kin?_of_evolves ha)
      | forked hsrc ha hp ht hr => exact ih.beget.congr (kin?_of_evolves (evolves_answer hr))
      -- what comes before the sweep keeps the family together
      | reaped hsrc hp hmem hc hz hr =>
        have ha : Affairs (some pid) false false s _ := affairs_reaped hsrc hp hmem hc hz hr
        obtain ⟨ho, hf⟩ := ha.family hs.ordered hf
        exact tidy_sweep hf ho
      | ended hend hsrc hp ht hu hq hkin hv =>
        have ha : Affairs (some pid) true false s _ := affairs_ended hsrc rfl ht hu hq hkin hv
        obtain ⟨ho, hf⟩ := ha.family hs.ordered hf
        exact tidy_sweep hf ho
    | host step =>
      rcases evolves_or_affairs_host hm with ⟨actor, he⟩ | ha
      · exact ih.congr (kin?_of_evolves he)
      · exact ha.tidy hs.ordered hf ih
    | clock t => exact ih.congr fun _ => rfl

/-! ## The forest -/

/-- A process of the table names this parent. -/
def ChildOf (s : System) (pid parent : Pid) : Prop :=
  ∃ p, s.listed? pid = some p ∧ p.parent = some parent

/-- **The processes of the table form a forest**, and every zombie of it can be reaped. -/
structure IsForest (s : System) : Prop where
  /-- Nobody is known who is not in the table. -/
  listed : ∀ pid p, s.process? pid = some p → p.listed = true
  /-- A parent is in the table and alive, and has its child on its list, once. -/
  parent : ∀ pid p parent, s.listed? pid = some p → p.parent = some parent →
    ∃ q, s.listed? parent = some q ∧ q.status.isZombie = false ∧ q.children.count pid = 1
  /-- Whoever is on a list is in the table, and names the owner of the list. -/
  children : ∀ pid p c, s.process? pid = some p → c ∈ p.children →
    ∃ q, s.listed? c = some q ∧ q.parent = some pid
  /-- Nobody is on two lists. -/
  disjoint : ∀ pid pid' p p' c, s.process? pid = some p → s.process? pid' = some p' →
    c ∈ p.children → c ∈ p'.children → pid = pid'
  acyclic : ∀ pid, ¬Relation.TransGen s.ChildOf pid pid
  /-- A zombie of the table has a parent, and no children. -/
  zombie : ∀ pid p, s.listed? pid = some p → p.status.isZombie = true →
    p.parent ≠ none ∧ p.children = []

theorem listed?_eq_some : s.listed? pid = some p ↔ s.process? pid = some p ∧ p.listed = true :=
  Option.filter_eq_some_iff

theorem present_iff : s.Present pid ↔ ∃ p, s.listed? pid = some p := by
  constructor
  · rintro ⟨k, hk, hl⟩
    obtain ⟨p, hp, rfl⟩ := kin?_eq_some.1 hk
    exact ⟨p, listed?_eq_some.2 ⟨hp, hl⟩⟩
  · rintro ⟨p, hp⟩
    obtain ⟨hp, hl⟩ := listed?_eq_some.1 hp
    exact ⟨p.kin, kin?_of_process? hp, hl⟩

namespace Family

theorem isForest (h : s.Family) (ht : s.Tidy) : s.IsForest where
  listed pid p hp := ht pid p.kin (kin?_of_process? hp)
  parent pid p parent hp hpar := by
    obtain ⟨hp, hl⟩ := listed?_eq_some.1 hp
    obtain ⟨k, hk, hcount⟩ := h.counted pid p.kin parent (kin?_of_process? hp) hl hpar
    obtain ⟨hlk, hz⟩ := h.listed_of_living hk
      (.inr (List.ne_nil_of_mem (List.count_pos_iff.1 (hcount ▸ Nat.one_pos))))
    obtain ⟨q, hq, rfl⟩ := kin?_eq_some.1 hk
    exact ⟨q, listed?_eq_some.2 ⟨hq, hlk⟩, hz, hcount⟩
  children pid p c hp hc := by
    have hkp := kin?_of_process? hp
    obtain ⟨k, hk, hpar⟩ := h.linked pid p.kin c hkp hc
    have hl := h.listed_of_mem hkp hc hk
    obtain ⟨q, hq, rfl⟩ := kin?_eq_some.1 hk
    exact ⟨q, listed?_eq_some.2 ⟨hq, hl⟩, hpar⟩
  disjoint pid pid' p p' c hp hp' hc hc' :=
    h.owner_unique (kin?_of_process? hp) hc (kin?_of_process? hp') hc'
  acyclic := by
    obtain ⟨rank, hrank⟩ := h.ranked
    have hfall : ∀ {a b}, Relation.TransGen s.ChildOf a b → rank b < rank a := by
      intro a b hab
      refine Relation.TransGen.trans_induction_on hab ?_ fun _ _ h h' => Nat.lt_trans h' h
      rintro a b ⟨p, hp, hpar⟩
      exact hrank a p.kin b (kin?_of_process? (listed?_eq_some.1 hp).1) hpar
    exact fun pid hcycle => Nat.lt_irrefl _ (hfall hcycle)
  zombie pid p hp hz := by
    obtain ⟨hp, hl⟩ := listed?_eq_some.1 hp
    have hk := kin?_of_process? hp
    exact ⟨h.mourned pid p.kin hk hz hl, (h.dead pid p.kin hk hz).1⟩

end Family

/-! ## Leaving the table -/

/-- **The ways to leave the table.** -/
inductive Leaves (s : System) (pid : Pid) (p : Process) : Move → Prop
  /-- A zombie is reaped by its parent. -/
  | reaped {parent : Pid} {src : Source} (hp : p.parent = some parent)
      (hz : p.status.isZombie = true) (hsrc : src.pid = some parent)
      (hnote : (s.step parent).history = ⟨src, .reaped pid⟩ :: s.history) :
      Leaves s pid p (.process parent)
  /-- A process without a parent becomes a zombie. -/
  | ended (hp : p.parent = none) (hf : s.Finishing pid) : Leaves s pid p (.process pid)
  /-- A zombie loses its parent, which comes to its end. -/
  | bereft {parent : Pid} (hp : p.parent = some parent) (hz : p.status.isZombie = true)
      (hf : s.Finishing parent) : Leaves s pid p (.process parent)

/-- Marking an end and laying the process to rest takes out of the table the dead among
the children, and the process itself if it has no parent. -/
theorem present_or_left {u : System} {a b : Process} (h : s.Present pid) (hf : s.Family)
    (hp : s.process? pid = some p) (ha : s.process? q = some a)
    (hu : Evolves (some q) false false s u) (hb : u.process? q = some b) (hkin : b.kin = a.kin) :
    (u.lay src q b).Present pid ∨ pid = q ∧ p.parent = none ∨
      p.parent = some q ∧ p.status.isZombie = true := by
  have hfu : u.Family := hf.congr (kin?_of_evolves hu)
  have hku : u.kin? pid = some p.kin := (kin?_of_evolves hu pid).trans (kin?_of_process? hp)
  have hself : q ∉ b.children := hfu.not_mem_self (kin?_of_process? hb)
  by_cases hown : pid = q ∧ p.parent = none
  · exact .inr (.inl hown)
  by_cases hchild : pid ∈ b.children ∧ p.status.isZombie = true
  · obtain ⟨k, hk, hpar⟩ := hfu.linked q b.kin pid (kin?_of_process? hb) hchild.1
    obtain rfl := Option.some.inj (hk.symm.trans hku)
    exact .inr (.inr ⟨hpar, hchild.2⟩)
  refine .inl ((h.evolves hu).lay hself (fun heq hnone => hown ⟨heq, ?_⟩) fun k hk hmem => ?_)
  · subst heq
    obtain rfl := Option.some.inj (hp.symm.trans ha)
    exact (congrArg Kin.parent hkin).symm.trans hnone
  · obtain rfl := Option.some.inj (hk.symm.trans hku)
    exact Bool.eq_false_iff.2 fun hz => hchild ⟨hmem, hz⟩

/-- **A step takes a process out of the table by reaping it, or by an end.** -/
theorem present_or_leaves (hs : s.Sound) (hf : s.Family) (hp : s.listed? pid = some p) (q : Pid) :
    (s.step q).Present pid ∨ s.Leaves pid p (.process q) := by
  have h : s.Present pid := present_iff.2 ⟨p, hp⟩
  obtain ⟨hp, -⟩ := listed?_eq_some.1 hp
  have htakes := takes_step hs q
  generalize he : s.step q = s' at htakes ⊢
  cases htakes with
  | alone ha =>
    obtain ⟨k, hk, hl⟩ := h
    exact .inl ⟨k, (ha.kin? pid).trans hk, hl⟩
  | apart ha => exact .inl (h.evolves ha)
  | forked hsrc ha hq ht hr => exact .inl ((h.beget hs.ordered ha hq).evolves (evolves_answer hr))
  | @reaped src child a c r hsrc hq hmem hc hz hr =>
    have haffairs : Affairs (some q) false false s _ := affairs_reaped hsrc hq hmem hc hz hr
    obtain ⟨ho, -⟩ := haffairs.family hs.ordered hf
    by_cases hne : pid = child
    · subst hne
      obtain rfl := Option.some.inj (hp.symm.trans hc)
      obtain ⟨k, hk, hpar⟩ := hf.linked q _ pid (kin?_of_process? hq) hmem
      obtain rfl := Option.some.inj (hk.symm.trans (kin?_of_process? hp))
      refine .inr (.reaped hpar hz hsrc ?_)
      rw [he, sweep_history ho, answer, update_history]
      simp [reap, note, disown, unlist]
    · exact .inl (((h.reap hne).evolves (evolves_answer hr)).sweep ho)
  | @ended src u v a b hend hsrc ha ht hu hb hkin hv =>
    have haffairs : Affairs (some q) true false s _ := affairs_ended hsrc rfl ht hu hb hkin hv
    obtain ⟨ho, -⟩ := haffairs.family hs.ordered hf
    rcases present_or_left h hf hp ha hu hb hkin with hlay | ⟨rfl, hpar⟩ | ⟨hpar, hz⟩
    · exact .inl ((hlay.evolves hv).sweep ho)
    · exact .inr (.ended hpar hend)
    · exact .inr (.bereft hpar hz hend)

/-- **The process forest.** In every state of every natural run the processes of the
table form a forest in which every zombie can be reaped, and whoever leaves the
table by a natural move does so reaped by its parent, or as a zombie without one. -/
theorem process_forest (h : s.Natural) :
    s.IsForest ∧ ∀ m pid p, s.natural m = true → s.listed? pid = some p →
      (s.move m).listed? pid = none → s.Leaves pid p m := by
  have hs : s.Sound := h.reachable.sound
  refine ⟨h.family.isForest h.tidy, fun m pid p hm hp hgone => ?_⟩
  have habsent : ¬(s.move m).Present pid := fun hpres => by
    obtain ⟨q, hq⟩ := present_iff.1 hpres
    simp [hgone] at hq
  have hpresent : s.Present pid := present_iff.2 ⟨p, hp⟩
  cases m with
  | process q => exact (present_or_leaves hs h.family hp q).resolve_left habsent
  | host step =>
    rcases evolves_or_affairs_host hm with ⟨actor, he⟩ | ha
    · exact absurd (hpresent.evolves he) habsent
    · exact absurd (ha.present hs.ordered hpresent).2 habsent
  | clock t =>
    have hwait : Evolves none false false s (s.waitUntil t) := .single (.wait t)
    exact absurd (hpresent.evolves hwait) habsent

/-- A root forks a child, which forks a child of its own. That one ends first, and then
its parent is about to. -/
def bereaving : List Move :=
  let fork (pid : Pid) : List Move :=
    Move.host (.command pid (.perform { request := .system .fork })) ::
      List.replicate 6 (Move.process pid)
  [Move.host (.root "ancestor")] ++ fork 1 ++ fork 2 ++
    [Move.host (.command 3 (.finish 0)), .process 3, .host (.command 2 (.finish 0))]

/-- **A zombie whose parent ends leaves the table with it**, and the parent stays until
it is reaped. -/
theorem process_forest_of_bereaving :
    let s := initial.run bereaving
    s.Natural ∧ s.IsForest ∧ ∃ p, s.listed? 3 = some p ∧ (s.step 2).listed? 3 = none ∧
      s.Leaves 3 p (.process 2) ∧ (s.step 2).IsForest ∧ ((s.step 2).listed? 2).isSome = true := by
  have hnat : (initial.run bereaving).Natural := RunOf.run .initial (by cbv)
  have hsome : ((initial.run bereaving).listed? 3).isSome = true := by cbv
  have hgone : (((initial.run bereaving).step 2).listed? 3).isSome = false := by cbv
  obtain ⟨p, hp⟩ := Option.isSome_iff_exists.1 hsome
  obtain ⟨hforest, hleaves⟩ := process_forest hnat
  have hnext : ((initial.run bereaving).step 2).Natural := hnat.move (m := .process 2) rfl
  have hnone := Option.not_isSome_iff_eq_none.1 (Bool.eq_false_iff.1 hgone)
  exact ⟨hnat, hforest, p, hp, hnone, hleaves (.process 2) 3 p rfl hp hnone,
    (process_forest hnext).1, by cbv⟩

end System

end PosixSignals
