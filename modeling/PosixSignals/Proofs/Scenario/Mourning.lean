import PosixSignals.Proofs.Scenario.Reaped

/-!
# The death of a child

A process whose main routine is over is marked, orphans its children and
becomes a zombie. Only then is its parent told, once, by `chld`; so whoever
is told can reap it. Nothing but an end of its own makes anybody a zombie.
-/

namespace PosixSignals

/-- Whom a record tells of the death of a child. -/
def Event.tells? : Event → Option Pid
  | .generated info target _ => if info = .kernel .chld then some target else none
  | .dropped sig target => if sig = .chld then some target else none
  | _ => none

namespace Process

variable {p : Process} {pid : Pid}

/-- What it puts on record to tell a process of the death of a child: the signal is generated
against it, or dropped if it has ended. -/
def notice (p : Process) (pid : Pid) : Event :=
  if p.status.isExited then .dropped .chld pid
  else .generated (.kernel .chld) pid
    (p.inbox.receive (.kernel .chld) (p.dispositions.get .chld)).1

theorem tells?_notice : (p.notice pid).tells? = some pid := by
  unfold notice
  split <;> rfl

/-- **To send `chld` puts nothing else on record**: nothing is done by default. -/
theorem generate_chld : (p.generate pid (.kernel .chld)).2 = [p.notice pid] := by
  have hg := p.generation pid (.kernel .chld)
  generalize p.generate pid (.kernel .chld) = c at hg ⊢
  unfold notice
  cases hg with
  | dropped hex =>
    rw [if_pos hex]
    rfl
  | lifted hc => exact absurd hc (by decide)
  | accepted hlive _ ha =>
    rw [if_neg (by simp [hlive])]
    have hgoes : ∀ {r : Generated × Inbox}, p.inbox.Reception (.kernel .chld)
        (p.dispositions.get .chld) r →
          p.inbox.receive (.kernel .chld) (p.dispositions.get .chld) = r := fun hr => hr.receive_eq
    cases ha with
    | noted hr => rw [hgoes hr]
    | acted hr =>
      rw [hgoes hr]
      rfl

end Process

namespace System

variable {s v : System} {pid parent q : Pid} {p : Process} {src : Source} {t : Task} {e : Ending}
  {w : WaitStatus} {m : Move}

/-! ## Up to the grave -/

/-- **The end of a process up to its death**: its children are orphans, and it is a zombie.
Nobody has been told. -/
def grave (s : System) (src : Source) (pid : Pid) (p : Process) : System :=
  (p.children.foldl orphan s).entomb src pid

theorem kin?_grave : (s.grave src pid p).kin? q = (s.kin? q).map fun k =>
    let k := if q ∈ p.children then k.orphaned else k
    if q = pid then { k with children := [], zombie := true } else k := by
  rw [grave, kin?_entomb, kin?_orphans, Option.map_map]
  rfl

/-- To lose a parent changes no status. -/
theorem status_orphans (children : List Pid) :
    ((children.foldl orphan s).process? q).map (·.status) = (s.process? q).map (·.status) := by
  induction children generalizing s with
  | nil => rfl
  | cons c children ih =>
    rw [List.foldl_cons, ih, orphan, update, process?_act]
    split
    · next he => rw [he, Option.map_map]; rfl
    · rfl

theorem grave_history (hp : s.process? pid = some p) :
    (s.grave src pid p).history = ⟨src, .becameZombie pid⟩ :: s.history := by
  have hst := status_orphans (s := s) (q := pid) p.children
  rw [hp] at hst
  obtain ⟨p', hp', -⟩ := Option.map_eq_some_iff.1 hst
  rw [grave, entomb, act_history hp', orphans_history]
  rfl

/-- **In the grave a process can be reaped** by its parent. -/
theorem reapable_grave {out : Pid → Prop} (h : s.Tied out) (hp : s.process? pid = some p)
    (hz : p.status.isZombie = false) (hpar : p.parent = some parent) :
    (s.grave src pid p).Reapable parent pid p.status.waitStatus := by
  have hkp := kin?_of_process? hp
  obtain ⟨kq, hkq, hmem⟩ := h.claimed pid p.kin parent hkp hz hpar
  have hne : parent ≠ pid := fun he => h.other pid p.kin hkp (he ▸ hpar)
  have hparent : (s.grave src pid p).kin? parent =
      some (if parent ∈ p.children then kq.orphaned else kq) := by
    rw [kin?_grave, hkq, Option.map_some]
    dsimp only
    rw [if_neg hne]
  obtain ⟨q, hq, hkin⟩ := kin?_eq_some.1 hparent
  have hlist : pid ∈ q.kin.children := by
    rw [hkin]
    split <;> exact hmem
  have hst := status_orphans (s := s) (q := pid) p.children
  rw [hp] at hst
  obtain ⟨p', hp', hsame⟩ := Option.map_eq_some_iff.1 hst
  refine ⟨q, _, hq, hlist, process?_act_self hp', ?_⟩
  show p'.status.toZombie = _
  rw [hsame]
  rfl

theorem lay_of_grave (hpar : p.parent = some parent) : s.lay src pid p =
    ((s.grave src pid p).tell src pid (some parent)).update pid
      fun p => { p with task := none } := by
  rw [lay_eq, hpar]
  rfl

/-! ## The word to the parent -/

theorem tell_history (hq : s.process? parent = some p) :
    (s.tell src pid (some parent)).history = ⟨src, p.notice parent⟩ :: s.history := by
  rw [tell, update_history, act_history hq, Process.generate_chld]
  rfl

/-- To mark an end tells nobody. -/
theorem conclude_history (s : System) (src : Source) (pid : Pid) (e : Ending) :
    ∃ marks, (s.conclude src pid e).history = marks ++ s.history ∧
      ∀ r ∈ marks, r.event.tells? = none := by
  have hexit : ∀ (u : System) (w : WaitStatus), ∃ marks,
      (u.act src pid fun p => p.orStay (p.exit pid w)).history = marks ++ u.history ∧
        ∀ r ∈ marks, r.event.tells? = none := by
    intro u w
    cases hp : u.process? pid with
    | none => exact ⟨[], by rw [act_of_none hp]; rfl, by simp⟩
    | some p =>
      rw [act_history hp]
      refine ⟨_, rfl, fun r hr => ?_⟩
      obtain ⟨e, he, rfl⟩ := List.mem_map.1 (List.mem_reverse.1 hr)
      rw [Process.eq_exited_of_mem he]
      rfl
  have hnoted : ∀ (ev : Event) (w : WaitStatus), ev.tells? = none → ∃ marks,
      ((s.note src ev).act src pid fun p => p.orStay (p.exit pid w)).history =
        marks ++ s.history ∧ ∀ r ∈ marks, r.event.tells? = none := by
    intro ev w hev
    obtain ⟨marks, hmarks, htells⟩ := hexit (s.note src ev) w
    refine ⟨marks ++ [⟨src, ev⟩], by rw [hmarks]; simp [note], fun r hr => ?_⟩
    rcases List.mem_append.1 hr with hr | hr
    · exact htells r hr
    · rw [List.mem_singleton.1 hr]
      exact hev
  cases e with
  | code n => exact hexit s _
  | panic => exact hnoted _ _ rfl
  | error e =>
    cases e with
    | mustExit => exact ⟨[], rfl, by simp⟩
    | _ => exact hnoted _ _ rfl

/-! ## What the sweep afterwards leaves -/

/-- **A sweep forgets nobody who is held**: by the table, by a context, or by the list of
somebody who is held himself. -/
theorem kin?_sweep_of_held {held : Pid → Prop} (ho : v.Ordered)
    (h : ∀ x k, held x → v.kin? x = some k → k.listed = true ∨ k.running = true ∨
      ∃ y ky, held y ∧ v.kin? y = some ky ∧ x ∈ ky.children)
    {x : Pid} {k : Kin} (hx : held x) (hk : v.kin? x = some k) :
    ∃ k', v.sweep.kin? x = some k' ∧ k'.children = k.children ∧ k'.running = k.running := by
  suffices hall : ∀ x k, held x → v.kin? x = some k → ∃ k', v.sweep.kin? x = some k' ∧
      k'.children = k.children ∧ k'.listed = k.listed ∧ k'.running = k.running by
    obtain ⟨k', hk', hc, -, hr⟩ := hall x k hx hk
    exact ⟨k', hk', hc, hr⟩
  refine sweep_induct (motive := fun s' => ∀ x k, held x → v.kin? x = some k →
    ∃ k', s'.kin? x = some k' ∧ k'.children = k.children ∧ k'.listed = k.listed ∧
      k'.running = k.running) ho (fun _ k _ hk => ⟨k, hk, rfl, rfl, rfl⟩)
    fun s' gone pg ho' hs' hpg hu x k hx hk => ?_
  obtain ⟨hlisted, htask, hnot⟩ := (isReferenced_eq_false ho').1 hu
  obtain ⟨k', hk', hc, hl, hr⟩ := hs' x k hx hk
  have hne : x ≠ gone := by
    rintro rfl
    obtain rfl := Option.some.inj ((kin?_of_process? hpg).symm.trans hk')
    rcases h x k hx hk with hlist | hrun | ⟨y, ky, hy, hky, hmem⟩
    · exact absurd ((hl.trans hlist).symm.trans hlisted) (by simp)
    · simp [← hr, Process.kin, htask] at hrun
    · obtain ⟨ky', hky', hcy, -⟩ := hs' y ky hy hky
      exact hnot y ky' hky' (hcy ▸ hmem)
  exact ⟨k'.forgetting gone, by rw [kin?_drop, if_neg hne, hk']; rfl, by simpa using hc,
    by simpa using hl, by simpa using hr⟩

/-- **Those who are older than the dead** are nobody's business at an end. -/
theorem kin?_lay_of_elder (hl : s.Linked) (hs : s.Seniority) (hp : s.process? pid = some p)
    (hq : s.birth q < s.birth pid) : (s.lay src pid p).kin? q = s.kin? q := by
  have hne : q ≠ pid := fun he => Nat.lt_irrefl _ (he ▸ hq)
  have hnot : q ∉ p.children := fun hmem => by
    obtain ⟨k, hk, hpar⟩ := hl pid p.kin q (kin?_of_process? hp) hmem
    exact Nat.lt_asymm hq (hs.parent q k pid hk hpar).2
  rw [kin?_lay]
  simp [hne, hnot]

/-- **The parent of the dead stays**, with his list. -/
theorem mem_of_laid {out : Pid → Prop} (ht : s.Tied out) (hs : s.Seniority) (ha : s.Anchored)
    (hp : s.process? pid = some p) (hz : p.status.isZombie = false)
    (hpar : p.parent = some parent) (hv : ∀ q, v.kin? q = (s.lay src pid p).kin? q)
    (ho : v.Ordered) : ∃ k, v.sweep.kin? parent = some k ∧ pid ∈ k.children := by
  have hkp := kin?_of_process? hp
  have holder : ∀ {x}, s.birth x < s.birth pid → v.kin? x = s.kin? x := fun hx =>
    (hv _).trans (kin?_lay_of_elder ht.linked hs hp hx)
  obtain ⟨kq, hkq, hmem⟩ := ht.claimed pid p.kin parent hkp hz hpar
  have hlt := (hs.parent pid p.kin parent hkp hpar).2
  -- who has an older one on his list is older still
  have hheld : ∀ x kx, s.birth x < s.birth pid → v.kin? x = some kx →
      kx.listed = true ∨ kx.running = true ∨
        ∃ y ky, s.birth y < s.birth pid ∧ v.kin? y = some ky ∧ x ∈ ky.children := by
    intro x kx hx hkx
    rw [holder hx] at hkx
    rcases ha x kx hkx with hlist | hrun | ⟨y, ky, hky, hmem⟩
    · exact .inl hlist
    · exact .inr (.inl hrun)
    · obtain ⟨kx', hkx', hparent⟩ := ht.linked y ky x hky hmem
      have hy := Nat.lt_trans (hs.parent x kx' y hkx' hparent).2 hx
      exact .inr (.inr ⟨y, ky, hy, (holder hy).trans hky, hmem⟩)
  obtain ⟨k, hk, hc, -⟩ := kin?_sweep_of_held ho hheld hlt ((holder hlt).trans hkq)
  exact ⟨k, hk, hc ▸ hmem⟩

/-- Whoever is on a list, and on record as a zombie, can be reaped. -/
theorem reapable_of_mem {k : Kin} (hs : Reachable s) (hk : s.kin? parent = some k)
    (hmem : pid ∈ k.children) (hr : recorded? pid s.history = some (.zombie w)) :
    s.Reapable parent pid w := by
  obtain ⟨kc, hkc, -⟩ := hs.linked parent k pid hk hmem
  obtain ⟨p, hp, rfl⟩ := kin?_eq_some.1 hk
  obtain ⟨c, hc, -⟩ := kin?_eq_some.1 hkc
  exact ⟨p, c, hp, hmem, hc, Option.some.inj ((hs.chronicled.recorded pid c hc).symm.trans hr)⟩

/-! ## The death -/

/-- **A death in two parts.** Up to `u` the process dies, and from there on its parent
is told. -/
structure Mourned (s : System) (src : Source) (pid parent : Pid) (w : WaitStatus)
    (u s' : System) : Prop where
  source : src.pid = some pid
  /-- Before anybody is told the parent can reap the child. -/
  dead : u.Reapable parent pid w
  untold : ∃ marks, u.history = ⟨src, .becameZombie pid⟩ :: marks ++ s.history ∧
    ∀ r ∈ marks, r.event.tells? = none
  goes : ∃ root : Bool, s' =
    let v := (u.tell src pid (some parent)).update pid fun p => { p with task := none }
    (if root then v.note src (.rootEnded w) else v).sweep
  /-- The parent is told once, and nobody else is. -/
  told : ∃ q reports, u.process? parent = some q ∧
    s'.history = reports ++ ⟨src, q.notice parent⟩ :: u.history ∧
      ∀ r ∈ reports, r.event.tells? = none
  reapable : s'.Reapable parent pid w

/-- **The parent is told once**, and nobody else is. -/
theorem Mourned.once {u s' : System} (h : s.Mourned src pid parent w u s') {new : List Record}
    (hnew : s'.history = new ++ s.history) : new.filterMap (·.event.tells?) = [parent] := by
  obtain ⟨marks, hmarks, huntold⟩ := h.untold
  obtain ⟨q, reports, -, htold, hreports⟩ := h.told
  have hnone : ∀ {l : List Record}, (∀ r ∈ l, r.event.tells? = none) →
      l.filterMap (·.event.tells?) = [] := List.filterMap_eq_nil_iff.2
  obtain rfl : new = reports ++ ⟨src, q.notice parent⟩ :: ⟨src, .becameZombie pid⟩ :: marks := by
    refine List.append_cancel_right (hnew.symm.trans (htold.trans ?_))
    rw [hmarks]
    simp
  have hzombie : (Event.becameZombie pid).tells? = none := rfl
  simp [hnone hreports, hnone huntold, Process.tells?_notice, hzombie]

/-- Whoever has a context is no zombie. -/
theorem Tied.living {out : Pid → Prop} (h : s.Tied out) (hp : s.process? pid = some p)
    (ht : p.task ≠ none) : p.status.isZombie = false :=
  Bool.eq_false_iff.2 fun hz => ht (by
    simpa [Process.kin] using h.still pid p.kin (kin?_of_process? hp) hz)

section Finish

variable (hs : Reachable s) (hp : s.process? pid = some p) (ht : p.task = some t)
  (hc : t.control = .finish e) (hpar : p.parent = some parent)
include hs hp ht hc hpar

theorem mem_of_finish : ∃ k, (s.step pid).kin? parent = some k ∧ pid ∈ k.children := by
  have hsrc : (⟨some pid, t.openCalls⟩ : Source).pid = some pid := rfl
  obtain ⟨u, q, v, hu, hq, hkin, hv, hfinish⟩ := finish_parts hsrc hp t e
  have hz : q.status.isZombie = false :=
    (congrArg Kin.zombie hkin).trans (hs.tied.living hp (by simp [ht]))
  have hlay : Evolves (some pid) true true u (u.lay ⟨some pid, t.openCalls⟩ pid q) :=
    evolves_lay hsrc
  rw [step_of_finish hp ht hc, hfinish]
  exact mem_of_laid (hs.tied.congr (kin?_of_evolves hu))
    (hs.seniority.congr hu.aged (kin?_of_evolves hu)) (hs.anchored.congr (kin?_of_evolves hu)) hq hz
    ((congrArg Kin.parent hkin).trans hpar) (kin?_of_evolves hv)
    (hv.ordered (hlay.ordered (hu.ordered hs.sound.ordered)))

/-- **Every death of a child is mourned.** -/
theorem mourned_of_finish : ∃ src w u, s.Mourned src pid parent w u (s.step pid) := by
  have hsrc : (⟨some pid, t.openCalls⟩ : Source).pid = some pid := rfl
  have hstep : s.step pid = s.finish ⟨some pid, t.openCalls⟩ pid t e := step_of_finish hp ht hc
  have hreach : Reachable (s.step pid) := hs.move (.process pid)
  generalize (⟨some pid, t.openCalls⟩ : Source) = src at hsrc hstep
  -- to mark the end leaves everybody where he is
  have hconclude : Evolves (some pid) false false s (s.conclude src pid e) :=
    evolves_conclude hsrc e
  obtain ⟨p', hp', hsame⟩ := kin?_eq_some.1
    ((kin?_of_evolves hconclude pid).trans (kin?_of_process? hp))
  have hpar' : p'.parent = some parent := (congrArg Kin.parent hsame).trans hpar
  have hz : p'.status.isZombie = false :=
    (congrArg Kin.zombie hsame).trans (hs.tied.living hp (by simp [ht]))
  have hdead : ((s.conclude src pid e).grave src pid p').Reapable parent pid p'.status.waitStatus :=
    reapable_grave (hs.tied.congr (kin?_of_evolves hconclude)) hp' hz hpar'
  obtain ⟨q, hq⟩ : ∃ q, ((s.conclude src pid e).grave src pid p').process? parent = some q :=
    hdead.imp fun q ⟨_, hq, _⟩ => hq
  obtain ⟨marks, hmarks, huntold⟩ := s.conclude_history src pid e
  have hlaid : (s.conclude src pid e).lay src pid p' = _ := lay_of_grave hpar'
  have hgrave : ((s.conclude src pid e).grave src pid p').history = _ := grave_history hp'
  have htell : ((s.conclude src pid e).lay src pid p').history =
      ⟨src, q.notice parent⟩ :: ((s.conclude src pid e).grave src pid p').history := by
    rw [hlaid, update_history, tell_history hq]
  have hhistory := (congrArg history hstep).trans
    (finish_history t e hsrc hs.sound.ordered hp')
  refine ⟨src, p'.status.waitStatus, _, hsrc, hdead, ⟨marks, by rw [hgrave, hmarks]; rfl, huntold⟩,
    ⟨t.root, ?_⟩, ⟨q, _, hq, hhistory.trans (congrArg _ htell), ?_⟩, ?_⟩
  · rw [hstep, finish_eq t e hp', hlaid]
  · split <;> simp [Event.tells?]
  · obtain ⟨k, hk, hmem⟩ := mem_of_finish hs hp ht hc hpar
    refine reapable_of_mem hreach hk hmem ?_
    rw [hhistory]
    split <;> exact recorded?_of_lay (hconclude.chronicled hs.chronicled) hp' hsrc

end Finish

/-- **Nobody becomes a zombie** but by an end of its own. -/
theorem finishing_of_becameZombie (hs : s.Sound) {new : List Record}
    (hnew : (s.move m).history = new ++ s.history) (hmem : ⟨src, .becameZombie pid⟩ ∈ new) :
    m = .process pid ∧ s.Finishing pid := by
  obtain ⟨new', hnew', hexp⟩ := explained_move hs m
  obtain rfl := List.append_cancel_right (hnew.symm.trans hnew')
  rcases hexp _ hmem rfl with hcaused | hdecides
  · cases hcaused
  · obtain ⟨q, rfl, hend⟩ := finishing_of_decides (.inl ⟨pid, rfl⟩) hdecides
    obtain ⟨x, -, rfl, -⟩ := hdecides
    exact ⟨rfl, hend⟩

end System

end PosixSignals
