import PosixSignals.Proofs.Scenario.Endings
import PosixSignals.Proofs.Scenario.Looks

/-!
# What a reaping changes

The child is taken off the list and out of the table, and as nothing refers
to it any more it is forgotten. Everybody else is as he was. Only who
descends from the child can lose a parent by that, or be forgotten with it
if the outside has taken him out of the table; and a child that has died
has descendants only if the outside has forked it after its death. Whoever
is forgotten is not known again until his number is handed out.
-/

namespace PosixSignals

namespace System

variable {s s' u : System} {actor : Option Pid} {mortal wild : Bool} {pid c q : Pid}
  {p : Process} {selector : Int} {noHang : Bool} {w : WaitStatus} {src : Source} {r : Reply}
  {moves : List Move}

/-! ## Descent -/

/-- A process that is known names this parent. -/
def NamesParent (s : System) (pid parent : Pid) : Prop :=
  ∃ k, s.kin? pid = some k ∧ k.parent = some parent

/-- **A process descends from another** that is known or was. -/
def Descends (s : System) : Pid → Pid → Prop := Relation.TransGen s.NamesParent

/-- Whoever descends from another is younger. -/
theorem Seniority.birth_lt (h : s.Seniority) (hd : s.Descends q c) : s.birth c < s.birth q := by
  refine Relation.TransGen.trans_induction_on hd ?_ fun _ _ h₁ h₂ => Nat.lt_trans h₂ h₁
  rintro a b ⟨k, hk, hp⟩
  exact (h.parent a k b hk hp).2

theorem descends_congr (h : ∀ q, (s'.kin? q).map (·.parent) = (s.kin? q).map (·.parent)) :
    s'.Descends = s.Descends := by
  have hsame : s'.NamesParent = s.NamesParent := by
    funext a b
    have heq : ∀ u : System, u.NamesParent a b ↔ (u.kin? a).map (·.parent) = some (some b) :=
      fun u => by simp [NamesParent]
    exact propext (by rw [heq, heq, h])
  rw [Descends, Descends, hsame]

/-- On a list are children. -/
theorem Linked.namesParent (h : s.Linked) {k : Kin} (hk : s.kin? q = some k) (hc : c ∈ k.children) :
    s.NamesParent c q :=
  h q k c hk hc

/-! ## A sweep that begins at one process -/

/-- **What a sweep leaves**, if only one process is to be forgotten at first: everybody else
stays as he is, unless he descends from that one. -/
structure SweptFrom (u : System) (c : Pid) (s' : System) : Prop where
  unknown : ∀ q, u.process? q = none → s'.process? q = none
  known : ∀ q r, u.process? q = some r → s'.process? q = some r ∨
    (u.Descends q c ∧ s'.process? q = some { r with parent := none }) ∨
    ((q = c ∨ u.Descends q c) ∧ r.listed = false ∧ s'.process? q = none)

theorem SweptFrom.refl (u : System) (c : Pid) : u.SweptFrom c u :=
  ⟨fun _ h => h, fun _ _ h => .inl h⟩

/-- Who is known has the list, the context and the place in the table that he had. -/
theorem SweptFrom.same (h : u.SweptFrom c s') (hp : s'.process? q = some p) :
    ∃ r, u.process? q = some r ∧ r.children = p.children ∧ r.task = p.task ∧
      r.listed = p.listed ∧ (p.parent = r.parent ∨ p.parent = none) := by
  cases hr : u.process? q with
  | none => simp [h.unknown q hr] at hp
  | some r =>
    refine ⟨r, rfl, ?_⟩
    rcases h.known q r hr with hp' | ⟨-, hp'⟩ | ⟨-, -, hp'⟩
    · obtain rfl := Option.some.inj (hp.symm.trans hp')
      exact ⟨rfl, rfl, rfl, .inl rfl⟩
    · obtain rfl := Option.some.inj (hp.symm.trans hp')
      exact ⟨rfl, rfl, rfl, .inr rfl⟩
    · simp [hp'] at hp

/-- Whoever is to be forgotten is the one, or hangs on a list that has been forgotten. -/
theorem SweptFrom.descends (h : u.SweptFrom c s') (hl : u.Linked)
    (hanchored : ∀ x k, u.kin? x = some k → x ≠ c →
      k.listed = true ∨ k.running = true ∨ ∃ y ky, u.kin? y = some ky ∧ x ∈ ky.children)
    (ho : s'.Ordered) (hp : s'.process? pid = some p) (hu : s'.isReferenced pid p = false) :
    pid = c ∨ u.Descends pid c := by
  obtain ⟨hlisted, htask, hnot⟩ := (isReferenced_eq_false ho).1 hu
  by_cases hc : pid = c
  · exact .inl hc
  obtain ⟨r, hr, -, hrt, hrl, -⟩ := h.same hp
  rcases hanchored pid r.kin (kin?_of_process? hr) hc with hl' | hrun | ⟨y, ky, hky, hmem⟩
  · exact absurd (hl'.symm.trans (hrl.trans hlisted)) (by simp)
  · simp [Process.kin, hrt, htask] at hrun
  obtain ⟨ry, hry, rfl⟩ := kin?_eq_some.1 hky
  have hnames : u.NamesParent pid y := hl.namesParent hky hmem
  have hlist : ∀ {py}, s'.process? y = some py → pid ∉ py.children := fun hpy =>
    hnot y _ (kin?_of_process? hpy)
  rcases h.known y ry hry with hpy | ⟨-, hpy⟩ | ⟨rfl | hdesc, -, -⟩
  · exact (hlist hpy hmem).elim
  · exact (hlist hpy hmem).elim
  · exact .inr (.single hnames)
  · exact .inr (.head hnames hdesc)

theorem SweptFrom.drop (h : u.SweptFrom c s') (hp : s'.process? pid = some p)
    (hlisted : p.listed = false) (hdesc : pid = c ∨ u.Descends pid c) :
    u.SweptFrom c (s'.drop pid) := by
  refine ⟨fun q hq => ?_, fun q r hr => ?_⟩
  · rw [process?_drop]
    split
    · rfl
    · rw [h.unknown q hq, Option.map_none]
  by_cases hq : q = pid
  · subst hq
    obtain ⟨r', hr', -, -, hl, -⟩ := h.same hp
    obtain rfl := Option.some.inj (hr.symm.trans hr')
    exact .inr (.inr ⟨hdesc, hl.trans hlisted, by rw [process?_drop, if_pos rfl]⟩)
  rw [process?_drop, if_neg hq]
  rcases h.known q r hr with hq' | ⟨hd, hq'⟩ | ⟨hd, hl, hq'⟩
  · rw [hq', Option.map_some]
    by_cases hpar : r.parent = some pid
    · have hnames : u.NamesParent q pid := ⟨r.kin, kin?_of_process? hr, hpar⟩
      refine .inr (.inl ⟨?_, by rw [if_pos hpar]⟩)
      rcases hdesc with rfl | hdesc
      · exact .single hnames
      · exact .head hnames hdesc
    · exact .inl (by rw [if_neg hpar])
  · exact .inr (.inl ⟨hd, by simp [hq']⟩)
  · exact .inr (.inr ⟨hd, hl, by simp [hq']⟩)

/-- **A sweep that begins at one process** forgets at most that one and its descendants. -/
theorem sweptFrom_sweep (ho : u.Ordered) (hl : u.Linked)
    (hanchored : ∀ x k, u.kin? x = some k → x ≠ c →
      k.listed = true ∨ k.running = true ∨ ∃ y ky, u.kin? y = some ky ∧ x ∈ ky.children) :
    u.SweptFrom c u.sweep :=
  sweep_induct ho (.refl u c) fun _ _ _ ho h hp hu =>
    h.drop hp ((isReferenced_eq_false ho).1 hu).1 (h.descends hl hanchored ho hp hu)

/-- A sweep does nothing but forget and give numbers back. -/
theorem sweep_rest (ho : s.Ordered) :
    s.sweep.now = s.now ∧ ∃ used, s.sweep.pids = { s.pids with used } :=
  sweep_induct (motive := fun s' => s'.now = s.now ∧ ∃ used, s'.pids = { s.pids with used }) ho
    ⟨rfl, s.pids.used, rfl⟩ fun s' pid _ _ ⟨hnow, used, hpids⟩ _ _ =>
      ⟨hnow, used.erase pid, by rw [drop, IdPool.free, hpids]⟩

/-! ## A reaping -/

/-- **What a reaping changes**: the parent has the child off its list and its answer, the child
is gone and its number free. Nobody else is touched but who descends from the child. -/
structure Reaps (s : System) (pid c : Pid) (w : WaitStatus) (s' : System) : Prop where
  caller : ∃ p, s.process? pid = some p ∧ c ∉ p.children.erase c ∧
    s'.process? pid = some ({ p with children := p.children.erase c }.answer (.ok (.child c w)))
  gone : s'.process? c = none ∧ c ∉ s'.pids.used
  others : ∀ q, q ≠ pid → q ≠ c → ¬s.Descends q c → s'.process? q = s.process? q
  /-- A descendant can lose its parent; if it is out of the table it can be forgotten. -/
  descendants : ∀ q r, s.process? q = some r → s.Descends q c → s'.process? q = some r ∨
    s'.process? q = some { r with parent := none } ∨ r.listed = false ∧ s'.process? q = none
  numbers : ∀ q, q ≠ c → ¬s.Descends q c → (q ∈ s'.pids.used ↔ q ∈ s.pids.used)
  rest : s'.now = s.now ∧ (∃ used, s'.pids = { s.pids with used }) ∧
    ∃ src, src.pid = some pid ∧ s'.history = ⟨src, .reaped c⟩ :: s.history

section Reaping

variable {k : Process}

theorem process?_reap (hne : pid ≠ c) (hp : s.process? pid = some p)
    (hc : s.process? c = some k) : ((s.reap src pid c).answer pid r).process? q =
      if q = pid then some ({ p with children := p.children.erase c }.answer r)
      else if q = c then some { k with listed := false } else s.process? q := by
  have hreap : ∀ q, (s.reap src pid c).process? q = ((s.disown pid c).unlist c).process? q :=
    fun _ => rfl
  simp only [answer, update, process?_act, hreap, unlist, disown]
  by_cases hq : q = pid
  · simp [hq, hne, hp]
  · by_cases hqc : q = c
    · simp [hqc, Ne.symm hne, hc]
    · simp [hq, hqc]

theorem reap_rest (s : System) (src : Source) (pid c : Pid) (r : Reply) :
    ((s.reap src pid c).answer pid r).now = s.now ∧
      ((s.reap src pid c).answer pid r).pids = s.pids ∧
      ((s.reap src pid c).answer pid r).history = ⟨src, .reaped c⟩ :: s.history := by
  refine ⟨?_, ?_, ?_⟩
  · rw [answer, update, act_now]
    exact act_now.trans act_now
  · rw [answer, update, act_pids]
    exact act_pids.trans act_pids
  · rw [answer, update_history]
    simp [reap, note, disown, unlist]

/-- The state in which the child has been taken from its parent, who has the answer. -/
def taken (s : System) (src : Source) (pid c : Pid) (w : WaitStatus) : System :=
  (s.reap src pid c).answer pid (.ok (.child c w))

theorem kin?_taken : (s.taken src pid c w).kin? q = (s.reap src pid c).kin? q :=
  kin?_of_evolves (evolves_answer (by rfl)) q

theorem descends_taken : (s.taken src pid c w).Descends = s.Descends :=
  descends_congr fun q => by
    rw [kin?_taken, kin?_reap, Option.map_map]
    congr 1
    funext k
    dsimp only [Function.comp_apply]
    split <;> split <;> rfl

/-- The child alone may not be referred to any more. -/
theorem Anchored.taken (h : s.Anchored) : ∀ x k, (s.taken src pid c w).kin? x = some k → x ≠ c →
    k.listed = true ∨ k.running = true ∨
      ∃ y ky, (s.taken src pid c w).kin? y = some ky ∧ x ∈ ky.children := by
  intro x k' hk' hx
  rw [kin?_taken, kin?_reap] at hk'
  obtain ⟨k, hk, rfl⟩ := Option.map_eq_some_iff.1 hk'
  rcases h x k hk with hl | hr | ⟨y, ky, hky, hmem⟩
  · exact .inl (by dsimp only; rw [if_neg hx]; split <;> exact hl)
  · exact .inr (.inl (by dsimp only; split <;> split <;> exact hr))
  · refine .inr (.inr ⟨y, _, by rw [kin?_taken, kin?_reap, hky]; rfl, ?_⟩)
    have hkept : x ∈ ky.children.erase c := (List.mem_erase_of_ne hx).2 hmem
    dsimp only
    split <;> split <;> first | exact hkept | exact hmem

theorem affairs_taken (hp : s.process? pid = some p) (hmem : c ∈ p.children)
    (hc : s.process? c = some k) (hst : k.status = .zombie w) (hsrc : src.pid = some pid) :
    Affairs (some pid) false false s (s.taken src pid c w) :=
  affairs_reaped hsrc hp hmem hc (by rw [hst]; rfl) (by rfl)

variable (hs : Reachable s) (hp : s.process? pid = some p) (hmem : c ∈ p.children)
include hs hp hmem

theorem ne_of_child : pid ≠ c := fun he =>
  hs.tied.not_mem_self (kin?_of_process? hp) (he ▸ hmem)

/-- **Nobody is his own descendant, nor that of his child.** -/
theorem not_descends_of_child : ¬s.Descends c c ∧ ¬s.Descends pid c := by
  have hnames : s.Descends c pid :=
    .single (hs.linked.namesParent (kin?_of_process? hp) hmem)
  have holder := hs.seniority.birth_lt hnames
  exact ⟨fun hd => Nat.lt_irrefl _ (hs.seniority.birth_lt hd),
    fun hd => Nat.lt_asymm holder (hs.seniority.birth_lt hd)⟩

variable (hc : s.process? c = some k) (hst : k.status = .zombie w) (hsrc : src.pid = some pid)
include hc hst hsrc

theorem sweptFrom_taken : (s.taken src pid c w).SweptFrom c (s.taken src pid c w).sweep := by
  obtain ⟨ho, hl⟩ := (affairs_taken hp hmem hc hst hsrc).linked hs.sound.ordered hs.linked
  exact sweptFrom_sweep ho hl hs.anchored.taken

/-- **The child that is taken is forgotten**: it was a zombie, and on this list alone. -/
theorem process?_sweep_taken : (s.taken src pid c w).sweep.process? c = none := by
  have hne : pid ≠ c := ne_of_child hs hp hmem
  have hkc := kin?_of_process? hc
  have hz : k.kin.zombie = true := by simp [Process.kin, hst, Status.isZombie]
  have hidle : k.task = none := by simpa [Process.kin] using hs.tied.still c _ hkc hz
  have hev := (affairs_taken hp hmem hc hst hsrc).evolves hs.sound.ordered
  have ho := hev.ordered hs.sound.ordered
  have htaken : (s.taken src pid c w).process? c = some { k with listed := false } := by
    rw [taken, process?_reap hne hp hc, if_neg (Ne.symm hne), if_pos rfl]
  have hswept := sweptFrom_taken hs hp hmem hc hst hsrc
  rcases hswept.known c _ htaken with hkept | ⟨hd, -⟩ | ⟨-, -, hgone⟩
  · -- it would have to be on a list
    have hfalse :
        (s.taken src pid c w).sweep.isReferenced c { k with listed := false } = false := by
      have hsweep : Evolves none true true (s.taken src pid c w) _ := evolves_sweep ho
      have hos := hsweep.ordered ho
      refine (isReferenced_eq_false hos).2 ⟨rfl, hidle, fun y ky hky hlist => ?_⟩
      obtain ⟨py, hpy, rfl⟩ := kin?_eq_some.1 hky
      obtain ⟨ry, hry, hchildren, -⟩ := hswept.same hpy
      have hgone := hs.tied.gone_of_reap (kin?_of_process? hp) hmem hkc hz
        (fun _ => by simp [Process.kin, hidle]) (kin?_taken.symm.trans (kin?_of_process? htaken))
      refine hgone.2 y ry.kin (kin?_taken.symm.trans (kin?_of_process? hry)) ?_
      rw [show ry.kin.children = py.kin.children from hchildren]
      exact hlist
    simp [isReferenced_of_sweep ho hkept] at hfalse
  · rw [descends_taken] at hd
    exact absurd hd (not_descends_of_child hs hp hmem).1
  · exact hgone

/-- **To reap a child changes what it should**, and nothing else. -/
theorem reaps_of_zombie : s.Reaps pid c w (s.taken src pid c w).sweep := by
  have hne : pid ≠ c := ne_of_child hs hp hmem
  have hev := (affairs_taken hp hmem hc hst hsrc).evolves hs.sound.ordered
  have ho := hev.ordered hs.sound.ordered
  have hsweep : Evolves none true true (s.taken src pid c w) _ := evolves_sweep ho
  have hsupplied := hsweep.supplied (hev.supplied hs.supplied)
  have hprocess : ∀ q, (s.taken src pid c w).process? q = _ := fun q => process?_reap hne hp hc
  have hgone := process?_sweep_taken hs hp hmem hc hst hsrc
  have hswept := sweptFrom_taken hs hp hmem hc hst hsrc
  obtain ⟨hself, hpid⟩ := not_descends_of_child hs hp hmem
  obtain ⟨hnow, hpids, hhistory⟩ := reap_rest s src pid c (.ok (.child c w))
  obtain ⟨hsnow, used, hspids⟩ := sweep_rest ho
  -- nobody but the child and its descendants is touched by the sweep
  have hkept : ∀ q r, q ≠ c → ¬s.Descends q c → (s.taken src pid c w).process? q = some r →
      (s.taken src pid c w).sweep.process? q = some r := by
    intro q r hqc hd hr
    rcases hswept.known q r hr with h | ⟨h, -⟩ | ⟨h | h, -⟩
    · exact h
    · exact absurd (descends_taken ▸ h) hd
    · exact absurd h hqc
    · exact absurd (descends_taken ▸ h) hd
  have hcaller := hkept pid _ hne hpid ((hprocess pid).trans (if_pos rfl))
  have hother : ∀ q, q ≠ pid → q ≠ c → (s.taken src pid c w).process? q = s.process? q :=
    fun q hqp hqc => (hprocess q).trans ((if_neg hqp).trans (if_neg hqc))
  have hothers : ∀ q, q ≠ pid → q ≠ c → ¬s.Descends q c →
      (s.taken src pid c w).sweep.process? q = s.process? q := by
    intro q hqp hqc hd
    cases hr : s.process? q with
    | none => exact hswept.unknown q ((hother q hqp hqc).trans hr)
    | some r => exact hkept q r hqc hd ((hother q hqp hqc).trans hr)
  refine ⟨⟨p, hp, (hs.tied.once pid _ (kin?_of_process? hp)).not_mem_erase, hcaller⟩,
    ⟨hgone, fun hused => by simpa [hgone] using (hsupplied.known c).1 hused⟩, hothers,
    fun q r hr hd => ?_, fun q hqc hd => ?_, hsnow.trans hnow, ⟨used, by rw [hspids, taken, hpids]⟩,
    src, hsrc, (sweep_history ho).trans hhistory⟩
  · have hqc : q ≠ c := fun he => hself (he ▸ hd)
    have hqp : q ≠ pid := fun he => hpid (he ▸ hd)
    rcases hswept.known q r ((hother q hqp hqc).trans hr) with h | ⟨-, h⟩ | ⟨-, hl, h⟩
    · exact .inl h
    · exact .inr (.inl h)
    · exact .inr (.inr ⟨hl, h⟩)
  · rw [hsupplied.known, hs.supplied.known]
    by_cases hqp : q = pid
    · simp [hqp, hcaller, hp]
    · rw [hothers q hqp hqc hd]

end Reaping

/-! ## Never again -/

/-- No birth is taken off the record. -/
theorem births_le (hn : ∃ new, s'.history = new ++ s.history) :
    births c s.history ≤ births c s'.history := by
  obtain ⟨new, hnew⟩ := hn
  rw [hnew, births, births, List.countP_append]
  exact Nat.le_add_left _ _

/-- Nobody becomes known but by a birth. -/
theorem Affair.unknown (h : Affair actor mortal wild s s') (ho : s.Ordered)
    (hc : s.kin? c = none) (hb : births c s'.history = births c s.history) :
    s'.kin? c = none := by
  cases h with
  | apart h => exact (kin?_of_evolves h c).trans hc
  | root _ ha =>
    rw [births_bear] at hb
    rw [kin?_bear, if_neg (by rintro rfl; simp at hb)]
    exact hc
  | @fork src parent child pids p task _ ha hp =>
    have haged : Aged (s.bear src child pids (p.childOf parent task))
        (s.beget src parent child pids p task) := aged_update fun _ => rfl
    rw [haged.births_eq, births_bear] at hb
    have hne := ne_of_kin? (kin?_of_alloc ho ha) (kin?_of_process? hp)
    rw [kin?_beget hne, if_neg (by rintro rfl; simp at hb), hc]
    rfl
  | reaped => rw [kin?_reap, hc]; rfl
  | ended => rw [kin?_lay, hc]; rfl
  | disowned => rw [kin?_disown, hc]; rfl
  | unlisted => rw [kin?_unlist, hc]; rfl
  | swept =>
    refine sweep_induct (motive := fun s' => s'.kin? c = none) ho hc fun s' pid p _ h _ _ => ?_
    rw [kin?_drop, h]
    split <;> rfl

theorem Affairs.unknown (h : Affairs actor mortal wild s s') (ho : s.Ordered)
    (hc : s.kin? c = none) (hb : births c s'.history = births c s.history) :
    s'.kin? c = none := by
  induction h with
  | refl => exact hc
  | @tail u v h h' ih =>
    have hev := Affairs.evolves h ho
    have hou := hev.ordered ho
    obtain ⟨new, hnew⟩ := hev.noted
    obtain ⟨new', hnew'⟩ := (h'.evolves hou).noted
    have hle : births c s.history ≤ births c u.history := births_le ⟨new, hnew.history⟩
    have hle' : births c u.history ≤ births c v.history := births_le ⟨new', hnew'.history⟩
    exact h'.unknown hou (ih (by omega)) (by omega)

/-- **Whoever is not known stays so** until the number is handed out. -/
theorem kin?_run_of_births (hs : Reachable s) (hc : s.kin? c = none)
    (hb : births c (s.run moves).history = births c s.history) : (s.run moves).kin? c = none := by
  induction moves generalizing s with
  | nil => exact hc
  | cons m moves ih =>
    have hle : births c s.history ≤ births c (s.move m).history :=
      births_le (exists_history_move hs.sound m)
    have hle' : births c (s.move m).history ≤ births c ((s.move m).run moves).history :=
      births_le (exists_history_run (hs.move m) moves)
    have hrun : s.run (m :: moves) = (s.move m).run moves := rfl
    rw [hrun] at hb ⊢
    refine ih (hs.move m) ?_ (by omega)
    rcases alone_or_affairs hs.sound m with ⟨pid, rfl, ha⟩ | ha
    · exact (ha.kin? c).trans hc
    · exact ha.unknown hs.sound.ordered hc (by omega)

end System

end PosixSignals
