import PosixSignals.Proofs.System.Family

/-!
# What ties processes together

The outside can take a process off a list or out of the table and fork the
dead, and then the family does not fit together any more. What is left
holds in every run: nobody is on a list twice, a living child is on the list
of its parent, the dead have no context, and whoever leaves the table other
than by the hand of the outside has none either and is on no list.
-/

namespace PosixSignals

namespace Kin

variable {pid q c : Pid} {parent : Option Pid} {k : Kin}

@[simp] theorem bearing_running : (k.bearing pid parent q).running = k.running := by
  unfold bearing
  split <;> rfl

theorem mem_bearing_children :
    c ∈ (k.bearing pid parent q).children ↔ c ∈ k.children ∨ parent = some q ∧ c = pid := by
  unfold bearing
  split
  · next h => simp [h]
  · next h => simp [h]

end Kin

namespace System

variable {s s' : System} {actor : Option Pid} {mortal : Bool} {pid q : Pid} {src : Source}
  {p : Process} {out out' : Pid → Prop}

/-- **What ties processes together, whatever the outside does**; `out` is true of those that
it has taken out of the table. -/
structure Tied (out : Pid → Prop) (s : System) : Prop where
  /-- Every name on a list is that of a child. -/
  linked : s.Linked
  /-- Nobody is on a list twice. -/
  once : ∀ pid k, s.kin? pid = some k → k.children.Nodup
  /-- Nobody is a parent of his own. -/
  other : ∀ pid k, s.kin? pid = some k → k.parent ≠ some pid
  /-- The dead have no context. -/
  still : ∀ pid k, s.kin? pid = some k → k.zombie = true → k.running = false
  /-- A living child is on the list of its parent. -/
  claimed : ∀ pid k q, s.kin? pid = some k → k.zombie = false → k.parent = some q →
    ∃ kq, s.kin? q = some kq ∧ pid ∈ kq.children
  /-- Whoever has left the table otherwise has no context and is on no list. -/
  loose : ∀ pid k, s.kin? pid = some k → k.listed = false → ¬ out pid →
    k.running = false ∧ ∀ q kq, s.kin? q = some kq → pid ∉ kq.children

theorem tied_initial : initial.Tied out where
  linked := linked_initial
  once pid k h := by simp [kin?_initial] at h
  other pid k h := by simp [kin?_initial] at h
  still pid k h := by simp [kin?_initial] at h
  claimed pid k q h := by simp [kin?_initial] at h
  loose pid k h := by simp [kin?_initial] at h

namespace Tied

theorem congr (h : s.Tied out) (hkin : ∀ q, s'.kin? q = s.kin? q) : s'.Tied out where
  linked parent k c hk hc := by
    rw [hkin] at hk ⊢
    exact h.linked parent k c hk hc
  once pid k hk := h.once pid k (hkin pid ▸ hk)
  other pid k hk := h.other pid k (hkin pid ▸ hk)
  still pid k hk := h.still pid k (hkin pid ▸ hk)
  claimed pid k q hk hz hp := by
    rw [hkin] at hk ⊢
    exact h.claimed pid k q hk hz hp
  loose pid k hk hl ho := by
    obtain ⟨hr, hnot⟩ := h.loose pid k (hkin pid ▸ hk) hl ho
    exact ⟨hr, fun q kq hkq => hnot q kq (hkin q ▸ hkq)⟩

/-- Only those who are known matter. -/
theorem mono (h : s.Tied out) (hout : ∀ q k, s.kin? q = some k → out q → out' q) :
    s.Tied out' where
  linked := h.linked
  once := h.once
  other := h.other
  still := h.still
  claimed := h.claimed
  loose q k hk hl ho := h.loose q k hk hl fun hq => ho (hout q k hk hq)

/-- Nobody is on a list of his own. -/
theorem not_mem_self (h : s.Tied out) {k : Kin} (hk : s.kin? pid = some k) :
    pid ∉ k.children := by
  intro hc
  obtain ⟨kc, hkc, hp⟩ := h.linked pid k pid hk hc
  exact h.other pid kc hkc hp

/-- **A birth**: the newborn is in the table, and on the list of its parent if it has one. -/
theorem birth (h : s.Tied out) (k₀ : Kin) (hfresh : s.kin? pid = none) (hc₀ : k₀.children = [])
    (hl₀ : k₀.listed = true) (hz₀ : k₀.zombie = false)
    (hparent : ∀ q, k₀.parent = some q → ∃ kq, s.kin? q = some kq)
    (hbears : s.Bears pid k₀ s') (hlinked : s'.Linked) : s'.Tied out := by
  have hne : ∀ {q k}, s.kin? q = some k → q ≠ pid := ne_of_kin? hfresh
  have hnolist : ∀ {q k}, s.kin? q = some k → pid ∉ k.children :=
    h.linked.not_mem_of_fresh hfresh
  have hold : ∀ {q k'}, s'.kin? q = some k' → (q = pid ∧ k' = k₀) ∨
      ∃ k, s.kin? q = some k ∧ k' = k.bearing pid k₀.parent q := hbears.cases
  have hkeep : ∀ {q k}, s.kin? q = some k → s'.kin? q = some (k.bearing pid k₀.parent q) :=
    hbears.keep hfresh
  refine ⟨hlinked, fun x k' hk' => ?_, fun x k' hk' => ?_, fun x k' hk' hz => ?_,
    fun x k' r hk' hz hp => ?_, fun x k' hk' hl ho => ?_⟩
  all_goals obtain ⟨rfl, rfl⟩ | ⟨k, hk, rfl⟩ := hold hk'
  · simp [hc₀]
  · unfold Kin.bearing
    split
    · exact List.nodup_append.2 ⟨h.once x k hk, by simp, fun c hc d hd he =>
        hnolist hk (List.mem_singleton.1 hd ▸ he ▸ hc)⟩
    · exact h.once x k hk
  · intro hp
    obtain ⟨kx, hkx⟩ := hparent x hp
    exact hne hkx rfl
  · simpa using h.other x k hk
  · simp [hz₀] at hz
  · simpa using h.still x k hk (by simpa using hz)
  · obtain ⟨kr, hkr⟩ := hparent r hp
    exact ⟨_, hkeep hkr, Kin.mem_bearing_children.2 (.inr ⟨hp, rfl⟩)⟩
  · obtain ⟨kr, hkr, hmem⟩ := h.claimed x k r hk (by simpa using hz) (by simpa using hp)
    exact ⟨_, hkeep hkr, Kin.mem_bearing_children.2 (.inl hmem)⟩
  · simp [hl₀] at hl
  · obtain ⟨hr, hnot⟩ := h.loose x k hk (by simpa using hl) ho
    refine ⟨by simpa using hr, fun r kr' hkr' hmem => ?_⟩
    obtain ⟨rfl, rfl⟩ | ⟨kr, hkr, rfl⟩ := hold hkr'
    · simp [hc₀] at hmem
    · rcases Kin.mem_bearing_children.1 hmem with hmem | ⟨-, hx⟩
      · exact hnot r kr hkr hmem
      · exact hne hk hx

theorem root (h : s.Tied out) {pids : IdPool} {name : String} {task : Option Task}
    (hfresh : s.kin? pid = none) : (s.bear src pid pids (.root pid name task)).Tied out := by
  have hnone : (Process.root pid name task).kin.parent = none := rfl
  exact h.birth (Process.root pid name task).kin hfresh rfl rfl rfl
    (fun q hq => by simp [hnone] at hq) bears_root (h.linked.bear hfresh rfl)

theorem beget (h : s.Tied out) {child : Pid} {pids : IdPool} {task : Option Task}
    (hfresh : s.kin? child = none) (hp : s.process? pid = some p) :
    (s.beget src pid child pids p task).Tied out := by
  have hkp : s.kin? pid = some p.kin := kin?_of_process? hp
  refine h.birth (p.childOf pid task).kin hfresh rfl rfl rfl (fun q hq => ?_)
    (bears_beget (ne_of_kin? hfresh hkp)) (h.linked.beget hfresh hp)
  obtain rfl := Option.some.inj hq
  exact ⟨_, hkp⟩

/-! ## Deaths -/

/-- **Ties are only cut.** -/
theorem cut (h : s.Tied out) {g : Pid → Kin → Kin} (hkin : ∀ q, s'.kin? q = (s.kin? q).map (g q))
    (hlinked : s'.Linked) (hsub : ∀ q k, (g q k).children.Sublist k.children)
    (hparent : ∀ q k r, (g q k).parent = some r → k.parent = some r)
    (hzombie : ∀ q k, (g q k).zombie = false → k.zombie = false)
    (hstill : ∀ q k, s.kin? q = some k → (g q k).zombie = true → (g q k).running = false)
    (hclaimed : ∀ q k r kr, s.kin? q = some k → (g q k).zombie = false →
      (g q k).parent = some r → s.kin? r = some kr → q ∈ kr.children → q ∈ (g r kr).children)
    (hloose : ∀ q k, s.kin? q = some k → (g q k).listed = false → ¬ out' q →
      (g q k).running = false ∧ ∀ r kr, s.kin? r = some kr → q ∉ (g r kr).children) :
    s'.Tied out' := by
  have hold : ∀ {q k'}, s'.kin? q = some k' → ∃ k, s.kin? q = some k ∧ g q k = k' :=
    fun {q k'} hk' => Option.map_eq_some_iff.1 ((hkin q).symm.trans hk')
  refine ⟨hlinked, fun q k' hk' => ?_, fun q k' hk' hp => ?_, fun q k' hk' hz => ?_,
    fun q k' r hk' hz hp => ?_, fun q k' hk' hl ho => ?_⟩
  all_goals obtain ⟨k, hk, rfl⟩ := hold hk'
  · exact (hsub q k).nodup (h.once q k hk)
  · exact h.other q k hk (hparent q k q hp)
  · exact hstill q k hk hz
  · obtain ⟨kr, hkr, hmem⟩ := h.claimed q k r hk (hzombie q k hz) (hparent q k r hp)
    exact ⟨g r kr, by rw [hkin, hkr]; rfl, hclaimed q k r kr hk hz hp hkr hmem⟩
  · obtain ⟨hr, hnot⟩ := hloose q k hk hl ho
    refine ⟨hr, fun r kr' hkr' => ?_⟩
    obtain ⟨kr, hkr, rfl⟩ := hold hkr'
    exact hnot r kr hkr

/-- On a list that has become shorter is nobody who was on none. -/
theorem loose_of_sublist (h : s.Tied out) {g : Pid → Kin → Kin}
    (hsub : ∀ q k, (g q k).children.Sublist k.children) {k : Kin} (hk : s.kin? q = some k)
    (hl : k.listed = false) (ho : ¬ out q) :
    k.running = false ∧ ∀ r kr, s.kin? r = some kr → q ∉ (g r kr).children := by
  obtain ⟨hr, hnot⟩ := h.loose q k hk hl ho
  exact ⟨hr, fun r kr hkr hmem => hnot r kr hkr ((hsub r kr).subset hmem)⟩

/-- A zombie is taken off a list. -/
theorem disown (h : s.Tied out) {child : Pid} {kc : Kin} (hkc : s.kin? child = some kc)
    (hz : kc.zombie = true) (hlinked : (s.disown pid child).Linked) :
    (s.disown pid child).Tied out := by
  have hsub : ∀ (q : Pid) (k : Kin),
      (if q = pid then { k with children := k.children.erase child } else k).children.Sublist
        k.children := by
    intro q k
    split
    · exact List.erase_sublist
    · exact .refl _
  refine h.cut (fun _ => kin?_disown) hlinked hsub (fun q k r hp => ?_) (fun q k hzq => ?_)
    (fun q k hk hzq => ?_) (fun q k r kr hk hzq hp hkr hmem => ?_) fun q k hk hl ho => ?_
  · split at hp <;> exact hp
  · split at hzq <;> exact hzq
  · have hstill := h.still q k hk
    split at hzq <;> split <;> exact hstill hzq
  · have hne : q ≠ child := by
      rintro rfl
      obtain rfl := Option.some.inj (hk.symm.trans hkc)
      split at hzq <;> simp [hz] at hzq
    split
    · exact (List.mem_erase_of_ne hne).2 hmem
    · exact hmem
  · have hkl : k.listed = false := by split at hl <;> exact hl
    have hloose := h.loose_of_sublist hsub hk hkl ho
    refine ⟨?_, hloose.2⟩
    split <;> exact hloose.1

/-- The outside takes somebody out of the table. -/
theorem unlist (h : s.Tied out) (hlinked : (s.unlist pid).Linked)
    (hout : ∀ q, out q → out' q) (hpid : out' pid) : (s.unlist pid).Tied out' := by
  have hsub : ∀ (q : Pid) (k : Kin),
      (if q = pid then { k with listed := false } else k).children.Sublist k.children := by
    intro q k
    split <;> exact .refl _
  refine h.cut (fun _ => kin?_unlist) hlinked hsub (fun q k r hp => ?_) (fun q k hzq => ?_)
    (fun q k hk hzq => ?_) (fun q k r kr hk hzq hp hkr hmem => ?_) fun q k hk hl ho => ?_
  · split at hp <;> exact hp
  · split at hzq <;> exact hzq
  · have hstill := h.still q k hk
    split at hzq <;> split <;> exact hstill hzq
  · split <;> exact hmem
  · have hq : q ≠ pid := fun he => ho (he ▸ hpid)
    rw [if_neg hq] at hl ⊢
    exact h.loose_of_sublist hsub hk hl fun hq => ho (hout q hq)

/-- The child that was reaped is on no list: its name was on that of its parent, once. -/
theorem gone_of_reap (h : s.Tied out) {child : Pid} {kp kc k' : Kin}
    (hkp : s.kin? pid = some kp) (hmem : child ∈ kp.children) (hkc : s.kin? child = some kc)
    (hz : kc.zombie = true) (hstill : k'.zombie = true → k'.running = false)
    (hk' : (s.reap src pid child).kin? child = some k') : k'.running = false ∧
      ∀ r kr, (s.reap src pid child).kin? r = some kr → child ∉ kr.children := by
  constructor
  · refine hstill ?_
    rw [kin?_reap] at hk'
    obtain ⟨k, hk, rfl⟩ := Option.map_eq_some_iff.1 hk'
    obtain rfl := Option.some.inj (hk.symm.trans hkc)
    dsimp only
    split <;> split <;> exact hz
  · intro r kr' hkr' hc
    rw [kin?_reap] at hkr'
    obtain ⟨kr, hkr, rfl⟩ := Option.map_eq_some_iff.1 hkr'
    have hlist : child ∈ (if r = pid then kr.children.erase child else kr.children) := by
      dsimp only at hc
      split at hc <;> split at hc <;> simp_all
    by_cases hr : r = pid
    · subst hr
      rw [if_pos rfl] at hlist
      exact (h.once r kr hkr).not_mem_erase hlist
    · rw [if_neg hr] at hlist
      obtain ⟨k₁, hk₁, hparent₁⟩ := h.linked pid kp child hkp hmem
      obtain ⟨k₂, hk₂, hparent₂⟩ := h.linked r kr child hkr hlist
      obtain rfl := Option.some.inj (hk₁.symm.trans hk₂)
      exact hr (Option.some.inj (hparent₂.symm.trans hparent₁))

/-- **A child is reaped**: it was a zombie, so it has no context, and its name was on this
list alone. -/
theorem reap (h : s.Tied out) {child : Pid} {kp kc : Kin} (hkp : s.kin? pid = some kp)
    (hmem : child ∈ kp.children) (hkc : s.kin? child = some kc) (hz : kc.zombie = true)
    (hlinked : (s.reap src pid child).Linked) : (s.reap src pid child).Tied out := by
  have hdisowned : (s.disown pid child).Tied out := by
    refine h.disown hkc hz ?_
    refine h.linked.map (fun _ => kin?_disown) (fun q k => ?_) fun _ _ _ _ _ _ _ hp => ?_
    · split
      · exact List.erase_subset
      · exact fun _ h => h
    · split <;> exact hp
  have hunlisted : ((s.disown pid child).unlist child).Tied fun q => out q ∨ q = child :=
    hdisowned.unlist hlinked (fun q hq => .inl hq) (.inr rfl)
  refine ⟨hunlisted.linked, hunlisted.once, hunlisted.other, hunlisted.still,
    hunlisted.claimed, fun q k' hk' hl ho => ?_⟩
  by_cases hq : q = child
  · subst hq
    exact h.gone_of_reap hkp hmem hkc hz (hunlisted.still q k' hk') hk'
  · exact hunlisted.loose q k' hk' hl fun hor => hor.elim ho hq

/-- Whoever is on a list after an end is not on that of the dead, and its parent is the one
whose list it is. -/
theorem parent_of_bereft (h : s.Tied out) {r : Pid} {k kr kr' : Kin} (hk : s.kin? q = some k)
    (hkr : s.kin? r = some kr) (hb : Bereft pid p r kr kr') (hmem : q ∈ kr'.children) :
    r ≠ pid ∧ k.parent = some r := by
  obtain ⟨kc, hkc, hpar⟩ := h.linked r kr q hkr (hb.sublist.subset hmem)
  obtain rfl := Option.some.inj (hk.symm.trans hkc)
  exact ⟨hb.ne_of_mem hmem, hpar⟩

/-- **Whoever leaves the table by an end** is dead, and on no list: it is the dead itself, which
has no parent, or a child of it. -/
theorem loose_of_bereft (h : s.Tied out) (hp : s.process? pid = some p) {k k' : Kin}
    (hk : s.kin? q = some k) (hb : Bereft pid p q k k') (hl : k'.listed = false) (ho : ¬ out q) :
    k'.running = false ∧ ∀ r kr kr', s.kin? r = some kr → Bereft pid p r kr kr' →
      q ∉ kr'.children := by
  have hkp : s.kin? pid = some p.kin := kin?_of_process? hp
  have hgone : k.listed = false → k.running = false ∧ ∀ r kr kr', s.kin? r = some kr →
      Bereft pid p r kr kr' → q ∉ kr'.children := by
    intro hl
    obtain ⟨hr, hnot⟩ := h.loose q k hk hl ho
    exact ⟨hr, fun r kr kr' hkr hb hmem => hnot r kr hkr (hb.sublist.subset hmem)⟩
  cases hb with
  | dead hq =>
    obtain rfl := Option.some.inj (hk.symm.trans (hq ▸ hkp))
    refine ⟨rfl, fun r kr kr' hkr hb hmem => ?_⟩
    cases hlp : p.listed with
    | false => exact (hgone hlp).2 r kr kr' hkr hb hmem
    | true =>
      have hnone : p.parent = none := by simpa [Kin.buried, Process.kin, hlp] using hl
      have hpar : p.parent = some r := (h.parent_of_bereft hk hkr hb hmem).2
      simp [hnone] at hpar
  | orphan _ hc =>
    obtain ⟨kc, hkc, hpar⟩ := h.linked pid _ q hkp hc
    obtain rfl := Option.some.inj (hk.symm.trans hkc)
    refine ⟨?_, fun r kr kr' hkr hb hmem => ?_⟩
    · cases hlk : k.listed with
      | false => exact (hgone hlk).1
      | true => exact h.still q k hk (by simpa [Kin.orphaned, hlk] using hl)
    · obtain ⟨hne, hpar'⟩ := h.parent_of_bereft hk hkr hb hmem
      exact hne (Option.some.inj (hpar'.symm.trans hpar))
  | other => exact hgone hl

/-- **A process ends**: its children were on its own list alone, and if it has no parent
itself it was on none. -/
theorem lay (h : s.Tied out) (hp : s.process? pid = some p)
    (hlinked : (s.lay src pid p).Linked) : (s.lay src pid p).Tied out := by
  have hkp : s.kin? pid = some p.kin := kin?_of_process? hp
  obtain ⟨g, hkin, hg⟩ := kin?_lay_cases s src (h.not_mem_self hkp)
  refine h.cut hkin hlinked (fun q k => (hg q k).sublist) (fun q k r => (hg q k).parent_eq)
    (fun q k hz => ((hg q k).ne_of_zombie hz).2) (fun q k hk hz => ?_)
    (fun q k r kr hk hz hpar hkr hmem => ?_) fun q k hk hl ho => ?_
  · rcases (hg q k).of_zombie hz with ⟨-, hr⟩ | ⟨hz, -, hr⟩
    · exact hr
    · exact hr.trans (h.still q k hk hz)
  · have hc : q ∉ p.children := (hg q k).not_mem_of_parent ((hg q k).ne_of_zombie hz).1 hpar
    have hr : r ≠ pid := by
      rintro rfl
      obtain rfl := Option.some.inj (hkr.symm.trans hkp)
      exact hc hmem
    rw [(hg r kr).children_eq hr]
    exact hmem
  · obtain ⟨hr, hnot⟩ := h.loose_of_bereft hp hk (hg q k) hl ho
    exact ⟨hr, fun r kr hkr => hnot r kr _ hkr (hg r kr)⟩

/-! ## The sweep -/

/-- Whoever is forgotten is on no list, and nobody's living child is left with his name. -/
theorem drop (h : s.Tied out) (ho : s.Ordered) (hu : s.isReferenced pid p = false) :
    (s.drop pid).Tied out := by
  obtain ⟨-, -, hnot⟩ := (isReferenced_eq_false ho).1 hu
  refine ⟨h.linked.drop hnot, fun q k' hk' => ?_, fun q k' hk' hpar => ?_,
    fun q k' hk' hz => ?_, fun q k' r hk' hz hpar => ?_, fun q k' hk' hl hout => ?_⟩
  all_goals obtain ⟨hq, k, hk, rfl⟩ := kin?_drop_eq_some.1 hk'
  · simpa using h.once q k hk
  · exact h.other q k hk (Kin.forgetting_parent_eq_some.1 hpar).1
  · simpa using h.still q k hk (by simpa using hz)
  · obtain ⟨hpar, hr⟩ := Kin.forgetting_parent_eq_some.1 hpar
    obtain ⟨kr, hkr, hmem⟩ := h.claimed q k r hk (by simpa using hz) hpar
    exact ⟨kr.forgetting pid, by rw [kin?_drop, if_neg hr, hkr]; rfl, by simpa using hmem⟩
  · obtain ⟨hr, hnolist⟩ := h.loose q k hk (by simpa using hl) hout
    refine ⟨by simpa using hr, fun r kr' hkr' => ?_⟩
    obtain ⟨-, kr, hkr, rfl⟩ := kin?_drop_eq_some.1 hkr'
    simpa using hnolist r kr hkr

theorem sweep (h : s.Tied out) (ho : s.Ordered) : s.sweep.Tied out :=
  sweep_induct ho h fun _ _ _ ho h _ hu => h.drop ho hu

end Tied

/-- **Every affair but those of the outside keeps the ties.** -/
theorem Affair.tied (h : Affair actor mortal false s s') (ho : s.Ordered) (ht : s.Tied out) :
    s'.Tied out := by
  have hlinked : s'.Linked := h.linked ho ht.linked
  cases h with
  | apart h => exact ht.congr (kin?_of_evolves h)
  | root _ ha => exact ht.root (kin?_of_alloc ho ha)
  | fork _ ha hp => exact ht.beget (kin?_of_alloc ho ha) hp
  | reaped _ _ hp hmem hc hz =>
    exact ht.reap (kin?_of_process? hp) hmem (kin?_of_process? hc) hz hlinked
  | ended _ _ _ hp => exact ht.lay hp hlinked
  | disowned hw | unlisted hw => simp at hw
  | swept => exact ht.sweep ho

theorem Affairs.tied (h : Affairs actor mortal false s s') (ho : s.Ordered) (ht : s.Tied out) :
    s'.Ordered ∧ s'.Tied out := by
  induction h with
  | refl => exact ⟨ho, ht⟩
  | tail _ h ih => exact ⟨(h.evolves ih.1).ordered ih.1, h.tied ih.1 ih.2⟩

/-! ## Who is known -/

/-- **Everybody who is known is referred to**: by the table, by a context or by a list. -/
def Anchored (s : System) : Prop :=
  ∀ pid k, s.kin? pid = some k →
    k.listed = true ∨ k.running = true ∨ ∃ q kq, s.kin? q = some kq ∧ pid ∈ kq.children

theorem Anchored.congr (h : s.Anchored) (hkin : ∀ q, s'.kin? q = s.kin? q) : s'.Anchored := by
  intro pid k hk
  simp only [hkin] at hk ⊢
  exact h pid k hk

/-- **A sweep leaves nobody whom nothing refers to.** -/
theorem anchored_sweep (ho : s.Ordered) : s.sweep.Anchored := by
  intro pid k hk
  have hos : s.sweep.Ordered :=
    (Affair.evolves (.swept : Affair none false false s _) ho).ordered ho
  obtain ⟨p, hp, rfl⟩ := kin?_eq_some.1 hk
  refine Classical.byContradiction fun hnone => ?_
  obtain ⟨hl, hr, hnot⟩ : p.kin.listed ≠ true ∧ p.kin.running ≠ true ∧
      ∀ q kq, s.sweep.kin? q = some kq → pid ∉ kq.children := by
    refine ⟨fun h => hnone (.inl h), fun h => hnone (.inr (.inl h)), fun q kq hkq hmem => ?_⟩
    exact hnone (.inr (.inr ⟨q, kq, hkq, hmem⟩))
  have htask : p.task = none := by simpa [Process.kin] using hr
  have hfalse : s.sweep.isReferenced pid p = false :=
    (isReferenced_eq_false hos).2 ⟨(Bool.not_eq_true _).mp hl, htask, hnot⟩
  simp [isReferenced_of_sweep ho hp] at hfalse

theorem Anchored.bear (h : s.Anchored) {pids : IdPool} (hfresh : s.kin? pid = none)
    (hl : p.listed = true) : (s.bear src pid pids p).Anchored := by
  intro q k hk
  rcases kin?_bear_eq_some.1 hk with ⟨-, rfl⟩ | ⟨-, hk⟩
  · exact .inl hl
  · refine (h q k hk).imp_right (Or.imp_right ?_)
    rintro ⟨r, kr, hkr, hmem⟩
    exact ⟨r, kr, by rw [kin?_bear, if_neg (ne_of_kin? hfresh hkr), hkr], hmem⟩

theorem Anchored.beget (h : s.Anchored) {child : Pid} {pids : IdPool} {task : Option Task}
    (hfresh : s.kin? child = none) : (s.beget src pid child pids p task).Anchored := by
  have hborn : (s.bear src child pids (p.childOf pid task)).Anchored := h.bear hfresh rfl
  intro q k hk
  rw [System.beget, kin?_update_children (· ++ [child])] at hk
  obtain ⟨k', hk', rfl⟩ := Option.map_eq_some_iff.1 hk
  rcases hborn q k' hk' with hl | hr | ⟨r, kr, hkr, hmem⟩
  · exact .inl (by split <;> exact hl)
  · exact .inr (.inl (by split <;> exact hr))
  · refine .inr (.inr ⟨r, _,
      by rw [System.beget, kin?_update_children (· ++ [child]), hkr]; rfl, ?_⟩)
    split
    · exact List.mem_append_left _ hmem
    · exact hmem

/-- Affairs that nobody brings about in person leave nobody whom nothing refers to. -/
theorem Affairs.anchored (h : Affairs none mortal false s s') (ho : s.Ordered)
    (ha : s.Anchored) : s'.Ordered ∧ s'.Anchored := by
  induction h with
  | refl => exact ⟨ho, ha⟩
  | tail _ h ih =>
    obtain ⟨ho', ih⟩ := ih
    refine ⟨(h.evolves ho').ordered ho', ?_⟩
    cases h with
    | apart h => exact ih.congr (kin?_of_evolves h)
    | root _ ha => exact ih.bear (kin?_of_alloc ho' ha) rfl
    | fork _ ha => exact ih.beget (kin?_of_alloc ho' ha)
    | reaped _ ha | ended _ _ ha => simp at ha
    | disowned hw | unlisted hw => simp at hw
    | swept => exact anchored_sweep ho'

/-- **Whoever is known is in the table**, unless the outside has taken him out of it. -/
theorem Tied.listed (h : s.Tied out) (ha : s.Anchored) {k : Kin} (hk : s.kin? pid = some k)
    (ho : ¬ out pid) : k.listed = true := by
  cases hl : k.listed with
  | true => rfl
  | false =>
    obtain ⟨hrun, hnot⟩ := h.loose pid k hk hl ho
    rcases ha pid k hk with hl' | hr | ⟨q, kq, hkq, hmem⟩
    · exact hl.symm.trans hl'
    · exact hrun.symm.trans hr
    · exact absurd hmem (hnot q kq hkq)

end System

end PosixSignals
