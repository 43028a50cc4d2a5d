import PosixSignals.Proofs.System.Affair

/-!
# The family of processes

Parents and children name each other, the dead have no children, and
nobody descends from himself, as long as only processes act on processes.
Whoever is out of the table is dead and on no list, so to forget him takes
nobody's parent away who is still there. `Affair.family` goes through the
affairs one by one.
-/

namespace PosixSignals

namespace Kin

/-- With one child more, for the process `q`, if that is the parent of the newborn. -/
def bearing (pid : Pid) (parent : Option Pid) (q : Pid) (k : Kin) : Kin :=
  if parent = some q then { k with children := k.children ++ [pid] } else k

variable {pid q : Pid} {parent : Option Pid} {k : Kin}

@[simp] theorem bearing_parent : (k.bearing pid parent q).parent = k.parent := by
  unfold bearing
  split <;> rfl

@[simp] theorem bearing_listed : (k.bearing pid parent q).listed = k.listed := by
  unfold bearing
  split <;> rfl

@[simp] theorem bearing_zombie : (k.bearing pid parent q).zombie = k.zombie := by
  unfold bearing
  split <;> rfl

theorem bearing_of_ne (h : parent ≠ some q) : k.bearing pid parent q = k := if_neg h

theorem count_bearing {c : Pid} (h : c ≠ pid) :
    (k.bearing pid parent q).children.count c = k.children.count c := by
  unfold bearing
  split
  · simp [List.count_append, Ne.symm h]
  · rfl

theorem count_bearing_self (h : pid ∉ k.children) :
    (k.bearing pid (some q) q).children.count pid = 1 := by
  simp [bearing, List.count_append, List.count_eq_zero.2 h]

end Kin

namespace System

variable {s s' : System} {actor : Option Pid} {mortal : Bool} {pid q : Pid} {src : Source}
  {p : Process}

/-- **One process comes into being at this place**, on the list of its parent if it has one,
and everybody else stays where he is. -/
def Bears (s : System) (pid : Pid) (k₀ : Kin) (s' : System) : Prop :=
  ∀ q, s'.kin? q = if q = pid then some k₀ else (s.kin? q).map (Kin.bearing pid k₀.parent q)

section Bears

variable {k₀ k k' : Kin} (h : s.Bears pid k₀ s')
include h

/-- Whoever is known after a birth is the newborn or was known before. -/
theorem Bears.cases (hk' : s'.kin? q = some k') :
    (q = pid ∧ k' = k₀) ∨ ∃ k, s.kin? q = some k ∧ k' = k.bearing pid k₀.parent q := by
  rw [h] at hk'
  split at hk'
  · next he => exact .inl ⟨he, (Option.some.inj hk').symm⟩
  · obtain ⟨k, hk, he⟩ := Option.map_eq_some_iff.1 hk'
    exact .inr ⟨k, hk, he.symm⟩

theorem Bears.keep (hfresh : s.kin? pid = none) (hk : s.kin? q = some k) :
    s'.kin? q = some (k.bearing pid k₀.parent q) := by
  rw [h, if_neg (ne_of_kin? hfresh hk), hk, Option.map_some]

end Bears

/-- Where names on lists are those of children, a newborn is on no list. -/
theorem Linked.not_mem_of_fresh (hl : s.Linked) (hfresh : s.kin? pid = none) {k : Kin}
    (hk : s.kin? q = some k) : pid ∉ k.children := by
  intro hmem
  obtain ⟨kc, hkc, -⟩ := hl q k pid hk hmem
  exact ne_of_kin? hfresh hkc rfl

theorem bears_root {pids : IdPool} {name : String} {task : Option Task} :
    s.Bears pid (Process.root pid name task).kin
      (s.bear src pid pids (.root pid name task)) := by
  intro q
  have hid : Kin.bearing pid (Process.root pid name task).kin.parent q = id :=
    funext fun k => Kin.bearing_of_ne (by simp [Process.kin, Process.root])
  rw [kin?_bear, hid, Option.map_id]
  rfl

theorem bears_beget {child : Pid} {pids : IdPool} {task : Option Task} (hne : pid ≠ child) :
    s.Bears child (p.childOf pid task).kin (s.beget src pid child pids p task) := by
  intro q
  rw [kin?_beget hne]
  split
  · rfl
  · congr 1
    funext k
    simp [Kin.bearing, Process.kin, Process.childOf, eq_comm]

/-- **The places of all processes fit together.** -/
structure Family (s : System) : Prop where
  /-- Every name on a list is that of a child. -/
  linked : s.Linked
  /-- A process of the table is on its parent's list, once. -/
  counted : ∀ pid k q, s.kin? pid = some k → k.listed = true → k.parent = some q →
    ∃ kq, s.kin? q = some kq ∧ kq.children.count pid = 1
  /-- Nobody names a parent that is forgotten. -/
  known : ∀ pid k q, s.kin? pid = some k → k.parent = some q → ∃ kq, s.kin? q = some kq
  /-- The dead have neither children nor a context. -/
  dead : ∀ pid k, s.kin? pid = some k → k.zombie = true → k.children = [] ∧ k.running = false
  /-- The dead of the table have a parent. -/
  mourned : ∀ pid k, s.kin? pid = some k → k.zombie = true → k.listed = true → k.parent ≠ none
  /-- Whoever is out of the table is dead and on no list. -/
  loose : ∀ pid k, s.kin? pid = some k → k.listed = false →
    k.zombie = true ∧ ∀ q kq, s.kin? q = some kq → pid ∉ kq.children
  /-- Parents come before their children. -/
  ranked : ∃ rank : Pid → Nat, ∀ pid k q, s.kin? pid = some k → k.parent = some q →
    rank q < rank pid

theorem kin?_initial : initial.kin? pid = none := by
  simp [kin?, initial, process?, Registry.get?]

theorem family_initial : initial.Family where
  linked := linked_initial
  counted pid k q h := by simp [kin?_initial] at h
  known pid k q h := by simp [kin?_initial] at h
  dead pid k h := by simp [kin?_initial] at h
  mourned pid k h := by simp [kin?_initial] at h
  loose pid k h := by simp [kin?_initial] at h
  ranked := ⟨fun _ => 0, fun pid k q h => by simp [kin?_initial] at h⟩

namespace Family

/-- A name on a list is that of a process of the table. -/
theorem listed_of_mem (h : s.Family) {k kc : Kin} {c : Pid} (hk : s.kin? pid = some k)
    (hc : c ∈ k.children) (hkc : s.kin? c = some kc) : kc.listed = true := by
  cases hl : kc.listed with
  | true => rfl
  | false => exact absurd hc ((h.loose c kc hkc hl).2 pid k hk)

/-- Nobody is on two lists. -/
theorem owner_unique (h : s.Family) {k k' : Kin} {c : Pid} (hk : s.kin? pid = some k)
    (hc : c ∈ k.children) (hk' : s.kin? q = some k') (hc' : c ∈ k'.children) : pid = q := by
  obtain ⟨kc, hkc, hp⟩ := h.linked pid k c hk hc
  obtain ⟨kc', hkc', hp'⟩ := h.linked q k' c hk' hc'
  obtain rfl := Option.some.inj (hkc.symm.trans hkc')
  exact Option.some.inj (hp.symm.trans hp')

/-- Nobody is a child of his own. -/
theorem not_mem_self (h : s.Family) {k : Kin} (hk : s.kin? pid = some k) : pid ∉ k.children := by
  intro hc
  obtain ⟨kc, hkc, hp⟩ := h.linked pid k pid hk hc
  obtain ⟨rank, hrank⟩ := h.ranked
  exact Nat.lt_irrefl _ (hrank pid kc pid hkc hp)

theorem congr (h : s.Family) (hkin : ∀ q, s'.kin? q = s.kin? q) : s'.Family where
  linked parent k c hk hc := by
    rw [hkin] at hk ⊢
    exact h.linked parent k c hk hc
  counted pid k q hk hl hp := by
    rw [hkin] at hk ⊢
    exact h.counted pid k q hk hl hp
  known pid k q hk hp := by
    rw [hkin] at hk ⊢
    exact h.known pid k q hk hp
  dead pid k hk := h.dead pid k (hkin pid ▸ hk)
  mourned pid k hk := h.mourned pid k (hkin pid ▸ hk)
  loose pid k hk hl := by
    obtain ⟨hz, hnot⟩ := h.loose pid k (hkin pid ▸ hk) hl
    exact ⟨hz, fun q kq hkq => hnot q kq (hkin q ▸ hkq)⟩
  ranked := by
    obtain ⟨rank, hrank⟩ := h.ranked
    exact ⟨rank, fun pid k q hk => hrank pid k q (hkin pid ▸ hk)⟩

/-! ## Births -/

/-- **A birth**: the newborn is alive, has no children, and is put on the list of its
parent, if it has one. -/
theorem birth (h : s.Family) (k₀ : Kin) (hfresh : s.kin? pid = none) (hc₀ : k₀.children = [])
    (hl₀ : k₀.listed = true) (hz₀ : k₀.zombie = false)
    (hparent : ∀ q, k₀.parent = some q → ∃ kq, s.kin? q = some kq ∧ kq.zombie = false)
    (hbears : s.Bears pid k₀ s') (hlinked : s'.Linked) : s'.Family := by
  have hne : ∀ {q k}, s.kin? q = some k → q ≠ pid := ne_of_kin? hfresh
  have hold : ∀ {q k'}, s'.kin? q = some k' → (q = pid ∧ k' = k₀) ∨
      ∃ k, s.kin? q = some k ∧ k' = k.bearing pid k₀.parent q := hbears.cases
  have hkeep : ∀ {q k}, s.kin? q = some k → s'.kin? q = some (k.bearing pid k₀.parent q) :=
    hbears.keep hfresh
  have hnolist : ∀ {q k}, s.kin? q = some k → pid ∉ k.children :=
    h.linked.not_mem_of_fresh hfresh
  obtain ⟨rank, hrank⟩ := h.ranked
  refine ⟨hlinked, fun x k' r hk' hl hp => ?_, fun x k' r hk' hp => ?_, fun x k' hk' hz => ?_,
    fun x k' hk' hz hl => ?_, fun x k' hk' hl => ?_,
    ⟨fun x => if x = pid then k₀.parent.elim 0 (rank · + 1) else rank x, fun x k' r hk' hp => ?_⟩⟩
  · obtain ⟨rfl, rfl⟩ | ⟨k, hk, rfl⟩ := hold hk'
    · obtain ⟨kr, hkr, -⟩ := hparent r hp
      exact ⟨_, hkeep hkr, hp ▸ Kin.count_bearing_self (hnolist hkr)⟩
    · obtain ⟨kr, hkr, hcount⟩ := h.counted x k r hk (by simpa using hl) (by simpa using hp)
      exact ⟨_, hkeep hkr, (Kin.count_bearing (hne hk)).trans hcount⟩
  · obtain ⟨rfl, rfl⟩ | ⟨k, hk, rfl⟩ := hold hk'
    · obtain ⟨kr, hkr, -⟩ := hparent r hp
      exact ⟨_, hkeep hkr⟩
    · obtain ⟨kr, hkr⟩ := h.known x k r hk (by simpa using hp)
      exact ⟨_, hkeep hkr⟩
  · obtain ⟨rfl, rfl⟩ | ⟨k, hk, rfl⟩ := hold hk'
    · simp [hz₀] at hz
    · -- the dead are nobody's new parents
      have hother : k₀.parent ≠ some x := fun hp => by
        obtain ⟨kx, hkx, hzx⟩ := hparent x hp
        obtain rfl := Option.some.inj (hk.symm.trans hkx)
        simp [hzx] at hz
      rw [Kin.bearing_of_ne hother] at hz ⊢
      exact h.dead x k hk hz
  · obtain ⟨rfl, rfl⟩ | ⟨k, hk, rfl⟩ := hold hk'
    · simp [hz₀] at hz
    · simpa using h.mourned x k hk (by simpa using hz) (by simpa using hl)
  · obtain ⟨rfl, rfl⟩ | ⟨k, hk, rfl⟩ := hold hk'
    · simp [hl₀] at hl
    · obtain ⟨hz, hnot⟩ := h.loose x k hk (by simpa using hl)
      refine ⟨by simpa using hz, fun r kr' hkr' hmem => ?_⟩
      obtain ⟨rfl, rfl⟩ | ⟨kr, hkr, rfl⟩ := hold hkr'
      · simp [hc₀] at hmem
      · refine hnot r kr hkr (List.count_pos_iff.1 ?_)
        rw [← Kin.count_bearing (hne hk)]
        exact List.count_pos_iff.2 hmem
  · obtain ⟨rfl, rfl⟩ | ⟨k, hk, rfl⟩ := hold hk'
    · obtain ⟨kr, hkr, -⟩ := hparent r hp
      simp [hp, hne hkr]
    · have hp : k.parent = some r := by simpa using hp
      obtain ⟨kr, hkr⟩ := h.known x k r hk hp
      simpa [hne hk, hne hkr] using hrank x k r hk hp

/-! ## Deaths -/

/-- **Ties are only cut**: nobody gets another parent or comes back into the table, and
the lists, the dead and those out of the table are as they should be. -/
theorem cut (h : s.Family) {g : Pid → Kin → Kin} (hkin : ∀ q, s'.kin? q = (s.kin? q).map (g q))
    (hlinked : s'.Linked)
    (hparent : ∀ q k r, (g q k).parent = some r → k.parent = some r)
    (hlisted : ∀ q k, (g q k).listed = true → k.listed = true)
    (hcounted : ∀ q k r kr, s.kin? q = some k → (g q k).listed = true →
      (g q k).parent = some r → s.kin? r = some kr → kr.children.count q = 1 →
      (g r kr).children.count q = 1)
    (hdead : ∀ q k, s.kin? q = some k → (g q k).zombie = true →
      (g q k).children = [] ∧ (g q k).running = false)
    (hmourned : ∀ q k, s.kin? q = some k → (g q k).zombie = true → (g q k).listed = true →
      (g q k).parent ≠ none)
    (hloose : ∀ q k, s.kin? q = some k → (g q k).listed = false → (g q k).zombie = true ∧
      ∀ r kr, s.kin? r = some kr → q ∉ (g r kr).children) : s'.Family := by
  have hold : ∀ {q k'}, s'.kin? q = some k' → ∃ k, s.kin? q = some k ∧ g q k = k' :=
    fun {q k'} hk' => Option.map_eq_some_iff.1 ((hkin q).symm.trans hk')
  have hkeep : ∀ {q k}, s.kin? q = some k → s'.kin? q = some (g q k) :=
    fun {q k} hk => by rw [hkin, hk, Option.map_some]
  obtain ⟨rank, hrank⟩ := h.ranked
  refine ⟨hlinked, fun q k' r hk' hl hp => ?_, fun q k' r hk' hp => ?_, fun q k' hk' hz => ?_,
    fun q k' hk' hz hl => ?_, fun q k' hk' hl => ?_, rank, fun q k' r hk' hp => ?_⟩
  all_goals obtain ⟨k, hk, rfl⟩ := hold hk'
  · obtain ⟨kr, hkr, hcount⟩ := h.counted q k r hk (hlisted q k hl) (hparent q k r hp)
    exact ⟨_, hkeep hkr, hcounted q k r kr hk hl hp hkr hcount⟩
  · obtain ⟨kr, hkr⟩ := h.known q k r hk (hparent q k r hp)
    exact ⟨_, hkeep hkr⟩
  · exact hdead q k hk hz
  · exact hmourned q k hk hz hl
  · obtain ⟨hz, hnot⟩ := hloose q k hk hl
    refine ⟨hz, fun r kr' hkr' => ?_⟩
    obtain ⟨kr, hkr, rfl⟩ := hold hkr'
    exact hnot r kr hkr
  · exact hrank q k r hk (hparent q k r hp)

/-- **A child is reaped**: it is out of the table and on no list any more. -/
theorem reap (h : s.Family) {child : Pid} {kp kc : Kin} (hkp : s.kin? pid = some kp)
    (hmem : child ∈ kp.children) (hkc : s.kin? child = some kc) (hz : kc.zombie = true)
    (hlinked : (s.reap src pid child).Linked) : (s.reap src pid child).Family := by
  have hne : pid ≠ child := fun he => h.not_mem_self hkp (he ▸ hmem)
  have hcparent : kc.parent = some pid := by
    obtain ⟨kc', hkc', hp⟩ := h.linked pid kp child hkp hmem
    exact Option.some.inj (hkc.symm.trans hkc') ▸ hp
  have honce : kp.children.count child = 1 := by
    obtain ⟨kp', hkp', hcount⟩ :=
      h.counted child kc pid hkc (h.listed_of_mem hkp hmem hkc) hcparent
    exact Option.some.inj (hkp.symm.trans hkp') ▸ hcount
  obtain ⟨g, hkin, hg⟩ := kin?_reap_cases s src hne
  -- the name of the child is erased where it was, and was nowhere else
  have hlists : ∀ {q r kr}, s.kin? r = some kr → q ∈ (g r kr).children →
      q ≠ child ∧ q ∈ kr.children := by
    intro q r kr hkr hc
    obtain ⟨rfl, he⟩ | ⟨rfl, he⟩ | ⟨hr, -, he⟩ := hg r kr <;> rw [he] at hc
    · obtain rfl := Option.some.inj (hkr.symm.trans hkp)
      refine ⟨?_, List.mem_of_mem_erase hc⟩
      rintro rfl
      have hnone : (kr.children.erase q).count q = 0 := by rw [List.count_erase_self, honce]
      exact List.count_eq_zero.1 hnone hc
    · obtain rfl := Option.some.inj (hkr.symm.trans hkc)
      simp [(h.dead r kr hkr hz).1] at hc
    · exact ⟨fun hq => hr (h.owner_unique hkr (hq ▸ hc) hkp hmem), hc⟩
  refine h.cut hkin hlinked (fun q k r hpar => ?_) (fun q k hl => ?_)
    (fun q k r kr hk hl hpar hkr hcount => ?_) (fun q k hk hzq => ?_)
    (fun q k hk hzq hl => ?_) fun q k hk hl => ?_
  · obtain ⟨-, he⟩ | ⟨-, he⟩ | ⟨-, -, he⟩ := hg q k <;> rw [he] at hpar <;> exact hpar
  · obtain ⟨-, he⟩ | ⟨-, he⟩ | ⟨-, -, he⟩ := hg q k <;> rw [he] at hl
    · exact hl
    · simp at hl
    · exact hl
  · have hq : q ≠ child := by
      rintro rfl
      obtain ⟨rfl, -⟩ | ⟨-, he⟩ | ⟨-, hne', -⟩ := hg q k
      · exact hne rfl
      · simp [he] at hl
      · exact hne' rfl
    obtain ⟨-, he⟩ | ⟨-, he⟩ | ⟨-, -, he⟩ := hg r kr <;> rw [he]
    · exact (List.count_erase_of_ne hq).trans hcount
    · exact hcount
    · exact hcount
  · obtain ⟨-, he⟩ | ⟨-, he⟩ | ⟨-, -, he⟩ := hg q k <;> rw [he] at hzq ⊢
    · obtain ⟨hc, hr⟩ := h.dead q k hk hzq
      exact ⟨by simp [hc], hr⟩
    · exact h.dead q k hk hzq
    · exact h.dead q k hk hzq
  · obtain ⟨-, he⟩ | ⟨-, he⟩ | ⟨-, -, he⟩ := hg q k <;> rw [he] at hzq hl ⊢
    · exact h.mourned q k hk hzq hl
    · simp at hl
    · exact h.mourned q k hk hzq hl
  · have hstay : k.listed = false → k.zombie = true ∧
        ∀ r kr, s.kin? r = some kr → q ∉ (g r kr).children := fun hlk => by
      obtain ⟨hzk, hnot⟩ := h.loose q k hk hlk
      exact ⟨hzk, fun r kr hkr hc => hnot r kr hkr (hlists hkr hc).2⟩
    obtain ⟨-, he⟩ | ⟨rfl, he⟩ | ⟨-, -, he⟩ := hg q k <;> rw [he] at hl ⊢
    · exact hstay hl
    · obtain rfl := Option.some.inj (hk.symm.trans hkc)
      exact ⟨hz, fun r kr hkr hc => (hlists hkr hc).1 rfl⟩
    · exact hstay hl

/-- Who still runs, or has children, is in the table, and alive. -/
theorem listed_of_living (h : s.Family) {k : Kin} (hk : s.kin? pid = some k)
    (hlive : k.running = true ∨ k.children ≠ []) : k.listed = true ∧ k.zombie = false := by
  have hz : k.zombie = false := by
    cases hz : k.zombie with
    | false => rfl
    | true =>
      obtain ⟨hc, hr⟩ := h.dead pid k hk hz
      simp [hc, hr] at hlive
  refine ⟨?_, hz⟩
  cases hl : k.listed with
  | true => rfl
  | false => simp [(h.loose pid k hk hl).1] at hz

/-- **A process ends**: its children have no parent any more, and those of them that
are dead leave the table, as it does itself if it has no parent. -/
theorem lay (h : s.Family) (hp : s.process? pid = some p) (ht : p.task ≠ none)
    (hlinked : (s.lay src pid p).Linked) : (s.lay src pid p).Family := by
  have hkp : s.kin? pid = some p.kin := kin?_of_process? hp
  obtain ⟨hlp, -⟩ := h.listed_of_living hkp (.inl (Option.isSome_iff_ne_none.2 ht))
  have hself : pid ∉ p.children := h.not_mem_self hkp
  obtain ⟨g, hkin, hg⟩ := kin?_lay_cases s src hself
  refine h.cut hkin hlinked (fun q k r => (hg q k).parent_eq) (fun q k => (hg q k).listed_eq)
    (fun q k r kr hk hl hpar hkr hcount => ?_) (fun q k hk hz => ?_) (fun q k hk hz hl => ?_)
    fun q k hk hl => ?_
  · -- a child of the dead names no parent any more
    have hr : r ≠ pid := by
      rintro rfl
      obtain rfl := Option.some.inj (hkr.symm.trans hkp)
      have hc : q ∈ p.children := List.count_pos_iff.1 (hcount ▸ Nat.one_pos)
      exact (hg q k).not_mem_of_parent (fun he => hself (he ▸ hc)) hpar hc
    rw [(hg r kr).children_eq hr]
    exact hcount
  · rcases (hg q k).of_zombie hz with hdead | ⟨hz, hc, hr⟩
    · exact hdead
    · rw [hc, hr]
      exact h.dead q k hk hz
  · have hb := hg q k
    generalize g q k = k' at hb hz hl ⊢
    cases hb with
    | dead hq =>
      obtain rfl := Option.some.inj (hk.symm.trans (hq ▸ hkp))
      exact Option.isSome_iff_ne_none.1 (Bool.and_eq_true_iff.1 hl).2
    | orphan => simp [Kin.orphaned, show k.zombie = true from hz] at hl
    | other => exact h.mourned q k hk hz hl
  · have hlists : ∀ {r kr}, q ∈ (g r kr).children → r ≠ pid ∧ q ∈ kr.children :=
      fun hc => ⟨(hg _ _).ne_of_mem hc, (hg _ _).sublist.subset hc⟩
    have hb := hg q k
    generalize g q k = k' at hb hl ⊢
    cases hb with
    | dead hq =>
      -- the dead without a parent was on no list
      obtain rfl := Option.some.inj (hk.symm.trans (hq ▸ hkp))
      have hpar : p.parent = none := by simpa [Kin.buried, hlp] using hl
      refine ⟨rfl, fun r kr hkr hmem => ?_⟩
      obtain ⟨k', hk', hpar'⟩ := h.linked r kr q hkr (hlists hmem).2
      obtain rfl := Option.some.inj (hk.symm.trans hk')
      simp [Process.kin, hpar] at hpar'
    | orphan _ hc =>
      -- its children were on its own list alone
      have hlk : k.listed = true := h.listed_of_mem hkp hc hk
      refine ⟨by simpa [Kin.orphaned, hlk] using hl, fun r kr hkr hmem => ?_⟩
      exact (hlists hmem).1 (h.owner_unique hkr (hlists hmem).2 hkp hc)
    | other =>
      obtain ⟨hz, hnot⟩ := h.loose q k hk hl
      exact ⟨hz, fun r kr hkr hmem => hnot r kr hkr (hlists hmem).2⟩

/-! ## The sweep -/

/-- **Nobody is the parent of a process of the table and forgotten.** -/
theorem drop (h : s.Family) (ho : s.Ordered) (hp : s.process? pid = some p)
    (hu : s.isReferenced pid p = false) : (s.drop pid).Family := by
  obtain ⟨hl, -, hnot⟩ := (isReferenced_eq_false ho).1 hu
  have hkp : s.kin? pid = some p.kin := kin?_of_process? hp
  have hchildren : p.kin.children = [] := (h.dead pid _ hkp (h.loose pid _ hkp hl).1).1
  -- nobody of the table names it as the parent
  have hparent : ∀ {q k}, s.kin? q = some k → k.listed = true → k.parent ≠ some pid := by
    intro q k hk hl hpar
    obtain ⟨kp, hkp', hcount⟩ := h.counted q k pid hk hl hpar
    obtain rfl := Option.some.inj (hkp'.symm.trans hkp)
    simp [hchildren] at hcount
  have hkeep : ∀ {q k}, q ≠ pid → s.kin? q = some k →
      (s.drop pid).kin? q = some (k.forgetting pid) :=
    fun {q k} hq hk => by rw [kin?_drop, if_neg hq, hk, Option.map_some]
  obtain ⟨rank, hrank⟩ := h.ranked
  refine ⟨h.linked.drop hnot, fun q k' r hk' hl hpar => ?_, fun q k' r hk' hpar => ?_,
    fun q k' hk' hz => ?_, fun q k' hk' hz hl => ?_, fun q k' hk' hl => ?_, rank,
    fun q k' r hk' hpar => ?_⟩
  all_goals obtain ⟨hq, k, hk, rfl⟩ := kin?_drop_eq_some.1 hk'
  · obtain ⟨hpar, hr⟩ := Kin.forgetting_parent_eq_some.1 hpar
    obtain ⟨kr, hkr, hcount⟩ := h.counted q k r hk (by simpa using hl) hpar
    exact ⟨_, hkeep hr hkr, by simpa using hcount⟩
  · obtain ⟨hpar, hr⟩ := Kin.forgetting_parent_eq_some.1 hpar
    obtain ⟨kr, hkr⟩ := h.known q k r hk hpar
    exact ⟨_, hkeep hr hkr⟩
  · simpa using h.dead q k hk (by simpa using hz)
  · have hl : k.listed = true := by simpa using hl
    rw [Kin.forgetting, if_neg (hparent hk hl)] at hz ⊢
    exact h.mourned q k hk hz hl
  · obtain ⟨hz, hnolist⟩ := h.loose q k hk (by simpa using hl)
    refine ⟨by simpa using hz, fun r kr' hkr' => ?_⟩
    obtain ⟨-, kr, hkr, rfl⟩ := kin?_drop_eq_some.1 hkr'
    simpa using hnolist r kr hkr
  · exact hrank q k r hk (Kin.forgetting_parent_eq_some.1 hpar).1

theorem sweep (h : s.Family) (ho : s.Ordered) : s.sweep.Family :=
  sweep_induct ho h fun _ _ _ ho h hp hu => h.drop ho hp hu

end Family

/-! ## All affairs -/

/-- **As long as only processes act on processes, every affair keeps the family
together.** -/
theorem Affair.family (h : Affair actor mortal false s s') (ho : s.Ordered) (hf : s.Family) :
    s'.Family := by
  have hlinked : s'.Linked := h.linked ho hf.linked
  cases h with
  | apart h => exact hf.congr (kin?_of_evolves h)
  | @root src pid pids name task hsrc ha ht =>
    exact hf.birth (Process.root pid name task).kin (kin?_of_alloc ho ha) rfl rfl rfl
      (fun q hq => by simp [Process.kin, Process.root] at hq) bears_root hlinked
  | @fork src parent pid pids p task hsrc ha hp ht hz =>
    have hfresh := kin?_of_alloc ho ha
    have hkp : s.kin? parent = some p.kin := kin?_of_process? hp
    have hne : parent ≠ pid := ne_of_kin? hfresh hkp
    have halive : p.kin.zombie = false := by
      cases hzp : p.kin.zombie with
      | false => rfl
      | true =>
        have htask : p.task = none := Option.isNone_iff_eq_none.1 (by
          simpa [Process.kin] using (hf.dead parent _ hkp hzp).2)
        exact absurd (hz htask hzp) (by simp)
    refine hf.birth (p.childOf parent task).kin hfresh rfl rfl rfl (fun q hq => ?_)
      (bears_beget hne) hlinked
    obtain rfl := Option.some.inj hq
    exact ⟨_, hkp, halive⟩
  | reaped hsrc ha hp hmem hc hz =>
    exact hf.reap (kin?_of_process? hp) hmem (kin?_of_process? hc) hz hlinked
  | ended hm hsrc ha hp ht => exact hf.lay hp ht hlinked
  | disowned hw | unlisted hw => simp at hw
  | swept => exact hf.sweep ho

theorem Affairs.family (h : Affairs actor mortal false s s') (ho : s.Ordered) (hf : s.Family) :
    s'.Ordered ∧ s'.Family := by
  induction h with
  | refl => exact ⟨ho, hf⟩
  | tail _ h ih => exact ⟨(h.evolves ih.1).ordered ih.1, h.family ih.1 ih.2⟩

/-! ## Who is in the table -/

/-- A process is in the table. -/
def Present (s : System) (pid : Pid) : Prop := ∃ k, s.kin? pid = some k ∧ k.listed = true

/-- **A sweep takes nobody out of the table.** -/
theorem Present.sweep (h : s.Present pid) (ho : s.Ordered) : s.sweep.Present pid :=
  sweep_induct (motive := (·.Present pid)) ho h fun s' gone p ho' h hp hu => by
    obtain ⟨k, hk, hl⟩ := h
    have hne : pid ≠ gone := by
      rintro rfl
      obtain rfl := Option.some.inj (hk.symm.trans (kin?_of_process? hp))
      simp [show p.listed = false from ((isReferenced_eq_false ho').1 hu).1, Process.kin] at hl
    exact ⟨_, by rw [kin?_drop, if_neg hne, hk]; rfl, by simpa using hl⟩

theorem Present.beget (h : s.Present q) (ho : s.Ordered) {parent child : Pid} {pids : IdPool}
    {task : Option Task} (ha : s.pids.alloc = (some child, pids))
    (hp : s.process? parent = some p) : (s.beget src parent child pids p task).Present q := by
  have hold : ∀ {r k}, s.kin? r = some k → r ≠ child := ne_of_kin? (kin?_of_alloc ho ha)
  obtain ⟨k, hk, hl⟩ := h
  refine ⟨_, by rw [kin?_beget (hold (kin?_of_process? hp)), if_neg (hold hk), hk]; rfl, ?_⟩
  split <;> exact hl

theorem Present.evolves (h : s.Present pid) (he : Evolves actor false false s s') :
    s'.Present pid := by
  obtain ⟨k, hk, hl⟩ := h
  exact ⟨k, (kin?_of_evolves he pid).trans hk, hl⟩

/-- **Natural affairs that nobody brings about in person take nobody out of the table.** -/
theorem Affair.present (h : Affair none mortal false s s') (ho : s.Ordered) (hp : s.Present pid) :
    s'.Present pid := by
  cases h with
  | apart h => exact hp.evolves h
  | root hsrc ha =>
    obtain ⟨k, hk, hl⟩ := hp
    exact ⟨k, by rw [kin?_bear, if_neg (ne_of_kin? (kin?_of_alloc ho ha) hk), hk], hl⟩
  | fork hsrc ha hparent => exact hp.beget ho ha hparent
  | reaped hsrc ha | ended hm hsrc ha => simp at ha
  | disowned hw | unlisted hw => simp at hw
  | swept => exact hp.sweep ho

theorem Affairs.present (h : Affairs none mortal false s s') (ho : s.Ordered)
    (hp : s.Present pid) : s'.Ordered ∧ s'.Present pid := by
  induction h with
  | refl => exact ⟨ho, hp⟩
  | tail _ h ih => exact ⟨(h.evolves ih.1).ordered ih.1, h.present ih.1 ih.2⟩

/-- A reaping takes nobody out of the table but the child. -/
theorem Present.reap {child : Pid} (h : s.Present q) (hne : q ≠ child) :
    (s.reap src pid child).Present q := by
  obtain ⟨k, hk, hl⟩ := h
  refine ⟨_, by rw [kin?_reap, hk]; rfl, ?_⟩
  dsimp only
  rw [if_neg hne]
  split <;> exact hl

/-- **Whom an end takes out of the table**: the dead among the children, and the process
itself if it has no parent. -/
theorem Present.lay (h : s.Present q) (hself : pid ∉ p.children)
    (hq : q = pid → p.parent ≠ none)
    (hc : ∀ k, s.kin? q = some k → q ∈ p.children → k.zombie = false) :
    (s.lay src pid p).Present q := by
  obtain ⟨k, hk, hl⟩ := h
  obtain ⟨g, hkin, hg⟩ := kin?_lay_cases s src hself
  refine ⟨g q k, by rw [hkin, hk]; rfl, ?_⟩
  have hb := hg q k
  generalize g q k = k' at hb ⊢
  cases hb with
  | dead he => simp [Kin.buried, hl, Option.isSome_iff_ne_none.2 (hq he)]
  | orphan _ hmem => simp [Kin.orphaned, hl, hc k hk hmem]
  | other => exact hl

/-! ## Who is known -/

/-- **Everybody who is known is in the table.** -/
def Tidy (s : System) : Prop := ∀ pid k, s.kin? pid = some k → k.listed = true

theorem Tidy.congr (h : s.Tidy) (hkin : ∀ q, s'.kin? q = s.kin? q) : s'.Tidy :=
  fun pid k hk => h pid k (hkin pid ▸ hk)

/-- **A sweep leaves nobody known who is not in the table**: he is dead and on no list. -/
theorem tidy_sweep (hf : s.Family) (ho : s.Ordered) : s.sweep.Tidy := by
  intro pid k hk
  have hfs : s.sweep.Family := hf.sweep ho
  have hos : s.sweep.Ordered :=
    (Affair.evolves (.swept : Affair none false false s _) ho).ordered ho
  obtain ⟨p, hp, rfl⟩ := kin?_eq_some.1 hk
  cases hl : p.kin.listed with
  | true => rfl
  | false =>
    obtain ⟨hz, hnot⟩ := hfs.loose pid p.kin hk hl
    have htask : p.task = none := by simpa [Process.kin] using (hfs.dead pid p.kin hk hz).2
    have hfalse : s.sweep.isReferenced pid p = false :=
      (isReferenced_eq_false hos).2 ⟨hl, htask, hnot⟩
    simp [isReferenced_of_sweep ho hp] at hfalse

theorem Tidy.bear (h : s.Tidy) {pids : IdPool} (hl : p.listed = true) :
    (s.bear src pid pids p).Tidy := by
  intro q k hk
  rcases kin?_bear_eq_some.1 hk with ⟨-, rfl⟩ | ⟨-, hk⟩
  · exact hl
  · exact h q k hk

theorem Tidy.beget (h : s.Tidy) {parent child : Pid} {pids : IdPool} {task : Option Task} :
    (s.beget src parent child pids p task).Tidy := by
  have hborn : (s.bear src child pids (p.childOf parent task)).Tidy := h.bear rfl
  intro q k hk
  rw [System.beget, kin?_update_children (· ++ [child])] at hk
  obtain ⟨k', hk', rfl⟩ := Option.map_eq_some_iff.1 hk
  split <;> exact hborn q k' hk'

/-- Natural affairs that nobody brings about in person leave nobody known who is not in
the table. -/
theorem Affairs.tidy (h : Affairs none mortal false s s') (ho : s.Ordered) (hf : s.Family)
    (ht : s.Tidy) : s'.Tidy := by
  induction h with
  | refl => exact ht
  | tail hs h ih =>
    obtain ⟨ho', hf'⟩ := Affairs.family hs ho hf
    cases h with
    | apart h => exact ih.congr (kin?_of_evolves h)
    | root => exact ih.bear rfl
    | fork => exact ih.beget
    | reaped hsrc ha | ended hm hsrc ha => simp at ha
    | disowned hw | unlisted hw => simp at hw
    | swept => exact tidy_sweep hf' ho'

end System

end PosixSignals
