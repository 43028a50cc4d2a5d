import PosixSignals.Proofs.System.Family
import PosixSignals.Proofs.System.Lineage

/-!
# Seniority

When a process was born is read off the history. A child is younger than its
parent, and the children on a list stand in the order of their births: a
newborn is put at the end, and what else happens to a list makes it shorter.
-/

namespace PosixSignals

/-- How much was on record when a number was last handed out, with that record; zero if it
never was. -/
def bornAt (pid : Pid) : List Record → Nat
  | [] => 0
  | r :: earlier => if r.creates pid then earlier.length + 1 else bornAt pid earlier

variable {pid q : Pid} {src : Source} {parent : Option Pid} {history new : List Record}

/-- Nobody is younger than the history is long. -/
theorem bornAt_le : bornAt pid history ≤ history.length := by
  induction history with
  | nil => exact Nat.le_refl 0
  | cons r earlier ih =>
    unfold bornAt
    split
    · exact Nat.le_refl _
    · exact Nat.le_succ_of_le ih

/-- What is no birth leaves everybody's age. -/
theorem bornAt_append (h : ∀ r ∈ new, r.event.isBirth = false) :
    bornAt pid (new ++ history) = bornAt pid history := by
  induction new with
  | nil => rfl
  | cons r new ih =>
    obtain ⟨hr, hnew⟩ := List.forall_mem_cons.1 h
    rw [List.cons_append, bornAt, creates_of_not_isBirth hr]
    exact ih hnew

/-- Whoever is born is younger than all that is on record. -/
theorem bornAt_created : bornAt q (⟨src, .created pid parent⟩ :: history) =
    if pid = q then history.length + 1 else bornAt q history := by
  simp [bornAt, Record.creates]

namespace System

variable {s s' : System} {actor : Option Pid} {mortal wild : Bool} {p : Process} {c c' : Pid}

/-- When a process was born. -/
def birth (s : System) (pid : Pid) : Nat := bornAt pid s.history

/-- Nobody becomes younger by ageing. -/
theorem Aged.birth_eq (h : Aged s s') (q : Pid) : s'.birth q = s.birth q := by
  obtain ⟨new, hs, hnew⟩ := h.history
  rw [birth, birth, hs, bornAt_append hnew]

/-- The newborn is the youngest. -/
theorem birth_bear {pids : IdPool} : (s.bear src pid pids p).birth q =
    if pid = q then s.history.length + 1 else s.birth q :=
  bornAt_created

/-- **Parents and siblings by their births.** -/
structure Seniority (s : System) : Prop where
  /-- On a list the older come first. -/
  siblings : ∀ pid k, s.kin? pid = some k →
    k.children.Pairwise fun c c' => s.birth c < s.birth c'
  /-- A parent is known, and older than its child. -/
  parent : ∀ pid k q, s.kin? pid = some k → k.parent = some q →
    (∃ kq, s.kin? q = some kq) ∧ s.birth q < s.birth pid

/-- At first there is nobody. -/
theorem seniority_initial : initial.Seniority where
  siblings pid k h := by simp [kin?_initial] at h
  parent pid k q h := by simp [kin?_initial] at h

namespace Seniority

/-- Lists that only become shorter, and parents that are only lost, keep the order. -/
theorem aged (h : s.Seniority) (ha : Aged s s')
    (hkin : ∀ q k', s'.kin? q = some k' → ∃ k, s.kin? q = some k ∧
      k'.children.Sublist k.children ∧
      ∀ r, k'.parent = some r → k.parent = some r ∧ ∃ kr, s'.kin? r = some kr) :
    s'.Seniority where
  siblings q k' hk' := by
    obtain ⟨k, hk, hsub, -⟩ := hkin q k' hk'
    simpa only [ha.birth_eq] using (h.siblings q k hk).sublist hsub
  parent q k' r hk' hp := by
    obtain ⟨k, hk, -, hpar⟩ := hkin q k' hk'
    obtain ⟨hp, hr⟩ := hpar r hp
    rw [ha.birth_eq, ha.birth_eq]
    exact ⟨hr, (h.parent q k r hk hp).2⟩

/-- So do changes that are a function of the place. -/
theorem map (h : s.Seniority) (ha : Aged s s') {g : Pid → Kin → Kin}
    (hkin : ∀ q, s'.kin? q = (s.kin? q).map (g q))
    (hsub : ∀ q k, (g q k).children.Sublist k.children)
    (hparent : ∀ q k r, (g q k).parent = some r → k.parent = some r) : s'.Seniority := by
  refine h.aged ha fun q k' hk' => ?_
  obtain ⟨k, hk, rfl⟩ := Option.map_eq_some_iff.1 ((hkin q).symm.trans hk')
  refine ⟨k, hk, hsub q k, fun r hp => ?_⟩
  have hp := hparent q k r hp
  obtain ⟨⟨kr, hkr⟩, -⟩ := h.parent q k r hk hp
  exact ⟨hp, g r kr, by rw [hkin, hkr]; rfl⟩

/-- And so do changes that leave all places. -/
theorem congr (h : s.Seniority) (ha : Aged s s') (hkin : ∀ q, s'.kin? q = s.kin? q) :
    s'.Seniority :=
  h.map ha (g := fun _ k => k) (fun q => by rw [hkin, Option.map_id']) (fun _ _ => .refl _)
    fun _ _ _ h => h

/-- **A birth**: the newborn is younger than everybody, and stands behind its siblings. -/
theorem birth (h : s.Seniority) (hl : s.Linked) {k₀ : Kin} (hfresh : s.kin? pid = none)
    (hc₀ : k₀.children = []) (hparent : ∀ q, k₀.parent = some q → ∃ kq, s.kin? q = some kq)
    (hbears : s.Bears pid k₀ s')
    (hbirth : ∀ q, s'.birth q = if pid = q then s.history.length + 1 else s.birth q) :
    s'.Seniority := by
  have hne : ∀ {q k}, s.kin? q = some k → q ≠ pid := ne_of_kin? hfresh
  have hold : ∀ {q}, q ≠ pid → s'.birth q = s.birth q := fun hq => by
    rw [hbirth, if_neg (Ne.symm hq)]
  have hnew : s'.birth pid = s.history.length + 1 := by rw [hbirth, if_pos rfl]
  have hyounger : ∀ {q}, q ≠ pid → s'.birth q < s'.birth pid := fun hq => by
    rw [hold hq, hnew]
    exact Nat.lt_succ_of_le bornAt_le
  refine ⟨fun q k' hk' => ?_, fun q k' r hk' hp => ?_⟩
  · obtain ⟨rfl, rfl⟩ | ⟨k, hk, rfl⟩ := hbears.cases hk'
    · simp [hc₀]
    · have hlist : ∀ c ∈ k.children, c ≠ pid := by
        rintro c hc rfl
        exact hl.not_mem_of_fresh hfresh hk hc
      have hkeep : k.children.Pairwise fun c c' => s'.birth c < s'.birth c' :=
        (h.siblings q k hk).imp_of_mem fun hc hc' hlt => by
          rwa [hold (hlist _ hc), hold (hlist _ hc')]
      unfold Kin.bearing
      split
      · refine List.pairwise_append.2 ⟨hkeep, List.pairwise_singleton _ _, ?_⟩
        exact fun c hc c' hc' => List.mem_singleton.1 hc' ▸ hyounger (hlist c hc)
      · exact hkeep
  · obtain ⟨rfl, rfl⟩ | ⟨k, hk, rfl⟩ := hbears.cases hk'
    · obtain ⟨kr, hkr⟩ := hparent r hp
      exact ⟨⟨_, hbears.keep hfresh hkr⟩, hyounger (hne hkr)⟩
    · obtain ⟨⟨kr, hkr⟩, hlt⟩ := h.parent q k r hk (by simpa using hp)
      refine ⟨⟨_, hbears.keep hfresh hkr⟩, ?_⟩
      rwa [hold (hne hkr), hold (hne hk)]

/-- Whoever is forgotten is on no list to be kept in order, and nobody's parent. -/
theorem drop (h : s.Seniority) : (s.drop pid).Seniority := by
  refine h.aged aged_drop fun q k' hk' => ?_
  obtain ⟨-, k, hk, rfl⟩ := kin?_drop_eq_some.1 hk'
  refine ⟨k, hk, by simp, fun r hp => ?_⟩
  obtain ⟨hp, hr⟩ := Kin.forgetting_parent_eq_some.1 hp
  obtain ⟨⟨kr, hkr⟩, -⟩ := h.parent q k r hk hp
  exact ⟨hp, _, kin?_drop_eq_some.2 ⟨hr, kr, hkr, rfl⟩⟩

/-- A sweep keeps the order, since it only forgets. -/
theorem sweep (h : s.Seniority) (ho : s.Ordered) : s.sweep.Seniority :=
  sweep_induct ho h fun _ _ _ _ h _ _ => h.drop

end Seniority

/-- **Every affair keeps the order of births.** -/
theorem Affair.seniority (h : Affair actor mortal wild s s') (ho : s.Ordered) (hl : s.Linked)
    (hs : s.Seniority) : s'.Seniority := by
  cases h with
  | apart h => exact hs.congr h.aged (kin?_of_evolves h)
  | root _ ha =>
    exact hs.birth hl (kin?_of_alloc ho ha) rfl (fun q hq => by cases hq) bears_root
      fun _ => birth_bear
  | @fork src parent child pids p task _ ha hp =>
    have hfresh := kin?_of_alloc ho ha
    have hkp : s.kin? parent = some p.kin := kin?_of_process? hp
    refine hs.birth hl hfresh rfl (fun q hq => ?_) (bears_beget (ne_of_kin? hfresh hkp)) fun q => ?_
    · obtain rfl := Option.some.inj hq
      exact ⟨_, hkp⟩
    · have haged : Aged (s.bear src child pids (p.childOf parent task))
          (s.beget src parent child pids p task) := aged_update fun _ => rfl
      rw [haged.birth_eq, birth_bear]
  | @reaped src pid child _ _ _ _ _ _ =>
    refine hs.map aged_reap (fun _ => kin?_reap) (fun q k => ?_) fun q k r hp => ?_
    · dsimp only
      split <;> split <;> first | exact List.erase_sublist | exact .refl _
    · dsimp only at hp
      split at hp <;> split at hp <;> exact hp
  | @ended src pid p =>
    refine hs.map aged_lay (fun _ => kin?_lay p) (fun q k => ?_) fun q k r hp => ?_
    · dsimp only
      split <;> split <;> first | exact List.nil_sublist _ | exact .refl _
    · dsimp only at hp
      split at hp <;> split at hp <;> first | exact hp | cases hp
  | disowned =>
    refine hs.map aged_disown (fun _ => kin?_disown) (fun q k => ?_) fun q k r hp => ?_
    · split
      · exact List.erase_sublist
      · exact .refl _
    · split at hp <;> exact hp
  | unlisted =>
    refine hs.map aged_unlist (fun _ => kin?_unlist) (fun q k => ?_) fun q k r hp => ?_
    · split <;> exact .refl _
    · split at hp <;> exact hp
  | swept => exact hs.sweep ho

/-- **The older come first, throughout.** -/
theorem Affairs.seniority (h : Affairs actor mortal wild s s') (ho : s.Ordered) (hl : s.Linked)
    (hs : s.Seniority) : s'.Seniority := by
  induction h with
  | refl => exact hs
  | tail h h' ih =>
    obtain ⟨ho', hl'⟩ := Affairs.linked h ho hl
    exact h'.seniority ho' hl' ih

end System

end PosixSignals
