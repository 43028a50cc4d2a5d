import PosixSignals.Proofs.System.Kinship

/-!
# Affairs

Whatever the system does is made of affairs: of changes that leave kin
alone, and of the few by which somebody's place changes. An affair is a
change of the system as any other, so what every single change keeps, every
affair keeps. The main result for later is that a name on a list of
children is always the name of a child.
-/

namespace PosixSignals

namespace System

variable {s s' : System} {actor : Option Pid} {mortal wild : Bool} {pid q : Pid} {src : Source}

/-! ## Births -/

/-- A child comes into being, and its parent lists it. -/
def beget (s : System) (src : Source) (parent pid : Pid) (pids : IdPool) (p : Process)
    (task : Option Task) : System :=
  (s.bear src pid pids (p.childOf parent task)).update parent
    fun p => { p with children := p.children ++ [pid] }

theorem note_update {e : Event} {g : Process → Process} :
    (s.update pid g).note src e = (s.note src e).update pid g := by
  have hsame : (s.note src e).process? pid = s.process? pid := rfl
  cases hp : s.process? pid with
  | none => rw [update, update, act_of_none hp, act_of_none (hsame.trans hp)]
  | some p =>
    rw [update, update, act_of_some hp, act_of_some (hsame.trans hp)]
    rfl

/-- A fork begets a child, if there is a number left. -/
theorem fork_cases (s : System) (src : Source) (pid : Pid) (p : Process) (task : Option Task) :
    s.fork src pid p task = (none, s) ∨ ∃ child pids, s.pids.alloc = (some child, pids) ∧
      s.fork src pid p task = (some child, s.beget src pid child pids p task) := by
  unfold fork
  split
  · exact .inl rfl
  · next child pids ha =>
    exact .inr ⟨child, pids, ha, congrArg (some child, ·) note_update⟩

theorem addRoot_cases (s : System) (src : Source) (name : String) (task : Option Task) :
    s.addRoot src name task = (none, s) ∨ ∃ pid pids, s.pids.alloc = (some pid, pids) ∧
      s.addRoot src name task = (some pid, s.bear src pid pids (.root pid name task)) := by
  unfold addRoot
  split
  · exact .inl rfl
  · next pid pids ha => exact .inr ⟨pid, pids, ha, rfl⟩

/-! ## Who is ready -/

/-- Who is ready is a child, and a zombie. -/
theorem ready?_eq_some {p : Process} {selector : Int} {child : Pid} {w : WaitStatus}
    (h : s.ready? p selector = .ok (some (child, w))) :
    child ∈ selected p selector ∧ ∃ c, s.process? child = some c ∧ c.status = .zombie w := by
  unfold ready? at h
  split at h
  · simp at h
  · next hsel =>
    obtain ⟨c, hmem, hc⟩ := List.exists_of_findSome?_eq_some (Except.ok.inj h)
    obtain ⟨w', hw, he⟩ := Option.map_eq_some_iff.1 hc
    obtain ⟨rfl, rfl⟩ := Prod.mk.inj he
    obtain ⟨k, hk, hst⟩ := Option.bind_eq_some_iff.1 hw
    refine ⟨hmem, k, hk, ?_⟩
    cases hs : k.status <;> simp [hs, Status.reapable?] at hst ⊢
    exact hst

/-- Where there is no child to wait for, that is the only complaint. -/
theorem error_of_ready? {p : Process} {selector : Int} {e : Errno}
    (h : s.ready? p selector = .error e) : e = .child := by
  unfold ready? at h
  split at h
  · exact (Except.error.inj h).symm
  · simp at h

theorem mem_of_mem_selected {p : Process} {selector : Int} {child : Pid}
    (h : child ∈ selected p selector) : child ∈ p.children :=
  (List.mem_filter.1 h).1

/-! ## Affairs -/

/-- **What the system does, as far as kin go.** A process that has died does not
fork, and no living parent loses a child but by reaping it, unless things go
wild, which only the outside can bring about. -/
inductive Affair (actor : Option Pid) (mortal wild : Bool) (s : System) : System → Prop
  | apart {s' : System} (h : Evolves actor false false s s') : Affair actor mortal wild s s'
  | root {src : Source} {pid : Pid} {pids : IdPool} {name : String} {task : Option Task}
      (hsrc : src.pid = actor) (ha : s.pids.alloc = (some pid, pids)) (ht : Waiting task) :
      Affair actor mortal wild s (s.bear src pid pids (.root pid name task))
  | fork {src : Source} {parent pid : Pid} {pids : IdPool} {p : Process} {task : Option Task}
      (hsrc : src.pid = actor) (ha : s.pids.alloc = (some pid, pids))
      (hp : s.process? parent = some p) (ht : Waiting task)
      (hz : p.task = none → p.status.isZombie = true → wild = true) :
      Affair actor mortal wild s (s.beget src parent pid pids p task)
  | reaped {src : Source} {pid child : Pid} {p c : Process} (hsrc : src.pid = some pid)
      (ha : actor = some pid) (hp : s.process? pid = some p) (hmem : child ∈ p.children)
      (hc : s.process? child = some c) (hz : c.status.isZombie = true) :
      Affair actor mortal wild s (s.reap src pid child)
  | ended {src : Source} {pid : Pid} {p : Process} (hm : mortal = true) (hsrc : src.pid = some pid)
      (ha : actor = some pid) (hp : s.process? pid = some p) (ht : p.task ≠ none) :
      Affair actor mortal wild s (s.lay src pid p)
  /-- The outside takes a zombie off its parent's list. -/
  | disowned {pid child : Pid} {c : Process} (hw : wild = true)
      (hc : s.process? child = some c) (hz : c.status.isZombie = true) :
      Affair actor mortal wild s (s.disown pid child)
  /-- The outside takes a process out of the table. -/
  | unlisted {pid : Pid} (hw : wild = true) : Affair actor mortal wild s (s.unlist pid)
  | swept : Affair actor mortal wild s s.sweep

/-- Any number of affairs. -/
abbrev Affairs (actor : Option Pid) (mortal wild : Bool) : System → System → Prop :=
  Relation.ReflTransGen (Affair actor mortal wild)

theorem Evolves.affairs (h : Evolves actor false false s s') : Affairs actor mortal wild s s' :=
  .single (.apart h)

/-! ## The sweep -/

/-- What nothing refers to is out of the table, has no context and is on no list. -/
theorem isReferenced_eq_false (ho : s.Ordered) {p : Process} :
    s.isReferenced pid p = false ↔ p.listed = false ∧ p.task = none ∧
      ∀ q k, s.kin? q = some k → pid ∉ k.children := by
  have hlists : s.processes.entries.any (·.2.children.contains pid) = false ↔
      ∀ q k, s.kin? q = some k → pid ∉ k.children := by
    rw [List.any_eq_false]
    constructor
    · intro h q k hk
      obtain ⟨c, hc, rfl⟩ := kin?_eq_some.1 hk
      simpa [Process.kin] using h (q, c) (Registry.mem_of_get? hc)
    · intro h e he
      have hc : s.process? e.1 = some e.2 := ho.ascending.get?_of_mem he
      simpa [Process.kin] using h e.1 _ (kin?_of_process? hc)
  unfold isReferenced
  rw [Bool.or_eq_false_iff, Bool.or_eq_false_iff, hlists, and_assoc]
  simp

/-- **What forgetting one unreferenced process keeps, a sweep keeps.** -/
theorem sweepFrom_induct {motive : System → Prop} (n : Nat) (ho : s.Ordered) (h : motive s)
    (hdrop : ∀ s pid p, System.Ordered s → motive s → s.process? pid = some p →
      s.isReferenced pid p = false → motive (s.drop pid)) : motive (sweepFrom n s) := by
  induction n generalizing s with
  | zero => exact h
  | succ n ih =>
    unfold sweepFrom
    split
    · exact h
    · next e he =>
      have hp : s.process? e.1 = some e.2 :=
        ho.ascending.get?_of_mem (List.mem_of_find?_eq_some he)
      have hu : s.isReferenced e.1 e.2 = false := by simpa using List.find?_some he
      exact ih ho.drop (hdrop s e.1 e.2 ho h hp hu)

theorem sweep_induct {motive : System → Prop} (ho : s.Ordered) (h : motive s)
    (hdrop : ∀ s pid p, System.Ordered s → motive s → s.process? pid = some p →
      s.isReferenced pid p = false → motive (s.drop pid)) : motive s.sweep :=
  sweepFrom_induct _ ho h hdrop

/-- To forget is nothing to tell of. -/
@[simp] theorem sweep_history (ho : s.Ordered) : s.sweep.history = s.history :=
  sweep_induct (motive := fun s' => s'.history = s.history) ho rfl fun _ _ _ _ h _ _ => h

/-- Forgetting a process makes the registry shorter. -/
theorem length_drop_lt {p : Process} (hp : s.process? pid = some p) :
    (s.drop pid).processes.entries.length < s.processes.entries.length := by
  have hmem : (pid, p) ∈ s.processes.entries := Registry.mem_of_get? hp
  have hlt : (s.processes.entries.filter (·.1 != pid)).length < s.processes.entries.length :=
    List.length_filter_lt_length_iff_exists.2 ⟨(pid, p), hmem, by simp⟩
  simpa [drop, Registry.map, Registry.erase] using hlt

/-- **After a sweep everybody is referred to.** -/
theorem isReferenced_of_sweepFrom {n : Nat} {p : Process} (ho : s.Ordered)
    (hn : s.processes.entries.length ≤ n) (hp : (sweepFrom n s).process? pid = some p) :
    (sweepFrom n s).isReferenced pid p = true := by
  induction n generalizing s with
  | zero =>
    have hnil : s.processes.entries = [] := List.eq_nil_of_length_eq_zero (by omega)
    have hmem := Registry.mem_of_get? (r := s.processes) hp
    simp [hnil] at hmem
  | succ n ih =>
    cases he : s.processes.entries.find? fun e => !s.isReferenced e.1 e.2 with
    | none =>
      have hstop : sweepFrom (n + 1) s = s := by simp only [sweepFrom, he]
      rw [hstop] at hp ⊢
      simpa using List.find?_eq_none.1 he _ (Registry.mem_of_get? hp)
    | some e =>
      have hgo : sweepFrom (n + 1) s = sweepFrom n (s.drop e.1) := by simp only [sweepFrom, he]
      have hlt := length_drop_lt (ho.ascending.get?_of_mem (List.mem_of_find?_eq_some he))
      rw [hgo] at hp ⊢
      exact ih ho.drop (by omega) hp

theorem isReferenced_of_sweep {p : Process} (ho : s.Ordered) (hp : s.sweep.process? pid = some p) :
    s.sweep.isReferenced pid p = true :=
  isReferenced_of_sweepFrom ho (Nat.le_refl _) hp

/-! ## Affairs are changes -/

theorem evolves_place {g : Process → Process} (hg : ∀ p, ∃ parent children listed,
    g p = { p with parent, children, listed }) : Evolves actor true mortal s (s.update pid g) :=
  evolves_update fun p => by
    obtain ⟨parent, children, listed, he⟩ := hg p
    exact he ▸ .placed rfl parent children listed

theorem evolves_sweep (ho : s.Ordered) : Evolves actor true mortal s s.sweep :=
  sweep_induct (motive := Evolves actor true mortal s) ho .refl fun _ _ _ _ h hp hu =>
    h.tail (.forget rfl fun _ hp' => Option.some.inj (hp.symm.trans hp') ▸ hu)

theorem evolves_orphans (children : List Pid) :
    Evolves actor true mortal s (children.foldl orphan s) := by
  induction children generalizing s with
  | nil => exact .refl
  | cons c children ih => exact (evolves_place fun _ => ⟨_, _, _, rfl⟩).trans ih

theorem evolves_tell (hsrc : src.pid = actor) (parent : Option Pid) :
    Evolves actor true mortal s (s.tell src pid parent) := by
  cases parent with
  | none => exact evolves_place fun _ => ⟨_, _, _, rfl⟩
  | some parent => exact (evolves_generate hsrc).trans (evolves_update fun _ => .noticeChild)

theorem evolves_lay {p : Process} (hsrc : src.pid = some pid) :
    Evolves (some pid) true true s (s.lay src pid p) := by
  have hentomb : ∀ s : System, Evolves (some pid) true true s (s.entomb src pid) :=
    fun s => evolves_act hsrc fun _ => .buried rfl rfl
  have htell : ∀ s : System, Evolves (some pid) true true s (s.tell src pid p.parent) :=
    fun s => evolves_tell hsrc p.parent
  rw [lay_eq]
  refine (evolves_orphans p.children).trans ((hentomb _).trans ((htell _).trans ?_))
  exact evolves_update fun _ => .released rfl rfl

/-- **An affair is made of changes.** -/
theorem Affair.evolves (h : Affair actor mortal wild s s') (ho : s.Ordered) :
    Evolves actor true mortal s s' := by
  cases h with
  | apart h => exact h.mono
  | root hsrc ha ht => exact .single (.root rfl hsrc ha ht)
  | fork hsrc ha hp ht =>
    exact .trans (.single (.child rfl hsrc ha hp ht)) (evolves_place fun _ => ⟨_, _, _, rfl⟩)
  | @reaped src pid child p c hsrc ha =>
    have hlists : Evolves actor true mortal s ((s.disown pid child).unlist child) :=
      .trans (evolves_place fun _ => ⟨_, _, _, rfl⟩) (evolves_place fun _ => ⟨_, _, _, rfl⟩)
    exact hlists.trans (evolves_note (hsrc.trans ha.symm) rfl)
  | ended hm hsrc ha => exact ha ▸ hm ▸ evolves_lay hsrc
  | disowned | unlisted => exact evolves_place fun _ => ⟨_, _, _, rfl⟩
  | swept => exact evolves_sweep ho

theorem Affairs.evolves (h : Affairs actor mortal wild s s') (ho : s.Ordered) :
    Evolves actor true mortal s s' := by
  induction h with
  | refl => exact .refl
  | tail _ h ih => exact ih.trans (h.evolves (ih.ordered ho))

/-! ## Steps that concern others -/

variable {p : Process}

/-- A fork begets a child and answers, or it only answers. -/
theorem forkCall_cases : Evolves (some pid) false false s (s.forkCall src pid p) ∨
    ∃ child pids r, s.pids.alloc = (some child, pids) ∧ offers? r = none ∧
      s.forkCall src pid p = (s.beget src pid child pids p (some {})).answer pid r := by
  unfold forkCall
  rcases s.fork_cases src pid p (some {}) with h | ⟨child, pids, ha, h⟩
  · rw [h]
    exact .inl (evolves_answer rfl)
  · rw [h]
    exact .inr ⟨child, pids, .ok (.number child), ha, rfl, rfl⟩

/-- A turn of a wait for children reaps one, or leaves kin alone. -/
theorem wait4_cases (hsrc : src.pid = some pid) (selector : Int) (noHang : Bool) :
    Evolves (some pid) false false s (s.wait4 src pid p selector noHang) ∨
      ∃ child c r, child ∈ p.children ∧ s.process? child = some c ∧ c.status.isZombie = true ∧
        offers? r = none ∧
        s.wait4 src pid p selector noHang = ((s.reap src pid child).answer pid r).sweep := by
  by_cases h : ∃ child w, s.ready? p selector = .ok (some (child, w))
  · obtain ⟨child, w, h⟩ := h
    obtain ⟨hmem, c, hc, hst⟩ := ready?_eq_some h
    exact .inr ⟨child, c, .ok (.child child w), mem_of_mem_selected hmem, hc, by rw [hst]; rfl,
      rfl, by rw [wait4, h]; rfl⟩
  · exact .inl (evolves_wait4 hsrc fun child w he => h ⟨child, w, he⟩)

/-- The end of a process, once it is marked. -/
theorem finish_eq (t : Task) (e : Ending) (hp : (s.conclude src pid e).process? pid = some p) :
    s.finish src pid t e =
      (if t.root then ((s.conclude src pid e).lay src pid p).note src
          (.rootEnded p.status.waitStatus)
        else (s.conclude src pid e).lay src pid p).sweep := by
  simp only [finish, hp]
  rfl

/-- The end of a process: it is marked, it is buried, and everybody is swept who is
not referred to any more. -/
theorem finish_parts (hsrc : src.pid = some pid) (hp : s.process? pid = some p) (t : Task)
    (e : Ending) : ∃ u q v, Evolves (some pid) false false s u ∧ u.process? pid = some q ∧
      q.kin = p.kin ∧ Evolves (some pid) false false (u.lay src pid q) v ∧
        s.finish src pid t e = v.sweep := by
  have hconclude : Evolves (some pid) false false s (s.conclude src pid e) :=
    evolves_conclude hsrc e
  -- marking the end leaves the process where it is, with its context
  obtain ⟨q, hq, hkin⟩ := kin?_eq_some.1
    ((kin?_of_evolves hconclude pid).trans (kin?_of_process? hp))
  rw [finish_eq t e hq]
  split
  · exact ⟨_, q, _, hconclude, hq, hkin, evolves_note hsrc rfl, rfl⟩
  · exact ⟨_, q, _, hconclude, hq, hkin, .refl, rfl⟩

/-! ## What becomes of every place -/

/-- The parent of a newborn gets another child, nobody else is touched. -/
theorem process?_beget {parent child : Pid} {pids : IdPool} {task : Option Task}
    (hne : parent ≠ child) : (s.beget src parent child pids p task).process? q =
      if q = child then some (p.childOf parent task)
      else (s.process? q).map fun a =>
        if q = parent then { a with children := a.children ++ [child] } else a := by
  rw [beget, process?_update, process?_bear]
  by_cases hq : q = child
  · subst hq
    simp [Ne.symm hne]
  · simp [hq]

theorem kin?_beget {parent child : Pid} {pids : IdPool} {task : Option Task}
    (hne : parent ≠ child) : (s.beget src parent child pids p task).kin? q =
      if q = child then some (p.childOf parent task).kin
      else (s.kin? q).map fun k =>
        if q = parent then { k with children := k.children ++ [child] } else k := by
  rw [kin?, process?_beget hne]
  split
  · rfl
  · rw [kin?, Option.map_map, Option.map_map]
    congr 1
    funext a
    dsimp only [Function.comp_def]
    split <;> rfl

theorem kin?_disown {child : Pid} : (s.disown pid child).kin? q = (s.kin? q).map fun k =>
    if q = pid then { k with children := k.children.erase child } else k :=
  kin?_act_of fun _ => rfl

theorem kin?_reap {child : Pid} : (s.reap src pid child).kin? q = (s.kin? q).map fun k =>
    let k := if q = pid then { k with children := k.children.erase child } else k
    if q = child then { k with listed := false } else k := by
  have hnote : (s.reap src pid child).kin? q = ((s.disown pid child).unlist child).kin? q := rfl
  rw [hnote, kin?_unlist, kin?_disown, Option.map_map]
  rfl

/-- A reaping makes three kinds of places: the one of the parent, that of the child, and
those of all others, which stay. -/
theorem kin?_reap_cases (s : System) (src : Source) {child : Pid} (hne : pid ≠ child) :
    ∃ g : Pid → Kin → Kin, (∀ q, (s.reap src pid child).kin? q = (s.kin? q).map (g q)) ∧
      ∀ q k, q = pid ∧ g q k = { k with children := k.children.erase child } ∨
        q = child ∧ g q k = { k with listed := false } ∨
        q ≠ pid ∧ q ≠ child ∧ g q k = k := by
  refine ⟨_, fun _ => kin?_reap, fun q k => ?_⟩
  by_cases hq : q = pid
  · exact .inl ⟨hq, by simp [hq, hne]⟩
  · by_cases hc : q = child <;> simp [hq, hc, Ne.symm hne]

/-- Whoever is known is not the newborn. -/
theorem ne_of_kin? {k : Kin} (hfresh : s.kin? pid = none) (hk : s.kin? q = some k) : q ≠ pid := by
  rintro rfl
  simp [hfresh] at hk

/-! ## Children are known -/

/-- **Every name on a list of children is that of a child.** -/
def Linked (s : System) : Prop :=
  ∀ parent k c, s.kin? parent = some k → c ∈ k.children →
    ∃ k', s.kin? c = some k' ∧ k'.parent = some parent

theorem linked_initial : initial.Linked := fun _ _ _ h => by
  simp [kin?, initial, process?, Registry.get?] at h

/-- Lists that only become shorter, with parents that change for nobody on them. -/
theorem Linked.map (hl : s.Linked) {g : Pid → Kin → Kin}
    (hg : ∀ q, s'.kin? q = (s.kin? q).map (g q))
    (hsub : ∀ q k, (g q k).children ⊆ k.children)
    (hpar : ∀ parent k c kc, s.kin? parent = some k → c ∈ (g parent k).children →
      s.kin? c = some kc → kc.parent = some parent → (g c kc).parent = some parent) :
    s'.Linked := by
  intro parent k' c hk' hc
  obtain ⟨k, hk, rfl⟩ := Option.map_eq_some_iff.1 ((hg parent).symm.trans hk')
  obtain ⟨kc, hkc, hp⟩ := hl parent k c hk (hsub parent k hc)
  exact ⟨g c kc, by rw [hg, hkc]; rfl, hpar parent k c kc hk hc hkc hp⟩

theorem Linked.bear (hl : s.Linked) {pids : IdPool} {p : Process} (hfresh : s.kin? pid = none)
    (hp : p.children = []) : (s.bear src pid pids p).Linked := by
  intro parent k c hk hc
  rcases kin?_bear_eq_some.1 hk with ⟨-, rfl⟩ | ⟨-, hk⟩
  · simp [Process.kin, hp] at hc
  · obtain ⟨kc, hkc, hpar⟩ := hl parent k c hk hc
    refine ⟨kc, ?_, hpar⟩
    rw [kin?_bear, if_neg (ne_of_kin? hfresh hkc), hkc]

/-- A newborn is not yet known. -/
theorem kin?_of_alloc (ho : s.Ordered) {pids : IdPool} (ha : s.pids.alloc = (some pid, pids)) :
    s.kin? pid = none := by
  rw [kin?, ho.fresh ha]
  rfl

theorem Linked.beget (hl : s.Linked) {parent child : Pid} {pids : IdPool} {p : Process}
    {task : Option Task} (hfresh : s.kin? child = none) (hp : s.process? parent = some p) :
    (s.beget src parent child pids p task).Linked := by
  have hne : parent ≠ child := ne_of_kin? hfresh (kin?_of_process? hp)
  intro parent' k' c hk' hc
  rw [kin?_beget hne] at hk' ⊢
  split at hk'
  · obtain rfl := Option.some.inj hk'
    simp [Process.kin, Process.childOf] at hc
  obtain ⟨k, hk, rfl⟩ := Option.map_eq_some_iff.1 hk'
  by_cases hcc : c = child
  · -- only the parent has the newborn on its list
    subst hcc
    rw [if_pos rfl]
    refine ⟨_, rfl, ?_⟩
    split at hc
    · next he => rw [he]; rfl
    · obtain ⟨kc, hkc, -⟩ := hl parent' k c hk hc
      exact absurd rfl (ne_of_kin? hfresh hkc)
  · have hold : c ∈ k.children := by
      split at hc
      · simpa [hcc] using hc
      · exact hc
    obtain ⟨kc, hkc, hpar⟩ := hl parent' k c hk hold
    rw [if_neg hcc, hkc]
    refine ⟨_, rfl, ?_⟩
    split <;> exact hpar

/-- Whoever is on a list is not forgotten. -/
theorem Linked.drop (hl : s.Linked) (hu : ∀ q k, s.kin? q = some k → pid ∉ k.children) :
    (s.drop pid).Linked := by
  intro parent k' c hk' hc
  obtain ⟨hne, k, hk, rfl⟩ := kin?_drop_eq_some.1 hk'
  have hmem : c ∈ k.children := by simpa using hc
  obtain ⟨kc, hkc, hpar⟩ := hl parent k c hk hmem
  refine ⟨kc, ?_, hpar⟩
  have hc : c ≠ pid := fun he => hu parent k hk (he ▸ hmem)
  have hkeep : kc.forgetting pid = kc := by
    unfold Kin.forgetting
    rw [if_neg]
    rw [hpar]
    exact fun he => hne (Option.some.inj he)
  rw [kin?_drop, if_neg hc, hkc, Option.map_some, hkeep]

theorem Linked.sweep (hl : s.Linked) (ho : s.Ordered) : s.sweep.Linked :=
  sweep_induct ho hl fun _ _ _ ho h _ hu => h.drop ((isReferenced_eq_false ho).1 hu).2.2

theorem Affair.linked (h : Affair actor mortal wild s s') (ho : s.Ordered) (hl : s.Linked) :
    s'.Linked := by
  cases h with
  | apart h =>
    refine hl.map (g := fun _ k => k) (fun q => ?_) (fun _ _ _ h => h) fun _ _ _ _ _ _ _ h => h
    rw [kin?_of_evolves h, Option.map_id']
  | root _ ha => exact hl.bear (kin?_of_alloc ho ha) rfl
  | fork _ ha hp => exact hl.beget (kin?_of_alloc ho ha) hp
  | reaped =>
    refine hl.map (fun _ => kin?_reap) (fun q k => ?_) fun _ _ _ _ _ _ _ hp => ?_
    · dsimp only
      split <;> split <;> first | exact List.erase_subset | exact fun _ h => h
    · dsimp only
      split <;> split <;> exact hp
  | @ended src pid p hm hsrc ha hp =>
    refine hl.map (fun _ => kin?_lay p) (fun q k => ?_) fun parent k c kc hk hc hkc hpar => ?_
    · dsimp only
      split <;> split <;> first | exact List.nil_subset _ | exact fun _ h => h
    · have hparent : parent ≠ pid := by
        rintro rfl
        simp [Kin.buried] at hc
      -- the children of the dead are on no other list
      have hmem : c ∉ p.children := fun hmem => by
        obtain ⟨kc', hkc', hpar'⟩ := hl pid _ c (kin?_of_process? hp) hmem
        obtain rfl := Option.some.inj (hkc.symm.trans hkc')
        exact hparent (Option.some.inj (hpar.symm.trans hpar'))
      simp only [hmem, if_false]
      split <;> exact hpar
  | disowned =>
    refine hl.map (fun _ => kin?_disown) (fun q k => ?_) fun _ _ _ _ _ _ _ hp => ?_
    · split
      · exact List.erase_subset
      · exact fun _ h => h
    · split <;> exact hp
  | unlisted =>
    refine hl.map (fun _ => kin?_unlist) (fun q k => ?_) fun _ _ _ _ _ _ _ hp => ?_
    · split <;> exact fun _ h => h
    · split <;> exact hp
  | swept => exact hl.sweep ho

theorem Affairs.linked (h : Affairs actor mortal wild s s') (ho : s.Ordered) (hl : s.Linked) :
    s'.Ordered ∧ s'.Linked := by
  induction h with
  | refl => exact ⟨ho, hl⟩
  | tail _ h ih => exact ⟨(h.evolves ih.1).ordered ih.1, h.linked ih.1 ih.2⟩

end System

end PosixSignals
