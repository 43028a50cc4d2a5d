import PosixSignals.Proofs.Process.Vigilance
import PosixSignals.Proofs.Scenario.Course

/-!
# No lost wake-up

A process that blocks is woken by whatever could end its wait. The
invariant is about every listener of every process: as long as the process
has not been notified since the listener was registered, what it waits for
has not come. For signals that is a matter of the process alone; for
children it is one of kin, since a child that dies is found by its parent
only if the child's name is on the list and the child names its parent.
Where nobody can go on, nobody has been notified, and so nobody waits for
something that is there.
-/

namespace PosixSignals

namespace System

variable {s s' : System} {actor : Option Pid} {mortal wild : Bool} {pid : Pid} {p q : Process}
  {src : Source} {x : Context} {selector : Int}

/-! ## What is heard -/

theorem grows_of_deed {kin : Bool} {r : Process × List Event}
    (h : Deed actor kin mortal pid p r) : p.NoticesGrow r.1 := by
  have hsame : p.NoticesGrow p := .refl p
  cases h with
  | generate info => exact (Process.announced_generate info).toNoticesGrow
  | exit w => exact Process.shift_exit.announced.toNoticesGrow
  | stop sig => exact Process.shift_stop.announced.toNoticesGrow
  | resume => exact Process.shift_resume.announced.toNoticesGrow
  | noticeChild => exact p.announced_noticeChild.toNoticesGrow
  | limits | placed | buried | released => exact ⟨hsame.signals, hsame.children⟩
  | mild _ h => exact Process.observed_grows.mild h

/-- **Nobody does anything to another process unheard.** -/
theorem announced_of_deed {kin : Bool} {r : Process × List Event}
    (h : Deed actor kin mortal pid p r) (hne : actor ≠ some pid) : p.Announced r.1 := by
  cases h with
  | generate info => exact Process.announced_generate info
  | exit w => exact Process.shift_exit.announced
  | stop sig => exact Process.shift_stop.announced
  | resume => exact Process.shift_resume.announced
  | noticeChild => exact p.announced_noticeChild
  | limits | placed => exact Process.announced_of_eq rfl rfl rfl rfl rfl rfl
  | mild ha | buried _ ha | released _ ha => exact absurd ha hne

/-- What others do to a process with a context, they do within its hearing. -/
theorem Evolves.announced {kin : Bool} (h : Evolves actor kin mortal s s') (ho : s.Ordered)
    (hne : actor ≠ some pid) (hp : s.process? pid = some p) (ht : p.task ≠ none) :
    ∃ q, s'.process? pid = some q ∧ q.task ≠ none ∧ p.Announced q :=
  h.kept (R := Process.Announced) .refl (fun _ _ _ => .trans)
    (fun _ => Process.announced_of_eq rfl rfl rfl rfl rfl rfl)
    (fun _ _ hd => announced_of_deed hd hne) ho (fun _ => hne) hp ht

/-! ## Waiting for children -/

/-- A process is there, and is no zombie. -/
def Lives (s : System) (pid : Pid) : Prop :=
  ∃ p, s.process? pid = some p ∧ p.status.isZombie = false

/-- **A wait for children goes on**: a child is selected, and none that is selected
has died. -/
def Expects (s : System) (p : Process) (selector : Int) : Prop :=
  selected p selector ≠ [] ∧ ∀ c ∈ selected p selector, s.Lives c

theorem lives_iff : s.Lives pid ↔ ∃ k, s.kin? pid = some k ∧ k.zombie = false := by
  constructor
  · rintro ⟨p, hp, hz⟩
    exact ⟨p.kin, kin?_of_process? hp, hz⟩
  · rintro ⟨k, hk, hz⟩
    obtain ⟨p, hp, rfl⟩ := kin?_eq_some.1 hk
    exact ⟨p, hp, hz⟩

/-- The living children stay, and those that come are alive. -/
theorem Expects.of_children (h : s.Expects p selector)
    (hkeep : ∀ c ∈ p.children, s.Lives c → c ∈ q.children)
    (hlive : ∀ c ∈ q.children, (c ∈ p.children ∧ (s.Lives c → s'.Lives c)) ∨ s'.Lives c) :
    s'.Expects q selector := by
  obtain ⟨hne, hall⟩ := h
  refine ⟨?_, fun c hc => ?_⟩
  · obtain ⟨c, hc⟩ := List.exists_mem_of_ne_nil _ hne
    obtain ⟨hmem, hsel⟩ := List.mem_filter.1 hc
    exact List.ne_nil_of_mem (List.mem_filter.2 ⟨hkeep c hmem (hall c hc), hsel⟩)
  · obtain ⟨hmem, hsel⟩ := List.mem_filter.1 hc
    rcases hlive c hmem with ⟨hold, h⟩ | h
    · exact h (hall c (List.mem_filter.2 ⟨hold, hsel⟩))
    · exact h

/-- Nobody's place has changed in any way that matters to a wait. -/
theorem Expects.of_kin {g : Pid → Kin → Kin} (h : s.Expects p selector)
    (hp : s.process? pid = some p) (hq : s'.process? pid = some q)
    (hg : ∀ c k, s.kin? c = some k → c = pid ∨ c ∈ p.children → s'.kin? c = some (g c k))
    (hchildren : (g pid p.kin).children = p.children)
    (hz : ∀ c ∈ p.children, ∀ k, (g c k).zombie = k.zombie) : s'.Expects q selector := by
  have hkin : q.kin = g pid p.kin := by
    have := hg pid _ (kin?_of_process? hp) (.inl rfl)
    exact Option.some.inj ((kin?_of_process? hq).symm.trans this)
  have hsame : q.children = p.children := (congrArg Kin.children hkin).trans hchildren
  refine h.of_children (fun c hc _ => hsame ▸ hc) fun c hc => .inl ⟨hsame ▸ hc, fun hlive => ?_⟩
  obtain ⟨k, hk, hzk⟩ := lives_iff.1 hlive
  have hc : c ∈ p.children := hsame ▸ hc
  exact lives_iff.2 ⟨_, hg c k hk (.inr hc), (hz c hc k).trans hzk⟩

/-- A sweep forgets neither a process with a context nor a child of it. -/
theorem Expects.sweep (h : s.Expects p selector) (ho : s.Ordered) (hp : s.process? pid = some p)
    (ht : p.task ≠ none) (hq : s.sweep.process? pid = some q) : s.sweep.Expects q selector := by
  obtain ⟨⟨kp, hkp, hchildren, -⟩, hlives⟩ :
      (∃ k, s.sweep.kin? pid = some k ∧ k.children = p.children ∧ k.running = true) ∧
        ∀ c ∈ p.children, s.Lives c → s.sweep.Lives c := by
    refine sweep_induct (motive := fun s' =>
      (∃ k, s'.kin? pid = some k ∧ k.children = p.children ∧ k.running = true) ∧
        ∀ c ∈ p.children, s.Lives c → s'.Lives c) ho ?_ fun s' gone pg ho' hs' hpg hu => ?_
    · exact ⟨⟨p.kin, kin?_of_process? hp, rfl, Option.isSome_iff_ne_none.2 ht⟩, fun _ _ h => h⟩
    · obtain ⟨⟨k, hk, hkc, hrun⟩, hlives⟩ := hs'
      obtain ⟨-, htask, hnot⟩ := (isReferenced_eq_false ho').1 hu
      have hne : pid ≠ gone := by
        rintro rfl
        obtain rfl := Option.some.inj ((kin?_of_process? hpg).symm.trans hk)
        simp [Process.kin, htask] at hrun
      refine ⟨⟨k.forgetting gone, by rw [kin?_drop, if_neg hne, hk]; rfl, by simpa using hkc,
        by simpa using hrun⟩, fun c hc hlive => ?_⟩
      have hcne : c ≠ gone := by
        rintro rfl
        exact hnot pid k hk (hkc ▸ hc)
      obtain ⟨kc, hkc', hz⟩ := lives_iff.1 (hlives c hc hlive)
      exact lives_iff.2 ⟨_, by rw [kin?_drop, if_neg hcne, hkc']; rfl, by simpa using hz⟩
  obtain rfl := Option.some.inj ((kin?_of_process? hq).symm.trans hkp)
  have hsame : q.children = p.children := hchildren
  exact h.of_children (fun c hc _ => hsame ▸ hc) fun c hc =>
    .inl ⟨hsame ▸ hc, hlives c (hsame ▸ hc)⟩

/-- **A parent is told when a child dies.** -/
theorem childNotices_lt_of_lay {parent : Pid} {c : Process} (ho : s.Ordered)
    (hsrc : src.pid = some pid) (hpar : p.parent = some parent) (hne : parent ≠ pid)
    (hp : s.process? parent = some c) (ht : c.task ≠ none) :
    ∃ c', (s.lay src pid p).process? parent = some c' ∧ c.childNotices < c'.childNotices := by
  have hentomb : Evolves (some pid) true true s ((p.children.foldl orphan s).entomb src pid) :=
    (evolves_orphans _).trans (evolves_act hsrc fun _ => .buried rfl rfl)
  have hsame : (some pid : Option Pid) ≠ some parent := fun h => hne (Option.some.inj h).symm
  obtain ⟨c₁, hc₁, -, hle⟩ := hentomb.kept (R := Process.NoticesGrow) .refl
    (fun _ _ _ => .trans) (fun p => ⟨Nat.le_refl _, Nat.le_refl _⟩)
    (fun _ _ hd => grows_of_deed hd) ho (fun _ => hsame) hp ht
  have hgen : c₁.childNotices ≤ (c₁.generate parent (.kernel .chld)).1.childNotices :=
    (Process.announced_generate _).children
  refine ⟨(c₁.generate parent (.kernel .chld)).1.noticeChild, ?_, ?_⟩
  · rw [lay_eq, hpar]
    simp [tell, update, process?_act, hne, hc₁]
  · exact Nat.lt_of_le_of_lt (Nat.le_trans hle.children hgen) (Nat.lt_succ_self _)

/-- A newborn is alive, and everybody else is what he was. -/
theorem Expects.beget {parent child : Pid} {pids : IdPool} {parent' : Process} {task : Option Task}
    (h : s.Expects p selector) (ho : s.Ordered) (ha : s.pids.alloc = (some child, pids))
    (hparent : s.process? parent = some parent') (hp : s.process? pid = some p)
    (hq : (s.beget src parent child pids parent' task).process? pid = some q) :
    Expects (s.beget src parent child pids parent' task) q selector := by
  have hfresh := kin?_of_alloc ho ha
  have hchild : ∀ c k, s.kin? c = some k → c ≠ child := fun _ _ => ne_of_kin? hfresh
  have hpne : parent ≠ child := hchild parent _ (kin?_of_process? hparent)
  have hkp : s.kin? pid = some p.kin := kin?_of_process? hp
  have hkin := kin?_of_process? hq
  rw [kin?_beget hpne, if_neg (hchild pid _ hkp), hkp, Option.map_some] at hkin
  have hchildren : q.children = if pid = parent then p.children ++ [child] else p.children := by
    have h : q.kin.children = _ := (congrArg Kin.children (Option.some.inj hkin)).symm
    rw [show q.children = q.kin.children from rfl, h]
    split <;> rfl
  have hlives : ∀ c, s.Lives c → Lives (s.beget src parent child pids parent' task) c := by
    intro c hc
    obtain ⟨k, hk, hz⟩ := lives_iff.1 hc
    refine lives_iff.2 ⟨_, by rw [kin?_beget hpne, if_neg (hchild c k hk), hk]; rfl, ?_⟩
    split <;> exact hz
  have hborn : Lives (s.beget src parent child pids parent' task) child :=
    lives_iff.2 ⟨_, by rw [kin?_beget hpne, if_pos rfl], rfl⟩
  refine h.of_children (fun c hc _ => ?_) fun c hc => ?_
  · rw [hchildren]
    split
    · exact List.mem_append_left _ hc
    · exact hc
  · rw [hchildren] at hc
    split at hc
    · rcases List.mem_append.1 hc with hc | hc
      · exact .inl ⟨hc, hlives c⟩
      · exact .inr (List.mem_singleton.1 hc ▸ hborn)
    · exact .inl ⟨hc, hlives c⟩

/-- Where the wait goes on after somebody else has died, it was not a child: its parent
would have been told. -/
theorem Expects.lay {dead : Pid} {pd : Process} (h : s.Expects p selector) (ho : s.Ordered)
    (hl : s.Linked) (hsrc : src.pid = some dead) (hpd : s.process? dead = some pd)
    (hne : pid ≠ dead) (hp : s.process? pid = some p) (ht : p.task ≠ none)
    (hq : (s.lay src dead pd).process? pid = some q) (hn : q.childNotices = p.childNotices) :
    Expects (s.lay src dead pd) q selector := by
  have hdead : dead ∉ p.children := by
    intro hmem
    obtain ⟨k, hk, hpar⟩ := hl pid p.kin dead (kin?_of_process? hp) hmem
    obtain rfl := Option.some.inj ((kin?_of_process? hpd).symm.trans hk)
    obtain ⟨p', hp', hlt⟩ := childNotices_lt_of_lay ho hsrc hpar hne hp ht
    obtain rfl := Option.some.inj (hq.symm.trans hp')
    omega
  refine h.of_kin hp hq (fun c k hk _ => by rw [kin?_lay, hk]; rfl) ?_ fun c hc k => ?_
  · dsimp only
    rw [if_neg hne]
    split <;> rfl
  · have hc : c ≠ dead := fun h => hdead (h ▸ hc)
    dsimp only
    rw [if_neg hc]
    split <;> rfl

/-- Who is taken off a list from outside is a zombie, which no wait that goes on is for. -/
theorem Expects.disown {parent child : Pid} {c : Process} (h : s.Expects p selector)
    (hc : s.process? child = some c) (hz : c.status.isZombie = true)
    (hp : s.process? pid = some p) (hq : (s.disown parent child).process? pid = some q) :
    Expects (s.disown parent child) q selector := by
  by_cases hpar : pid = parent
  · subst hpar
    have hchildren : q.children = p.children.erase child := by
      have hkin := kin?_of_process? hq
      rw [kin?_disown, kin?_of_process? hp, Option.map_some, if_pos rfl] at hkin
      exact (congrArg Kin.children (Option.some.inj hkin)).symm
    have hlives : ∀ c, s.Lives c → Lives (s.disown pid child) c := by
      intro c hc
      obtain ⟨k, hk, hz⟩ := lives_iff.1 hc
      refine lives_iff.2 ⟨_, by rw [kin?_disown, hk]; rfl, ?_⟩
      split <;> exact hz
    refine h.of_children (fun c' hc' hlive => ?_) fun c' hc' => ?_
    · have hcne : c' ≠ child := by
        rintro rfl
        obtain ⟨c'', hc'', hz'⟩ := hlive
        obtain rfl := Option.some.inj (hc.symm.trans hc'')
        simp [hz] at hz'
      exact hchildren ▸ (List.mem_erase_of_ne hcne).2 hc'
    · exact .inl ⟨List.mem_of_mem_erase (hchildren ▸ hc'), hlives c'⟩
  · refine h.of_kin hp hq (fun c k hk _ => by rw [kin?_disown, hk]; rfl) ?_ fun c _ k => ?_
    · rw [if_neg hpar]
      rfl
    · split <;> rfl

/-- **What others do does not end a wait for children unheard.** -/
theorem Affair.expects (h : Affair actor mortal wild s s') (ho : s.Ordered) (hl : s.Linked)
    (hne : actor ≠ some pid) (hp : s.process? pid = some p) (ht : p.task ≠ none)
    (hq : s'.process? pid = some q) (hn : q.childNotices = p.childNotices)
    (he : s.Expects p selector) : s'.Expects q selector := by
  cases h with
  | apart h =>
    exact he.of_kin hp hq (g := fun _ k => k) (fun c k hk _ => (kin?_of_evolves h c).trans hk) rfl
      fun _ _ _ => rfl
  | root _ ha =>
    refine he.of_kin hp hq (g := fun _ k => k) (fun c k hk _ => ?_) rfl fun _ _ _ => rfl
    rw [kin?_bear, if_neg (ne_of_kin? (kin?_of_alloc ho ha) hk), hk]
  | fork _ ha hparent => exact he.beget ho ha hparent hp hq
  | @reaped src parent child _ _ _ ha =>
    have hpne : pid ≠ parent := fun h => hne (h ▸ ha)
    refine he.of_kin hp hq (fun c k hk _ => by rw [kin?_reap, hk]; rfl) ?_ fun c _ k => ?_
    · dsimp only
      rw [if_neg hpne]
      split <;> rfl
    · dsimp only
      split <;> split <;> rfl
  | @ended src dead pd _ hsrc ha hpd =>
    have hpne : pid ≠ dead := fun h => hne (h ▸ ha)
    exact he.lay ho hl hsrc hpd hpne hp ht hq hn
  | disowned _ hc hz => exact he.disown hc hz hp hq
  | unlisted =>
    refine he.of_kin hp hq (fun c k hk _ => by rw [kin?_unlist, hk]; rfl) ?_ fun c _ k => ?_
    · split <;> rfl
    · split <;> rfl
  | swept => exact he.sweep ho hp ht hq

/-- **What a process with a context notices of the affairs of others.** -/
theorem Affairs.noticed (h : Affairs actor mortal wild s s') (ho : s.Ordered) (hl : s.Linked)
    (hne : actor ≠ some pid) (hp : s.process? pid = some p) (ht : p.task ≠ none) :
    ∃ q, s'.process? pid = some q ∧ p.Announced q ∧
      (q.childNotices = p.childNotices →
        ∀ selector, s.Expects p selector → s'.Expects q selector) := by
  suffices hkept : ∃ q, s'.process? pid = some q ∧ q.task ≠ none ∧ p.Announced q ∧
      (q.childNotices = p.childNotices →
        ∀ selector, s.Expects p selector → s'.Expects q selector) by
    obtain ⟨q, hq, -, h⟩ := hkept
    exact ⟨q, hq, h⟩
  induction h with
  | refl => exact ⟨p, hp, ht, .refl p, fun _ _ h => h⟩
  | tail h h' ih =>
    obtain ⟨q, hq, htq, ha, he⟩ := ih
    obtain ⟨ho', hl'⟩ := Affairs.linked h ho hl
    obtain ⟨q', hq', htq', ha'⟩ := (h'.evolves ho').announced ho' hne hq htq
    refine ⟨q', hq', htq', ha.trans ha', fun hn selector hs => ?_⟩
    -- notifications only become more, so none was added on the way
    have hle := ha.children
    have hle' := ha'.children
    exact h'.expects ho' hl' hne hq htq hq' (by omega) (he (by omega) selector hs)

/-! ## A turn of the wait -/

/-- Whoever is answered waits for nothing. -/
theorem context?_of_answer {r : Reply} (hq : (s.answer pid r).process? pid = some q)
    (hx : q.context? = some x) : x.control = .reply r := by
  simp only [answer, update, process?_act, if_true] at hq
  obtain ⟨p, -, rfl⟩ := Option.map_eq_some_iff.1 hq
  exact Process.control_of_goto hx

/-- A wait that is over leaves the process with its answer. -/
theorem context?_of_reap {child : Pid} {r : Reply} (ho : s.Ordered)
    (hp : s.process? pid = some p) (ht : p.task ≠ none)
    (hq : ((s.reap src pid child).answer pid r).sweep.process? pid = some q)
    (hx : q.context? = some x) : x.control = .reply r := by
  have hlists : Evolves none true false s ((s.disown pid child).unlist child) :=
    (evolves_place fun _ => ⟨_, _, _, rfl⟩).trans (evolves_place fun _ => ⟨_, _, _, rfl⟩)
  obtain ⟨p₁, hp₁, ht₁, -⟩ := hlists.announced ho (by simp) hp ht
  have hanswer : ((s.reap src pid child).answer pid r).process? pid = some (p₁.answer r) := by
    have hreap : (s.reap src pid child).process? pid = some p₁ := hp₁
    simp [answer, update, process?_act, hreap]
  have hrun : (p₁.answer r).task ≠ none := by simpa [Process.answer, Process.goto] using ht₁
  have ho₁ : ((s.reap src pid child).answer pid r).Ordered := ordered_update (ordered_reap ho)
  have hsweep : Evolves none true false ((s.reap src pid child).answer pid r)
      ((s.reap src pid child).answer pid r).sweep := evolves_sweep ho₁
  -- forgetting others leaves the context where it is
  obtain ⟨q', hq', -, ha⟩ := hsweep.announced ho₁ (by simp) hanswer hrun
  obtain rfl := Option.some.inj (hq.symm.trans hq')
  obtain ⟨root, htask, -⟩ := Process.context?_eq_some.1 hx
  rw [ha.task] at htask
  obtain ⟨t, -, he⟩ := Option.map_eq_some_iff.1 htask
  exact (congrArg Task.control he).symm

/-- No selected child is ready, though there is one. -/
theorem expects_of_ready? (hl : s.Linked) (hp : s.process? pid = some p)
    (h : s.ready? p selector = .ok none) : s.Expects p selector := by
  unfold ready? at h
  split at h
  · simp at h
  · next hne =>
    refine ⟨hne, fun c hc => ?_⟩
    obtain ⟨k, hk, -⟩ := hl pid p.kin c (kin?_of_process? hp) (mem_of_mem_selected hc)
    obtain ⟨q, hq, rfl⟩ := kin?_eq_some.1 hk
    refine ⟨q, hq, ?_⟩
    have hnone := List.findSome?_eq_none_iff.1 (Except.ok.inj h) c hc
    cases hst : q.status <;> simp [hq, hst, Status.reapable?] at hnone ⊢ <;> rfl

/-- **A wait for children blocks only on living children**, with nothing to deliver. -/
theorem waits_of_wait4 {noHang : Bool} {l : Loop} {y : Listener} (hs : s.Sound) (hl : s.Linked)
    (hp : s.process? pid = some p) (ht : p.task ≠ none)
    (hq : (s.wait4 src pid p selector noHang).process? pid = some q) (hx : q.context? = some x)
    (hb : x.control = .blocked l y) :
    q.Relies l y ∧ ∀ selector' noHang', l = .wait4 selector' noHang' →
      (s.wait4 src pid p selector noHang).Expects q selector' := by
  have hanswer : ∀ r, (s.answer pid r).process? pid ≠ some q := fun r hq => by
    simpa [hb] using context?_of_answer hq hx
  have hglance := s.glance src pid p selector noHang
  generalize s.wait4 src pid p selector noHang = s' at hglance hq ⊢
  cases hglance with
  | failed | hurried | left | interrupted => exact absurd hq (hanswer _)
  | reaped =>
    have hreply := context?_of_reap hs.ordered hp ht hq hx
    simp [hb] at hreply
  | blocked hr hn he hd =>
    have hkin : ∀ c, (s.act src pid fun p => (p.goto (.blocked (.wait4 selector noHang)
        (p.listen .child none)), [.noChildReady])).kin? c = s.kin? c := fun c =>
      kin?_act_same fun p _ => Process.kin_of_standing Process.standing_goto
    have hexpects := (expects_of_ready? hl hp hr).of_kin hp hq (g := fun _ k => k)
      (fun c k hk _ => (hkin c).trans hk) rfl fun _ _ _ => rfl
    simp only [process?_act, if_true, hp, Option.map_some] at hq
    obtain rfl := Option.some.inj hq
    rw [Process.context?_goto] at hx
    obtain ⟨x₀, -, rfl⟩ := Option.map_eq_some_iff.1 hx
    obtain ⟨rfl, rfl⟩ := Control.blocked.inj hb
    have hdelivered : p.Delivered := Process.delivered_of_hasDeliverable hd
    have hawaits : noHang = false ∧ p.status.isExited = false ∧ p.Delivered :=
      ⟨hn, he, hdelivered⟩
    refine ⟨⟨rfl, .inl rfl, Nat.le_refl _, fun _ => hawaits⟩, fun selector' noHang' he => ?_⟩
    obtain ⟨rfl, rfl⟩ := Loop.wait4.inj he
    exact hexpects

/-! ## The invariant -/

/-- **The process has missed no wake-up.** -/
def WatchfulAt (s : System) (pid : Pid) : Prop :=
  ∀ p x, s.process? pid = some p → p.context? = some x → p.Vigilant x ∧
    ∀ selector noHang y, x.control = .blocked (.wait4 selector noHang) y →
      y.seen = p.childNotices → s.Expects p selector

theorem watchfulAt_of_blank (h : ∀ q, s.process? pid = some q → Blank q) : s.WatchfulAt pid := by
  intro q x hq hx
  obtain ⟨hf, hc⟩ := h q hq x hx
  exact ⟨Process.vigilant_of_idle hf hc, fun _ _ _ hb => by simp [hc] at hb⟩

/-- What is not missed by a process goes on not being missed while others act. -/
theorem WatchfulAt.noticed (h : s.WatchfulAt pid) (hp : s.process? pid = some p)
    (hpx : p.context? = some x) (ha : p.Announced q)
    (he : q.childNotices = p.childNotices →
      ∀ selector, s.Expects p selector → s'.Expects q selector) : q.Vigilant x ∧
      ∀ selector noHang y, x.control = .blocked (.wait4 selector noHang) y →
        y.seen = q.childNotices → s'.Expects q selector := by
  obtain ⟨hv, hexpects⟩ := h p x hp hpx
  refine ⟨hv.announced ha, fun selector noHang y hb hseen => ?_⟩
  obtain ⟨ho, -, hle, -⟩ := hv.blocked _ _ hb
  have hle : y.seen ≤ p.childNotices := by simpa only [ho, Loop.occasion, Process.notices] using hle
  have hgrow := ha.children
  exact he (by omega) selector (hexpects selector noHang y hb (by omega))

/-- A step that a process takes alone. -/
theorem watchfulAt_of_alone (hs : s.Sound) (h : s.WatchfulAt pid) (ha : s.Alone pid) :
    (s.step pid).WatchfulAt pid := by
  intro q x' hq hqx
  have hkin := ha.kin?
  obtain ⟨p, t, hp, ht, hl, he, hc⟩ := ha
  have hpx : p.context? = some ⟨t.frames, t.control, p.inbox.blocked⟩ := by
    simp [Process.context?, ht]
  have hx := hs.contexts pid _ (context?_eq_some.2 ⟨p, hp, hpx⟩)
  obtain rfl : q = (p.step s.now pid t).1 := eq_of_process?_act hp (he ▸ hq)
  obtain ⟨hv, hexpects⟩ := h p _ hp hpx
  refine ⟨Process.vigilant_step hv ht (hs.inboxes pid p hp) hx hl hqx, ?_⟩
  intro selector noHang y hb hseen
  have hown : p.Own pid _ (p.step s.now pid t) :=
    Process.own_step ht (hs.inboxes pid p hp) hx.fits hl
  obtain ⟨x'', hx'', hstep⟩ := hown.context
  obtain rfl := Option.some.inj (hqx.symm.trans hx'')
  obtain ⟨fs, c, m⟩ := x'
  obtain rfl : c = .blocked (.wait4 selector noHang) y := hb
  -- a wait for children does not begin to block in such a step, so it was blocked before
  rcases hstep.of_blocked with hsame | hloop | ⟨_, _, _, he, -⟩ | ⟨_, _, _, he, -⟩
  · obtain ⟨-, hcontrol, -⟩ := Context.mk.inj hsame
    obtain ⟨ho, -, hle, -⟩ := hv.blocked _ _ hcontrol
    have hle : y.seen ≤ p.childNotices := by
      simpa only [ho, Loop.occasion, Process.notices] using hle
    have hgrow := (Process.observed_grows.conduct hc).children
    exact (hexpects selector noHang y hcontrol (by omega)).of_kin hp hq (g := fun _ k => k)
      (fun c k hk _ => (hkin c).trans hk) rfl fun _ _ _ => rfl
  · obtain ⟨-, hcontrol, -⟩ := Context.mk.inj hloop
    simp [hcontrol, Control.isShared] at hl
  · simp at he
  · simp at he

/-- A step that concerns others, short of an end: it blocks only in a wait for
children. -/
theorem watchfulAt_of_affairs (hs : s.Sound) (hl : s.Linked) (h : s.WatchfulAt pid)
    (hp : s.process? pid = some p) {t : Task} (ht : p.task = some t)
    (hshared : t.control.isShared = true) (hf : ∀ e, t.control ≠ .finish e)
    (ha : Affairs (some pid) false wild s (s.step pid)) : (s.step pid).WatchfulAt pid := by
  intro q x' hq hqx
  have hrun : p.task ≠ none := by simp [ht]
  have hpx : p.context? = some ⟨t.frames, t.control, p.inbox.blocked⟩ := by
    simp [Process.context?, ht]
  have hx := hs.contexts pid _ (context?_eq_some.2 ⟨p, hp, hpx⟩)
  obtain ⟨hv, -⟩ := h p _ hp hpx
  obtain ⟨q', x'', hq', hqx', hstep, -⟩ := goes_of_step hs hp hpx hf
  obtain rfl := Option.some.inj (hq.symm.trans hq')
  obtain rfl := Option.some.inj (hqx.symm.trans hqx')
  have hgrow : p.NoticesGrow q := by
    obtain ⟨q'', hq'', -, hgrow⟩ := (ha.evolves hs.ordered).kept (R := Process.NoticesGrow) .refl
      (fun _ _ _ => .trans) (fun _ => ⟨Nat.le_refl _, Nat.le_refl _⟩)
      (fun _ _ hd => grows_of_deed hd) hs.ordered (by simp) hp hrun
    exact Option.some.inj (hq.symm.trans hq'') ▸ hgrow
  have hblocked : ∀ l y, x'.control = .blocked l y → q.Relies l y ∧
      ∀ selector noHang, l = .wait4 selector noHang → (s.step pid).Expects q selector := by
    intro l y hb
    obtain ⟨fs, c, m⟩ := x'
    obtain rfl : c = .blocked l y := hb
    rcases hstep.of_blocked with hsame | hloop | ⟨_, _, _, -, hreply⟩ | ⟨_, _, _, -, hreply⟩
    · obtain ⟨-, hcontrol, -⟩ := Context.mk.inj hsame
      simp [hcontrol, Control.isShared] at hshared
    · obtain ⟨-, hcontrol, -⟩ := Context.mk.inj hloop
      cases l with
      | wait4 selector noHang =>
        rw [step_of_wait4 hp ht hcontrol] at hq ⊢
        exact waits_of_wait4 hs hl hp hrun hq hqx rfl
      | check | waitAny | suspend | sleep => simp [hcontrol, Control.isShared] at hshared
    · obtain ⟨-, hcontrol, -⟩ := Context.mk.inj hreply
      simp [hcontrol, Control.isShared] at hshared
    · obtain ⟨-, hcontrol, -⟩ := Context.mk.inj hreply
      simp [hcontrol, Control.isShared] at hshared
  refine ⟨hv.step hx hstep hgrow (fun f _ hloop => ?_) fun l y hb => (hblocked l y hb).1,
    fun selector noHang y hb _ => (hblocked _ y hb).2 selector noHang rfl⟩
  -- no frame is registered in such a step
  obtain ⟨_, hcontrol⟩ | ⟨_, hcontrol⟩ := hloop <;>
    simp [show t.control = _ from hcontrol, Control.isShared] at hshared

/-- **A process misses nothing by a step of its own.** -/
theorem WatchfulAt.step (hs : s.Sound) (hl : s.Linked) (h : s.WatchfulAt pid) :
    (s.step pid).WatchfulAt pid := by
  cases hp : s.process? pid with
  | none => rwa [step_of_none hp]
  | some p =>
    cases ht : p.task with
    | none => rwa [step_of_task_eq_none hp ht]
    | some t =>
      have hpx : p.context? = some ⟨t.frames, t.control, p.inbox.blocked⟩ := by
        simp [Process.context?, ht]
      by_cases hf : ∃ e, t.control = .finish e
      · obtain ⟨e, hf⟩ := hf
        exact watchfulAt_of_blank fun q hq => blank_of_step hs hp hpx hf hq
      have hnf : s.Finishing pid → false = true := by
        rintro ⟨p', t', e, hp', ht', he⟩
        obtain rfl := Option.some.inj (hp.symm.trans hp')
        obtain rfl := Option.some.inj (ht.symm.trans ht')
        exact absurd ⟨e, he⟩ hf
      cases hl' : t.control.isShared with
      | false => exact watchfulAt_of_alone hs h (alone_of_not_isShared hs hp ht hl')
      | true =>
        have hcase : s.Alone pid ∨ Affairs (some pid) false false s (s.step pid) :=
          alone_or_affairs_of_step hs pid hnf
        rcases hcase with ha | ha
        · exact watchfulAt_of_alone hs h ha
        · exact watchfulAt_of_affairs hs hl h hp ht hl' (fun e he => hf ⟨e, he⟩) ha

/-- Whoever does not act is spared by a move. -/
theorem spares_of_actor (hs : s.Sound) {m : Move} (hne : m.actor ≠ some pid) :
    Spares pid s (s.move m) := by
  cases m with
  | process pid' => exact spares_of_step hs fun he => hne (he ▸ rfl)
  | host step => exact (changed_host hs step).spares hs.ordered hne
  | clock t => exact (changed_waitUntil t).spares hs.ordered (by simp)

/-- **A process misses nothing by the moves of others.** -/
theorem WatchfulAt.move_of_actor (hs : s.Sound) (hl : s.Linked) (h : s.WatchfulAt pid) {m : Move}
    (hne : m.actor ≠ some pid) : (s.move m).WatchfulAt pid := by
  intro q x hq hqx
  have hblank : Blank q → q.Vigilant x ∧ ∀ selector noHang y,
      x.control = .blocked (.wait4 selector noHang) y → y.seen = q.childNotices →
      (s.move m).Expects q selector := fun hb => by
    obtain ⟨hf, hc⟩ := hb x hqx
    exact ⟨Process.vigilant_of_idle hf hc, fun _ _ _ hb => by simp [hc] at hb⟩
  rcases (spares_of_actor hs hne).known q hq with ⟨p, hp, hd⟩ | hb
  · have hpx : p.context? = some x := (Process.context?_congr hd.task hd.blocked).symm.trans hqx
    have ht : p.task ≠ none := fun ht => by simp [Process.context?, ht] at hpx
    rcases alone_or_affairs hs m with ⟨pid', rfl, ha⟩ | ha
    · -- what another process does alone is nothing to this one
      have hother : pid ≠ pid' := fun he => hne (he ▸ rfl)
      have hkin := ha.kin?
      obtain ⟨p', t, -, -, -, he, -⟩ := ha
      obtain rfl : p = q := by
        rw [show s.move (.process pid') = s.step pid' from rfl, he, process?_act, if_neg hother,
          hp] at hq
        exact Option.some.inj hq
      exact h.noticed hp hpx (.refl p) fun _ selector hexpects =>
        hexpects.of_kin hp hq (g := fun _ k => k) (fun c k hk _ => (hkin c).trans hk) rfl
          fun _ _ _ => rfl
    · obtain ⟨q', hq', ha', he⟩ := ha.noticed hs.ordered hl hne hp ht
      obtain rfl := Option.some.inj (hq.symm.trans hq')
      exact h.noticed hp hpx ha' he
  · exact hblank hb

/-- **A process misses nothing by a command**: it was idle, and now it runs. -/
theorem WatchfulAt.command (hs : s.Sound) (h : s.WatchfulAt pid) (c : Command) :
    (s.command pid c).2.WatchfulAt pid := by
  rcases s.command_cases pid c with he | ⟨p, x, x', f, hp, hx, htold, he, hx', -, -⟩
  · rwa [he]
  · intro q y hq hqy
    rw [he] at hq
    obtain rfl := eq_of_process?_act hp hq
    obtain rfl : x' = y := Option.some.inj (hx'.symm.trans hqy)
    have hfits := (hs.contexts pid x (context?_eq_some.2 ⟨p, hp, hx⟩)).fits
    cases htold with
    | @perform fs m keep request =>
      obtain rfl : fs = [] := hfits
      exact ⟨⟨by simp [Frame.seen?], by simp, by simp⟩, by simp⟩
    | @finish fs m e =>
      obtain rfl : fs = [] := hfits
      exact ⟨⟨by simp, by simp, by simp⟩, by simp⟩

theorem WatchfulAt.move (hs : s.Sound) (hl : s.Linked) (h : s.WatchfulAt pid) (m : Move) :
    (s.move m).WatchfulAt pid := by
  by_cases hm : m.actor = some pid
  · cases m with
    | process pid' =>
      obtain rfl : pid' = pid := Option.some.inj hm
      exact h.step hs hl
    | host step =>
      obtain ⟨c, rfl⟩ := command_of_focusOf hm
      exact h.command hs c
    | clock t => simp [Move.actor] at hm
  · exact h.move_of_actor hs hl hm

/-- **In no reachable state has anybody missed a wake-up.** -/
theorem Reachable.watchfulAt (h : Reachable s) (pid : Pid) : s.WatchfulAt pid := by
  induction h with
  | initial =>
    refine watchfulAt_of_blank fun q hq => ?_
    simp [System.initial, System.process?, Registry.get?] at hq
  | move h m ih => exact ih.move h.sound h.linked m

/-! ## Rest -/

/-- A blocked process that cannot go on has not been notified, and its deadline has not passed. -/
theorem quiet_of_not_isRunnable {l : Loop} {y : Listener} (hnot : p.isRunnable s.now = false)
    (hx : p.context? = some x) (hb : x.control = .blocked l y) :
    y.seen = p.notices y.occasion ∧ Process.expired s.now y.deadline = false := by
  obtain ⟨root, ht, -⟩ := Process.context?_eq_some.1 hx
  simp only [Process.isRunnable, ht, hb, Process.notified, Bool.or_eq_false_iff] at hnot
  have hseen : p.notices y.occasion = y.seen := by simpa using hnot.1
  exact ⟨hseen.symm, hnot.2⟩

/-- Where nobody can go on, whoever is blocked was not notified and is not late. -/
theorem quiet_of_runnable {l : Loop} {y : Listener} (hrest : s.runnable = [])
    (hp : s.process? pid = some p) (hx : p.context? = some x) (hb : x.control = .blocked l y) :
    y.seen = p.notices y.occasion ∧ Process.expired s.now y.deadline = false := by
  have hmem := Registry.mem_of_get? hp
  have hnil := List.filter_eq_nil_iff.1 (List.map_eq_nil_iff.1 hrest) _ hmem
  exact quiet_of_not_isRunnable (by simpa using hnil) hx hb

/-- **No lost wake-up.** In every reachable state in which nobody can go on, what a
blocked process waits for has not come. At a check point it is stopped. In
a wait for signals it is stopped, or it is normal, no signal of the set is
pending and everything pending is blocked. In a suspension or a sleep it is
normal, everything pending is blocked, and a suspension was not ended by a
continue. In a wait for children it has not ended, everything pending is
blocked, and it has a child that it waits for, none of which is a zombie.
And no deadline has passed. -/
theorem no_lost_wakeup {fs : List Frame} {l : Loop} {y : Listener} {m : SignalSet}
    (hs : Reachable s) (hrest : s.runnable = []) (hp : s.process? pid = some p)
    (hx : p.context? = some ⟨fs, .blocked l y, m⟩) :
    Process.expired s.now y.deadline = false ∧
    match l with
    | .check _ => p.status.isStopped = true
    | .waitAny w => (p.status.isStopped = true ∧ y.deadline = none) ∨
        (p.status = .normal ∧ y.deadline = w.deadline ∧
          (∀ sig ∈ p.inbox.pending, sig ∉ w.set) ∧ ∀ sig ∈ p.inbox.pending, sig ∈ p.inbox.blocked)
    | .suspend _ => p.status = .normal ∧ (∀ sig ∈ p.inbox.pending, sig ∈ p.inbox.blocked) ∧
        p.continued = false
    | .sleep deadline => p.status = .normal ∧ y.deadline = deadline ∧
        ∀ sig ∈ p.inbox.pending, sig ∈ p.inbox.blocked
    | .wait4 selector noHang => noHang = false ∧ p.status.isExited = false ∧
        (∀ sig ∈ p.inbox.pending, sig ∈ p.inbox.blocked) ∧ selected p selector ≠ [] ∧
        ∀ c ∈ selected p selector, ∃ q, s.process? c = some q ∧ q.status.isZombie = false := by
  obtain ⟨hv, hexpects⟩ := hs.watchfulAt pid p _ hp hx
  obtain ⟨hseen, hlate⟩ := quiet_of_runnable hrest hp hx rfl
  have hrelies := hv.blocked l y rfl
  have hawaits : p.Awaits y l := hrelies.awaits hseen
  refine ⟨hlate, ?_⟩
  cases l with
  | check d => exact hawaits
  | waitAny w => exact hawaits
  | suspend saved => exact hawaits
  | sleep deadline => exact hawaits
  | wait4 selector noHang =>
    obtain ⟨hhang, hlive, hdelivered⟩ := hawaits
    have hchild : y.seen = p.childNotices := by
      simpa only [hrelies.occasion, Loop.occasion, Process.notices] using hseen
    exact ⟨hhang, hlive, hdelivered, hexpects selector noHang y rfl hchild⟩

/-- A process forks and waits for its child, which waits for a command. -/
def expecting : List Move :=
  [Move.host (.root "parent"), .host (.command 1 (.perform { request := .system .fork }))] ++
  List.replicate 6 (Move.process 1) ++
  [Move.host (.command 1 (.perform { request := .system (.wait4 (-1) 0) }))] ++
  List.replicate 3 (Move.process 1)

/-- The wait blocks. -/
theorem expecting_context :
    (initial.run expecting).context? 1 = some ⟨[.callBody (.wait4 (-1) 0), .main false],
      .blocked (.wait4 (-1) false) ⟨.child, 0, none⟩, ∅⟩ := by cbv

/-- Then nobody can go on. -/
theorem expecting_runnable : (initial.run expecting).runnable = [] := by decide +kernel

/-- **A parent that waits has a child**, and the child is alive. -/
theorem no_lost_wakeup_of_expecting :
    let s := initial.run expecting
    s.runnable = [] ∧ ∃ p, s.process? 1 = some p ∧
      p.context? = some ⟨[.callBody (.wait4 (-1) 0), .main false],
        .blocked (.wait4 (-1) false) ⟨.child, 0, none⟩, ∅⟩ ∧
      p.status.isExited = false ∧ (∀ sig ∈ p.inbox.pending, sig ∈ p.inbox.blocked) ∧
      selected p (-1) ≠ [] ∧
      ∀ c ∈ selected p (-1), ∃ q, s.process? c = some q ∧ q.status.isZombie = false := by
  obtain ⟨p, hp, hx⟩ := context?_eq_some.1 expecting_context
  obtain ⟨-, -, hlive, hdelivered, hchildren⟩ :=
    no_lost_wakeup (Reachable.initial.run expecting) expecting_runnable hp hx
  exact ⟨expecting_runnable, p, hp, hx, hlive, hdelivered, hchildren⟩

end System

end PosixSignals
