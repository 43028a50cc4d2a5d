import PosixSignals.Proofs.Scenario.Mourning
import PosixSignals.Proofs.Scenario.Lockstep

/-!
# What a waiting parent is owed

A parent that waits for children while one of them dies is owed a child: it
is about to look, or it has been notified, and there is a zombie for it to
find. Whatever others do in the meantime, signals included, the next look
comes before anything else. The parent gets the child that has died, or an
older one that has died by then.
-/

namespace PosixSignals

namespace System

variable {s s' : System} {actor : Option Pid} {mortal : Bool} {pid parent c q : Pid} {p : Process}
  {src : Source} {t : Task} {e : Ending} {w : WaitStatus} {selector : Int} {noHang : Bool}
  {m : Move} {moves : List Move} {n : Nat}

/-! ## A list that only its owner makes shorter -/

/-- A running process has this child on its list. -/
def Claims (s : System) (pid c : Pid) : Prop :=
  ∃ k, s.kin? pid = some k ∧ k.running = true ∧ c ∈ k.children

theorem Claims.of_kin {g : Kin → Kin} (h : s.Claims pid c)
    (hkin : s'.kin? pid = (s.kin? pid).map g) (hr : ∀ k, (g k).running = k.running)
    (hc : ∀ k : Kin, c ∈ k.children → c ∈ (g k).children) : s'.Claims pid c := by
  obtain ⟨k, hk, hrun, hmem⟩ := h
  exact ⟨g k, by rw [hkin, hk]; rfl, (hr k).trans hrun, hc k hmem⟩

theorem Claims.congr (h : s.Claims pid c) (hkin : s'.kin? pid = s.kin? pid) : s'.Claims pid c :=
  h.of_kin (g := id) (by rw [hkin, Option.map_id, id]) (fun _ => rfl) fun _ => id

theorem Claims.sweep (h : s.Claims pid c) (ho : s.Ordered) : s.sweep.Claims pid c := by
  obtain ⟨k, hk, hrun, hmem⟩ := h
  have hheld : ∀ x kx, x = pid → s.kin? x = some kx → kx.listed = true ∨ kx.running = true ∨
      ∃ y ky, y = pid ∧ s.kin? y = some ky ∧ x ∈ ky.children := by
    rintro x kx rfl hkx
    obtain rfl := Option.some.inj (hk.symm.trans hkx)
    exact .inr (.inl hrun)
  obtain ⟨k', hk', hc, hr⟩ := kin?_sweep_of_held ho hheld rfl hk
  exact ⟨k', hk', hr.trans hrun, hc ▸ hmem⟩

theorem Claims.beget {pids : IdPool} {task : Option Task} (h : s.Claims pid c)
    (hfresh : s.kin? q = none) (hp : s.process? parent = some p) :
    (s.beget src parent q pids p task).Claims pid c := by
  obtain ⟨k, hk, -⟩ := id h
  refine h.of_kin
    (g := fun k => if pid = parent then { k with children := k.children ++ [q] } else k)
    ?_ (fun k => ?_) fun k hmem => ?_
  · rw [kin?_beget (ne_of_kin? hfresh (kin?_of_process? hp)), if_neg (ne_of_kin? hfresh hk)]
  · split <;> rfl
  · split
    · exact List.mem_append_left _ hmem
    · exact hmem

/-- **Nobody but the process itself takes a child off its list**, unless things go wild. -/
theorem Claims.affair (h : s.Claims pid c) (ha : Affair actor mortal false s s') (ho : s.Ordered)
    (hne : actor ≠ some pid) : s'.Claims pid c := by
  cases ha with
  | apart ha => exact h.congr (kin?_of_evolves ha pid)
  | root _ ha =>
    obtain ⟨k, hk, -⟩ := id h
    exact h.congr (by rw [kin?_bear, if_neg (ne_of_kin? (kin?_of_alloc ho ha) hk)])
  | fork _ ha hp => exact h.beget (kin?_of_alloc ho ha) hp
  | @reaped src other _ _ _ _ ha =>
    have hother : pid ≠ other := fun he => hne (he ▸ ha)
    refine h.of_kin kin?_reap (fun k => ?_) fun k hmem => ?_
    · dsimp only
      rw [if_neg hother]
      split <;> rfl
    · dsimp only
      rw [if_neg hother]
      split <;> exact hmem
  | @ended src other p _ _ ha =>
    have hother : pid ≠ other := fun he => hne (he ▸ ha)
    refine h.of_kin (kin?_lay p) (fun k => ?_) fun k hmem => ?_
    · dsimp only
      rw [if_neg hother]
      split <;> rfl
    · dsimp only
      rw [if_neg hother]
      split <;> exact hmem
  | disowned hw | unlisted hw => simp at hw
  | swept => exact h.sweep ho

theorem Claims.affairs (h : s.Claims pid c) (ha : Affairs actor mortal false s s') (ho : s.Ordered)
    (hne : actor ≠ some pid) : s'.Claims pid c := by
  induction ha with
  | refl => exact h
  | tail ha ha' ih => exact ih.affair ha' ((Affairs.evolves ha ho).ordered ho) hne

/-- **So does no move but its own**, or a step of the outside that takes a child from it. -/
theorem Claims.move (h : s.Claims pid c) (hs : s.Sound) (hm : m ≠ .process pid)
    (hr : ∀ selector, m ≠ .host (.reap pid selector)) : (s.move m).Claims pid c := by
  cases hn : s.natural m with
  | true =>
    cases m with
    | process q =>
      rcases alone_or_affairs hs (.process q) with ⟨q', he, ha⟩ | ha
      · obtain rfl := Move.process.inj he
        exact h.congr (ha.kin? pid)
      · rw [hn] at ha
        exact h.affairs ha hs.ordered fun he => hm (congrArg Move.process (Option.some.inj he))
    | host step =>
      rcases evolves_or_affairs_host hn with ⟨actor, he⟩ | ha
      · exact h.congr (kin?_of_evolves he pid)
      · exact h.affairs ha hs.ordered (by simp)
    | clock t => exact h
  | false =>
    rcases host_of_not_natural hn with he | ⟨q, rfl, he⟩ | ⟨q, sel, child, k, rfl, hc, hz, he⟩ |
      ⟨q, p, child, pids, hp, ha, he⟩
    all_goals rw [he]
    · exact h
    · refine (h.of_kin kin?_unlist (fun k => ?_) fun k hmem => ?_).sweep (ordered_update hs.ordered)
      · split <;> rfl
      · split <;> exact hmem
    · have hother : pid ≠ q := fun he => hr sel (he ▸ rfl)
      refine (h.of_kin kin?_disown (fun k => ?_) fun k hmem => ?_).sweep
        (ordered_update hs.ordered)
      · split <;> rfl
      · rw [if_neg hother]
        exact hmem
    · exact h.beget (kin?_of_alloc hs.ordered ha) hp

/-! ## A zombie stays one -/

theorem Passes.births_eq (h : Passes s s') (ho : s.Ordered) (hc : s.process? c ≠ none) :
    births c s'.history = births c s.history := by
  cases h with
  | aged h => exact h.births_eq
  | @birth src pid pids p ha _ h =>
    have hne : pid ≠ c := by
      rintro rfl
      exact hc (ho.fresh ha)
    rw [h.births_eq, births_bear, if_neg hne, Nat.add_zero]

/-- **The number of a process that is known is not handed out.** -/
theorem births_move (hs : s.Sound) (hc : s.process? c ≠ none) (m : Move) :
    births c (s.move m).history = births c s.history := by
  rcases passes_or_addRoots hs m with h | ⟨name, n, rfl⟩
  · exact h.births_eq hs.ordered hc
  · exact births_addRoots hs.ordered hc name n

theorem recorded?_move_of_zombie (hs : Reachable s) (hp : s.process? c = some p)
    (hst : p.status = .zombie w) (m : Move) :
    recorded? c (s.move m).history = some (.zombie w) := by
  obtain ⟨new, hnew⟩ := exists_history_move hs.sound m
  have hb : births c (s.move m).history = _ := births_move hs.sound (by simp [hp]) m
  have hlawful := (hs.move m).chronicled.lawful
  rw [hnew] at hb hlawful ⊢
  have hr : recorded? c s.history = some (.zombie w) := hst ▸ hs.chronicled.recorded c p hp
  exact (recorded?_of_isExited hlawful (creates_of_births hb) hr rfl).elim id id

/-! ## To be owed a child -/

/-- **How many turns a process is away from a look**: it is about to look, or it was
notified of a child while it was blocked. -/
inductive Nears (p : Process) (selector : Int) (noHang : Bool) : Nat → Prop
  | looks {t : Task} (ht : p.task = some t) (hc : t.control = .loop (.wait4 selector noHang)) :
      Nears p selector noHang 0
  | wakes {t : Task} {y : Listener} (ht : p.task = some t)
      (hc : t.control = .blocked (.wait4 selector noHang) y) (ho : y.occasion = .child)
      (hn : y.seen < p.childNotices) : Nears p selector noHang 1

/-- **A process is owed a child** that it waits for: the child is dead, and in so many turns
the process looks. -/
structure Owed (s : System) (pid : Pid) (selector : Int) (noHang : Bool) (c : Pid)
    (w : WaitStatus) (n : Nat) : Prop where
  nears : ∃ p, s.process? pid = some p ∧ Nears p selector noHang n
  selects : selector = -1 ∨ (c : Int) = selector
  reapable : s.Reapable pid c w

/-- **A look finds the child that is owed**, or an older one that has died. -/
def Grants (s : System) (pid : Pid) (selector : Int) (noHang : Bool) (c : Pid) (w : WaitStatus) :
    Prop :=
  ∃ p c' w', s.Looks pid p selector noHang ∧ s.Eldest p selector c' w' ∧
    (s.step pid).Replies pid (.ok (.child c' w')) ∧ (c' = c ∧ w' = w ∨ s.birth c' < s.birth c)

theorem Nears.announced (h : Nears p selector noHang n) {q : Process} (ha : p.Announced q) :
    Nears q selector noHang n := by
  cases h with
  | looks ht hc => exact .looks (ha.task.trans ht) hc
  | wakes ht hc ho hn => exact .wakes (ha.task.trans ht) hc ho (Nat.lt_of_lt_of_le hn ha.children)

theorem Nears.context (h : Nears p selector noHang n) :
    ∃ x, p.context? = some x ∧ x.control ≠ .idle := by
  cases h with
  | @looks t ht hc | @wakes t y ht hc =>
    exact ⟨⟨t.frames, t.control, p.inbox.blocked⟩, Process.context?_eq_some.2 ⟨t.root, ht, rfl⟩,
      by simp [hc]⟩

theorem Nears.running (h : Nears p selector noHang n) : p.task ≠ none := by
  cases h with
  | looks ht | wakes ht => simp [ht]

/-- Whoever is owed a child can go on. -/
theorem Owed.mem_runnable (h : s.Owed pid selector noHang c w n) : pid ∈ s.runnable := by
  obtain ⟨p, hp, hn⟩ := h.nears
  refine List.mem_map.2 ⟨(pid, p), List.mem_filter.2 ⟨Registry.mem_of_get? hp, ?_⟩, rfl⟩
  cases hn with
  | looks ht hc => simp [Process.isRunnable, ht, hc]
  | @wakes _ y ht hc ho hn =>
    have hnotified : p.notified y = true := by
      simp only [Process.notified, ho, Process.notices, bne_iff_ne]
      omega
    simp [Process.isRunnable, ht, hc, hnotified]

/-- **Others do not change what a process is owed.** -/
theorem Owed.others (h : s.Owed pid selector noHang c w n) (hs : Reachable s)
    (hm : m ≠ .process pid) (hr : ∀ selector, m ≠ .host (.reap pid selector)) :
    (s.move m).Owed pid selector noHang c w n := by
  obtain ⟨p, hp, hn⟩ := h.nears
  obtain ⟨x, hx, hi⟩ := hn.context
  obtain ⟨p', k, hp', hmem, hk, hst⟩ := h.reapable
  obtain rfl := Option.some.inj (hp.symm.trans hp')
  obtain ⟨q, hq, ha⟩ := kept_of_others (R := Process.Announced) .refl (fun _ _ _ => .trans)
    (fun _ => Process.announced_of_eq rfl rfl rfl rfl rfl rfl)
    (fun _ _ _ hne hd => announced_of_deed hd hne) hs.sound hp hx hi hm
  have hclaims : s.Claims pid c :=
    ⟨p.kin, kin?_of_process? hp, Option.isSome_iff_ne_none.2 hn.running, hmem⟩
  obtain ⟨k', hk', -, hmem'⟩ := hclaims.move hs.sound hm hr
  exact ⟨⟨q, hq, hn.announced ha⟩, h.selects,
    reapable_of_mem (hs.move m) hk' hmem' (recorded?_move_of_zombie hs hk hst m)⟩

/-- **Who was notified** looks next. -/
theorem Owed.wakes (h : s.Owed pid selector noHang c w 1) (hs : Reachable s) :
    (s.step pid).Owed pid selector noHang c w 0 := by
  obtain ⟨p, hp, hn⟩ := h.nears
  obtain ⟨p', k, hp', hmem, hk, hst⟩ := h.reapable
  obtain rfl := Option.some.inj (hp.symm.trans hp')
  cases hn with
  | @wakes t y ht hc ho hn =>
    have hnotified : p.notified y = true := by
      simp only [Process.notified, ho, Process.notices, bne_iff_ne]
      omega
    have hawake : p.step s.now pid t = (p.goto (.loop (.wait4 selector noHang)), []) := by
      simp [Process.step, hc, Process.awaken, hnotified]
    have hstep := step_of_not_isShared hp ht (by rw [hc]; rfl)
    have hq : (s.step pid).process? pid = some (p.goto (.loop (.wait4 selector noHang))) := by
      rw [hstep, process?_act_self hp, hawake]
    have hmem' : c ∈ (p.goto (.loop (.wait4 selector noHang))).kin.children := hmem
    exact ⟨⟨_, hq, .looks (by rw [Process.goto, ht]; rfl) rfl⟩, h.selects,
      reapable_of_mem (hs.move (.process pid)) (kin?_of_process? hq) hmem'
        (recorded?_move_of_zombie hs hk hst (.process pid))⟩

theorem mem_selected : c ∈ selected p selector ↔
    c ∈ p.children ∧ (selector = -1 ∨ (c : Int) = selector) := by
  simp [selected]

/-- The parent has its answer. -/
theorem Reaps.replies (h : s.Reaps pid c w s') (hp : s.process? pid = some p)
    (ht : p.task = some t) : s'.Replies pid (.ok (.child c w)) := by
  obtain ⟨p', hp', -, hq⟩ := h.caller
  obtain rfl := Option.some.inj (hp.symm.trans hp')
  have hx : ({ p with children := p.children.erase c }.answer (.ok (.child c w))).context? =
      some ⟨t.frames, .reply (.ok (.child c w)), p.inbox.blocked⟩ :=
    Process.context?_eq_some.2 ⟨t.root, by simp [Process.answer, Process.goto, ht], rfl⟩
  exact ⟨_, context?_eq_some.2 ⟨_, hq, hx⟩, rfl⟩

/-- **Who looks gets what he is owed.** -/
theorem Owed.grants (h : s.Owed pid selector noHang c w 0) (hs : Reachable s) :
    s.Grants pid selector noHang c w := by
  obtain ⟨p, hp, hn⟩ := h.nears
  obtain ⟨p', k, hp', hmem, hk, hst⟩ := h.reapable
  obtain rfl := Option.some.inj (hp.symm.trans hp')
  have hsel : c ∈ selected p selector := mem_selected.2 ⟨hmem, h.selects⟩
  have hz : k.status.isZombie = true := by rw [hst]; rfl
  cases hn with
  | @looks t ht hc =>
    have hlooks : s.Looks pid p selector noHang := ⟨hp, t, ht, hc⟩
    have hdead : ¬s.AllLive p selector := fun hlive => by simp [hlive.2 c hsel k hk] at hz
    cases look hs hlooks with
    | childless hnil => simp [hnil] at hsel
    | hurries hlive | leaves hlive | interrupted hlive | blocks hlive => exact absurd hlive hdead
    | @reaps src c' w' heldest hsrc hstep =>
      obtain ⟨k', hk', hst'⟩ := heldest.zombie
      have hreaps : s.Reaps pid c' w' _ :=
        reaps_of_zombie hs hp (mem_of_mem_selected heldest.selected) hk' hst' hsrc
      refine ⟨p, c', w', hlooks, heldest, by rw [hstep]; exact hreaps.replies hp ht, ?_⟩
      by_cases he : c' = c
      · subst he
        obtain rfl := Option.some.inj (hk.symm.trans hk')
        exact .inl ⟨rfl, Status.zombie.inj (hst'.symm.trans hst)⟩
      · exact .inr (heldest.first c hsel (Ne.symm he) k hk hz)

/-- How often it is the turn of a process. -/
def turns (pid : Pid) (moves : List Move) : Nat :=
  moves.countP fun | .process q => q == pid | _ => false

/-- **A move brings a process nearer to what it is owed**: a turn of its own grants it or is
one less to come. -/
theorem Owed.move (h : s.Owed pid selector noHang c w n) (hs : Reachable s)
    (hr : ∀ selector, m ≠ .host (.reap pid selector)) :
    (m = .process pid ∧ s.Grants pid selector noHang c w) ∨
      ∃ k, (s.move m).Owed pid selector noHang c w k ∧ k + turns pid [m] = n := by
  by_cases hm : m = .process pid
  · subst hm
    have hturn : turns pid [.process pid] = 1 := by simp [turns]
    obtain ⟨p, hp, hn⟩ := id h.nears
    cases hn with
    | looks => exact .inl ⟨rfl, h.grants hs⟩
    | wakes => exact .inr ⟨0, h.wakes hs, by rw [hturn]⟩
  · have hturn : turns pid [m] = 0 := by
      cases m with
      | process q => simpa [turns] using fun he => hm (congrArg Move.process he)
      | host | clock => rfl
    exact .inr ⟨n, h.others hs hm hr, by rw [hturn, Nat.add_zero]⟩

/-- **A parent that is owed a child gets one**, in one turn more than it is away from a look,
whatever happens between its turns. -/
theorem Owed.run (h : s.Owed pid selector noHang c w n) (hs : Reachable s)
    (hr : ∀ selector, Move.host (.reap pid selector) ∉ moves) :
    (∃ before after, moves = before ++ .process pid :: after ∧
      (s.run before).Grants pid selector noHang c w) ∨
    ∃ k, (s.run moves).Owed pid selector noHang c w k ∧ k + turns pid moves = n := by
  induction moves generalizing s n with
  | nil => exact .inr ⟨n, h, rfl⟩
  | cons m moves ih =>
    have hfirst : ∀ selector, m ≠ .host (.reap pid selector) := fun sel he =>
      hr sel (he ▸ List.mem_cons_self)
    rcases h.move hs hfirst with ⟨rfl, hg⟩ | ⟨k, ho, hk⟩
    · exact .inl ⟨[], moves, rfl, hg⟩
    rcases ih ho (hs.move m) fun sel hmem => hr sel (List.mem_cons_of_mem _ hmem) with
      ⟨before, after, rfl, hg⟩ | ⟨k', ho', hk'⟩
    · exact .inl ⟨m :: before, after, rfl, hg⟩
    · refine .inr ⟨k', ho', ?_⟩
      have hsum : turns pid ([m] ++ moves) = turns pid [m] + turns pid moves :=
        List.countP_append
      rw [List.singleton_append] at hsum
      omega

/-! ## A death in the midst of a wait -/

/-- **The parent of the dead hears of it.** -/
theorem announced_of_finish (hs : Reachable s) (hp : s.process? pid = some p)
    (ht : p.task = some t) (hc : t.control = .finish e) (hpar : p.parent = some parent)
    {q : Process} (hq : s.process? parent = some q) (hrun : q.task ≠ none) :
    ∃ q', (s.step pid).process? parent = some q' ∧ q.Announced q' ∧
      q.childNotices < q'.childNotices := by
  have hsrc : (⟨some pid, t.openCalls⟩ : Source).pid = some pid := rfl
  have hne : parent ≠ pid := fun he => hs.tied.other pid p.kin (kin?_of_process? hp) (he ▸ hpar)
  have hother : (some pid : Option Pid) ≠ some parent := fun he => hne (Option.some.inj he).symm
  have ho := hs.sound.ordered
  -- part by part: the mark, the burial, the report, the sweep
  obtain ⟨u, r, v, hu, hr, hkin, hv, hfinish⟩ := finish_parts hsrc hp t e
  have hou := hu.ordered ho
  have hlay : Evolves (some pid) true true u (u.lay ⟨some pid, t.openCalls⟩ pid r) :=
    evolves_lay hsrc
  have hol := hlay.ordered hou
  have hsweep : Evolves (some pid) true true v v.sweep := evolves_sweep (hv.ordered hol)
  obtain ⟨q₁, hq₁, ht₁, ha₁⟩ := hu.announced ho hother hq hrun
  obtain ⟨q₂, hq₂, ht₂, ha₂⟩ := hlay.announced hou hother hq₁ ht₁
  obtain ⟨q₂', hq₂', hlt⟩ : ∃ c', (u.lay ⟨some pid, t.openCalls⟩ pid r).process? parent = some c' ∧
      q₁.childNotices < c'.childNotices :=
    childNotices_lt_of_lay hou hsrc ((congrArg Kin.parent hkin).trans hpar) hne hq₁ ht₁
  obtain rfl := Option.some.inj (hq₂.symm.trans hq₂')
  obtain ⟨q₃, hq₃, ht₃, ha₃⟩ := hv.announced hol hother hq₂ ht₂
  obtain ⟨q₄, hq₄, -, ha₄⟩ := hsweep.announced (hv.ordered hol) hother hq₃ ht₃
  refine ⟨q₄, by rw [step_of_finish hp ht hc, hfinish]; exact hq₄,
    ((ha₁.trans ha₂).trans ha₃).trans ha₄, ?_⟩
  have h₁ := ha₁.children
  have h₃ := (ha₃.trans ha₄).children
  omega

/-- **The death of a child that its parent waits for** leaves the parent owed a child. -/
theorem owed_of_finish (hs : Reachable s) (hp : s.process? pid = some p) (ht : p.task = some t)
    (hc : t.control = .finish e) (hpar : p.parent = some parent)
    (hsel : selector = -1 ∨ (pid : Int) = selector) {x : Context}
    (hx : s.context? parent = some x) (hwait : x.control = .loop (.wait4 selector noHang) ∨
      ∃ y, x.control = .blocked (.wait4 selector noHang) y) :
    ∃ w n, n < 2 ∧ (s.step pid).Owed parent selector noHang pid w n := by
  obtain ⟨q, hq, hqx⟩ := context?_eq_some.1 hx
  obtain ⟨root, hqt, -⟩ := Process.context?_eq_some.1 hqx
  obtain ⟨q', hq', ha, hlt⟩ := announced_of_finish hs hp ht hc hpar hq (by simp [hqt])
  obtain ⟨src, w, u, hm⟩ := mourned_of_finish hs hp ht hc hpar
  have htask := ha.task.trans hqt
  rcases hwait with hloop | ⟨y, hblocked⟩
  · exact ⟨w, 0, by omega, ⟨q', hq', .looks htask hloop⟩, hsel, hm.reapable⟩
  · -- the listener had seen no more than there was to see
    obtain ⟨hocc, -, hseen, -⟩ := (hs.watchfulAt parent q x hq hqx).1.blocked _ _ hblocked
    have hocc : y.occasion = .child := hocc
    rw [hocc] at hseen
    exact ⟨w, 1, by omega, ⟨q', hq', .wakes htask hblocked hocc (Nat.lt_of_le_of_lt hseen hlt)⟩,
      hsel, hm.reapable⟩

end System

end PosixSignals
