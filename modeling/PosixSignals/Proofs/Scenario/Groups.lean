import PosixSignals.Proofs.Scenario.Course
import PosixSignals.Proofs.System.Lineage

/-!
# Process groups

A group is known by the number of its founder, which is free again once the
founder is forgotten, although its descendants may live on in the group. So
a group is one tree only as long as its number is not handed out while it
has members: then the members share a founder, only the founder leads them,
and a signal for the group reaches nobody else. Who is handed the number of
a group that others are in joins them without being kin to any.
-/

namespace PosixSignals

/-- The group that a caller means by a number that is not positive. -/
def Process.aims (p : Process) (n : Int) : Pid := if n < -1 then n.natAbs else p.pgid

/-- Whether a step of the outside is there to bring somebody into being. -/
def HostStep.bears : HostStep → Bool
  | .root _ | .newRoots .. | .fork _ => true
  | _ => false

namespace System

variable {s : System} {pid g t : Pid} {p q : Process} {src : Source} {m : Move}

/-! ## Moves and births -/

theorem comes_root {name : String} {task : Option Task} : s.Comes pid (.root pid name task) :=
  .root rfl rfl

theorem comes_child {parent : Pid} {task : Option Task} (hp : s.process? parent = some p) :
    s.Comes pid (p.childOf parent task) :=
  .child rfl (kin?_of_process? hp) rfl

theorem passes_beget {parent : Pid} {pids : IdPool} {task : Option Task}
    (ha : s.pids.alloc = (some pid, pids)) (hp : s.process? parent = some p) :
    Passes s (s.beget src parent pid pids p task) :=
  .birth ha (comes_child hp) (aged_update fun _ => rfl)

theorem passes_addRoot (name : String) (task : Option Task) :
    Passes s (s.addRoot src name task).2 := by
  rcases s.addRoot_cases src name task with h | ⟨pid, pids, ha, h⟩
  · rw [h]
    exact .aged (.refl s)
  · rw [h]
    exact .birth ha comes_root (.refl _)

theorem Alone.aged (h : s.Alone pid) : Aged s (s.step pid) := by
  obtain ⟨p, t, hp, -, -, he, hc⟩ := h
  rw [he]
  refine aged_act (fun p' hp' => ?_) fun p' hp' e hmem => ?_
  all_goals obtain rfl := Option.some.inj (hp.symm.trans hp')
  · exact congrArg Kin.pgid (Process.observed_kin.conduct hc)
  · exact not_isBirth (Process.isDealing_of_conduct hc hmem)

/-- **A step of a process is ageing, or it begets a child** and answers. -/
theorem aged_or_begotten (hs : s.Sound) (pid : Pid) : Aged s (s.step pid) ∨
    ∃ src child pids p r, s.pids.alloc = (some child, pids) ∧ s.process? pid = some p ∧
      offers? r = none ∧ s.step pid = (s.beget src pid child pids p (some {})).answer pid r := by
  have htakes := takes_step hs pid
  generalize he : s.step pid = s' at htakes ⊢
  cases htakes with
  | alone h => exact .inl h.aged
  | apart h => exact .inl h.aged
  | forked hsrc ha hp ht hr => exact .inr ⟨_, _, _, _, _, ha, hp, hr, rfl⟩
  | reaped hsrc hp hmem hc hz hr =>
    have ha : Affairs (some pid) false false s _ := affairs_reaped hsrc hp hmem hc hz hr
    have ho := (ha.evolves hs.ordered).ordered hs.ordered
    exact .inl ((aged_reap.trans (evolves_answer hr).aged).trans (aged_sweep ho))
  | ended hend hsrc hp ht hu hq hkin hv =>
    have ha : Affairs (some pid) true false s _ := affairs_ended hsrc rfl ht hu hq hkin hv
    have ho := (ha.evolves hs.ordered).ordered hs.ordered
    exact .inl (((hu.aged.trans aged_lay).trans hv.aged).trans (aged_sweep ho))

/-- A step of a process brings at most one birth. -/
theorem passes_step (hs : s.Sound) (pid : Pid) : Passes s (s.step pid) := by
  rcases aged_or_begotten hs pid with h | ⟨src, child, pids, p, r, ha, hp, hr, he⟩
  · exact .aged h
  · rw [he]
    exact (passes_beget ha hp).trans (evolves_answer hr).aged

/-- **A step of the outside is ageing**, unless it is there to bear somebody. -/
theorem aged_host (ho : s.Ordered) {step : HostStep} (hb : step.bears = false) :
    Aged s (s.host step).2 := by
  have hstep := s.intervention step
  generalize (s.host step).2 = s' at hstep ⊢
  cases hstep with
  | founded | refused | started | forked => simp [HostStep.bears] at hb
  | nothing => exact .refl s
  | told => exact (evolves_commanded _).aged
  | sent => exact (evolves_generate rfl).aged
  | @removed pid =>
    have hunlisted : Evolves none true false s (s.unlist pid) :=
      evolves_place fun _ => ⟨_, _, _, rfl⟩
    exact aged_unlist.trans (aged_sweep (hunlisted.ordered ho))
  | exited => exact (evolves_act rfl fun _ => .exit _).aged
  | stopped => exact (evolves_act rfl fun _ => .stop _).aged
  | resumed => exact (evolves_act rfl fun _ => .resume).aged
  | @reaped pid _ child =>
    have hdisowned : Evolves none true false s (s.disown pid child) :=
      evolves_place fun _ => ⟨_, _, _, rfl⟩
    exact aged_disown.trans (aged_sweep (hdisowned.ordered ho))

/-- So a step of the outside brings at most one birth, unless it starts several processes at
once. -/
theorem passes_host (ho : s.Ordered) (step : HostStep) (hn : ∀ name n, step ≠ .newRoots name n) :
    Passes s (s.host step).2 := by
  cases hb : step.bears with
  | false => exact .aged (aged_host ho hb)
  | true =>
    have hstep := s.intervention step
    generalize (s.host step).2 = s' at hstep ⊢
    cases hstep with
    | nothing => exact .aged (.refl s)
    | founded => exact passes_addRoot _ _
    | refused => exact (passes_addRoot _ _).trans (aged_note rfl)
    | started => exact absurd rfl (hn _ _)
    | @forked pid p hp =>
      rcases s.fork_cases .host pid p none with h | ⟨child, pids, ha, h⟩ <;> rw [h]
      · exact .aged (.refl s)
      · exact passes_beget ha hp
    | _ => simp [HostStep.bears] at hb

/-- **A move brings at most one birth**, unless it starts several processes at once. -/
theorem passes_or_addRoots (hs : s.Sound) (m : Move) : Passes s (s.move m) ∨
    ∃ name n, m = .host (.newRoots name n) := by
  cases m with
  | process pid => exact .inl (passes_step hs pid)
  | host step =>
    by_cases hn : ∃ name n, step = .newRoots name n
    · obtain ⟨name, n, rfl⟩ := hn
      exact .inr ⟨name, n, rfl⟩
    · exact .inl (passes_host hs.ordered step fun name n he => hn ⟨name, n, he⟩)
  | clock t =>
    have hwait : Evolves none false false s (s.waitUntil t) := .single (.wait t)
    exact .inl (.aged hwait.aged)

/-- The number of a process that is there is not handed out. -/
theorem births_addRoots (ho : s.Ordered) (hg : s.process? g ≠ none) (name : String) (n : Nat) :
    births g (s.addRoots name n).2.history = births g s.history := by
  induction n generalizing s with
  | zero => rfl
  | succ n ih =>
    unfold addRoots
    dsimp only
    rcases s.addRoot_cases .host name none with h | ⟨pid, pids, ha, h⟩
    · rw [h]
      exact ih ho hg
    · have hne : pid ≠ g := by
        rintro rfl
        exact hg (ho.fresh ha)
      rw [h, ih (ho.bear ha) (by rwa [process?_bear, if_neg (Ne.symm hne)]), births_bear,
        if_neg hne, Nat.add_zero]

theorem Lineal.addRoots (hl : s.Lineal) (name : String) (n : Nat) :
    (s.addRoots name n).2.Lineal :=
  addRoots_induct hl (fun _ h => (passes_addRoot name none).lineal h) n

/-- **Several roots leave a group united**, if none of them is handed its number while it
has members. -/
theorem United.addRoots (hu : s.United g) (ho : s.Ordered) (name : String) (n : Nat)
    (hd : births g (s.addRoots name n).2.history ≠ births g s.history → s.Deserted g) :
    (s.addRoots name n).2.United g := by
  induction n generalizing s with
  | zero => exact hu
  | succ n ih =>
    have hpass : Passes s (s.addRoot .host name none).2 := passes_addRoot name none
    have hrest : (s.addRoots name (n + 1)).2 =
        ((s.addRoot .host name none).2.addRoots name n).2 := rfl
    rw [hrest] at hd ⊢
    rcases s.addRoot_cases .host name none with h | ⟨pid, pids, ha, h⟩
    · rw [h] at hd ⊢
      exact ih hu ho hd
    rw [h] at hpass hd ⊢
    have ho' : (s.bear .host pid pids (.root pid name none)).Ordered := ho.bear ha
    by_cases hpid : pid = g
    · -- the number is handed out at once, and not again
      subst hpid
      have hrest := births_addRoots ho' (g := pid) (by simp [process?_bear]) name n
      have hdeserted : s.Deserted pid := hd (by
        rw [hrest, births_bear, if_pos rfl]
        omega)
      exact ih (hu.bear comes_root fun _ => hdeserted) ho' fun hne => absurd hrest hne
    · have hsame : births g (s.bear .host pid pids (.root pid name none)).history =
          births g s.history := by rw [births_bear, if_neg hpid, Nat.add_zero]
      refine ih (hu.bear comes_root fun he => absurd he hpid) ho' fun hne => ?_
      exact (hd (hsame ▸ hne)).bear comes_root hpid

/-! ## Runs -/

/-- **Whether a move spares a group**: the number of the group is not handed out while
anybody is in it. -/
def spares (g : Pid) (s : System) (m : Move) : Bool :=
  births g (s.move m).history == births g s.history ||
    s.processes.entries.all (·.2.pgid != g)

theorem deserted_of_spares (h : s.spares g m = true)
    (hne : births g (s.move m).history ≠ births g s.history) : s.Deserted g := by
  have hall : s.processes.entries.all (·.2.pgid != g) = true := by
    simpa [spares, hne] using h
  intro pid k hk
  obtain ⟨p, hp, rfl⟩ := kin?_eq_some.1 hk
  simpa [Process.kin] using List.all_eq_true.1 hall _ (Registry.mem_of_get? hp)

theorem lineal_initial : initial.Lineal := fun pid k h => by
  simp [kin?, initial, process?, Registry.get?] at h

theorem united_initial : initial.United g where
  together := ⟨⟨g, 0⟩, fun pid k h => by simp [kin?, initial, process?, Registry.get?] at h⟩
  led k h := by simp [kin?, initial, process?, Registry.get?] at h

theorem Lineal.move (hl : s.Lineal) (hs : s.Sound) (m : Move) : (s.move m).Lineal := by
  rcases passes_or_addRoots hs m with h | ⟨name, n, rfl⟩
  · exact h.lineal hl
  · exact hl.addRoots name n

/-- **Who spares a group leaves it united.** -/
theorem United.move (hu : s.United g) (hs : s.Sound) (hm : s.spares g m = true) :
    (s.move m).United g := by
  rcases passes_or_addRoots hs m with h | ⟨name, n, rfl⟩
  · exact h.united hu (deserted_of_spares hm)
  · exact hu.addRoots hs.ordered name n (deserted_of_spares hm)

theorem Reachable.lineal (h : Reachable s) : s.Lineal := by
  induction h with
  | initial => exact lineal_initial
  | move h m ih => exact ih.move h.sound m

/-- **The states of all runs on which nobody is handed the number of a group that others
are in.** -/
abbrev Unclaimed (s : System) (g : Pid) : Prop := RunOf (spares g) s

theorem united_of_unclaimed (h : s.Unclaimed g) : s.United g := by
  induction h with
  | initial => exact united_initial
  | move h hm ih => exact ih.move h.reachable.sound hm

/-- The members of a group, and nobody else, descend from its founder. -/
theorem United.tree (hu : s.United g) (hl : s.Lineal) : ∃ f : Founder, f.number = g ∧
    ∀ pid p, s.process? pid = some p → (p.pgid = g ↔ founder? s.history pid = some f) := by
  have hnumber : ∀ {pid p f}, s.process? pid = some p → founder? s.history pid = some f →
      p.pgid = f.number := by
    intro pid p f hp hf
    obtain ⟨moment, hm⟩ := hl pid p.kin (kin?_of_process? hp)
    exact congrArg Founder.number (Option.some.inj (hm.symm.trans hf))
  by_cases hmember : ∃ pid p, s.process? pid = some p ∧ p.pgid = g
  · obtain ⟨f, hf⟩ := hu.together
    have hall : ∀ {pid p}, s.process? pid = some p → p.pgid = g →
        founder? s.history pid = some f := fun {pid p} hp => hf pid p.kin (kin?_of_process? hp)
    obtain ⟨pid, p, hp, hg⟩ := hmember
    have hfg : f.number = g := (hnumber hp (hall hp hg)).symm.trans hg
    exact ⟨f, hfg, fun q p' hp' => ⟨hall hp', fun hf' => (hnumber hp' hf').trans hfg⟩⟩
  · -- nobody is in the group, and nobody descends from a founder with its number
    refine ⟨⟨g, 0⟩, rfl, fun pid p hp => ⟨fun hg => absurd ⟨pid, p, hp, hg⟩ hmember, ?_⟩⟩
    exact fun hf => hnumber hp hf

/-! ## Whom a signal for a group reaches -/

theorem mem_group (ho : s.Ordered) : t ∈ s.group g ↔
    ∃ q, s.listed? t = some q ∧ q.pgid = g ∧ q.status.isZombie = false := by
  constructor
  · intro h
    obtain ⟨e, he, rfl⟩ := List.mem_map.1 h
    obtain ⟨htable, hg⟩ := List.mem_filter.1 he
    obtain ⟨hmem, hl⟩ := List.mem_filter.1 htable
    have hq : s.process? e.1 = some e.2 := ho.ascending.get?_of_mem hmem
    exact ⟨e.2, Option.filter_eq_some_iff.2 ⟨hq, hl⟩, by simpa using hg⟩
  · rintro ⟨q, hq, hg, hz⟩
    obtain ⟨hq, hl⟩ := Option.filter_eq_some_iff.1 hq
    have hmem : (t, q) ∈ s.processes.entries := Registry.mem_of_get? hq
    exact List.mem_map.2 ⟨(t, q), List.mem_filter.2 ⟨List.mem_filter.2 ⟨hmem, hl⟩,
      by simp [hg, hz]⟩, rfl⟩

/-- Whom a number addresses that is not positive is in the group that it means. -/
theorem mem_group_of_addressed {n : Int} (hn : n ≤ 0) (h : t ∈ s.addressed p n) :
    t ∈ s.group (p.aims n) := by
  unfold addressed at h
  rw [if_neg (by omega)] at h
  unfold Process.aims
  split at h
  · next h0 => rwa [if_neg (by omega)]
  split at h
  · next h1 =>
    rw [if_neg (by omega)]
    exact (List.mem_filter.1 h).1
  · rwa [if_pos (by omega)]

theorem process?_sendAll {info : SignalInfo} {targets : List Pid} (h : t ∉ targets) :
    (s.sendAll src info targets).process? t = s.process? t := by
  unfold sendAll
  induction targets generalizing s with
  | nil => rfl
  | cons c targets ih =>
    have hne : t ≠ c := fun he => h (he ▸ List.mem_cons_self)
    have hnot : t ∉ targets := fun hmem => h (List.mem_cons_of_mem c hmem)
    rw [List.foldl_cons, ih hnot, process?_act, if_neg hne]

/-- **A signal leaves alone whom it is not addressed to.** -/
theorem process?_kill {recipient : Recipient} {number : Nat} (hne : t ≠ pid)
    (h : t ∉ s.addressed p (recipientNumber pid p recipient)) :
    (s.kill src pid p recipient number).process? t = s.process? t := by
  have hanswer : ∀ (s : System) (r : Reply), (s.answer pid r).process? t = s.process? t :=
    fun s r => by rw [answer, update, process?_act, if_neg hne]
  rcases s.kill_cases src pid p recipient number with ⟨e, he⟩ | he | ⟨sig, he⟩ <;> rw [he]
  · exact hanswer s _
  · exact hanswer s _
  · rw [hanswer, process?_sendAll h]

/-- **A process group is one process tree**, on every run on which nobody is handed the
number of the group while others are in it. Its members, and nobody else, descend
from one founder, and only a process that was started as a root leads it. A signal
for the group leaves everybody alone who is not of that tree, and one for the
group without its leader spares nobody who was forked. -/
theorem group_is_tree (h : s.Unclaimed g) : ∃ f : Founder, f.number = g ∧
    (∀ pid p, s.process? pid = some p → (p.pgid = g ↔ founder? s.history pid = some f)) ∧
    (∀ p, s.process? g = some p → p.pgid = g → rooted g s.history = true) ∧
    (∀ src caller p recipient number, recipientNumber caller p recipient ≤ 0 →
      p.aims (recipientNumber caller p recipient) = g →
      ∀ t, t ≠ caller → founder? s.history t ≠ some f →
        (s.kill src caller p recipient number).process? t = s.process? t) ∧
    ∀ p t q, p.pgid = g → s.listed? t = some q → q.status.isZombie = false →
      founder? s.history t = some f → rooted t s.history = false → t ∈ s.addressed p (-1) := by
  have hs : s.Sound := h.reachable.sound
  have hl : s.Lineal := h.reachable.lineal
  have hu : s.United g := united_of_unclaimed h
  obtain ⟨f, hnumber, htree⟩ := hu.tree hl
  have hled : ∀ p, s.process? g = some p → p.pgid = g → rooted g s.history = true :=
    fun p hp => hu.led p.kin (kin?_of_process? hp)
  refine ⟨f, hnumber, htree, hled, fun src caller p recipient number hn haims t hne hf => ?_,
    fun p t q hg hq hz hf hforked => ?_⟩
  · refine process?_kill hne fun hmem => hf ?_
    obtain ⟨q, hq, hg, -⟩ := (mem_group hs.ordered).1 (mem_group_of_addressed hn hmem)
    exact (htree t q (Option.filter_eq_some_iff.1 hq).1).1 (hg.trans haims)
  · have hq' : s.process? t = some q := (Option.filter_eq_some_iff.1 hq).1
    have hqg : q.pgid = g := (htree t q hq').2 hf
    have hleader : t ≠ g := by
      rintro rfl
      simp [hled q hq' hqg] at hforked
    have hgroup : t ∈ s.group g := (mem_group hs.ordered).2 ⟨q, hq, hqg, hz⟩
    show t ∈ (s.group p.pgid).filter (· != p.pgid)
    rw [hg]
    exact List.mem_filter.2 ⟨hgroup, by simpa using hleader⟩

/-- A root forks a child, and another root is there beside them. -/
def neighbouring : List Move :=
  [Move.host (.root "founder"),
    .host (.command 1 (.perform { request := .system .fork }))] ++
  List.replicate 6 (Move.process 1) ++ [Move.host (.root "neighbour")]

/-- **The forked child signals its group**, and the neighbour is left alone. -/
theorem group_is_tree_of_neighbouring :
    let s := initial.run neighbouring
    s.Unclaimed 1 ∧ ∃ f p, s.process? 2 = some p ∧ founder? s.history 2 = some f ∧
      founder? s.history 1 = some f ∧ (s.process? 3).isSome = true ∧
      (s.kill ⟨some 2, []⟩ 2 p (.number 0) 15).process? 3 = s.process? 3 := by
  have hrun : (initial.run neighbouring).Unclaimed 1 := RunOf.run .initial (by cbv)
  have hone : (((initial.run neighbouring).process? 1).map (·.pgid)) = some 1 := by cbv
  have htwo : (((initial.run neighbouring).process? 2).map (·.pgid)) = some 1 := by cbv
  have hthree : founder? (initial.run neighbouring).history 3 = some ⟨3, 4⟩ := by cbv
  obtain ⟨c, hc, hcg⟩ := Option.map_eq_some_iff.1 hone
  obtain ⟨p, hp, hpg⟩ := Option.map_eq_some_iff.1 htwo
  obtain ⟨f, hf, htree, -, hkill, -⟩ := group_is_tree hrun
  have hother : founder? (initial.run neighbouring).history 3 ≠ some f := by
    rw [hthree]
    exact fun he => by simp [← Option.some.inj he] at hf
  exact ⟨hrun, f, p, hp, (htree 2 p hp).1 hpg, (htree 1 c hc).1 hcg, by cbv,
    hkill _ 2 p (.number 0) 15 (Int.le_refl 0) hpg 3 (by decide) hother⟩

/-! ## A number that is claimed again -/

theorem move_root {pids : IdPool} {name : String} (ha : s.pids.alloc = (some pid, pids)) :
    s.move (.host (.root name)) =
      s.bear .host pid pids (.root pid name (some { root := true })) := by
  simp [move, host, addRoot, ha, bear, Process.root]

/-- **A root that is handed the number of a group joins whoever is in it**: they share the
group and no founder, and what the root sends to its group reaches them. -/
theorem joins_of_alloc (h : Reachable s) {pids : IdPool} (name : String)
    (hq : s.listed? pid = some q) (hz : q.status.isZombie = false)
    (ha : s.pids.alloc = (some q.pgid, pids)) :
    let s' := s.move (.host (.root name))
    s'.listed? pid = some q ∧ ∃ p, s'.listed? q.pgid = some p ∧ p.pgid = q.pgid ∧
      founder? s'.history q.pgid ≠ founder? s'.history pid ∧ pid ∈ s'.addressed p 0 := by
  have ho' : (s.move (.host (.root name))).Ordered := (h.move _).sound.ordered
  obtain ⟨hq, hl⟩ := Option.filter_eq_some_iff.1 hq
  have hne : pid ≠ q.pgid := fun he => by
    have hfresh := h.sound.ordered.fresh ha
    rw [← he, hq] at hfresh
    simp at hfresh
  rw [move_root ha] at ho' ⊢
  have hq' : (s.bear .host q.pgid pids
      (.root q.pgid name (some { root := true }))).listed? pid = some q := by
    rw [listed?, process?_bear, if_neg hne, hq]
    exact Option.filter_some_pos hl
  refine ⟨hq', .root q.pgid name (some { root := true }), ?_, rfl, ?_,
    (mem_group ho').2 ⟨q, hq', rfl, hz⟩⟩
  · rw [listed?, process?_bear, if_pos rfl]
    rfl
  · -- the founder of the others was born earlier
    obtain ⟨moment, hm⟩ := h.lineal pid q.kin (kin?_of_process? hq)
    have hlt : moment < s.history.length := moment_lt hm
    rw [founder?_bear, if_pos rfl, founder?_bear, if_neg (Ne.symm hne), hm]
    intro he
    have hmoment : s.history.length = moment := congrArg Founder.moment (Option.some.inj he)
    omega

/-- A root forks a child and ends. The child lives on, and all other numbers are used
up, so that the number of the root is the next. -/
def usurping : List Move :=
  [Move.host (.root "founder"),
    .host (.command 1 (.perform { request := .system .fork }))] ++
  List.replicate 6 (Move.process 1) ++
  [Move.host (.command 1 (.finish 0)), .process 1, .host (.newRoots "idle" 254)]

theorem usurping_state : (initial.run usurping).pids.alloc.1 = some 1 ∧
    ((initial.run usurping).listed? 2).map (fun q => (q.pgid, q.status.isZombie)) =
      some (1, false) := by decide +kernel

/-- **Strangers in one group**: the second root with the number `1` is of the group of the
first one's child, and what it sends to its own group goes to that child as well. -/
theorem strangers_in_one_group :
    let s := (initial.run usurping).move (.host (.root "stranger"))
    Reachable s ∧ ∃ p q, s.listed? 1 = some p ∧ s.listed? 2 = some q ∧ p.pgid = q.pgid ∧
      founder? s.history 1 ≠ founder? s.history 2 ∧ 2 ∈ s.addressed p 0 := by
  have hr : Reachable (initial.run usurping) := Reachable.initial.run usurping
  obtain ⟨halloc, hchild⟩ := usurping_state
  obtain ⟨q, hq, hqs⟩ := Option.map_eq_some_iff.1 hchild
  obtain ⟨hg, hz⟩ := Prod.mk.inj hqs
  have ha : (initial.run usurping).pids.alloc =
      (some q.pgid, (initial.run usurping).pids.alloc.2) := by rw [hg, ← halloc]
  obtain ⟨hq', p, hp, hpg, hf, hmem⟩ := joins_of_alloc hr "stranger" hq hz ha
  rw [hg] at hp hf
  exact ⟨hr.move _, p, q, hp, hq', hpg, hf, hmem⟩

end System

end PosixSignals
