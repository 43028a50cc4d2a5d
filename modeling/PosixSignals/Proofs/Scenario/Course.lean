import PosixSignals.Proofs.Scenario.Moves
import PosixSignals.Proofs.System.Affair
import PosixSignals.Proofs.System.Bookkeeping

/-!
# The course of a run

Every move of a run is a step by which one process acts alone, or it is
made of affairs. So a property holds at every moment of every run, once
conduct and affairs keep it. Some moves of the outside are not natural:
they take a process off a list or out of the table, or fork the dead, which
no process can do.
-/

namespace PosixSignals

/-- Who acts in a move, if anybody. -/
def Move.actor : Move → Option Pid
  | .process pid => some pid
  | .host step => System.focusOf step
  | .clock _ => none

namespace System

variable {s s' : System} {mortal wild : Bool} {pid : Pid} {p : Process} {m : Move}

/-- **Whether a move does nothing that processes could not bring about**: nobody is
taken off a list or out of the table, and the dead are not forked. -/
def natural (s : System) : Move → Bool
  | .host (.remove _) | .host (.reap ..) => false
  | .host (.fork pid) => !(s.listed? pid).any (·.status.isZombie)
  | _ => true

/-! ## Runs of one kind -/

/-- **The states of all runs whose every move is of a kind**, when it is made. -/
inductive RunOf (kind : System → Move → Bool) : System → Prop
  | initial : RunOf kind .initial
  | move {s : System} (h : RunOf kind s) {m : Move} (hm : kind s m = true) : RunOf kind (s.move m)

/-- Whether every move of a run is of a kind. -/
def allOf (kind : System → Move → Bool) (s : System) : List Move → Bool
  | [] => true
  | m :: moves => kind s m && (s.move m).allOf kind moves

/-- Moves of a kind lead on to states of runs of that kind. -/
theorem RunOf.run {kind : System → Move → Bool} {moves : List Move} (h : RunOf kind s)
    (hm : s.allOf kind moves = true) : RunOf kind (s.run moves) := by
  induction moves generalizing s with
  | nil => exact h
  | cons m moves ih =>
    obtain ⟨hm, hrest⟩ := Bool.and_eq_true_iff.1 hm
    exact ih (h.move hm) hrest

/-- Runs of a kind are runs. -/
theorem RunOf.reachable {kind : System → Move → Bool} (h : RunOf kind s) : Reachable s := by
  induction h with
  | initial => exact .initial
  | move _ _ ih => exact ih.move _

/-! ## Steps of the outside -/

/-- A root that is started is an affair, or nothing. -/
theorem affairs_addRoot (name : String) {task : Option Task} (ht : Waiting task) :
    Affairs none mortal wild s (s.addRoot .host name task).2 := by
  rcases s.addRoot_cases .host name task with h | ⟨pid, pids, ha, h⟩
  · rw [h]
  · rw [h]
    exact .single (.root rfl ha ht)

/-- Who is told what to do has kin as before. -/
theorem evolves_commanded (c : Command) :
    Evolves (some pid) false false s (s.update pid (commanded c)) :=
  evolves_mildly fun p => by
    cases c with
    | perform i => exact Process.mild_silent (Process.unseen_enter rfl rfl)
    | finish code => exact Process.mild_silent (Process.unseen_goto rfl rfl)

/-- A command concerns nobody's kin. -/
theorem evolves_command (c : Command) : Evolves (some pid) false false s (s.command pid c).2 := by
  have hstep : s.Intervention (.command pid c) (s.command pid c).2 := s.intervention _
  generalize (s.command pid c).2 = s' at hstep ⊢
  cases hstep with
  | nothing => exact .refl
  | told => exact evolves_commanded c

/-- **A step of the outside is made of affairs**, natural ones if it is. -/
theorem affairs_host (step : HostStep) (hw : s.natural (.host step) = false → wild = true) :
    Affairs (focusOf step) mortal wild s (s.host step).2 := by
  have hfounded : ∀ {name}, Affairs none mortal wild s
      (s.addRoot .host name (some { root := true })).2 :=
    affairs_addRoot _ fun t ht => Option.some.inj ht ▸ ⟨rfl, rfl⟩
  have hact : ∀ {pid f}, (∀ p, Deed none false false pid p (f p)) →
      Affairs none mortal wild s (s.act .host pid f) := fun h =>
    .single (.apart (evolves_act rfl h))
  have hstep := s.intervention step
  generalize (s.host step).2 = s' at hstep ⊢
  cases hstep with
  | nothing => exact .refl
  | told => exact (evolves_commanded _).affairs
  | founded => exact hfounded
  | refused => exact hfounded.tail (.apart (evolves_note rfl rfl))
  | started =>
    exact addRoots_induct .refl (fun _ h => h.trans (affairs_addRoot _ fun _ ht => by simp at ht)) _
  | @forked pid p hp hl =>
    have hzombie : p.task = none → p.status.isZombie = true → wild = true :=
      fun _ hz => hw (by simp [natural, hl, hz])
    rcases s.fork_cases .host pid p none with h | ⟨child, pids, ha, h⟩
    · rw [h]
    · rw [h]
      exact .single (.fork rfl ha hp (fun _ ht => by simp at ht) hzombie)
  | sent => exact hact fun _ => .generate _
  | removed => exact .head (.unlisted (hw rfl)) (.single .swept)
  | exited => exact hact fun _ => .exit _
  | stopped => exact hact fun _ => .stop _
  | resumed => exact hact fun _ => .resume
  | reaped hr =>
    obtain ⟨-, c, hc, hst⟩ := ready?_eq_some hr
    exact .head (.disowned (hw rfl) hc (by rw [hst]; rfl)) (.single .swept)

/-! ## All moves -/

/-- A step by which a process acts alone. -/
def Alone (s : System) (pid : Pid) : Prop :=
  ∃ p t, s.process? pid = some p ∧ p.task = some t ∧ t.control.isShared = false ∧
    s.step pid = s.act ⟨some pid, t.openCalls⟩ pid (·.step s.now pid t) ∧
    p.Conduct pid (p.step s.now pid t)

/-- What concerns the process alone is conduct. -/
theorem alone_of_not_isShared (hs : s.Sound) {t : Task} (hp : s.process? pid = some p)
    (ht : p.task = some t) (hl : t.control.isShared = false) : s.Alone pid := by
  have hx : p.context? = some ⟨t.frames, t.control, p.inbox.blocked⟩ := by
    simp [Process.context?, ht]
  have hstacked := (hs.contexts pid _ (context?_eq_some.2 ⟨p, hp, hx⟩)).stacked
  exact ⟨p, t, hp, ht, hl, step_of_not_isShared hp ht hl,
    Process.conduct_step ht (hs.inboxes pid p hp) hstacked⟩

/-- Whether the main routine of a process is about to end. -/
def Finishing (s : System) (pid : Pid) : Prop :=
  ∃ p t e, s.process? pid = some p ∧ p.task = some t ∧ t.control = .finish e

/-- **What a step of a process comes to**: conduct of the process alone, changes that
leave kin alone, or one of the three affairs that a process has with its kin. -/
inductive Takes (s : System) (pid : Pid) : System → Prop
  | alone (h : s.Alone pid) : Takes s pid (s.step pid)
  | apart {s' : System} (h : Evolves (some pid) false false s s') : Takes s pid s'
  | forked {src : Source} {child : Pid} {pids : IdPool} {p : Process} {r : Reply}
      (hsrc : src.pid = some pid) (ha : s.pids.alloc = (some child, pids))
      (hp : s.process? pid = some p) (ht : p.task ≠ none) (hr : offers? r = none) :
      Takes s pid ((s.beget src pid child pids p (some {})).answer pid r)
  | reaped {src : Source} {child : Pid} {p c : Process} {r : Reply} (hsrc : src.pid = some pid)
      (hp : s.process? pid = some p) (hmem : child ∈ p.children)
      (hc : s.process? child = some c) (hz : c.status.isZombie = true) (hr : offers? r = none) :
      Takes s pid ((s.reap src pid child).answer pid r).sweep
  /-- The process marks its end, is laid to rest, and the system is swept. -/
  | ended {src : Source} {u v : System} {p q : Process} (hend : s.Finishing pid)
      (hsrc : src.pid = some pid) (hp : s.process? pid = some p) (ht : p.task ≠ none)
      (hu : Evolves (some pid) false false s u) (hq : u.process? pid = some q)
      (hkin : q.kin = p.kin) (hv : Evolves (some pid) false false (u.lay src pid q) v) :
      Takes s pid v.sweep

/-- **Every step of a process is one of five**: conduct, changes apart from kin, a fork, a reaping,
an end. -/
theorem takes_step (hs : s.Sound) (pid : Pid) : s.Takes pid (s.step pid) := by
  have hsrc : ∀ t : Task, (⟨some pid, t.openCalls⟩ : Source).pid = some pid := fun _ => rfl
  have hstride := s.stride pid
  generalize s.step pid = s' at hstride ⊢
  cases hstride with
  | nobody => exact .apart .refl
  | alone hp ht hl =>
    exact step_of_not_isShared hp ht hl ▸ .alone (alone_of_not_isShared hs hp ht hl)
  | @executes p t call hp ht hc =>
    have hrun : p.task ≠ none := by simp [ht]
    by_cases hfork : call = .fork
    · subst hfork
      show s.Takes pid (s.forkCall _ pid p)
      rcases forkCall_cases (s := s) with he | ⟨child, pids, r, ha, hr, he⟩
      · exact .apart he
      · exact he ▸ .forked (hsrc t) ha hp hrun hr
    · exact .apart (evolves_execute (hsrc t) hfork)
  | @looks p t selector noHang hp =>
    rcases wait4_cases (s := s) (hsrc t) selector noHang with
      he | ⟨child, c, r, hmem, hc, hz, hr, he⟩
    · exact .apart he
    · exact he ▸ .reaped (hsrc t) hp hmem hc hz hr
  | @finishes p t e hp ht hc =>
    have hrun : p.task ≠ none := by simp [ht]
    obtain ⟨u, q, v, hu, hq, hkin, hv, he⟩ := finish_parts (hsrc t) hp t e
    exact he ▸ .ended ⟨p, t, e, hp, ht, hc⟩ (hsrc t) hp hrun hu hq hkin hv

section Parts

variable {r : Reply} {src : Source} (hsrc : src.pid = some pid)
include hsrc

/-- A fork is an affair, and its answer is none of the kin's. -/
theorem affairs_forked {child : Pid} {pids : IdPool} (ha : s.pids.alloc = (some child, pids))
    (hp : s.process? pid = some p) (ht : p.task ≠ none) (hr : offers? r = none) :
    Affairs (some pid) mortal wild s ((s.beget src pid child pids p (some {})).answer pid r) := by
  have hw : Waiting (some {}) := fun t ht => Option.some.inj ht ▸ ⟨rfl, rfl⟩
  have hfork : Affair (some pid) mortal wild s (s.beget src pid child pids p (some {})) :=
    .fork hsrc ha hp hw fun hnone => absurd hnone ht
  exact .head hfork (evolves_answer hr).affairs

/-- So is a reaping, and its answer. -/
theorem affairs_reaped {child : Pid} {c : Process} (hp : s.process? pid = some p)
    (hmem : child ∈ p.children) (hc : s.process? child = some c)
    (hz : c.status.isZombie = true) (hr : offers? r = none) :
    Affairs (some pid) mortal wild s ((s.reap src pid child).answer pid r) :=
  .head (.reaped hsrc rfl hp hmem hc hz) (evolves_answer hr).affairs

/-- An end is marked, the process is laid to rest, and the rest is apart. -/
theorem affairs_ended {u v : System} {q : Process} (hm : mortal = true) (ht : p.task ≠ none)
    (hu : Evolves (some pid) false false s u) (hq : u.process? pid = some q)
    (hkin : q.kin = p.kin) (hv : Evolves (some pid) false false (u.lay src pid q) v) :
    Affairs (some pid) mortal wild s v := by
  have hrunning : q.task.isSome = p.task.isSome := congrArg Kin.running hkin
  have hlay : Affair (some pid) mortal wild u (u.lay src pid q) := by
    refine .ended hm hsrc rfl hq ?_
    rwa [← Option.isSome_iff_ne_none, hrunning, Option.isSome_iff_ne_none]
  exact hu.affairs.trans (.head hlay hv.affairs)

end Parts

/-- **A step is conduct of the process alone, or it is made of affairs**, of which
none is an end unless the process is at its end. -/
theorem alone_or_affairs_of_step (hs : s.Sound) (pid : Pid)
    (hm : s.Finishing pid → mortal = true) :
    s.Alone pid ∨ Affairs (some pid) mortal wild s (s.step pid) := by
  have htakes := takes_step hs pid
  generalize s.step pid = s' at htakes ⊢
  cases htakes with
  | alone h => exact .inl h
  | apart h => exact .inr h.affairs
  | forked hsrc ha hp ht hr => exact .inr (affairs_forked hsrc ha hp ht hr)
  | reaped hsrc hp hmem hc hz hr =>
    exact .inr ((affairs_reaped hsrc hp hmem hc hz hr).tail .swept)
  | ended hend hsrc hp ht hu hq hkin hv =>
    exact .inr ((affairs_ended hsrc (hm hend) ht hu hq hkin hv).tail .swept)

/-- **What every deed respects, a step respects that concerns others**, as long as the
process does not end by it. -/
theorem kept_of_isShared {R : Process → Process → Prop} (hrefl : ∀ p, R p p)
    (htrans : ∀ p q r, R p q → R q r → R p r) (hparent : ∀ p, R p { p with parent := none })
    (hdeed : ∀ p r, Deed (some pid) true false pid p r → R p r.1) (hs : s.Sound) {t : Task}
    (hp : s.process? pid = some p) (ht : p.task = some t) (hl : t.control.isShared = true)
    (hf : ∀ e, t.control ≠ .finish e) : ∃ q, (s.step pid).process? pid = some q ∧ R p q := by
  have hnf : s.Finishing pid → false = true := by
    rintro ⟨p', t', e, hp', ht', he⟩
    obtain rfl := Option.some.inj (hp.symm.trans hp')
    obtain rfl := Option.some.inj (ht.symm.trans ht')
    exact absurd he (hf e)
  have hcase : s.Alone pid ∨ Affairs (some pid) false false s (s.step pid) :=
    alone_or_affairs_of_step hs pid hnf
  rcases hcase with ⟨p', t', hp', ht', hl', -⟩ | ha
  · obtain rfl := Option.some.inj (hp.symm.trans hp')
    obtain rfl := Option.some.inj (ht.symm.trans ht')
    simp [hl] at hl'
  · obtain ⟨q, hq, -, hr⟩ := (ha.evolves hs.ordered).kept hrefl htrans hparent hdeed hs.ordered
      (by simp) hp (by simp [ht])
    exact ⟨q, hq, hr⟩

/-- **A move is conduct of one process alone, or it is made of affairs**, natural
ones if the move is. -/
theorem alone_or_affairs (hs : s.Sound) (m : Move) :
    (∃ pid, m = .process pid ∧ s.Alone pid) ∨ Affairs m.actor true (!s.natural m) s (s.move m) := by
  cases m with
  | process pid =>
    exact (alone_or_affairs_of_step hs pid fun _ => rfl).imp_left fun h => ⟨pid, rfl, h⟩
  | host step => exact .inr (affairs_host step fun h => by simp [h])
  | clock t => exact .inr (.single (.apart (.single (.wait t))))

/-- A step alone changes nobody's place. -/
theorem Alone.kin? (h : s.Alone pid) (q : Pid) : (s.step pid).kin? q = s.kin? q := by
  obtain ⟨p, t, hp, -, -, he, hc⟩ := h
  rw [he]
  refine kin?_act_same fun p' hp' => ?_
  obtain rfl := Option.some.inj (hp.symm.trans hp')
  exact Process.observed_kin.conduct hc

/-- **Every move keeps children known, and their parents named.** -/
theorem Linked.move (hl : s.Linked) (hs : s.Sound) (m : Move) : (s.move m).Linked := by
  rcases alone_or_affairs hs m with ⟨pid, rfl, h⟩ | h
  · refine hl.map (g := fun _ k => k) (fun q => ?_) (fun _ _ _ h => h) fun _ _ _ _ _ _ _ h => h
    rw [Option.map_id']
    exact h.kin? q
  · exact (h.linked hs.ordered hl).2

/-- **In every reachable state children are known and name their parent.** -/
theorem Reachable.linked (h : Reachable s) : s.Linked := by
  induction h with
  | initial => exact linked_initial
  | move h m ih => exact ih.move h.sound m

/-- The history only grows. -/
theorem exists_history_move (hs : s.Sound) (m : Move) :
    ∃ new, (s.move m).history = new ++ s.history := by
  rcases alone_or_affairs hs m with ⟨pid', rfl, p, t, hp, -, -, he, -⟩ | ha
  · have hmove : s.move (.process pid') = s.act ⟨some pid', t.openCalls⟩ pid'
        (·.step s.now pid' t) := he
    exact ⟨_, hmove ▸ act_history hp⟩
  · obtain ⟨new, hn⟩ := (ha.evolves hs.ordered).noted
    exact ⟨new, hn.history⟩

/-- The history only grows, in every run. -/
theorem exists_history_run (hs : Reachable s) (moves : List Move) :
    ∃ new, (s.run moves).history = new ++ s.history := by
  induction moves generalizing s with
  | nil => exact ⟨[], rfl⟩
  | cons m moves ih =>
    obtain ⟨new, hnew⟩ := exists_history_move hs.sound m
    obtain ⟨later, hlater⟩ := ih (hs.move m)
    refine ⟨later ++ new, ?_⟩
    rw [List.append_assoc, ← hnew]
    exact hlater

/-! ## What others respect -/

/-- **Nothing is done in the name of a process in the midst of something** but by itself: only a
command could be, and that reaches an idle process. -/
theorem move_of_midst (hp : s.process? pid = some p) {x : Context} (hx : p.context? = some x)
    (hi : x.control ≠ .idle) (hm : m ≠ .process pid) (ha : m.actor = some pid) : s.move m = s := by
  cases m with
  | process pid' => exact absurd (congrArg Move.process (Option.some.inj ha)) hm
  | clock t => simp [Move.actor] at ha
  | host step =>
    obtain ⟨c, rfl⟩ := command_of_focusOf ha
    rcases s.command_cases pid c with he | ⟨p', y, y', f, hp', hy, htold, -⟩
    · exact he
    · obtain rfl := Option.some.inj (hp.symm.trans hp')
      obtain rfl := Option.some.inj (hx.symm.trans hy)
      cases htold <;> exact absurd rfl hi

/-- **What every deed of others respects, their moves respect**, to a process in the
midst of something. -/
theorem kept_of_others {R : Process → Process → Prop} (hrefl : ∀ p, R p p)
    (htrans : ∀ p q r, R p q → R q r → R p r) (hparent : ∀ p, R p { p with parent := none })
    (hdeed : ∀ actor p r, actor ≠ some pid → Deed actor true true pid p r → R p r.1)
    (hs : s.Sound) (hp : s.process? pid = some p) {x : Context} (hx : p.context? = some x)
    (hi : x.control ≠ .idle) (hm : m ≠ .process pid) :
    ∃ q, (s.move m).process? pid = some q ∧ R p q := by
  have ht : p.task ≠ none := fun ht => by simp [Process.context?, ht] at hx
  by_cases ha : m.actor = some pid
  · exact ⟨p, by rw [move_of_midst hp hx hi hm ha, hp], hrefl p⟩
  · rcases alone_or_affairs hs m with ⟨pid', rfl, p', t, -, -, -, he, -⟩ | h
    · have hne : pid ≠ pid' := fun he => ha (congrArg some he.symm)
      exact ⟨p, by rw [show s.move (.process pid') = s.step pid' from rfl, he, process?_act,
        if_neg hne, hp], hrefl p⟩
    · obtain ⟨q, hq, -, hr⟩ := (h.evolves hs.ordered).kept hrefl htrans hparent
        (fun p r => hdeed _ p r ha) hs.ordered (fun _ => ha) hp ht
      exact ⟨q, hq, hr⟩

/-! ## What holds of everybody -/

/-- **A property of processes that lasts**: those that are born have it, and nothing
that is done to or by a process takes it away. -/
structure Lasting (P : Process → Prop) : Prop where
  root (pid : Pid) (name : String) (task : Option Task) : P (.root pid name task)
  child (p : Process) (parent : Pid) (task : Option Task) (h : P p) : P (p.childOf parent task)
  unparent (p : Process) (h : P p) : P { p with parent := none }
  deed {actor : Option Pid} {pid : Pid} {p : Process} {r : Process × List Event}
    (hd : Deed actor true true pid p r) (h : P p) : P r.1
  conduct {pid : Pid} {p : Process} {r : Process × List Event} (hc : p.Conduct pid r) (h : P p) :
    P r.1

/-- What lasts is not taken away by a change. -/
theorem Happens.lasting {P : Process → Prop} {actor : Option Pid} (hP : Lasting P)
    (h : Happens actor true true s s') (hall : ∀ pid p, s.process? pid = some p → P p) :
    ∀ pid p, s'.process? pid = some p → P p := by
  intro pid q hq
  cases h with
  | remark | wait => exact hall pid q hq
  | @deed src pid' f _ hf =>
    rcases process?_act_eq_some.1 hq with ⟨-, p, hp, rfl⟩ | ⟨-, hq⟩
    · exact hP.deed (hf p hp) (hall _ p hp)
    · exact hall pid q hq
  | root =>
    rcases process?_bear_eq_some.1 hq with ⟨-, rfl⟩ | ⟨-, hq⟩
    · exact hP.root ..
    · exact hall pid q hq
  | child _ _ _ hp =>
    rcases process?_bear_eq_some.1 hq with ⟨-, rfl⟩ | ⟨-, hq⟩
    · exact hP.child _ _ _ (hall _ _ hp)
    · exact hall pid q hq
  | forget =>
    obtain ⟨-, p, hp, rfl | rfl⟩ := exists_of_process?_drop hq
    · exact hall pid p hp
    · exact hP.unparent p (hall pid p hp)

/-- What lasts is not taken away by any number of changes. -/
theorem Evolves.lasting {P : Process → Prop} {actor : Option Pid} (hP : Lasting P)
    (h : Evolves actor true true s s') (hall : ∀ pid p, s.process? pid = some p → P p) :
    ∀ pid p, s'.process? pid = some p → P p := by
  induction h with
  | refl => exact hall
  | tail _ h ih => exact h.lasting hP ih

/-- **What lasts holds of every process at every moment of every run.** -/
theorem Reachable.lasting {P : Process → Prop} (hP : Lasting P) (h : Reachable s) :
    ∀ pid p, s.process? pid = some p → P p := by
  induction h with
  | initial =>
    intro pid p hp
    simp [System.initial, System.process?, Registry.get?] at hp
  | move h m ih =>
    rcases alone_or_affairs h.sound m with ⟨pid', rfl, p', t, hp', -, -, he, hc⟩ | ha
    · intro pid q hq
      rw [show System.move _ (.process pid') = System.step _ pid' from rfl, he, process?_act] at hq
      split at hq
      · rw [hp'] at hq
        exact Option.some.inj hq ▸ hP.conduct hc (ih _ p' hp')
      · exact ih pid q hq
    · exact (ha.evolves h.sound.ordered).lasting hP ih

end System

end PosixSignals
