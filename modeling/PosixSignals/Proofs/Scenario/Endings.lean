import PosixSignals.Proofs.Scenario.Forest
import PosixSignals.Proofs.Scenario.Reaping
import PosixSignals.Proofs.Scenario.Reason

/-!
# The end of a process

A process ends once. What is on record about it is what it is, and after the
record of its end nothing follows but that it becomes a zombie and leaves the
table; what a parent or whoever started it is told is the wait status that was
recorded then. Before that it is stopped and continued, each by the signals
that are for it, and by the outside where that does it outright.
-/

namespace PosixSignals

variable {pid : Pid} {new history : List Record}

/-- Where no number was handed out there is no birth among the records. -/
theorem creates_of_births (h : births pid (new ++ history) = births pid history) :
    ∀ r ∈ new, r.creates pid = false := by
  rw [births, births, List.countP_append] at h
  have hzero : new.countP (·.creates pid) = 0 := by omega
  simpa using List.countP_eq_zero.1 hzero

namespace System

variable {s s' : System} {m : Move} {p q : Process} {src : Source} {w : WaitStatus}

/-! ## What is on record -/

/-- **The chronicle is right in every reachable state.** -/
theorem Reachable.chronicled (h : Reachable s) : s.Chronicled := by
  induction h with
  | initial => exact chronicled_initial
  | move h m ih =>
    rcases alone_or_affairs h.sound m with ⟨pid', rfl, p, t, hp, -, -, he, hc⟩ | ha
    · rw [show System.move _ (.process pid') = System.step _ pid' from rfl, he]
      refine ih.act fun p' hp' => ?_
      obtain rfl := Option.some.inj (hp.symm.trans hp')
      exact Process.courses_conduct hc
    · exact (ha.evolves h.sound.ordered).chronicled ih

/-- A zombie is on record as one. -/
theorem recorded?_of_kin (hc : s.Chronicled) {k : Kin} (hk : s.kin? pid = some k)
    (hz : k.zombie = true) : ∃ w, recorded? pid s.history = some (.zombie w) := by
  obtain ⟨p, hp, rfl⟩ := kin?_eq_some.1 hk
  have hr := hc.recorded pid p hp
  cases hst : p.status <;> simp [Process.kin, hst, Status.isZombie] at hz
  exact ⟨_, hst ▸ hr⟩

/-! ## Leaving the table -/

/-- In the table, or at least a zombie that is known. -/
def Held (s : System) (pid : Pid) : Prop :=
  ∃ k, s.kin? pid = some k ∧ (k.listed = true ∨ k.zombie = true)

theorem Present.held (h : s.Present pid) : s.Held pid := by
  obtain ⟨k, hk, hl⟩ := h
  exact ⟨k, hk, .inl hl⟩

theorem Held.of_kin {g : Kin → Kin} (h : s.Held pid) (hkin : s'.kin? pid = (s.kin? pid).map g)
    (hg : ∀ k, k.listed = true ∨ k.zombie = true → (g k).listed = true ∨ (g k).zombie = true) :
    s'.Held pid := by
  obtain ⟨k, hk, hlz⟩ := h
  exact ⟨g k, by rw [hkin, hk]; rfl, hg k hlz⟩

theorem Held.evolves {actor : Option Pid} (h : s.Held pid) (he : Evolves actor false false s s') :
    s'.Held pid :=
  h.of_kin (g := id) (by rw [kin?_of_evolves he, Option.map_id, id]) fun _ => id

/-- **An end takes out of the table** only zombies. -/
theorem Held.lay (h : s.Held pid) {q : Pid} : (s.lay src q p).Held pid := by
  refine h.of_kin (kin?_lay p) fun k hk => ?_
  dsimp only
  split
  · exact .inr rfl
  · split
    · cases hz : k.zombie <;> simp_all [Kin.orphaned]
    · exact hk

theorem Held.swept (h : s.Held pid) (ho : s.Ordered) (hc : s.Chronicled) :
    s.sweep.Present pid ∨ ∃ w, recorded? pid s.sweep.history = some (.zombie w) := by
  obtain ⟨k, hk, hl | hz⟩ := h
  · exact .inl (Present.sweep ⟨k, hk, hl⟩ ho)
  · rw [sweep_history ho]
    exact .inr (recorded?_of_kin hc hk hz)

/-- **Nobody leaves the table by a step of a process** who is not a zombie. -/
theorem present_or_zombie_of_step (hs : Reachable s) (h : s.Present pid) (q : Pid) :
    (s.step q).Present pid ∨ ∃ w, recorded? pid (s.step q).history = some (.zombie w) := by
  have htakes := takes_step hs.sound q
  generalize s.step q = s' at htakes ⊢
  cases htakes with
  | alone ha =>
    obtain ⟨k, hk, hl⟩ := h
    exact .inl ⟨k, (ha.kin? pid).trans hk, hl⟩
  | apart ha => exact .inl (h.evolves ha)
  | forked hsrc ha hq ht hr =>
    exact .inl ((h.beget hs.sound.ordered ha hq).evolves (evolves_answer hr))
  | @reaped src child a c r hsrc hq hmem hc hz hr =>
    have ha : Affairs (some q) false false s _ := affairs_reaped hsrc hq hmem hc hz hr
    have hev := ha.evolves hs.sound.ordered
    refine Held.swept ?_ (hev.ordered hs.sound.ordered) (hev.chronicled hs.chronicled)
    have hreap : (s.reap src q child).Held pid := by
      by_cases hne : pid = child
      · subst hne
        refine ⟨_, by rw [kin?_reap, kin?_of_process? hc]; rfl, .inr ?_⟩
        simp only [if_true]
        split <;> exact hz
      · exact (h.reap hne).held
    exact hreap.evolves (evolves_answer hr)
  | @ended src u v a b hend hsrc ha ht hu hb hkin hv =>
    have haff : Affairs (some q) true false s _ := affairs_ended hsrc rfl ht hu hb hkin hv
    have hev := haff.evolves hs.sound.ordered
    exact Held.swept ((h.held.evolves hu).lay.evolves hv) (hev.ordered hs.sound.ordered)
      (hev.chronicled hs.chronicled)

/-- **Nobody leaves the table by a step of the outside** who is not taken out. -/
theorem present_of_host (hs : s.Sound) (h : s.Present pid) {step : HostStep}
    (hm : step ≠ .remove pid) : (s.host step).2.Present pid := by
  have hnatural : s.natural (.host step) = true → (s.host step).2.Present pid := fun hn => by
    rcases evolves_or_affairs_host hn with ⟨actor, he⟩ | ha
    · exact h.evolves he
    · exact (ha.present hs.ordered h).2
  have hstep := s.intervention step
  generalize (s.host step).2 = s' at hstep hnatural ⊢
  cases hstep with
  | nothing => exact h
  | @removed q =>
    have hne : pid ≠ q := fun he => hm (by rw [he])
    obtain ⟨k, hk, hl⟩ := h
    have hunlisted : (s.unlist q).Present pid :=
      ⟨k, by rw [kin?_unlist, hk, Option.map_some, if_neg hne], hl⟩
    exact hunlisted.sweep (ordered_update hs.ordered)
  | @reaped q _ child =>
    obtain ⟨k, hk, hl⟩ := h
    have hdisowned : (s.disown q child).Present pid := by
      refine ⟨_, by rw [kin?_disown, hk]; rfl, ?_⟩
      split <;> exact hl
    exact hdisowned.sweep (ordered_update hs.ordered)
  | @forked q p hp =>
    rcases s.fork_cases .host q p none with he | ⟨child, pids, ha, he⟩ <;> rw [he]
    · exact h
    · exact h.beget hs.ordered ha hp
  | _ => exact hnatural rfl

/-- **Whoever leaves the table is a zombie**, unless the outside takes it out. -/
theorem zombie_or_removed (hs : Reachable s) (hp : s.listed? pid = some p)
    (hgone : (s.move m).listed? pid = none) :
    m = .host (.remove pid) ∨ ∃ w, recorded? pid (s.move m).history = some (.zombie w) := by
  have h : s.Present pid := present_iff.2 ⟨p, hp⟩
  have habsent : ¬(s.move m).Present pid := fun hpres => by
    obtain ⟨q, hq⟩ := present_iff.1 hpres
    simp [hgone] at hq
  cases m with
  | process q => exact .inr ((present_or_zombie_of_step hs h q).resolve_left habsent)
  | host step =>
    refine .inl (congrArg Move.host ?_)
    exact Classical.byContradiction fun hne => habsent (present_of_host hs.sound h hne)
  | clock t =>
    have hwait : Evolves none false false s (s.waitUntil t) := .single (.wait t)
    exact absurd (h.evolves hwait) habsent

/-! ## The report to whoever started a root -/

theorem orphans_history (children : List Pid) :
    (children.foldl orphan s).history = s.history := by
  induction children generalizing s with
  | nil => rfl
  | cons c children ih => exact ih.trans update_history

/-- Who is entombed is on record as a zombie, with the wait status he had. -/
theorem recorded?_of_entomb (hc : s.Chronicled) (hp : s.process? pid = some p) :
    recorded? pid (s.entomb src pid).history = some (.zombie p.status.waitStatus) := by
  have hhistory : (s.entomb src pid).history = ⟨src, .becameZombie pid⟩ :: s.history :=
    act_history hp
  rw [hhistory]
  show (if pid = pid then (recorded? pid s.history).map Status.toZombie else _) = _
  rw [if_pos rfl, hc.recorded pid p hp]
  rfl

/-- **A process that is laid to rest** is on record as a zombie, whatever its parent is told. -/
theorem recorded?_of_lay (hc : s.Chronicled) (hp : s.process? pid = some p)
    (hsrc : src.pid = some pid) :
    recorded? pid (s.lay src pid p).history = some (.zombie p.status.waitStatus) := by
  rw [lay_eq]
  -- who is buried is known, and his status is the one on record
  have horphans : Evolves (some pid) true true s (p.children.foldl orphan s) := evolves_orphans _
  have hc₁ := horphans.chronicled hc
  obtain ⟨p₁, hp₁, -⟩ := kin?_eq_some.1 <|
    show (p.children.foldl orphan s).kin? pid = some _ by
      rw [kin?_orphans, kin?_of_process? hp]
      rfl
  have hsame : p₁.status = p.status := by
    have h₁ := hc₁.recorded pid p₁ hp₁
    rw [orphans_history, hc.recorded pid p hp] at h₁
    exact (Option.some.inj h₁).symm
  have hzombie : recorded? pid ((p.children.foldl orphan s).entomb src pid).history = _ :=
    recorded?_of_entomb hc₁ hp₁
  have hentomb : Evolves (some pid) true true (p.children.foldl orphan s)
      ((p.children.foldl orphan s).entomb src pid) := evolves_act hsrc fun _ => .buried rfl rfl
  generalize (p.children.foldl orphan s).entomb src pid = s₂ at hzombie hentomb ⊢
  have htell : Evolves (some pid) true true s₂ (s₂.tell src pid p.parent) := evolves_tell hsrc _
  have haged : Aged s₂ (s₂.tell src pid p.parent) := aged_tell _
  obtain ⟨new, hnew, hbirth⟩ := haged.history
  rw [hsame] at hzombie
  rw [update_history, hnew]
  refine (recorded?_of_isExited ?_ (fun r hr => creates_of_not_isBirth (hbirth r hr)) hzombie
    rfl).elim id id
  exact hnew ▸ (htell.chronicled (hentomb.chronicled hc₁)).lawful

/-- Only at an end does anybody become a zombie, or is anything reported. -/
theorem finishing_of_decides {e : Event}
    (he : (∃ q, e = .becameZombie q) ∨ ∃ w, e = .rootEnded w) (h : s.Decides m e) :
    ∃ q, m = .process q ∧ s.Finishing q := by
  cases m with
  | process q =>
    obtain ⟨x, hx, hd⟩ := h
    have hfinish : ∃ e, x.control = .finish e := by
      rcases he with ⟨q', rfl⟩ | ⟨w, rfl⟩
      · exact hd.2
      · exact hd
    obtain ⟨e', hfinish⟩ := hfinish
    obtain ⟨p, hp, hpx⟩ := context?_eq_some.1 hx
    obtain ⟨root, ht, -⟩ := Process.context?_eq_some.1 hpx
    exact ⟨q, rfl, p, _, e', hp, ht, hfinish⟩
  | host step => rcases he with ⟨q, rfl⟩ | ⟨w, rfl⟩ <;> cases step <;> cases h
  | clock t => rcases he with ⟨q, rfl⟩ | ⟨w, rfl⟩ <;> cases h

theorem finishing_of_rootEnded (hs : s.Sound) {new : List Record}
    (hnew : (s.move m).history = new ++ s.history) (hmem : ⟨src, .rootEnded w⟩ ∈ new) :
    ∃ q, m = .process q ∧ s.Finishing q := by
  obtain ⟨new', hnew', hexp⟩ := explained_move hs m
  obtain rfl := List.append_cancel_right (hnew.symm.trans hnew')
  rcases hexp _ hmem rfl with hcaused | hdecides
  · cases hcaused
  · exact finishing_of_decides (.inr ⟨w, rfl⟩) hdecides

/-- To mark an end and to lay the process to rest reports nothing yet. -/
theorem unreported_of_ended (e : Ending) : ∃ new,
    ((s.conclude src pid e).lay src pid p).history = new ++ s.history ∧
      ∀ src w, ⟨src, .rootEnded w⟩ ∉ new := by
  obtain ⟨new, hnew, hexp⟩ : Explained (fun e => ∀ w, e ≠ .rootEnded w) s
      ((s.conclude src pid e).lay src pid p) := explained_ended e (by simp) (by simp)
  refine ⟨new, hnew, fun src w hmem => ?_⟩
  rcases hexp _ hmem rfl with hcaused | hne
  · cases hcaused
  · exact hne w rfl

/-- **A report is of a zombie**, with the wait status it has. -/
theorem recorded?_of_rootEnded (hs : Reachable s) {later earlier : List Record}
    (hnew : (s.move m).history = (later ++ ⟨src, .rootEnded w⟩ :: earlier) ++ s.history) :
    ∃ pid, src.pid = some pid ∧ recorded? pid (earlier ++ s.history) = some (.zombie w) := by
  have hmem : ⟨src, .rootEnded w⟩ ∈ later ++ ⟨src, .rootEnded w⟩ :: earlier := by simp
  obtain ⟨q, rfl, p, t, e, hp, ht, hc⟩ := finishing_of_rootEnded hs.sound hnew hmem
  have hsrc : (⟨some q, t.openCalls⟩ : Source).pid = some q := rfl
  have hmove : s.move (.process q) = s.finish ⟨some q, t.openCalls⟩ q t e :=
    step_of_finish hp ht hc
  generalize (⟨some q, t.openCalls⟩ : Source) = own at hmove hsrc
  have hconclude : Evolves (some q) false false s (s.conclude own q e) := evolves_conclude hsrc e
  obtain ⟨p', hp', -⟩ := kin?_eq_some.1
    ((kin?_of_evolves hconclude q).trans (kin?_of_process? hp))
  obtain ⟨new, hlay, hnone⟩ : ∃ new,
      ((s.conclude own q e).lay own q p').history = new ++ s.history ∧
        ∀ src w, ⟨src, .rootEnded w⟩ ∉ new := unreported_of_ended e
  rw [hmove, finish_history t e hsrc hs.sound.ordered hp', hlay, ← List.append_assoc] at hnew
  have hall := List.append_cancel_right hnew
  split at hall
  · -- the report is the last record, on top of the end
    cases later with
    | nil =>
      obtain ⟨hrecord, rfl⟩ := List.cons.inj hall
      obtain ⟨rfl, he⟩ := Record.mk.inj hrecord
      have hburied := recorded?_of_lay (hconclude.chronicled hs.chronicled) hp' hsrc
      rw [hlay, Event.rootEnded.inj he] at hburied
      exact ⟨q, hsrc, hburied⟩
    | cons r later =>
      obtain ⟨-, rfl⟩ := List.cons.inj hall
      exact absurd (by simp) (hnone src w)
  · obtain rfl : new = later ++ ⟨src, .rootEnded w⟩ :: earlier := hall
    exact absurd (by simp) (hnone src w)

/-! ## One way through life -/

/-- Only the outside stops anybody outright. -/
theorem move_of_stopped {sig : Signal} (h : s.Decides m (.stopped pid sig)) :
    m = .host (.stop pid sig) := by
  cases m with
  | process q =>
    obtain ⟨x, -, hx⟩ := h
    cases hx
  | host step =>
    cases step with
    | stop q sig' =>
      obtain ⟨rfl, rfl⟩ := h
      rfl
    | _ => cases h
  | clock t => cases h

theorem move_of_continued (h : s.Decides m (.continued pid)) : m = .host (.resume pid) := by
  cases m with
  | process q =>
    obtain ⟨x, -, hx⟩ := h
    cases hx
  | host step =>
    cases step with
    | resume q =>
      obtain rfl : pid = q := h
      rfl
    | _ => cases h
  | clock t => cases h

/-- **Every change of status is in its place, and has its reason.** -/
theorem reason_of_record (hs : Reachable s) {later earlier : List Record} {e : Event}
    (hnew : (s.move m).history = (later ++ ⟨src, e⟩ :: earlier) ++ s.history)
    (he : e.isFateful = true) : e.Befits (recorded? · (earlier ++ s.history)) ∧
      (Caused (later ++ ⟨src, e⟩ :: earlier) e ∨ s.Decides m e) := by
  obtain ⟨new, hnew', hexp⟩ := explained_move hs.sound m
  obtain rfl := List.append_cancel_right (hnew.symm.trans hnew')
  have hlawful := (hs.move m).chronicled.lawful
  rw [hnew, List.append_assoc, List.cons_append] at hlawful
  exact ⟨hlawful.befits, hexp ⟨src, e⟩ (by simp) he⟩

/-- **What is kept about the life of every process** by the moves from a state on. -/
structure EndsOnce (s : System) : Prop where
  /-- The status of a process is the one on record. -/
  recorded {pid : Pid} {p : Process} (hp : s.process? pid = some p) :
    recorded? pid s.history = some p.status
  /-- Whatever is done to a process that has ended, its status stays, or it becomes a zombie
  with the same wait status, for as long as its number is not handed out again. -/
  final {pid : Pid} {st : Status} {moves : List Move} (h : recorded? pid s.history = some st)
    (he : st.isExited = true)
    (hb : births pid (s.run moves).history = births pid s.history) :
    recorded? pid (s.run moves).history = some st ∨
      recorded? pid (s.run moves).history = some (.zombie st.waitStatus)
  /-- Who leaves the table is a zombie then, unless the outside takes it out. -/
  leaves {m : Move} {pid : Pid} {p : Process} (hp : s.listed? pid = some p)
    (hgone : (s.move m).listed? pid = none) :
    m = .host (.remove pid) ∨ ∃ w, recorded? pid (s.move m).history = some (.zombie w)
  /-- An end is marked where there was none. -/
  ends {m : Move} {pid : Pid} {w : WaitStatus} {src : Source} {later earlier : List Record}
    (h : (s.move m).history = (later ++ ⟨src, .exited pid w⟩ :: earlier) ++ s.history) :
    ∃ st, recorded? pid (earlier ++ s.history) = some st ∧ st.isExited = false
  /-- Who is stopped was normal, and a stop signal strikes it, unless the outside stops it. -/
  stops {m : Move} {pid : Pid} {sig : Signal} {src : Source} {later earlier : List Record}
    (h : (s.move m).history = (later ++ ⟨src, .stopped pid sig⟩ :: earlier) ++ s.history) :
    recorded? pid (earlier ++ s.history) = some .normal ∧ (m = .host (.stop pid sig) ∨
      sig.defaultAction = .stop ∧ Struck (later ++ ⟨src, .stopped pid sig⟩ :: earlier) pid sig)
  /-- Who is continued was stopped, and `cont` is generated against it, unless the outside
  lets it go on. -/
  continues {m : Move} {pid : Pid} {src : Source} {later earlier : List Record}
    (h : (s.move m).history = (later ++ ⟨src, .continued pid⟩ :: earlier) ++ s.history) :
    (∃ sig, recorded? pid (earlier ++ s.history) = some (.stopped sig)) ∧
      (m = .host (.resume pid) ∨ ∃ src' info outcome, info.signal = .cont ∧
        ⟨src', .generated info pid outcome⟩ ∈ later ++ ⟨src, .continued pid⟩ :: earlier)
  /-- Who is stopped stays so by the first stop signal until it is continued or ends. -/
  stays {m : Move} {pid : Pid} {sig : Signal} {new : List Record}
    (h : recorded? pid s.history = some (.stopped sig))
    (hnew : (s.move m).history = new ++ s.history)
    (hb : births pid (s.move m).history = births pid s.history)
    (hc : ∀ r ∈ new, r.event ≠ .continued pid) :
    recorded? pid (s.move m).history = some (.stopped sig) ∨
      ∃ st, recorded? pid (s.move m).history = some st ∧ st.isExited = true
  /-- The end of a root is reported when it is a zombie, with its wait status. -/
  reports {m : Move} {w : WaitStatus} {src : Source} {later earlier : List Record}
    (h : (s.move m).history = (later ++ ⟨src, .rootEnded w⟩ :: earlier) ++ s.history) :
    ∃ pid, src.pid = some pid ∧ recorded? pid (earlier ++ s.history) = some (.zombie w)
  /-- The child that a `wait4` from here on returns was found while the call lasted: a child
  of the caller, and a zombie with the wait status that the call returns. -/
  awaits {s' : System} {pid child : Pid} {w : WaitStatus} {fs : List Frame} {selector : Int}
    {options : BitVec 32} {mask mask' : SignalSet}
    (hcall : s.context? pid = some ⟨fs, .perform (.system (.wait4 selector options)), mask⟩)
    (hrun : During pid fs.length (s.step pid) s')
    (hret : (s'.step pid).context? pid = some ⟨fs, .reply (.ok (.child child w)), mask'⟩) :
    (child = 0 ∧ w = 0) ∨ ∃ u, During pid fs.length (s.step pid) u ∧
      During pid fs.length u s' ∧ u.Reapable pid child w

/-- **The end of a process is final.** In every reachable state, and whatever is done from
there on, a process that has ended keeps the wait status with which its end
was marked, and nobody is told another. Before that it changes only between
normal and stopped, by stop signals and by `cont`. -/
theorem end_is_final (hs : Reachable s) : s.EndsOnce where
  recorded hp := hs.chronicled.recorded _ _ hp
  final {pid st moves} h he hb := by
    obtain ⟨new, hnew⟩ := exists_history_run hs moves
    have hlawful := (hs.run moves).chronicled.lawful
    rw [hnew] at hb hlawful ⊢
    exact recorded?_of_isExited hlawful (creates_of_births hb) h he
  leaves hp hgone := zombie_or_removed hs hp hgone
  ends h := (reason_of_record hs h rfl).1
  stops h := by
    obtain ⟨hbefits, hcaused | hdecides⟩ := reason_of_record hs h rfl
    · cases hcaused with
      | stopped hstruck hd => exact ⟨hbefits, .inr ⟨hd, hstruck⟩⟩
    · exact ⟨hbefits, .inl (move_of_stopped hdecides)⟩
  continues h := by
    obtain ⟨hbefits, hcaused | hdecides⟩ := reason_of_record hs h rfl
    · cases hcaused with
      | continued hi hmem => exact ⟨hbefits, .inr ⟨_, _, _, hi, hmem⟩⟩
    · exact ⟨hbefits, .inl (move_of_continued hdecides)⟩
  stays {m _ _ _} h hnew hb hc := by
    have hlawful := (hs.move m).chronicled.lawful
    rw [hnew] at hb hlawful ⊢
    exact recorded?_of_stopped hlawful (creates_of_births hb) hc h
  reports h := recorded?_of_rootEnded hs h
  awaits hcall hrun hret := reported_of_wait4 id (fun _ _ h => h) hs rfl hcall hrun hret

/-- A root calls `exit`, and goes on for a while. -/
def departing : List Move :=
  [Move.host (.root "leaver"),
    .host (.command 1 (.perform { request := .system (.exit 7), keep := true }))] ++
  List.replicate 5 (Move.process 1)

/-- It is sent signals that kill, stop and continue, calls `exit` once more, and returns
something else from main. -/
def insisting : List Move :=
  [Move.host (.send 1 (.kernel .kill)), .host (.send 1 (.kernel .stop)),
    .host (.send 1 (.kernel .cont)), .host (.stop 1 .stop), .host (.exit 1 0),
    .host (.command 1 (.perform { request := .system (.exit 9), keep := true }))] ++
  List.replicate 5 (Move.process 1) ++ [Move.host (.command 1 (.finish 0)), .process 1]

theorem departing_process :
    ((initial.run departing).process? 1).map (·.status) = some (.exited 1792) := by cbv

theorem insisting_births : births 1 ((initial.run departing).run insisting).history =
    births 1 (initial.run departing).history := by cbv

/-- **It ends with the code of the first call**: that is on record when it is gone. -/
theorem end_is_final_of_insisting :
    let s := initial.run departing
    let s' := s.run insisting
    (s.process? 1).map (·.status) = some (.exited 1792) ∧ (s'.process? 1).isNone = true ∧
      (recorded? 1 s'.history = some (.exited 1792) ∨
        recorded? 1 s'.history = some (.zombie 1792)) := by
  have hfinal := end_is_final (Reachable.initial.run departing)
  obtain ⟨p, hp, hst⟩ := Option.map_eq_some_iff.1 departing_process
  refine ⟨departing_process, by cbv, ?_⟩
  exact hfinal.final ((hfinal.recorded hp).trans (congrArg some hst)) rfl insisting_births

/-- **What the outside does outright.** It stops a process by a signal that stops nobody,
lets it go on, marks its end and takes it out of the table before it is a zombie, and
no signal is ever generated. -/
theorem status_changed_outright :
    let s := initial.run [.host (.root "passive"), .host (.stop 1 .usr1)]
    let t := s.move (.host (.resume 1))
    let u := t.move (.host (.exit 1 0))
    let v := u.move (.host (.remove 1))
    Reachable v ∧ Signal.usr1.defaultAction ≠ .stop ∧
      (s.process? 1).map (·.status) = some (.stopped .usr1) ∧
      (t.process? 1).map (·.status) = some .normal ∧
      (u.listed? 1).map (·.status) = some (.exited 0) ∧ (v.listed? 1).isNone = true ∧
      (v.process? 1).map (·.status) = some (.exited 0) ∧
      v.history.all (fun r => match r.event with | .generated .. => false | _ => true) = true :=
  ⟨(((Reachable.initial.run _).move _).move _).move _, by decide, by cbv, by cbv, by cbv, by cbv,
    by cbv, by cbv⟩

end System

end PosixSignals
