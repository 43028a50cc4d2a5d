import PosixSignals.Proofs.Scenario.Moves

/-!
# The entries of handlers

When a move starts a handler, and why: a check point of a process that is
neither stopped nor ended has taken a pending signal that is not blocked,
or the program has asked for the handler outright. The first kind uses the
pending signal up, so between any two moments of a run the entries for a
signal are at most its generations, and one more if it was pending.
-/

namespace PosixSignals

namespace System

variable {s s' u v : System} {pid : Pid} {sig : Signal} {run : HandlerRun} {new : List Record}

/-- The signal whose handler the program of a process asks for outright. -/
def asked? (s : System) (pid : Pid) : Option Signal := (s.process? pid).bind (·.outright?)

/-- **A handler starts**: the last record says so, nothing becomes pending, and there
is a reason. -/
structure Enters (s s' : System) (pid : Pid) (run : HandlerRun) : Prop where
  records : ∃ src mask pending before, src.pid = some pid ∧
    s'.history = ⟨src, .entered run mask pending⟩ :: before ++ s.history ∧
    ∀ r ∈ before, r.event = .handling run.signal
  pending : ∀ pid sig, s'.Pends pid sig → s.Pends pid sig
  cause : (∃ p, s.process? pid = some p ∧ p.status = .normal ∧
      run.signal ∈ p.inbox.pending ∧ run.signal ∉ p.inbox.blocked ∧
      ¬ s'.Pends pid run.signal) ∨ s.asked? pid = some run.signal

/-- What is pending after a change of one process. -/
theorem pends_act {p : Process} {src : Source} {f : Process → Process × List Event}
    (hp : s.process? pid = some p) {pid' : Pid} (h : (s.act src pid f).Pends pid' sig) :
    (pid' = pid ∧ sig ∈ (f p).1.inbox.pending) ∨ pid' ≠ pid ∧ s.Pends pid' sig := by
  obtain ⟨q, hq, hs⟩ := h
  rw [process?_act, hp] at hq
  split at hq
  · next he =>
    obtain rfl : (f p).1 = q := Option.some.inj hq
    exact .inl ⟨he, hs⟩
  · next hne => exact .inr ⟨hne, q, hq, hs⟩

/-- **A turn of a process shows in the history**: it starts no handler, or one. -/
theorem records_or_enters_of_own {p : Process} {x : Context} {src : Source}
    {f : Process → Process × List Event} (hp : s.process? pid = some p)
    (hsrc : src.pid = some pid) (hown : p.Own pid x (f p)) :
    (∃ new, Records s (s.act src pid f) new) ∨ ∃ run, s.Enters (s.act src pid f) pid run := by
  have hhistory : (s.act src pid f).history =
      ((f p).2.map fun e => (⟨src, e⟩ : Record)).reverse ++ s.history := by
    rw [act_of_some hp, noteAll_history]
  have hpending : (∀ sig ∈ (f p).1.inbox.pending, sig ∈ p.inbox.pending) →
      ∀ pid' sig, (s.act src pid f).Pends pid' sig → s.Pends pid' sig := by
    intro hsub pid' sig h
    rcases pends_act hp h with ⟨rfl, hs⟩ | ⟨-, h⟩
    · exact ⟨p, hp, hsub sig hs⟩
    · exact h
  cases hown.turn.outcome with
  | quiet h =>
    exact .inl (records_act fun p' hp' => Option.some.inj (hp.symm.trans hp') ▸ h)
  | entry run mask pending _ hn hs hb ht he =>
    refine .inr ⟨run, ⟨src, mask, pending, [⟨src, .handling run.signal⟩], hsrc, ?_, by simp⟩,
      hpending fun sig h => (ht sig h).1, .inl ⟨p, hp, hn, hs, hb, fun h => ?_⟩⟩
    · rw [hhistory, he]
      rfl
    · rcases pends_act hp h with ⟨-, hs⟩ | ⟨hne, -⟩
      · exact (ht _ hs).2 rfl
      · exact hne rfl
  | outright run mask pending ho ht he =>
    refine .inr ⟨run, ⟨src, mask, pending, [], hsrc, ?_, by simp⟩, hpending ht,
      .inr (Option.bind_eq_some_iff.2 ⟨p, hp, ho⟩)⟩
    rw [hhistory, he]
    rfl

/-- **A move starts no handler, or one of the process whose step it is.** -/
theorem records_or_enters (hs : s.Sound) (m : Move) :
    (∃ new, Records s (s.move m) new) ∨
      ∃ pid run, m = .process pid ∧ s.Enters (s.move m) pid run := by
  cases m with
  | process pid =>
    rcases step_cases hs pid with h | ⟨p, x, src, f, hp, -, hsrc, he, hown⟩
    · exact .inl h.records
    · show (∃ new, Records s (s.step pid) new) ∨ _
      rw [show s.move (.process pid) = s.act src pid f from he, he]
      rcases records_or_enters_of_own hp hsrc hown with h | ⟨run, h⟩
      · exact .inl h
      · exact .inr ⟨pid, run, rfl, h⟩
  | host step => exact .inl (changed_host hs step).records
  | clock t => exact .inl (changed_waitUntil t).records

/-- **Whatever the history says of a handler's start is one.** -/
theorem enters_of_mem (hs : s.Sound) {m : Move} (hnew : (s.move m).history = new ++ s.history)
    {src : Source} {mask pending : SignalSet} (he : ⟨src, .entered run mask pending⟩ ∈ new) :
    ∃ pid, src.pid = some pid ∧ m = .process pid ∧ s.Enters (s.move m) pid run := by
  rcases records_or_enters hs m with ⟨new', h⟩ | ⟨pid, run', hm, h⟩
  · obtain rfl := (List.append_left_inj _).1 (hnew.symm.trans h.history)
    simpa [Event.isEntry] using h.quiet _ he
  · obtain ⟨src', mask', pending', before, hsrc, hhist, hbefore⟩ := h.records
    rw [hnew, List.append_left_inj] at hhist
    -- before its start the history says no more than that the signal is handled
    subst hhist
    rcases List.mem_cons.1 he with he | he
    · obtain ⟨rfl, hevent⟩ := Record.mk.inj he
      obtain ⟨rfl, -⟩ := Event.entered.inj hevent
      exact ⟨pid, hsrc, hm, h⟩
    · simpa [Event.isEntry] using hbefore _ he

/-! ## Counting -/

/-- Whether a record is the start of a handler of a process for a signal. -/
def isEntryOf (pid : Pid) (sig : Signal) (r : Record) : Bool :=
  match r.event with
  | .entered run _ _ => r.source.pid == some pid && run.signal == sig
  | _ => false

/-- Whether a record is the generation of a signal against a process. -/
def isGenerationOf (pid : Pid) (sig : Signal) (r : Record) : Bool :=
  match r.event with
  | .generated info target _ => target == pid && info.signal == sig
  | _ => false

/-- How often a process has entered a handler for a signal. -/
def entries (s : System) (pid : Pid) (sig : Signal) : Nat :=
  s.history.countP (isEntryOf pid sig)

/-- How often a signal was generated against a process. -/
def generations (s : System) (pid : Pid) (sig : Signal) : Nat :=
  s.history.countP (isGenerationOf pid sig)

/-- A signal is pending for a process at most once. -/
def pendings (s : System) (pid : Pid) (sig : Signal) : Nat :=
  if (s.process? pid).any (sig ∈ ·.inbox.pending) then 1 else 0

theorem pends_iff : s.Pends pid sig ↔ (s.process? pid).any (sig ∈ ·.inbox.pending) = true := by
  simp [Pends, Option.any_eq_true]

theorem pendings_le_one : s.pendings pid sig ≤ 1 := by
  unfold pendings
  split <;> omega

theorem pendings_of_pends (h : s.Pends pid sig) : s.pendings pid sig = 1 :=
  if_pos (pends_iff.1 h)

theorem pendings_of_not_pends (h : ¬ s.Pends pid sig) : s.pendings pid sig = 0 :=
  if_neg (mt pends_iff.2 h)

theorem pendings_mono (h : s'.Pends pid sig → s.Pends pid sig) :
    s'.pendings pid sig ≤ s.pendings pid sig := by
  by_cases hs : s'.Pends pid sig
  · exact Nat.le_of_eq ((pendings_of_pends hs).trans (pendings_of_pends (h hs)).symm)
  · rw [pendings_of_not_pends hs]
    exact Nat.zero_le _

theorem isEntryOf_of_isEntry {r : Record} (h : r.event.isEntry = false) :
    isEntryOf pid sig r = false := by
  unfold isEntryOf
  split
  · next he => simp [he, Event.isEntry] at h
  · rfl

theorem Records.entries_eq (h : Records s s' new) :
    s'.entries pid sig = s.entries pid sig := by
  have hnone : new.countP (isEntryOf pid sig) = 0 :=
    List.countP_eq_zero.2 fun r hr => by simp [isEntryOf_of_isEntry (h.quiet r hr)]
  rw [entries, h.history, List.countP_append, hnone, Nat.zero_add]
  rfl

theorem Enters.entries_eq {pid' : Pid} (h : s.Enters s' pid' run) :
    s'.entries pid sig =
      s.entries pid sig + if pid' = pid ∧ run.signal = sig then 1 else 0 := by
  obtain ⟨src, mask, pending, before, hsrc, hhist, hbefore⟩ := h.records
  have hnone : before.countP (isEntryOf pid sig) = 0 :=
    List.countP_eq_zero.2 fun r hr => by simp [isEntryOf, hbefore r hr]
  simp only [entries, hhist, List.cons_append, List.countP_cons, List.countP_append, hnone]
  simp [isEntryOf, hsrc]

theorem Enters.generations_eq {pid' : Pid} (h : s.Enters s' pid' run) :
    s'.generations pid sig = s.generations pid sig := by
  obtain ⟨src, mask, pending, before, -, hhist, hbefore⟩ := h.records
  have hnone : before.countP (isGenerationOf pid sig) = 0 :=
    List.countP_eq_zero.2 fun r hr => by simp [isGenerationOf, hbefore r hr]
  simp only [generations, hhist, List.cons_append, List.countP_cons, List.countP_append, hnone]
  simp [isGenerationOf]

/-- **A blocked signal has no handler entered for it**, unless one is asked for. -/
theorem entries_move (hs : s.Sound) {m : Move} {p : Process} (hp : s.process? pid = some p)
    (hb : sig ∈ p.inbox.blocked) (ho : m = .process pid → s.asked? pid ≠ some sig) :
    (s.move m).entries pid sig = s.entries pid sig := by
  rcases records_or_enters hs m with ⟨new, h⟩ | ⟨pid', run, hm, h⟩
  · exact h.entries_eq
  · rw [h.entries_eq, if_neg, Nat.add_zero]
    rintro ⟨rfl, rfl⟩
    rcases h.cause with ⟨q, hq, -, -, hnb, -⟩ | hd
    · obtain rfl : q = p := Option.some.inj (hq.symm.trans hp)
      exact hnb hb
    · exact ho hm hd

/-- **No more is entered than was generated**, from one moment to another. -/
def Balanced (pid : Pid) (sig : Signal) (s s' : System) : Prop :=
  s'.entries pid sig + s'.pendings pid sig + s.generations pid sig ≤
    s.entries pid sig + s.pendings pid sig + s'.generations pid sig

/-- Without a handler's start, what becomes pending was generated. -/
theorem Records.balanced (h : Records s s' new) : Balanced pid sig s s' := by
  have hpend : s'.pendings pid sig ≤
      s.pendings pid sig + new.countP (isGenerationOf pid sig) := by
    by_cases hs' : s'.Pends pid sig
    · rw [pendings_of_pends hs']
      rcases h.pending pid sig hs' with hs | ⟨r, hr, info, outcome, he, hi⟩
      · rw [pendings_of_pends hs]
        omega
      · have : 0 < new.countP (isGenerationOf pid sig) :=
          List.countP_pos_iff.2 ⟨r, hr, by simp [isGenerationOf, he, hi]⟩
        omega
    · rw [pendings_of_not_pends hs']
      exact Nat.zero_le _
  have hgen : s'.generations pid sig =
      new.countP (isGenerationOf pid sig) + s.generations pid sig := by
    rw [generations, h.history, List.countP_append]
    rfl
  unfold Balanced
  rw [h.entries_eq, hgen]
  omega

/-- **A check point's entry uses the pending signal up.** -/
theorem Enters.balanced {pid' : Pid} (h : s.Enters s' pid' run)
    (ho : pid' = pid → s.asked? pid ≠ some sig) : Balanced pid sig s s' := by
  have hpend := pendings_mono (h.pending pid sig)
  unfold Balanced
  rw [h.entries_eq, h.generations_eq]
  split
  · next he =>
    obtain ⟨rfl, rfl⟩ := he
    -- one more entry, and one less that is pending
    rcases h.cause with ⟨p, hp, -, hs, -, hleft⟩ | hd
    · have hone := pendings_of_pends ⟨p, hp, hs⟩
      have hzero := pendings_of_not_pends hleft
      omega
    · exact absurd hd (ho rfl)
  · omega

/-- One move of a run in which a process asks for no handler for a signal. -/
def Unasked (pid : Pid) (sig : Signal) (a b : System) : Prop :=
  ∃ m, b = a.move m ∧ (m = .process pid → a.asked? pid ≠ some sig)

theorem balanced_move (hs : s.Sound) (h : Unasked pid sig s s') : Balanced pid sig s s' := by
  obtain ⟨m, rfl, ho⟩ := h
  rcases records_or_enters hs m with ⟨new, h⟩ | ⟨pid', run, hm, h⟩
  · exact h.balanced
  · exact h.balanced fun he => ho (he ▸ hm)

/-- **Over a whole run**, the entries of a handler at check points are at most the
generations of its signal, and one more if it was pending at the start. -/
theorem balanced_run (hs : Reachable s) (h : Relation.ReflTransGen (Unasked pid sig) s s') :
    Balanced pid sig s s' := by
  have hrun : Reachable s' ∧ Balanced pid sig s s' := by
    induction h with
    | refl => exact ⟨hs, Nat.le_refl _⟩
    | tail _ hm ih =>
      obtain ⟨hu, hbal⟩ := ih
      have hbal' := balanced_move hu.sound hm
      obtain ⟨m, rfl, -⟩ := hm
      refine ⟨hu.move m, ?_⟩
      unfold Balanced at hbal hbal' ⊢
      omega
  exact hrun.2

/-- What was pending counts once. -/
theorem entries_le_of_run (hs : Reachable s) (h : Relation.ReflTransGen (Unasked pid sig) s s') :
    s'.entries pid sig + s.generations pid sig ≤
      s.entries pid sig + 1 + s'.generations pid sig := by
  have hbal := balanced_run hs h
  have hone : s.pendings pid sig ≤ 1 := pendings_le_one
  unfold Balanced at hbal
  omega

theorem unasked_of_checks {moves : List Move}
    (h : checks move (fun s _ => s.asked? pid != some sig) s moves = true) :
    Relation.ReflTransGen (Unasked pid sig) s (s.run moves) :=
  (reflTransGen_of_checks h).lift id fun _ _ ⟨m, he, hm⟩ => ⟨m, he, fun _ => by simpa using hm⟩

end System

end PosixSignals
