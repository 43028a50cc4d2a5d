import PosixSignals.Proofs.Inbox.Account
import PosixSignals.Proofs.Process.Conduct

/-!
# How a process takes signals out

Whatever is done to a process enters the accounts of its signals, and so
does what it does itself. A signal is taken out only by the process, at a
check point or in a wait, and every way of doing so is one of those in
`Removal`; what is noted as a removal is one, and what a call comes to or a
handler starts with was taken by it.
-/

namespace PosixSignals

/-! ## What is done to a process -/

namespace Process

variable {p q : Process} {pid pid' : Pid} {sig : Signal} {src : Source} {a : Account}
  {info : SignalInfo} {events : List Event} {f : Process × List Event}

/-- A change that no account depends on. -/
structure OffBooks (p : Process) (f : Process × List Event) : Prop where
  pending : f.1.inbox.pending = p.inbox.pending
  infos : f.1.inbox.infos = p.inbox.infos
  events : ∀ e ∈ f.2, e.isAccounted = false ∧ e.isDealing = false

theorem OffBooks.agrees (h : p.OffBooks f) (ha : p.inbox.Agrees sig a) :
    f.1.inbox.Agrees sig (a.enterAll pid sig src f.2) := by
  rw [Account.enterAll_of_forall fun e he => Account.enter_of_not_isAccounted (h.events e he).1]
  exact ha.congr h.pending h.infos

theorem offBooks_refl (p : Process) : p.OffBooks (p, []) := ⟨rfl, rfl, by simp⟩

theorem Shift.offBooks {c : Process × List Event} (h : p.Shift pid c) : p.OffBooks c := by
  cases h with
  | none => exact offBooks_refl p
  | exited | stopped | continued => exact ⟨rfl, rfl, by simp [Event.isAccounted, Event.isDealing]⟩

/-- What shows no change leaves what is pending as it was. -/
theorem OffBooks.of_standing {p' : Process} {events : List Event} (h : p.OffBooks (p', events))
    {q : Process} (hq : q.standing = p'.standing) : p.OffBooks (q, events) :=
  ⟨(congrArg Standing.pending hq).trans h.pending, (congrArg Standing.infos hq).trans h.infos,
    h.events⟩

theorem offBooks_mild (h : p.Mild pid f) : p.OffBooks f := by
  cases h with
  | plain hu he =>
    refine (OffBooks.of_standing ⟨rfl, rfl, fun e hm => ?_⟩ hu.standing : p.OffBooks (_, _))
    have hplain := he e hm
    cases e <;> simp [Event.isPlain] at hplain <;> exact ⟨rfl, rfl⟩
  | ended hu => exact shift_exit.offBooks.of_standing hu.standing

/-- Each part of a generation enters the accounts of the process by what it notes. -/
theorem carried_agrees : Carried pid info fun p c => ∀ a : Account,
    p.inbox.Agrees sig a → c.1.inbox.Agrees sig (a.enterAll pid sig src c.2) where
  append h h' a ha := by
    rw [Account.enterAll_append]
    exact h' _ (h a ha)
  shift h _ ha := h.offBooks.agrees ha
  receive hr _ ha := ha.receive hr
  wake _ _ ha := ha
  dropped p _ ha := by
    have hdropped : p.OffBooks (p, [.dropped info.signal pid]) :=
      ⟨rfl, rfl, by simp [Event.isAccounted, Event.isDealing]⟩
    exact hdropped.agrees ha

/-- **What a generation notes enters the accounts** of the process. -/
theorem agrees_generate (ha : p.inbox.Agrees sig a) :
    (p.generate pid info).1.inbox.Agrees sig
      (a.enterAll pid sig src (p.generate pid info).2) :=
  carried_agrees.generate p a ha

/-- Of what a generation notes, an account can depend only on where the signal went. -/
theorem carried_notes : Carried pid info fun _ c => ∀ e ∈ c.2,
    (e.isAccounted = false ∧ e.isDealing = false) ∨ ∃ outcome, e = .generated info pid outcome where
  append h h' e he := (List.mem_append.1 he).elim (h e) (h' e)
  shift h e he := .inl (h.offBooks.events e he)
  receive _ _ he := .inr ⟨_, List.mem_singleton.1 he⟩
  wake _ _ he := absurd he List.not_mem_nil
  dropped _ _ he := .inl (List.mem_singleton.1 he ▸ ⟨rfl, rfl⟩)

theorem mem_generate {e : Event} (he : e ∈ (p.generate pid info).2) :
    (e.isAccounted = false ∧ e.isDealing = false) ∨
      ∃ outcome, e = .generated info pid outcome :=
  carried_notes.generate p e he

/-! ## What a process does alone -/

/-- **A way of taking a pending signal out**, with all that notes: a check point
enters the handler, passes over the signal or carries out the default
action, as the disposition says, or a wait takes the occurrence. -/
inductive Removal (pid : Pid) (sig : Signal) (p q : Process) : List Event → Prop
  | entered {action : Action Installed} {run : HandlerRun} {mask pending : SignalSet}
      (hd : p.dispositions.get sig = .handler action) (hr : run.signal = sig)
      (hq : q.status = p.status) :
      Removal pid sig p q [.handling sig, .entered run mask pending]
  | ignored (hd : p.dispositions.get sig = .ignore) (hq : q.status = p.status) :
      Removal pid sig p q [.handling sig, .ignored sig]
  | idle (hd : p.dispositions.get sig = .default) (hi : sig.defaultAction.isIdle = true)
      (hq : q.status = p.status) : Removal pid sig p q [.handling sig]
  | ended (hd : p.dispositions.get sig = .default)
      (ha : sig.defaultAction = .terminate ∨ sig.defaultAction = .coreDump)
      (hq : q.status = .exited (.ofSignal sig)) :
      Removal pid sig p q [.handling sig, .exited pid (.ofSignal sig)]
  | stopped (hd : p.dispositions.get sig = .default) (ha : sig.defaultAction = .stop)
      (hq : q.status = .stopped sig) :
      Removal pid sig p q [.handling sig, .stopped pid sig]
  | took {info : SignalInfo} (hi : p.inbox.info? sig = some info) (hq : q.status = p.status) :
      Removal pid sig p q [.took info]

/-- What a check point does about a signal is a removal. -/
theorem removal_of_dealt (hn : p.status = .normal)
    (h : (p.without sig).Dealt pid sig (q, events)) :
    Removal pid sig p q (.handling sig :: events) := by
  have hstatus : (p.without sig).status = .normal := hn
  cases h with
  | ignored hd hu =>
    have hq : q.status = p.status := congrArg Standing.status hu.standing
    exact .ignored hd hq
  | entered hd hr hu =>
    have hq : q.status = p.status := congrArg Standing.status hu.standing
    exact .entered hd hr hq
  | default hd hu =>
    have hq : q.status = ((p.without sig).act pid sig sig.defaultAction).1.status :=
      congrArg Standing.status hu.standing
    have hlive : (p.without sig).status.isExited = false := hstatus ▸ rfl
    cases ha : sig.defaultAction with
    | terminate | coreDump =>
      simp only [ha, act_terminate hlive, act_coreDump hlive] at hq ⊢
      exact .ended hd (by simp [ha]) hq
    | stop =>
      simp only [ha, act_stop hstatus] at hq ⊢
      exact .stopped hd ha hq
    | ignore | «continue» =>
      simp only [ha, act] at hq ⊢
      exact .idle hd (by rw [ha]; rfl) hq

/-- Dealing with a signal that has been taken enters no account. -/
theorem books_of_dealt (h : p.Dealt pid sig f) : f.1.inbox.pending = p.inbox.pending ∧
    f.1.inbox.infos = p.inbox.infos ∧ ∀ e ∈ f.2, e.isAccounted = false := by
  have hsame : ∀ {q q' : Process}, q'.Unseen q →
      q.inbox.pending = q'.inbox.pending ∧ q.inbox.infos = q'.inbox.infos := fun hu =>
    ⟨congrArg Standing.pending hu.standing, congrArg Standing.infos hu.standing⟩
  cases h with
  | ignored hd hu | entered hd hr hu =>
    exact ⟨(hsame hu).1, (hsame hu).2, by simp [Event.isAccounted]⟩
  | default hd hu =>
    have hoff : p.OffBooks (p.act pid sig sig.defaultAction) := (shift_act _ _).offBooks
    exact ⟨(hsame hu).1.trans hoff.pending, (hsame hu).2.trans hoff.infos,
      fun e he => (hoff.events e he).1⟩

/-- **What a process does alone enters its accounts.** -/
theorem agrees_of_conduct (hc : p.Conduct pid f) (hbox : p.inbox.Sound)
    (hsrc : src.pid = some pid) (ha : p.inbox.Agrees sig a) :
    f.1.inbox.Agrees sig (a.enterAll pid sig src f.2) := by
  cases hc with
  | mild h => exact (offBooks_mild h).agrees ha
  | concluded hu | outright hu =>
    rw [Account.enterAll_of_forall fun e he => by
      rw [List.mem_singleton.1 he]
      exact Account.enter_of_not_isAccounted rfl]
    exact ha.congr (congrArg Standing.pending hu.standing) (congrArg Standing.infos hu.standing)
  | @took q other hs hq ho =>
    suffices h : (p.inbox.take other).2.Agrees sig
        (a.enter pid sig ⟨src, .took (p.inbox.take other).1⟩) from
      h.congr (congrArg Standing.pending hq) (congrArg Standing.infos hq)
    have hr : (⟨src, .took (p.inbox.take other).1⟩ : Record).removes pid sig = (other == sig) := by
      rw [removes_took hsrc, hbox.take_signal]
    by_cases he : other = sig
    · subst he
      exact ha.take hs rfl (by simpa using hr)
    · rw [enter_of_other rfl (hr.trans (beq_false_of_ne he))]
      exact ha.take_of_ne he
  | @handled q other events hs hn h =>
    obtain ⟨hpending, hinfos, hevents⟩ := books_of_dealt h
    have hrest : ∀ a : Account, a.enterAll pid sig src events = a := fun a =>
      Account.enterAll_of_forall fun e he => Account.enter_of_not_isAccounted (hevents e he)
    show q.inbox.Agrees sig ((a.enter pid sig ⟨src, .handling other⟩).enterAll pid sig src events)
    rw [hrest]
    suffices h : (p.inbox.take other).2.Agrees sig (a.enter pid sig ⟨src, .handling other⟩) from
      h.congr hpending hinfos
    have hr : (⟨src, .handling other⟩ : Record).removes pid sig = (other == sig) :=
      removes_handling hsrc
    by_cases he : other = sig
    · subst he
      exact ha.take (SignalSet.mem_sdiff.1 hs).1 rfl (by simpa using hr)
    · rw [enter_of_other rfl (hr.trans (beq_false_of_ne he))]
      exact ha.take_of_ne he

/-- What a process notes of its own is no birth and no generation, unless it is none
of an account's concern. -/
theorem isDealing_of_conduct {e : Event} (hc : p.Conduct pid f) (he : e ∈ f.2) :
    e.isAccounted = false ∨ e.isDealing = true := by
  cases hc with
  | mild h => exact .inl ((offBooks_mild h).events e he).1
  | concluded | outright | took => exact .inr (List.mem_singleton.1 he ▸ rfl)
  | handled hs hn h =>
    rcases List.mem_cons.1 he with rfl | he
    · exact .inr rfl
    · exact .inl ((books_of_dealt h).2.2 e he)

/-- What another process does alone does not concern an account. -/
theorem enterAll_of_conduct (hc : p.Conduct pid' f) (hsrc : src.pid = some pid')
    (hne : pid' ≠ pid) (a : Account) : a.enterAll pid sig src f.2 = a := by
  have hother : (some pid' : Option Pid) ≠ some pid := fun h => hne (Option.some.inj h)
  refine Account.enterAll_of_forall fun e he => ?_
  rcases isDealing_of_conduct hc he with h | h
  · exact Account.enter_of_not_isAccounted h
  · exact enter_of_other h (removes_of_source_ne (hsrc ▸ hother))

/-- **Whatever is noted as a removal is one**: the signal was pending, it is not any
more, and what was taken is what was outstanding. -/
theorem removal_of_conduct {e : Event} (hc : p.Conduct pid (q, events))
    (hbox : p.inbox.Sound) (ha : p.inbox.Agrees sig a) (he : e ∈ events)
    (hr : (⟨src, e⟩ : Record).removes pid sig = true) :
    sig ∈ p.inbox.pending ∧ sig ∉ q.inbox.pending ∧ Removal pid sig p q events ∧
      ∃ info, a.outstanding = some info ∧ ∀ i, e = .took i → i = info := by
  have hgone : ∀ {q : Process}, q.inbox.pending = (p.without sig).inbox.pending →
      sig ∉ q.inbox.pending := fun hq h => by
    rw [hq] at h
    exact (SignalSet.mem_sdiff.1 h).2 (SignalSet.mem_single.2 rfl)
  obtain ⟨-, hevent⟩ := event_of_removes hr
  have hdealing : e.isDealing = true ∧ e.isAccounted = true := by
    obtain rfl | ⟨info, rfl, -⟩ := hevent <;> exact ⟨rfl, rfl⟩
  cases hc with
  | mild h => simp [((offBooks_mild h).events e he).1] at hdealing
  | concluded | outright =>
    rw [List.mem_singleton.1 he] at hdealing
    simp [Event.isAccounted] at hdealing
  | @took _ other hs hq ho =>
    obtain rfl := List.mem_singleton.1 he
    obtain rfl : other = sig := by
      obtain h | ⟨info, h, hsig⟩ := hevent
      · simp at h
      · rw [← Event.took.inj h, hbox.take_signal] at hsig
        exact hsig
    obtain ⟨hinfo, hout⟩ := ha.take_eq hs
    exact ⟨hs, hgone (congrArg Standing.pending hq), .took hinfo (congrArg Standing.status hq), _,
      hout, fun i hi => (Event.took.inj hi).symm⟩
  | @handled _ other es hs hn h =>
    obtain ⟨hpending, -, hrest⟩ := books_of_dealt h
    obtain rfl : e = .handling other := by
      refine (List.mem_cons.1 he).resolve_right fun he => ?_
      simp [hrest e he] at hdealing
    obtain rfl : other = sig := by
      obtain h | ⟨info, h, -⟩ := hevent
      · exact Event.handling.inj h
      · simp at h
    obtain ⟨-, hout⟩ := ha.take_eq (SignalSet.mem_sdiff.1 hs).1
    exact ⟨(SignalSet.mem_sdiff.1 hs).1, hgone hpending, removal_of_dealt hn h, _, hout,
      fun i hi => by simp at hi⟩

/-- A signal is handed to a call only by the wait that has just taken it. -/
theorem offered?_of_conduct (hc : p.Conduct pid (q, events))
    (ho : q.offered? = some info) : events = [.took info] := by
  cases hc with
  | mild h =>
    cases h with
    | plain hu | ended hu => simp [hu.offered] at ho
  | concluded hu | outright hu => simp [hu.offered] at ho
  | took hs hq hoff => rw [hoff info ho]
  | handled hs hn h =>
    cases h with
    | ignored hd hu | default hd hu | entered hd hr hu => simp [hu.offered] at ho

/-- What is noted as a call's result is noted alone. -/
theorem concluded_of_conduct {call : CallName} {reply : Reply} (hc : p.Conduct pid (q, events))
    (he : .concluded call reply ∈ events) : events = [.concluded call reply] ∧
      ∀ info, reply = .ok (.info info) → p.offered? = some info := by
  cases hc with
  | mild h => simpa [Event.isDealing] using ((offBooks_mild h).events _ he).2
  | concluded hu ho =>
    obtain ⟨rfl, rfl⟩ := Event.concluded.inj (List.mem_singleton.1 he)
    exact ⟨rfl, ho⟩
  | outright | took => simp at he
  | handled hs hn h =>
    replace he := (List.mem_cons.1 he).resolve_left (by simp)
    cases h with
    | ignored | entered => simp at he
    | default => simpa [Event.isDealing] using ((shift_act _ _).offBooks.events _ he).2

/-- Where a handler starts, a check point has taken its signal, or nothing is taken. -/
theorem handling_of_entered {run : HandlerRun} {mask pending : SignalSet}
    (hc : p.Conduct pid (q, events)) (he : .entered run mask pending ∈ events) :
    q.inbox.pending = p.inbox.pending ∨ .handling run.signal ∈ events := by
  cases hc with
  | mild h => simpa [Event.isDealing] using ((offBooks_mild h).events _ he).2
  | outright hu => exact .inl (congrArg Standing.pending hu.standing)
  | concluded | took => simp at he
  | handled hs hn h =>
    replace he := (List.mem_cons.1 he).resolve_left (by simp)
    cases h with
    | ignored => simp at he
    | default => simpa [Event.isDealing] using ((shift_act _ _).offBooks.events _ he).2
    | entered hd hr =>
      obtain ⟨rfl, -⟩ := Event.entered.inj (List.mem_singleton.1 he)
      exact .inr (hr ▸ List.mem_cons_self)

end Process

end PosixSignals
