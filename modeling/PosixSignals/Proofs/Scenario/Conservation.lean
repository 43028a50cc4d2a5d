import PosixSignals.Proofs.Scenario.Course
import PosixSignals.Proofs.Scenario.Entries
import PosixSignals.Proofs.System.Bookkeeping

/-!
# Signals are conserved

What was accepted for a process was taken out since or is pending: no
occurrence is lost and none is used twice. A signal is taken out only by
the process itself, at a check point or in a wait, and every way of doing
so is one of those in `Removal`. Three properties of the history go with
the account: what is taken out was outstanding, what a call comes to is
what its wait has just taken, and a handler starts by a removal unless the
program asks for it.
-/

namespace PosixSignals

/-! ## Properties of a history -/

/-- **At every record of the history** a property holds of the record and of what
came before it. -/
def Always (Q : Record → List Record → Prop) (history : List Record) : Prop :=
  ∀ later r earlier, history = later ++ r :: earlier → Q r earlier

section Always

variable {Q : Record → List Record → Prop} {history new : List Record} {r : Record}

theorem always_nil : Always Q [] := by
  intro later r earlier h
  simp at h

theorem Always.cons (h : Always Q history) (hr : Q r history) : Always Q (r :: history) := by
  intro later r' earlier he
  cases later with
  | nil =>
    obtain ⟨rfl, rfl⟩ := List.cons.inj he
    exact hr
  | cons r'' later =>
    obtain ⟨-, he⟩ := List.cons.inj he
    exact h later r' earlier he

theorem Always.append (h : Always Q history) (hnew : ∀ r ∈ new, ∀ earlier, Q r earlier) :
    Always Q (new ++ history) := by
  induction new with
  | nil => exact h
  | cons r new ih =>
    exact (ih fun r' hr' => hnew r' (List.mem_cons_of_mem _ hr')).cons (hnew r List.mem_cons_self _)

/-- Of the events of one source, the first may depend on what came before. -/
theorem Always.events {src : Source} {e : Event} {events : List Event} (h : Always Q history)
    (hfirst : Q ⟨src, e⟩ history) (hrest : ∀ e' ∈ events, ∀ earlier, Q ⟨src, e'⟩ earlier) :
    Always Q (((e :: events).map fun e => (⟨src, e⟩ : Record)).reverse ++ history) := by
  rw [List.map_cons, List.reverse_cons, List.append_assoc]
  refine (h.cons hfirst).append fun r hr => ?_
  obtain ⟨e', he', rfl⟩ := List.mem_map.1 (List.mem_reverse.1 hr)
  exact hrest e' he'

end Always

/-- The last thing a process noted is that it took this signal. -/
def JustTook (pid : Pid) (info : SignalInfo) (history : List Record) : Prop :=
  ∃ (between : List Record) (src : Source) (before : List Record),
    history = between ++ ⟨src, .took info⟩ :: before ∧ src.pid = some pid ∧
      ∀ r ∈ between, r.source.pid ≠ some pid

theorem JustTook.append {pid : Pid} {info : SignalInfo} {history new : List Record}
    (h : JustTook pid info history) (hnew : ∀ r ∈ new, r.source.pid ≠ some pid) :
    JustTook pid info (new ++ history) := by
  obtain ⟨between, src, before, rfl, hsrc, hbetween⟩ := h
  refine ⟨new ++ between, src, before, by rw [List.append_assoc], hsrc, fun r hr => ?_⟩
  exact (List.mem_append.1 hr).elim (hnew r) (hbetween r)

/-- What is taken out was outstanding. -/
def RemovesOutstanding (pid : Pid) (sig : Signal) (r : Record) (earlier : List Record) : Prop :=
  r.removes pid sig = true → ∃ info, (account pid sig earlier).outstanding = some info ∧
    ∀ i, r.event = .took i → i = info

/-- What a call comes to is what its wait has just taken. -/
def ConcludesTaken (pid : Pid) (r : Record) (earlier : List Record) : Prop :=
  ∀ call info, r.source.pid = some pid → r.event = .concluded call (.ok (.info info)) →
    JustTook pid info earlier

section Dealing

variable {pid : Pid} {sig : Signal} {r : Record} {earlier : List Record}

theorem removesOutstanding_of_not_isDealing (h : r.event.isDealing = false) :
    RemovesOutstanding pid sig r earlier := fun hr => by
  obtain ⟨-, he | ⟨info, he, -⟩⟩ := event_of_removes hr <;> simp [he, Event.isDealing] at h

theorem concludesTaken_of_not_isDealing (h : r.event.isDealing = false) :
    ConcludesTaken pid r earlier := fun call info _ he => by
  simp [he, Event.isDealing] at h

end Dealing

namespace System

variable {s s' : System} {actor : Option Pid} {kin mortal wild : Bool} {pid pid' : Pid}
  {sig : Signal} {p q : Process} {src : Source} {r : Process × List Event}
  {f : Process → Process × List Event} {events : List Event} {m : Move}

/-! ## The invariant -/

/-- **The history is faithful** about a signal for a process. -/
structure Faithful (s : System) (pid : Pid) (sig : Signal) : Prop where
  agreed : s.Agreed pid sig
  removals : Always (RemovesOutstanding pid sig) s.history
  offering : ∀ p info, s.process? pid = some p → p.offered? = some info →
    JustTook pid info s.history
  conclusions : Always (ConcludesTaken pid) s.history

theorem faithful_initial : initial.Faithful pid sig where
  agreed p hp := by simp [initial, process?, Registry.get?] at hp
  removals := always_nil
  offering p info hp := by simp [initial, process?, Registry.get?] at hp
  conclusions := always_nil

/-- Affairs keep the history faithful, if the actor is offered nothing. -/
theorem Faithful.affairs (h : s.Faithful pid sig) (ha : Affairs actor mortal wild s s')
    (ho : s.Ordered)
    (hoff : actor = some pid → ∀ p, s.process? pid = some p → p.offered? = none) :
    s'.Faithful pid sig := by
  have he := ha.evolves ho
  obtain ⟨new, hn⟩ := he.noted
  refine ⟨he.agreed h.agreed, ?_, fun q info hq hoq => ?_, ?_⟩
  · rw [hn.history]
    exact h.removals.append fun r hr _ => removesOutstanding_of_not_isDealing (hn.undealt r hr)
  · obtain ⟨p, hp, hop⟩ := he.offered hq hoq
    have hne : actor ≠ some pid := fun hactor => by simp [hoff hactor p hp] at hop
    rw [hn.history]
    exact (h.offering p info hp hop).append fun r hr => hn.source r hr ▸ hne
  · rw [hn.history]
    exact h.conclusions.append fun r hr _ => concludesTaken_of_not_isDealing (hn.undealt r hr)

/-- **A step alone takes out only what is outstanding.** -/
theorem removals_of_conduct {history : List Record}
    (h : Always (RemovesOutstanding pid sig) history)
    (hc : p.Conduct pid (q, events)) (hbox : p.inbox.Sound)
    (ha : p.inbox.Agrees sig (account pid sig history)) :
    Always (RemovesOutstanding pid sig)
      ((events.map fun e => (⟨src, e⟩ : Record)).reverse ++ history) := by
  cases events with
  | nil => exact h
  | cons e es =>
    refine h.events (fun hr => ?_) fun e' he' earlier hr => ?_
    · exact (Process.removal_of_conduct hc hbox ha List.mem_cons_self hr).2.2.2
    · -- after the removal itself nothing is noted that could be one
      obtain ⟨-, -, hremoval, -⟩ :=
        Process.removal_of_conduct hc hbox ha (List.mem_cons_of_mem _ he') hr
      obtain ⟨-, h | ⟨info, h, -⟩⟩ := event_of_removes hr <;> cases hremoval <;> simp_all

theorem conclusions_of_conduct {history : List Record} (h : Always (ConcludesTaken pid) history)
    (hc : p.Conduct pid (q, events))
    (hoff : ∀ info, p.offered? = some info → JustTook pid info history) :
    Always (ConcludesTaken pid)
      ((events.map fun e => (⟨src, e⟩ : Record)).reverse ++ history) := by
  cases events with
  | nil => exact h
  | cons e es =>
    refine h.events (fun call info _ he => ?_) fun e' he' earlier call info _ he => ?_
    · obtain rfl : e = _ := he
      exact hoff info ((Process.concluded_of_conduct hc List.mem_cons_self).2 info rfl)
    · obtain rfl : e' = _ := he
      obtain ⟨hall, -⟩ := Process.concluded_of_conduct hc (List.mem_cons_of_mem _ he')
      simp [(List.cons.inj hall).2] at he'

/-- What a process does alone keeps the history faithful about it. -/
theorem Faithful.alone_self (h : s.Faithful pid sig) (hs : s.Sound) (ha : s.Alone pid) :
    (s.step pid).Faithful pid sig := by
  obtain ⟨p, t, hp, -, -, he, hc⟩ := ha
  have hbox := hs.inboxes pid p hp
  rw [he]
  have hagreed : (s.act ⟨some pid, t.openCalls⟩ pid (·.step s.now pid t)).Agreed pid sig :=
    h.agreed.act hp (fun _ a ha => Process.agrees_of_conduct hc hbox rfl ha)
      fun hne => absurd rfl hne
  refine ⟨hagreed, ?_, fun q info hq hoq => ?_, ?_⟩
  · rw [act_history hp]
    exact removals_of_conduct h.removals hc hbox (h.agreed p hp)
  · obtain rfl := eq_of_process?_act hp hq
    have hevents : (p.step s.now pid t).2 = [.took info] := Process.offered?_of_conduct hc hoq
    rw [act_history hp, hevents]
    exact ⟨[], _, s.history, rfl, rfl, by simp⟩
  · rw [act_history hp]
    exact conclusions_of_conduct h.conclusions hc fun info => h.offering p info hp

/-- What another process does alone keeps the history faithful. -/
theorem Faithful.alone_other (h : s.Faithful pid sig) (hne : pid' ≠ pid) (ha : s.Alone pid') :
    (s.step pid').Faithful pid sig := by
  obtain ⟨p, t, hp, -, -, he, hc⟩ := ha
  have hagreed : (s.act ⟨some pid', t.openCalls⟩ pid' (·.step s.now pid' t)).Agreed pid sig :=
    h.agreed.act hp (fun heq => absurd heq hne) fun _ a => Process.enterAll_of_conduct hc rfl hne a
  have hsource : ∀ r ∈ ((p.step s.now pid' t).2.map fun e =>
      (⟨⟨some pid', t.openCalls⟩, e⟩ : Record)).reverse, r.source.pid ≠ some pid := by
    intro r hr
    obtain ⟨e, -, rfl⟩ := List.mem_map.1 (List.mem_reverse.1 hr)
    exact fun heq => hne (Option.some.inj heq)
  rw [he]
  refine ⟨hagreed, ?_, fun q info hq hoq => ?_, ?_⟩
  · rw [act_history hp]
    exact h.removals.append fun r hr _ hremoves => by
      simp [removes_of_source_ne (hsource r hr)] at hremoves
  · rw [process?_act, if_neg (Ne.symm hne)] at hq
    rw [act_history hp]
    exact (h.offering q info hq hoq).append hsource
  · rw [act_history hp]
    exact h.conclusions.append fun r hr _ _ _ hsrc => absurd hsrc (hsource r hr)

/-- Whoever is offered a signal acts alone. -/
theorem alone_of_offered {info : SignalInfo} (hs : s.Sound) (hp : s.process? pid = some p)
    (ho : p.offered? = some info) : s.Alone pid := by
  obtain ⟨t, ht, ho⟩ := Option.bind_eq_some_iff.1 ho
  refine alone_of_not_isShared hs hp ht ?_
  split at ho
  · cases hc : t.control <;> simp_all [Control.offers?, Control.isShared]
  · simp at ho

/-- A command to a process that is offered a signal is lost. -/
theorem command_of_offered {info : SignalInfo} (hp : s.process? pid = some p)
    (ho : p.offered? = some info) (c : Command) : (s.command pid c).2 = s := by
  rcases s.command_cases pid c with h | ⟨p', x, x', f, hp', hx, htold, -⟩
  · exact h
  · obtain rfl := Option.some.inj (hp.symm.trans hp')
    obtain ⟨root, ht, -⟩ := Process.context?_eq_some.1 hx
    simp only [Process.offered?, ht, Option.bind_some] at ho
    split at ho <;> cases htold <;> simp_all [Control.offers?]

theorem Faithful.move (h : s.Faithful pid sig) (hs : s.Sound) (m : Move) :
    (s.move m).Faithful pid sig := by
  rcases alone_or_affairs hs m with ⟨pid', rfl, ha⟩ | ha
  · by_cases hne : pid' = pid
    · subst hne
      exact h.alone_self hs ha
    · exact h.alone_other hne ha
  by_cases hoff : m.actor = some pid → ∀ p, s.process? pid = some p → p.offered? = none
  · exact h.affairs ha hs.ordered hoff
  · simp only [Classical.not_forall, exists_prop] at hoff
    obtain ⟨hm, p, hp, hsome⟩ := hoff
    obtain ⟨info, ho⟩ := Option.ne_none_iff_exists'.1 hsome
    cases m with
    | process pid' =>
      obtain rfl : pid' = pid := Option.some.inj hm
      exact h.alone_self hs (alone_of_offered hs hp ho)
    | host step =>
      obtain ⟨c, rfl⟩ := command_of_focusOf hm
      show (s.command pid c).2.Faithful pid sig
      rwa [command_of_offered hp ho]
    | clock t => simp [Move.actor] at hm

/-- **In every reachable state the history is faithful.** -/
theorem Reachable.faithful (h : Reachable s) (pid : Pid) (sig : Signal) : s.Faithful pid sig := by
  induction h with
  | initial => exact faithful_initial
  | move h m ih => exact ih.move h.sound m

/-! ## Moves -/

/-- **A move that is noted as a removal is one**, by the process itself, and nothing
else happens in it. -/
theorem removal_of_move (hs : s.Sound) (h : s.Faithful pid sig) {new : List Record}
    (hnew : (s.move m).history = new ++ s.history) {r : Record} (hr : r ∈ new)
    (hremoves : r.removes pid sig = true) :
    m = .process pid ∧ ∃ p q calls events, s.process? pid = some p ∧
      (s.move m).process? pid = some q ∧ sig ∈ p.inbox.pending ∧ sig ∉ q.inbox.pending ∧
      p.Removal pid sig q events ∧ new = (events.map (⟨⟨some pid, calls⟩, ·⟩)).reverse := by
  obtain ⟨hsrc, hevent⟩ := event_of_removes hremoves
  rcases alone_or_affairs hs m with ⟨pid', rfl, p, t, hp, -, -, he, hc⟩ | ha
  · have hmove : s.move (.process pid') = s.act ⟨some pid', t.openCalls⟩ pid'
        (·.step s.now pid' t) := he
    obtain rfl : new = _ := (List.append_left_inj _).1 (hnew.symm.trans (hmove ▸ act_history hp))
    obtain ⟨e, hmem, rfl⟩ := List.mem_map.1 (List.mem_reverse.1 hr)
    obtain rfl : pid' = pid := Option.some.inj hsrc
    obtain ⟨hbefore, hafter, hremoval, -⟩ :=
      Process.removal_of_conduct hc (hs.inboxes pid' p hp) (h.agreed p hp) hmem hremoves
    exact ⟨rfl, p, _, t.openCalls, _, hp, hmove ▸ process?_act_self hp,
      hbefore, hafter, hremoval, rfl⟩
  · obtain ⟨new', hn⟩ := (ha.evolves hs.ordered).noted
    obtain rfl := (List.append_left_inj _).1 (hnew.symm.trans hn.history)
    have hundealt := hn.undealt r hr
    obtain he | ⟨info, he, -⟩ := hevent <;> simp [he, Event.isDealing] at hundealt

/-- **A handler starts by a removal**, unless the program asks for it. -/
theorem removes_of_entered (hs : s.Sound) {new : List Record}
    (hnew : (s.move m).history = new ++ s.history) {run : HandlerRun} {mask pending : SignalSet}
    (he : ⟨src, .entered run mask pending⟩ ∈ new) (hsrc : src.pid = some pid) :
    (∃ r ∈ new, r.removes pid run.signal = true) ∨ s.asked? pid = some run.signal := by
  obtain ⟨pid', hsrc', rfl, henters⟩ := enters_of_mem hs hnew he
  obtain rfl : pid' = pid := Option.some.inj (hsrc'.symm.trans hsrc)
  rcases henters.cause with ⟨p, hp, -, hpending, -, hgone⟩ | hasked
  rotate_left
  · exact .inr hasked
  left
  rcases alone_or_affairs hs (.process pid') with ⟨_, hm, p', t, hp', -, -, hstep, hc⟩ | ha
  · obtain rfl := Move.process.inj hm
    obtain rfl := Option.some.inj (hp.symm.trans hp')
    have hmove : s.move (.process pid') = s.act ⟨some pid', t.openCalls⟩ pid'
        (·.step s.now pid' t) := hstep
    obtain rfl : new = _ := (List.append_left_inj _).1 (hnew.symm.trans (hmove ▸ act_history hp))
    obtain ⟨e, hmem, heq⟩ := List.mem_map.1 (List.mem_reverse.1 he)
    obtain ⟨-, rfl⟩ := Record.mk.inj heq
    rcases Process.handling_of_entered hc hmem with hsame | hhandling
    · refine absurd ⟨(p.step s.now pid' t).1, ?_, hsame ▸ hpending⟩ hgone
      exact hmove ▸ process?_act_self hp
    · exact ⟨_, List.mem_reverse.2 (List.mem_map_of_mem hhandling), by simp [Record.removes]⟩
  · obtain ⟨new', hn⟩ := (ha.evolves hs.ordered).noted
    obtain rfl := (List.append_left_inj _).1 (hnew.symm.trans hn.history)
    simpa [Event.isDealing] using hn.undealt _ he

/-- **Signals are conserved.** In every reachable state the account of every signal
for every process is balanced: what was accepted was consumed or is
pending, and what is outstanding is what the inbox has. Whatever was
consumed was accepted before, by a generation that found the signal not
pending and after which nothing else was consumed, and what a wait took is
the occurrence of that generation. What a call comes to as its signal, the
process has taken just before. And in every move: a removal is one of the
process itself and of a single kind, a signal that is no longer pending was
removed, unless the number went to another process, and a handler starts by
a removal, unless the program asks for it outright. -/
theorem signals_conserved (hs : Reachable s) (pid : Pid) (sig : Signal) :
    (∀ p, s.process? pid = some p →
      (account pid sig s.history).accepted =
          (account pid sig s.history).consumed + (if sig ∈ p.inbox.pending then 1 else 0) ∧
        (account pid sig s.history).outstanding = p.inbox.info? sig ∧
        (sig ∈ p.inbox.pending ↔ (p.inbox.info? sig).isSome = true)) ∧
    (∀ later r earlier, s.history = later ++ r :: earlier → r.removes pid sig = true →
      ∃ between g before info outcome, earlier = between ++ g :: before ∧
        g.event = .generated info pid outcome ∧ info.signal = sig ∧ outcome.pends = true ∧
        (account pid sig before).outstanding = none ∧
        (∀ r' ∈ between, r'.creates pid = false ∧ r'.removes pid sig = false) ∧
        ∀ i, r.event = .took i → i = info) ∧
    (∀ (later : List Record) (src : Source) (call : CallName) (info : SignalInfo)
      (earlier : List Record),
      s.history = later ++ ⟨src, .concluded call (.ok (.info info))⟩ :: earlier →
      src.pid = some pid → JustTook pid info earlier) ∧
    ∀ m, ∃ new, (s.move m).history = new ++ s.history ∧
      (∀ r ∈ new, r.removes pid sig = true → m = .process pid ∧
        ∃ p q calls events, s.process? pid = some p ∧ (s.move m).process? pid = some q ∧
          sig ∈ p.inbox.pending ∧ sig ∉ q.inbox.pending ∧ p.Removal pid sig q events ∧
          new = (events.map (⟨⟨some pid, calls⟩, ·⟩)).reverse) ∧
      (∀ p q, s.process? pid = some p → (s.move m).process? pid = some q →
        sig ∈ p.inbox.pending → sig ∉ q.inbox.pending →
        ∃ r ∈ new, r.removes pid sig = true ∨ r.creates pid = true) ∧
      ∀ (src : Source) (run : HandlerRun) (mask pending : SignalSet),
        ⟨src, .entered run mask pending⟩ ∈ new → src.pid = some pid → run.signal = sig →
        (∃ r ∈ new, r.removes pid sig = true) ∨ s.asked? pid = some sig := by
  have hf := hs.faithful pid sig
  refine ⟨fun p hp => ?_, fun later r earlier he hr => ?_,
    fun later src call info earlier he hsrc => ?_, fun m => ?_⟩
  · have ha := hf.agreed p hp
    exact ⟨ha.balanced, ha.outstanding, ha.pending⟩
  · obtain ⟨info, hout, htook⟩ := hf.removals later r earlier he hr
    obtain ⟨between, g, before, outcome, hsplit, hg, hsig, hpends, hnone, hbetween⟩ :=
      exists_of_outstanding hout
    exact ⟨between, g, before, info, outcome, hsplit, hg, hsig, hpends, hnone, hbetween, htook⟩
  · exact hf.conclusions later _ earlier he call info hsrc rfl
  obtain ⟨new, hnew⟩ := exists_history_move hs.sound m
  refine ⟨new, hnew, fun r hr => removal_of_move hs.sound hf hnew hr,
    fun p q hp hq hbefore hafter => ?_,
    fun src run mask pending he hsrc hrun => hrun ▸ removes_of_entered hs.sound hnew he hsrc⟩
  -- without a removal or a birth the signal would still be outstanding
  refine Classical.byContradiction fun hnone => ?_
  have hkept : ∀ r ∈ new, r.creates pid = false ∧ r.removes pid sig = false := fun r hr =>
    ⟨Bool.eq_false_iff.2 fun h => hnone ⟨r, hr, .inr h⟩,
      Bool.eq_false_iff.2 fun h => hnone ⟨r, hr, .inl h⟩⟩
  obtain ⟨-, hout⟩ := (hf.agreed p hp).take_eq hbefore
  have hstill := outstanding_append hout hkept
  rw [← hnew, (((hs.move m).faithful pid sig).agreed q hq).outstanding] at hstill
  exact hafter ((((hs.move m).faithful pid sig).agreed q hq).pending.2 (by rw [hstill]; rfl))

/-- A process blocks `usr1` and is sent it twice, takes it in a wait, and is sent it
once more. -/
def holding : List Move :=
  [Move.host (.root "holder"),
    .host (.command 1 (.perform { request := .system (.sigprocmask 0 (some (.single .usr1))) }))] ++
  List.replicate 6 (Move.process 1) ++
  [Move.host (.send 1 (.user .usr1 7)), .host (.send 1 (.user .usr1 8)),
    .host (.command 1 (.perform { request := .system (.sigwait (.single .usr1)) }))] ++
  List.replicate 4 (Move.process 1) ++ [Move.host (.send 1 (.user .usr1 9))]

/-- The second occurrence merged into the first, so two were accepted and one was
taken. -/
theorem holding_account :
    account 1 .usr1 (initial.run holding).history = ⟨2, 1, some (.user .usr1 9)⟩ := by cbv

/-- **What was accepted and not taken is pending**, with its own information. -/
theorem signals_conserved_of_holding :
    let s := initial.run holding
    Reachable s ∧ ∃ p, s.process? 1 = some p ∧ .usr1 ∈ p.inbox.pending ∧
      p.inbox.info? .usr1 = some (.user .usr1 9) := by
  have hknown : ((initial.run holding).process? 1).isSome = true := by cbv
  obtain ⟨p, hp⟩ := Option.isSome_iff_exists.1 hknown
  obtain ⟨hbalance, -⟩ := signals_conserved (Reachable.initial.run holding) 1 .usr1
  obtain ⟨-, hout, hpending⟩ := hbalance p hp
  have hinfo : p.inbox.info? .usr1 = some (.user .usr1 9) := by rw [← hout, holding_account]
  exact ⟨Reachable.initial.run holding, p, hp, hpending.2 (by rw [hinfo]; rfl), hinfo⟩

/-- A process asks the engine to run a handler. -/
def unprompted : List Move :=
  [.host (.root "asker"),
    .host (.command 1 (.perform
      { request := .engine (.deliver .usr1 { handler := .mk "unprompted" 0 [] }) })),
    .process 1]

/-- **A handler that is asked for outright is matched by no generation.** -/
theorem entered_without_generation :
    Reachable (initial.run unprompted) ∧ (initial.run unprompted).entries 1 .usr1 = 1 ∧
      (initial.run unprompted).generations 1 .usr1 = 0 :=
  ⟨Reachable.initial.run unprompted, by cbv, by cbv⟩

end System

end PosixSignals
