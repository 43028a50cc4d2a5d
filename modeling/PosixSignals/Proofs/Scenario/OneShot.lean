import PosixSignals.Proofs.Scenario.Installations

/-!
# Handlers that run once

A handler can be installed for one run. When such a handler comes back without
an error, its signal goes back to default, and its installation is spent: it is
in no row of the table, and what is installed later has other numbers. So it is
never entered again, for as long as the process is there. The signal stays at
default until the process installs something for it.

The reset is made when the handler has come back, and it is of the signal. It
takes away whatever is installed for it at that moment, be it what the handler
itself has installed meanwhile.
-/

namespace PosixSignals

namespace System

variable {s : System} {pid : Pid} {p q : Process} {sig : Signal} {id : Nat}

/-! ## What is spent and what is at default -/

/-- **An installation that is in no row is never entered again**, for as long as the process is
there. -/
theorem spent_run {moves : List Move} (h : Reachable s) (hp : s.process? pid = some p)
    (hid : p.Spent id) (hq : (s.run moves).process? pid = some q)
    (hb : births pid (s.run moves).history = births pid s.history) :
    q.Spent id ∧ q.runs.lookup id = p.runs.lookup id := by
  let R : Pid → Process → Process → Prop :=
    fun _ p q => p.Spent id → q.Spent id ∧ q.runs.lookup id = p.runs.lookup id
  have hR : Durable R :=
    { refl := fun _ _ hid => ⟨hid, rfl⟩
      trans := fun _ _ _ _ h h' hid => ⟨(h' (h hid).1).1, (h' (h hid).1).2.trans (h hid).2⟩
      unparent := fun _ _ hid => ⟨⟨hid.below, hid.gone⟩, rfl⟩ }
  have hrun : Continues R s (s.run moves) := by
    refine continues_run hR h fun s m hs _ => (continues_managed s m).mono fun _ p q hm => ?_
    rcases hm with hr | ⟨-, _, -, hm⟩
    · exact fun hid => ⟨hr.spent hid, by rw [hr.runs]⟩
    · exact hm.spent
  obtain ⟨p', hp', hpq⟩ := hrun.same pid q hq hb
  obtain rfl := Option.some.inj (hp.symm.trans hp')
  exact hpq hid

/-- The next step of the process installs something for the signal. -/
def Installs (s : System) (pid : Pid) (sig : Signal) : Prop :=
  ∃ p t new, s.process? pid = some p ∧ p.task = some t ∧ t.control.installs? = some (sig, new)

/-- **What is at default stays so until the process installs something for it.** -/
theorem default_run {moves : List Move} (h : Reachable s) (hp : s.process? pid = some p)
    (hd : p.dispositions.get sig = .default) (hq : (s.run moves).process? pid = some q)
    (hb : births pid (s.run moves).history = births pid s.history) :
    q.dispositions.get sig = .default ∨ ∃ before after,
      moves = before ++ .process pid :: after ∧ (s.run before).Installs pid sig := by
  induction moves generalizing s p with
  | nil =>
    obtain rfl := Option.some.inj (hp.symm.trans hq)
    exact .inl hd
  | cons m moves ih =>
    -- whoever is there in the end was there after the first move, and was the same
    have hbirths : births pid (s.move m).history = births pid s.history :=
      births_move h.sound (by simp [hp]) m
    have hrest := hb.trans hbirths.symm
    obtain ⟨p', hp', -⟩ := (continues_run (R := fun _ _ _ => True) ⟨fun _ _ => trivial,
      fun _ _ _ _ _ _ => trivial, fun _ _ => trivial⟩ (h.move m) fun s m hs _ =>
        (continues_managed s m).mono fun _ _ _ _ => trivial).same pid q hq hrest
    have hnext : p'.dispositions.get sig = .default ∨ m = .process pid ∧ s.Installs pid sig := by
      rcases (continues_managed s m).move h.sound hp hp' with hr | ⟨rfl, t, ht, hm⟩
      · exact .inl (hr.dispositions ▸ hd)
      · exact (hm.default hd).imp_right fun ⟨new, hc⟩ => ⟨rfl, p, t, new, hp, ht, hc⟩
    rcases hnext with hd' | ⟨rfl, hi⟩
    · rcases ih (h.move m) hp' hd' hq hrest with hd | ⟨before, after, rfl, hi⟩
      · exact .inl hd
      · exact .inr ⟨m :: before, after, rfl, hi⟩
    · exact .inr ⟨[], moves, rfl, hi⟩

/-! ## The return of a handler -/

/-- **The invocation on top has come back** with this result. -/
structure IsBack (s : System) (pid : Pid) (sig : Signal) (action : Action Installed)
    (result : Reply) (p : Process) : Prop where
  known : s.process? pid = some p
  back : ∃ t saved fs, p.task = some t ∧ t.frames = .delivery sig action saved :: fs ∧
    t.control = .reply result

theorem exists_isBack {action : Action Installed} {result : Reply} {saved blocked : SignalSet}
    {fs : List Frame}
    (hx : s.context? pid = some ⟨.delivery sig action saved :: fs, .reply result, blocked⟩) :
    ∃ p, s.IsBack pid sig action result p := by
  obtain ⟨p, hp, hx⟩ := context?_eq_some.1 hx
  obtain ⟨root, ht, -⟩ := Process.context?_eq_some.1 hx
  exact ⟨p, hp, _, saved, fs, ht, rfl, rfl⟩

/-- **What becomes of an installation that was to run once**, from the return of its handler on,
as long as the number of the process is not handed out again. -/
structure UsedUp (s : System) (pid : Pid) (sig : Signal) (id : Nat) (p : Process) : Prop where
  /-- It is in no row, and it is entered no more often than it was. -/
  spent : ∀ moves q, (s.run moves).process? pid = some q →
    births pid (s.run moves).history = births pid s.history →
      q.Spent id ∧ q.runs.lookup id = p.runs.lookup id
  /-- Its signal is at default until something else is installed. -/
  default : ∀ moves q, (s.run moves).process? pid = some q →
    births pid (s.run moves).history = births pid s.history →
      q.dispositions.get sig = .default ∨
        ∃ before after, moves = before ++ .process pid :: after ∧ (s.run before).Installs pid sig

/-- **The return of a handler**: by its next step the process is `q`. -/
structure Comeback (s : System) (pid : Pid) (sig : Signal) (action : Action Installed)
    (result : Reply) (p q : Process) : Prop where
  next : (s.step pid).process? pid = some q
  /-- A handler that failed, or is not to run once, resets nothing. -/
  kept : (∃ e, result = .error e) ∨ action.flags.resetHand = false →
    q.dispositions = p.dispositions
  /-- One that is to run once puts its signal back to default, and leaves the other signals as
  they are. -/
  reset : (∃ v, result = .ok v) → action.flags.resetHand = true →
    q.dispositions.get sig = .default ∧
      ∀ other, other ≠ sig → q.dispositions.get other = p.dispositions.get other
  usedUp : (∃ v, result = .ok v) → action.flags.resetHand = true →
    (s.step pid).UsedUp pid sig action.handler.id p

/-- **Handlers that run once run once.** -/
theorem runs_once {action : Action Installed} {result : Reply} (h : Reachable s)
    (hr : s.IsBack pid sig action result p) : ∃ q, s.Comeback pid sig action result p q := by
  obtain ⟨hp, t, saved, fs, ht, hf, hc⟩ := hr
  have hstep : s.step pid = s.act ⟨some pid, t.openCalls⟩ pid (·.step s.now pid t) :=
    step_of_not_isShared hp ht (by rw [hc]; rfl)
  have hturn : (p.step s.now pid t).1 = p.pop.finishDelivery sig action saved result := by
    simp only [Process.step, hc, hf, Process.accommodate]
  have hnext : (s.step pid).process? pid = some (p.pop.finishDelivery sig action saved result) := by
    rw [hstep, process?_act, if_pos rfl, hp, Option.map_some, hturn]
  have hreset : (∃ v, result = .ok v) → action.flags.resetHand = true →
      Process.Retains { p with dispositions := p.dispositions.reset sig }
        (p.pop.finishDelivery sig action saved result) := p.resets_finishDelivery saved
  have hdefault : (p.dispositions.reset sig).get sig = .default :=
    DispositionTable.get_put_self ..
  refine ⟨_, hnext, fun hk => (p.retains_finishDelivery saved hk).dispositions,
    fun hv ha => ?_, fun hv ha => ?_⟩
  · rw [(hreset hv ha).dispositions]
    exact ⟨hdefault, fun other hne => DispositionTable.get_put_of_ne _ _ (Ne.symm hne)⟩
  · have hi : (sig, action.handler.id) ∈ p.invocations := by
      simp [Process.invocations, ht, hf, Frame.invocation?]
    have hspent := (hreset hv ha).spent ((h.distinct pid p hp).spent hi)
    have hs' : Reachable (s.step pid) := h.move (.process pid)
    refine ⟨fun moves q hq hb => ?_, fun moves q hq hb => ?_⟩
    · obtain ⟨hq', hruns⟩ := spent_run hs' hnext hspent hq hb
      exact ⟨hq', by rw [hruns, (hreset hv ha).runs]⟩
    · refine default_run hs' hnext ?_ hq hb
      rw [(hreset hv ha).dispositions]
      exact hdefault

/-! ## A handler that switches to ignoring its signal -/

/-- A handler for one run that makes its signal ignored. -/
def switcher : Action Handler :=
  { handler := .mk "switches" 1 [{ request := .system (.sigaction 10 (some .ignore)) }]
    flags := { resetHand := true } }

/-- The same action as it is installed first. -/
def switcherInstalled : Action Installed :=
  { handler := ⟨0, switcher.handler⟩, flags := switcher.flags }

/-- A process installs the handler and sends itself the signal, and the handler is about to
install something else. -/
def switching : List Move :=
  [Move.host (.root "switching"), .host (.command 1 (.perform
    { request := .system (.sigaction 10 (some (.handler switcher))) }))] ++
  List.replicate 6 (Move.process 1) ++
  [.host (.command 1 (.perform { request := .system (.kill .self 10) }))] ++
  List.replicate 6 (Move.process 1)

/-- From there until the handler has come back. -/
def comingBack : List Move := List.replicate 6 (Move.process 1)

/-- The call stands inside the handler. What it installs is in force when the handler has come
back, and not a step later. -/
theorem switching_state :
    let waiting := [Frame.delivery .usr1 switcherInstalled ∅, .round, .callExit (.ok .done),
      .main false]
    let s := initial.run switching
    let s' := s.run comingBack
    let row (s : System) := (s.process? 1).map (·.dispositions.get .usr1)
    s.context? 1 = some ⟨.callBody (.sigaction 10 (some .ignore)) ::
        .body ⟨.usr1, "switches", 1⟩ false [] :: waiting,
      .execute (.sigaction 10 (some .ignore)), .single .usr1⟩ ∧
    s'.context? 1 = some ⟨waiting, .reply (.ok .done), .single .usr1⟩ ∧
    row s' = some .ignore ∧ row (s'.step 1) = some .default :=
  ⟨by cbv, by cbv, by cbv, by cbv⟩

/-- **What was installed in the handler is undone by its return.** -/
theorem switch_is_undone :
    let s := initial.run switching
    let s' := s.run comingBack
    (∃ p, s.process? 1 = some p ∧ (.usr1, 0) ∈ p.invocations) ∧ s.Installs 1 .usr1 ∧
      ∃ p q, s'.IsBack 1 .usr1 switcherInstalled (.ok .done) p ∧
        p.dispositions.get .usr1 = .ignore ∧ (s'.step 1).process? 1 = some q ∧
          q.dispositions.get .usr1 = .default := by
  intro s s'
  obtain ⟨hinside, hback, hrow, hrow'⟩ := switching_state
  obtain ⟨p₀, hp₀, hx₀⟩ := context?_eq_some.1 hinside
  obtain ⟨root, ht₀, -⟩ := Process.context?_eq_some.1 hx₀
  obtain ⟨p, hr⟩ := exists_isBack hback
  obtain ⟨p', hp', hget⟩ := Option.map_eq_some_iff.1 hrow
  obtain rfl := Option.some.inj (hr.known.symm.trans hp')
  obtain ⟨q, hq, hget'⟩ := Option.map_eq_some_iff.1 hrow'
  refine ⟨⟨p₀, hp₀, ?_⟩, ⟨p₀, _, .ignore, hp₀, ht₀, rfl⟩, p, q, hr, hget, hq, hget'⟩
  simp [Process.invocations, ht₀, Frame.invocation?, switcherInstalled]

/-- **The handler is used up** when it has come back, whatever happens from there on. -/
theorem runs_once_of_switching :
    let s := (initial.run switching).run comingBack
    Reachable s ∧ ∃ p q, s.IsBack 1 .usr1 switcherInstalled (.ok .done) p ∧
      (s.step 1).process? 1 = some q ∧ q.dispositions.get .usr1 = .default ∧
        (s.step 1).UsedUp 1 .usr1 0 p := by
  intro s
  have h : Reachable s := (Reachable.initial.run switching).run comingBack
  obtain ⟨p, hr⟩ := exists_isBack switching_state.2.1
  obtain ⟨q, hq⟩ := runs_once h hr
  exact ⟨h, p, q, hr, hq.next, (hq.reset ⟨_, rfl⟩ rfl).1, hq.usedUp ⟨_, rfl⟩ rfl⟩

end System

end PosixSignals
