import PosixSignals.Proofs.Process.Pace
import PosixSignals.Proofs.Scenario.Hearing
import PosixSignals.Proofs.Scenario.Rest

/-!
# How long a call takes

The steps that a process takes outside of handlers, above some frames of its
stack, are bounded by how many signals it takes meanwhile and how often it is
notified. Between two of these every step leads nearer to those frames,
what others do changes nothing, and a step inside a handler leaves what is
below it where it is. So whoever is not stopped or in a handler, and has
something to go on for, comes back.
-/

namespace PosixSignals

namespace System

variable {s : System} {pid : Pid} {p q : Process} {base above above' : List Frame} {c c' : Control}
  {m : Move} {moves : List Move} {n k : Nat}

/-! ## Steps outside of handlers -/

/-- Whether a record is that of a signal which a check point of a process has taken. -/
def isHandlingOf (pid : Pid) (r : Record) : Bool :=
  match r.event with
  | .handling _ => r.source.pid == some pid
  | _ => false

/-- How many signals the check points of a process have taken and how often one has notified it. -/
def alerts (s : System) (pid : Pid) : Nat :=
  s.history.countP (isHandlingOf pid) + ((s.process? pid).map (·.signalNotices)).getD 0

/-- Whether a process can take a step outside of the handlers above its `n` lowest frames. -/
def canStepOutside (s : System) (pid : Pid) (n : Nat) : Bool :=
  s.canStep pid && (s.context? pid).any fun x =>
    (x.frames.take (x.frames.length - n)).all fun f => !f.isBody

/-- How many steps a process takes in these moves outside of the handlers above its `n` lowest
frames. -/
def stepsOutside (pid : Pid) (n : Nat) : System → List Move → Nat
  | _, [] => 0
  | s, m :: moves =>
    (if m.isStepOf pid && s.canStepOutside pid n then 1 else 0) +
      stepsOutside pid n (s.move m) moves

theorem alerts_eq (hp : s.process? pid = some p) :
    s.alerts pid = s.history.countP (isHandlingOf pid) + p.signalNotices := by
  simp [alerts, hp]

/-! ## Engaged -/

/-- **A process is engaged above some frames**: there is a frame above them, or a construct looks or
is blocked, and but for what handlers do only signals concern it. -/
structure Engaged (s : System) (pid : Pid) (base : List Frame) (p : Process)
    (above : List Frame) (c : Control) : Prop where
  process : s.process? pid = some p
  context : ∃ m, p.context? = some ⟨above ++ base, c, m⟩
  busy : above = [] → c.loop?.isSome = true
  lone : (∀ f ∈ above, f.isCallBody = true) → c.isLone = true

namespace Engaged

theorem context? (h : s.Engaged pid base p above c) :
    ∃ m, s.context? pid = some ⟨above ++ base, c, m⟩ :=
  h.context.imp fun _ hx => context?_eq_some.2 ⟨p, h.process, hx⟩

theorem sound (h : s.Engaged pid base p above c) (hs : s.Sound) :
    Stacked (above ++ base) ∧ c.Fits (above ++ base) := by
  obtain ⟨m, hx⟩ := h.context?
  have hsound := hs.contexts pid _ hx
  exact ⟨hsound.stacked, hsound.fits⟩

theorem canStepOutside_eq (h : s.Engaged pid base p above c) :
    s.canStepOutside pid base.length =
      (p.isRunnable s.now && above.all fun f => !f.isBody) := by
  obtain ⟨m, hx⟩ := h.context?
  simp [canStepOutside, canStep, h.process, hx]

section

variable (h : s.Engaged pid base p above c) (hs : Reachable s) (hb : base ≠ [])
include h hs hb

/-- It is neither between two commands nor at its end. -/
theorem not_over : c ≠ .idle ∧ ∀ e, c ≠ .finish e := by
  have hfits := (h.sound hs.sound).2
  have hover : above ++ base ≠ [] := fun he => hb (List.append_eq_nil_iff.1 he).2
  constructor
  · rintro rfl
    exact hover hfits
  · rintro e rfl
    exact hover hfits

/-- **Its place has a number.** -/
theorem exists_place : ∃ n, n ≤ 12 ∧ p.Place n above c := by
  obtain ⟨hst, hf⟩ := h.sound hs.sound
  obtain ⟨m, hx⟩ := h.context
  obtain ⟨hv, -⟩ := hs.watchfulAt pid p _ h.process hx
  exact Process.exists_place hst hf hb h.busy h.lone fun l y hc => (hv.blocked l y hc).occasion

/-- What a move adds to the history and to the notifications of the process. -/
theorem grows (m : Move) : ∃ q new, (s.move m).process? pid = some q ∧
    (s.move m).history = new ++ s.history ∧ p.signalNotices ≤ q.signalNotices := by
  obtain ⟨mask, hx⟩ := h.context
  obtain ⟨hi, hf⟩ := h.not_over hs hb
  by_cases hm : m = .process pid
  · subst hm
    obtain ⟨new, hnew⟩ := exists_history_move hs.sound (.process pid)
    obtain ⟨root, ht, -⟩ := Process.context?_eq_some.1 hx
    cases hl : c.isShared with
    | false =>
      obtain ⟨p', t, hp', -, -, he, hc⟩ := alone_of_not_isShared hs.sound h.process ht hl
      obtain rfl := Option.some.inj (h.process.symm.trans hp')
      exact ⟨_, new, (congrArg (·.process? pid) he).trans (process?_act_self hp'), hnew,
        (Process.observed_grows.conduct hc).signals⟩
    | true =>
      obtain ⟨q, hq, hgrow⟩ := kept_of_isShared (R := Process.NoticesGrow) .refl
        (fun _ _ _ => .trans) (fun _ => ⟨Nat.le_refl _, Nat.le_refl _⟩)
        (fun _ _ hd => grows_of_deed hd) hs.sound h.process ht hl hf
      exact ⟨q, new, hq, hnew, hgrow.signals⟩
  · obtain ⟨q, new, hheard⟩ := heard_of_others hs.sound h.process hx hi hm
    exact ⟨q, new, hheard.process, hheard.history, hheard.announced.signals⟩

/-- Alerts only become more; where there are no more of them, the process has taken no signal and
was not notified. -/
theorem alerts_le (m : Move) : s.alerts pid ≤ (s.move m).alerts pid ∧
    ((s.move m).alerts pid = s.alerts pid → ∀ q, (s.move m).process? pid = some q →
      q.signalNotices = p.signalNotices ∧
      ∀ new, (s.move m).history = new ++ s.history → ∀ r ∈ new, isHandlingOf pid r = false) := by
  obtain ⟨q, new, hq, hnew, hle⟩ := h.grows hs hb m
  have hcount : (s.move m).alerts pid =
      new.countP (isHandlingOf pid) + s.history.countP (isHandlingOf pid) + q.signalNotices := by
    rw [alerts_eq hq, hnew, List.countP_append]
  rw [hcount, alerts_eq h.process]
  refine ⟨by omega, fun hsame q' hq' => ?_⟩
  obtain rfl := Option.some.inj (hq.symm.trans hq')
  refine ⟨by omega, fun new' hnew' r hr => ?_⟩
  obtain rfl := List.append_cancel_right (hnew.symm.trans hnew')
  have hzero : new.countP (isHandlingOf pid) = 0 := by omega
  exact Bool.eq_false_iff.2 (List.countP_eq_zero.1 hzero r hr)

end

end Engaged

/-! ## A move -/

section Move

variable (h : s.Engaged pid base p above c) (h' : (s.move m).Engaged pid base q above' c')
  (hs : Reachable s) (hb : base ≠ []) (hplace : p.Place n above c)
include h h' hs hb hplace

/-- **What others do**, unheard. -/
theorem place_of_others (hm : m ≠ .process pid) (hn : q.signalNotices = p.signalNotices) :
    q.Place n above' c' := by
  obtain ⟨mask, hx⟩ := h.context
  obtain ⟨mask', hx'⟩ := h'.context
  obtain ⟨q', new, hheard⟩ := heard_of_others hs.sound h.process hx (h.not_over hs hb).1 hm
  obtain rfl := Option.some.inj (h'.process.symm.trans hheard.process)
  have hsame := (Process.context?_congr hheard.announced.task hheard.told.sent.blocked).trans hx
  obtain ⟨hfs, hc, -⟩ := Context.mk.inj (Option.some.inj (hx'.symm.trans hsame))
  obtain rfl := List.append_cancel_right hfs
  obtain rfl := hc
  obtain ⟨hst, hi, -⟩ := hheard.announced.unchanged hn
  exact hplace.congr hn hst hi

end Move

section Step

variable (h : s.Engaged pid base p above c) (h' : (s.step pid).Engaged pid base q above' c')
  (hs : Reachable s) (hb : base ≠ [])
include h h' hs hb

/-- **A step in a handler** leaves the place below it as it is. -/
theorem place_of_handler {top out : List Frame} {body : Frame} (hbody : body.isBody = true)
    (hout : ∀ f ∈ out, f.isBody = false) (habove : above = top ++ body :: out) :
    q.Place (way q.signalNotices out) above' c' := by
  subst habove
  obtain ⟨mask, hx⟩ := h.context
  obtain ⟨mask', hx'⟩ := h'.context?
  obtain ⟨p', q', x₀, hp', hx₀, hq', hstep⟩ :=
    step_of_context? hs.sound hx' (h'.not_over (hs.move (.process pid)) hb).1
  obtain rfl := Option.some.inj (h.process.symm.trans hp')
  obtain rfl := Option.some.inj (hx.symm.trans hx₀)
  rw [List.append_assoc, List.cons_append] at hstep
  rcases hstep.of_handler hbody with ⟨top', body', hfs, hbody'⟩ | ⟨hfs, hc⟩
  · have hsame : above' ++ base = top' ++ body' :: out ++ base := by
      rw [List.append_assoc, List.cons_append]
      exact hfs
    obtain rfl := List.append_cancel_right hsame
    exact .handler hbody' hout
  · obtain rfl : above' = out := List.append_cancel_right hfs
    exact .outside hout (.back hc)

/-- **A step that takes no signal**, of a process that is not notified in it. -/
theorem place_of_step (hplace : p.Place n above c) (hn : q.signalNotices = p.signalNotices)
    (hnone : ∀ new, (s.step pid).history = new ++ s.history →
      ∀ r ∈ new, isHandlingOf pid r = false) :
    ∃ k, q.Place k above' c' ∧
      k + (if s.canStepOutside pid base.length then 1 else 0) ≤ n := by
  rw [h.canStepOutside_eq]
  cases hrun : p.isRunnable s.now with
  | false =>
    -- nothing has happened
    have hstay := step_of_not_isRunnable hs.sound h.process hrun
    obtain ⟨m, hx⟩ := h.context?
    obtain ⟨m', hx'⟩ := h'.context?
    have hq := h'.process
    rw [hstay] at hx' hq
    obtain rfl := Option.some.inj (h.process.symm.trans hq)
    obtain ⟨hfs, hc, -⟩ := Context.mk.inj (Option.some.inj (hx'.symm.trans hx))
    obtain rfl := List.append_cancel_right hfs
    obtain rfl := hc
    exact ⟨n, hplace, by simp⟩
  | true =>
    cases hplace with
    | @handler top out body _ hbody hout =>
      refine ⟨_, place_of_handler h h' hs hb hbody hout rfl, ?_⟩
      simp [hn, hbody]
    | outside hout hpaced =>
      obtain ⟨mask, hx⟩ := h.context
      obtain ⟨root, ht, -⟩ := Process.context?_eq_some.1 hx
      have hback : above = [] → c.isBack = false := fun he => by
        have hloop := h.busy he
        cases c <;> first | rfl | cases hloop
      obtain ⟨hv, -⟩ := hs.watchfulAt pid p _ h.process hx
      have hhastens : Process.Hastens base n (p.step s.now pid ⟨above ++ base, c, root⟩) :=
        Process.hastens_step hb (h.sound hs.sound).1 hout hback
          (hs.lasting lasting_known pid p h.process) hv.blocked hpaced ht hrun
      have hstep := step_of_not_isShared h.process ht hpaced.isShared
      cases hhastens with
      | takes hmem =>
        have hhistory := (congrArg (·.history) hstep).trans (act_history h.process)
        have hfalse := hnone _ hhistory _ (List.mem_reverse.2 (List.mem_map_of_mem hmem))
        simp [isHandlingOf] at hfalse
      | @nearer above₁ c₁ mask₁ k hx₁ hout₁ hpaced₁ hk =>
        obtain ⟨mask', hx'⟩ := h'.context
        have hq := h'.process
        rw [hstep] at hq
        obtain rfl := eq_of_process?_act h.process hq
        obtain ⟨hfs, hc, -⟩ := Context.mk.inj (Option.some.inj (hx'.symm.trans hx₁))
        obtain rfl := List.append_cancel_right hfs
        obtain rfl := hc
        refine ⟨k, .outside hout₁ hpaced₁, ?_⟩
        split <;> omega

end Step

/-- **A move**: each step outside of handlers leads nearer, unless there is something new. -/
theorem Engaged.place_of_move (h : s.Engaged pid base p above c)
    (h' : (s.move m).Engaged pid base q above' c') (hs : Reachable s) (hb : base ≠ [])
    (hplace : p.Place n above c) :
    ∃ k, q.Place k above' c' ∧
      k + (if m.isStepOf pid && s.canStepOutside pid base.length then 1 else 0) +
        13 * s.alerts pid ≤ n + 13 * (s.move m).alerts pid := by
  obtain ⟨hle, hquiet⟩ := h.alerts_le hs hb m
  by_cases hsame : (s.move m).alerts pid = s.alerts pid
  · obtain ⟨hn, hnone⟩ := hquiet hsame q h'.process
    by_cases hm : m = .process pid
    · subst hm
      obtain ⟨k, hk, hlt⟩ := place_of_step h h' hs hb hplace hn hnone
      refine ⟨k, hk, ?_⟩
      rw [Move.isStepOf_self, Bool.true_and]
      omega
    · refine ⟨n, place_of_others h h' hs hb hplace hm hn, ?_⟩
      simp only [Move.isStepOf_of_ne hm, Bool.false_and, Bool.false_eq_true, if_false]
      omega
  · obtain ⟨k, hk, hplace'⟩ := h'.exists_place (hs.move m) hb
    refine ⟨k, hplace', ?_⟩
    split <;> omega

/-! ## A run -/

theorem Engaged.stepsOutside_le (h : s.Engaged pid base p above c) (hs : Reachable s)
    (hb : base ≠ []) (hplace : p.Place n above c)
    (hlasts : ∀ done left, moves = done ++ left →
      ∃ p above c, (s.run done).Engaged pid base p above c) :
    stepsOutside pid base.length s moves + 13 * s.alerts pid ≤
      n + 13 * (s.run moves).alerts pid := by
  induction moves generalizing s p above c n with
  | nil =>
    show 0 + 13 * s.alerts pid ≤ n + 13 * s.alerts pid
    omega
  | cons m moves ih =>
    obtain ⟨q, above', c', h'⟩ : ∃ q above' c', (s.move m).Engaged pid base q above' c' :=
      hlasts [m] moves rfl
    obtain ⟨k, hk, hle⟩ := h.place_of_move h' hs hb hplace
    have hrest := ih h' (hs.move m) hk fun done left he =>
      hlasts (m :: done) left (congrArg (m :: ·) he)
    show _ + stepsOutside pid base.length (s.move m) moves + 13 * s.alerts pid ≤
      n + 13 * ((s.move m).run moves).alerts pid
    omega

/-- **Outside of handlers a process takes a bounded number of steps** for each signal it takes and
each notification, as long as it is engaged. -/
theorem stepsOutside_le_of_engaged (hs : Reachable s) (hb : base ≠ [])
    (hlasts : ∀ done left, moves = done ++ left →
      ∃ p above c, (s.run done).Engaged pid base p above c) :
    stepsOutside pid base.length s moves + 13 * s.alerts pid ≤
      12 + 13 * (s.run moves).alerts pid := by
  obtain ⟨p, above, c, h⟩ : ∃ p above c, s.Engaged pid base p above c := hlasts [] moves rfl
  obtain ⟨n, hn, hplace⟩ := h.exists_place hs hb
  have hle := h.stepsOutside_le hs hb hplace hlasts
  omega

/-! ## What is soon over -/

/-- **What lasts is soon over**: one of any moves ends it, or up to the last of them the process has
taken no more steps outside of the handlers above its `n` lowest frames than twelve, and thirteen
for each signal that it has taken and each notification. -/
def SoonOver (P : System → Prop) (pid : Pid) (n : Nat) (s : System) : Prop :=
  ∀ moves, (∃ done m left, moves = done ++ m :: left ∧ Throughout P s (s.run done) ∧
      ¬ P ((s.run done).move m)) ∨
    Throughout P s (s.run moves) ∧
      stepsOutside pid n s moves + 13 * s.alerts pid ≤ 12 + 13 * (s.run moves).alerts pid

/-- A property ends in the course of some moves, or lasts throughout. -/
theorem ends_or_lasts (P : System → Prop) (s : System) (moves : List Move) :
    (∃ done m left, moves = done ++ m :: left ∧ Throughout P s (s.run done) ∧
      ¬ P ((s.run done).move m)) ∨
    ∀ done left, moves = done ++ left → Throughout P s (s.run done) := by
  induction moves generalizing s with
  | nil =>
    refine .inr fun done left he => ?_
    obtain rfl := (List.append_eq_nil_iff.1 he.symm).1
    exact .refl
  | cons m moves ih =>
    by_cases hP : P (s.move m)
    · have hfirst : Throughout P s (s.move m) := .single ⟨⟨m, rfl⟩, hP⟩
      rcases ih (s.move m) with ⟨done, m', left, rfl, hdone, hnot⟩ | hall
      · exact .inl ⟨m :: done, m', left, rfl, hfirst.trans hdone, hnot⟩
      · refine .inr fun done left he => ?_
        cases done with
        | nil => exact .refl
        | cons m' done =>
          obtain ⟨rfl, htail⟩ := List.cons.inj he
          exact hfirst.trans (hall done left htail)
    · exact .inl ⟨[], m, moves, rfl, .refl, hP⟩

/-- **Whatever keeps a process engaged is soon over.** -/
theorem soonOver_of_engaged {P : System → Prop} (hs : Reachable s) (hb : base ≠ [])
    (h : ∀ u, Throughout P s u → ∃ p above c, u.Engaged pid base p above c) :
    SoonOver P pid base.length s := by
  intro moves
  rcases ends_or_lasts P s moves with hends | hlasts
  · exact .inl hends
  · exact .inr ⟨hlasts moves [] (List.append_nil _).symm,
      stepsOutside_le_of_engaged hs hb fun done left he => h _ (hlasts done left he)⟩

end System

end PosixSignals
