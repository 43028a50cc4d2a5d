import Mathlib.Data.List.Basic
import PosixSignals.Proofs.Process.Interruption
import PosixSignals.Proofs.Scenario.CheckPoint
import PosixSignals.Proofs.Scenario.MaskDiscipline
import PosixSignals.Proofs.Scenario.Wakeup

/-!
# At rest, and at the end of a call

A process that is in the midst of something and cannot go on is blocked,
and nothing it waits for has come. If it blocks above a check point,
a handler is there that is not back yet. And a call that returns what its
body came to has been through a moment at which nothing was left to deliver.
-/

namespace PosixSignals

/-- What runs on a frame that neither waits nor is the body of a call is a check point. -/
theorem Loop.eq_check_of_host {l : Loop} {g : Frame} (h : l.host g = true)
    (hw : g.hostsWait = false) (hb : g.isCallBody = false) : ∃ b, l = .check b := by
  cases l with
  | check b => exact ⟨b, rfl⟩
  | waitAny | suspend | sleep => exact absurd h (by simp [Loop.host, hw])
  | wait4 => exact absurd h (by simp [Loop.host, hb])

namespace Context

variable {f g : Frame} {above fs : List Frame} {c : Control}

/-- What stands on a check point's host stands there for the check point. -/
theorem eq_round_of_standsOn (h : f.StandsOn (g :: fs)) (hc : g.hostsCheck = true)
    (hr : g.isRoutine = false) : f = .round := by
  cases g <;> simp [Frame.hostsCheck, Frame.isRoutine] at hc hr <;>
    cases f <;> simp [Frame.StandsOn, Frame.isDelivery, Frame.hostsDelivery, Frame.hostsWait,
      Frame.isRoutine] at h ⊢

/-- What blocks or calls does so on a frame that can run a check point or make a wait. -/
theorem topIs_of_fits (hf : c.Fits fs) (hc : (∃ l x, c = .blocked l x) ∨ c.isCall = true) :
    TopIs (fun f => f.hostsCheck || f.hostsWait) fs := by
  rcases hc with ⟨l, x, rfl⟩ | hc
  · exact TopIs.mono hf fun f hf => by
      cases l <;> cases f <;> simp_all [Loop.host, Frame.hostsCheck, Frame.hostsWait,
        Frame.isCallBody]
  · exact (Control.hostsWait_of_isCall hc hf).mono fun f hf => by simp [hf]

/-- **What blocks or calls above a check point is in a handler** that the check point has run. -/
theorem exists_body_of_topIs (hs : Stacked (above ++ g :: fs))
    (ht : TopIs (fun f => f.hostsCheck || f.hostsWait) (above ++ g :: fs))
    (hc : g.hostsCheck = true) (hr : g.isRoutine = false) (hne : above ≠ []) :
    ∃ above' run keep rest sig action saved,
      above = above' ++ [Frame.body run keep rest, .delivery sig action saved, .round] := by
  obtain ⟨above, f, rfl⟩ := (List.eq_nil_or_concat' above).resolve_left hne
  rw [List.append_assoc] at hs ht
  obtain rfl := eq_round_of_standsOn (stacked_of_append hs).1 hc hr
  rcases List.eq_nil_or_concat' above with rfl | ⟨above, d, rfl⟩
  · simp [Frame.hostsCheck, Frame.hostsWait] at ht
  rw [List.append_assoc] at hs ht
  obtain ⟨sig, action, saved, rfl⟩ : ∃ sig action saved, d = .delivery sig action saved := by
    have hst := (stacked_of_append hs).1
    cases d <;> simp [Frame.StandsOn, Frame.isDelivery, Frame.hostsCheck, Frame.hostsWait,
      Frame.isRoutine] at hst ⊢
  rcases List.eq_nil_or_concat' above with rfl | ⟨above, b, rfl⟩
  · simp [Frame.hostsCheck, Frame.hostsWait] at ht
  rw [List.append_assoc] at hs
  obtain ⟨run, keep, rest, rfl⟩ : ∃ run keep rest, b = .body run keep rest := by
    have hst := (stacked_of_append hs).1
    cases b <;> simp [Frame.StandsOn, Frame.hostsDelivery, Frame.hostsCheck, Frame.hostsWait,
      Frame.isRoutine] at hst ⊢
  exact ⟨above, run, keep, rest, sig, action, saved, by simp⟩

/-- **A step that neither moves on nor changes the stack** is one at rest, or a check point looks
again. -/
theorem Step.of_eq {p q : Process} {y y' : Context} (h : Step p q y y')
    (hc : y'.control = y.control) (hfs : y'.frames = y.frames) :
    y.control.isResting = true ∨ ∃ b, y.control = .loop (.check b) := by
  cases h with
  | stay hr => exact .inl hr
  | checkNext => exact .inr ⟨_, rfl⟩
  | answer hcall | beginSuspend hcall | beginWait hcall | beginSleep hcall =>
    subst hc
    cases hcall
  | changeMask hm =>
    subst hc
    cases hm
  | waitOver hwait => rcases hwait with rfl | ⟨l, rfl⟩ <;> cases hc
  | _ => simp at hc hfs

end Context

namespace System

variable {s s' s₀ : System} {pid : Pid} {p q : Process} {fs frames : List Frame} {c : Control}
  {m : SignalSet} {l : Loop} {x : Listener} {y y' : Context} {w : Value} {result : Reply}

/-! ## Standing still -/

/-- Whether a step of the process would do anything. -/
def canStep (s : System) (pid : Pid) : Bool := (s.process? pid).any (·.isRunnable s.now)

/-- Nothing happens by a step of a process that cannot go on. -/
theorem step_of_not_isRunnable (hs : s.Sound) (hp : s.process? pid = some p)
    (hnot : p.isRunnable s.now = false) : s.step pid = s := by
  cases ht : p.task with
  | none => exact step_of_task_eq_none hp ht
  | some t =>
    have hstep : p.step s.now pid t = (p, []) := Process.step_of_not_isRunnable ht hnot
    have hshared : t.control.isShared = false := by
      cases hc : t.control <;> simp [Process.isRunnable, ht, hc, Control.isShared] at hnot ⊢
    rw [step_of_not_isShared hp ht hshared]
    exact hs.ordered.act_of_eq hp hstep

/-- What blocks and can go on does so. -/
theorem awaken_ne (hx : p.context? = some ⟨fs, .blocked l x, m⟩)
    (hrun : p.isRunnable s.now = true) : p.awaken s.now l x ≠ p := by
  obtain ⟨root, ht, -⟩ := Process.context?_eq_some.1 hx
  have hgo : (p.notified x || Process.expired s.now x.deadline) = true := by
    simpa [Process.isRunnable, ht] using hrun
  intro he
  replace he : (p.awaken s.now l x).context? = p.context? := congrArg _ he
  have hawoken := p.awoken s.now l x
  generalize p.awaken s.now l x = q at hawoken he
  cases hawoken with
  | looks =>
    rw [Process.context?_goto, hx] at he
    cases he
  | left =>
    rw [Process.context?_leaveWait, hx] at he
    cases he
  | slept =>
    rw [Process.context?_answer, hx] at he
    cases he
  | rests hn hlate => simp [hn, hlate] at hgo

/-- A turn of a check point either goes somewhere else or has taken a signal. -/
theorem check_ne {b : Bool} (hx : p.context? = some ⟨fs, .loop (.check b), m⟩) :
    p.check pid b ≠ (p, []) := by
  intro he
  have hanswers : ∀ r, p.answer r ≠ p := fun r he => by
    replace he := congrArg Process.context? he
    rw [Process.context?_answer, hx] at he
    cases he
  have hchecked := p.checked pid b
  generalize p.check pid b = r at hchecked he
  cases hchecked with
  | ended | passed => exact hanswers _ (Prod.mk.inj he).1
  | stopped => cases (Prod.mk.inj he).2
  | took _ _ h => cases h <;> cases (Prod.mk.inj he).2

/-- By a step alone that changes nothing, a process comes to what it was, and notes nothing. -/
theorem eq_of_step_eq {t : Task} (hp : s.process? pid = some p) (ht : p.task = some t)
    (hl : t.control.isShared = false) (he : s.step pid = s) : p.step s.now pid t = (p, []) := by
  have hact := (step_of_not_isShared hp ht hl).symm.trans he
  have hprocess := (process?_act_self hp).symm.trans (congrArg (·.process? pid) hact)
  have hhistory := (act_history hp).symm.trans (congrArg (·.history) hact)
  exact Prod.ext (Option.some.inj (hprocess.trans hp))
    (by simpa using List.append_left_eq_self.1 hhistory)

/-- **Something happens by a step of a process that can go on.** -/
theorem step_ne_of_isRunnable (hs : s.Sound) (hp : s.process? pid = some p)
    (hrun : p.isRunnable s.now = true) : s.step pid ≠ s := by
  intro he
  obtain ⟨⟨fs, c, root⟩, ht⟩ : ∃ t, p.task = some t := by
    cases ht : p.task with
    | none => simp [Process.isRunnable, ht] at hrun
    | some t => exact ⟨t, rfl⟩
  have hx : p.context? = some ⟨fs, c, p.inbox.blocked⟩ :=
    Process.context?_eq_some.2 ⟨root, ht, rfl⟩
  have hbusy : c ≠ .idle := fun hc => by simp [Process.isRunnable, ht, hc] at hrun
  -- the step leads to where it began, so it is one of few
  have hx' : (s.step pid).context? pid = some ⟨fs, c, p.inbox.blocked⟩ :=
    he.symm ▸ context?_eq_some.2 ⟨p, hp, hx⟩
  obtain ⟨p', q, x₀, hp', hx₀, -, hstep⟩ := step_of_context? hs hx' hbusy
  obtain rfl := Option.some.inj (hp.symm.trans hp')
  obtain rfl := Option.some.inj (hx.symm.trans hx₀)
  rcases hstep.of_eq rfl rfl with hrest | ⟨b, rfl⟩
  · cases c with
    | blocked l x => exact awaken_ne hx hrun (Prod.mk.inj (eq_of_step_eq hp ht rfl he)).1
    | idle => exact hbusy rfl
    | _ => cases hrest
  · exact check_ne hx (eq_of_step_eq hp ht rfl he)

/-- **A process can go on exactly if a step of it does anything.** -/
theorem canStep_iff (hs : s.Sound) : s.canStep pid = true ↔ s.step pid ≠ s := by
  constructor
  · intro hcan
    obtain ⟨p, hp, hrun⟩ : ∃ p, s.process? pid = some p ∧ p.isRunnable s.now = true := by
      simpa [canStep, Option.any_eq_true] using hcan
    exact step_ne_of_isRunnable hs hp hrun
  · intro hne
    refine Decidable.byContradiction fun hnot => hne ?_
    cases hp : s.process? pid with
    | none => exact step_of_none hp
    | some p => exact step_of_not_isRunnable hs hp (by simpa [canStep, hp] using hnot)

/-- So whose step does nothing cannot go on. -/
theorem not_isRunnable_of_step (hs : s.Sound) (hp : s.process? pid = some p)
    (hstay : s.step pid = s) : p.isRunnable s.now = false :=
  Bool.eq_false_iff.2 fun hrun => step_ne_of_isRunnable hs hp hrun hstay

/-! ## At rest -/

/-- Who is in the midst of something and cannot go on is blocked. -/
theorem isResting_of_not_isRunnable (hnot : p.isRunnable s.now = false)
    (hx : p.context? = some ⟨fs, c, m⟩) : c.isResting = true := by
  cases hc : c.isResting with
  | true => rfl
  | false =>
    rw [Process.isRunnable_of_context? hx hc] at hnot
    cases hnot

/-- Above some frames a process is busy. -/
theorem Above.busy (h : s.Above pid fs p y) (hs : s.Sound) : y.control ≠ .idle := by
  intro hc
  have hfits := (h.sound hs).fits
  rw [hc] at hfits
  exact h.nonempty (List.append_eq_nil_iff.1 hfits).1

/-- Who cannot go on above some frames is blocked there. -/
theorem Above.blocked_of_not_isRunnable (h : s.Above pid fs p y) (hs : s.Sound)
    (hnot : p.isRunnable s.now = false) : ∃ l x, y.control = .blocked l x := by
  have hresting := isResting_of_not_isRunnable hnot h.context
  have hbusy := h.busy hs
  cases hc : y.control <;> simp_all [Control.isResting]

/-- **What it waits for has not come**, and no deadline has passed. -/
theorem awaits_of_not_isRunnable (hs : Reachable s) (hnot : p.isRunnable s.now = false)
    (hp : s.process? pid = some p) (hx : p.context? = some ⟨fs, .blocked l x, m⟩) :
    p.Awaits x l ∧ Process.expired s.now x.deadline = false := by
  obtain ⟨hv, -⟩ := hs.watchfulAt pid p _ hp hx
  obtain ⟨hseen, hlate⟩ := quiet_of_not_isRunnable hnot hx rfl
  exact ⟨(hv.blocked l x rfl).awaits hseen, hlate⟩

/-- A handler that a process has entered above some frames is not back. -/
def Serving (s : System) (pid : Pid) (fs : List Frame) : Prop :=
  ∃ above run keep rest sig action saved below c m, s.context? pid =
    some ⟨above ++ Frame.body run keep rest :: .delivery sig action saved :: .round :: below ++ fs, c, m⟩

/-- Whoever blocks or calls above a check point is serving. -/
theorem Above.serving {g : Frame} {above below : List Frame} (hy : s.Above pid fs p y)
    (hs : s.Sound) (hfs : y.frames = above ++ g :: below)
    (hc : (∃ l x, y.control = .blocked l x) ∨ y.control.isCall = true)
    (hg : g.hostsCheck = true) (hr : g.isRoutine = false) (hne : above ≠ []) :
    s.Serving pid (g :: below ++ fs) := by
  have hsound := hy.sound hs
  have hx := hy.context?
  have hfit := hsound.fits
  rw [hfs] at hsound hx hfit
  have hst : Stacked (above ++ g :: (below ++ fs)) := by simpa using hsound.stacked
  have htop : TopIs (fun f => f.hostsCheck || f.hostsWait) (above ++ g :: (below ++ fs)) := by
    simpa using Context.topIs_of_fits hfit hc
  obtain ⟨above', run, keep, rest, sig, action, saved, rfl⟩ :=
    Context.exists_body_of_topIs hst htop hg hr hne
  exact ⟨above', run, keep, rest, sig, action, saved, [], y.control, y.blocked, by
    rw [hx]; simp⟩

/-- **Who cannot go on above a check point** is stopped or serving. -/
theorem Above.stopped_or_serving {g : Frame} {above below : List Frame} (hs : Reachable s)
    (hy : s.Above pid fs p y) (hnot : p.isRunnable s.now = false)
    (hfs : y.frames = above ++ g :: below) (hc : y.control = .blocked l x)
    (hg : g.hostsCheck = true) (hr : g.isRoutine = false)
    (hw : g.hostsWait = false) (hb : g.isCallBody = false) :
    p.status.isStopped = true ∨ s.Serving pid (g :: below ++ fs) := by
  by_cases hne : above = []
  · subst hne
    have hfits := (hy.sound hs.sound).fits
    rw [hfs, hc] at hfits
    obtain ⟨b, rfl⟩ := Loop.eq_check_of_host hfits hw hb
    have hx := hy.context
    rw [hc] at hx
    exact .inl (awaits_of_not_isRunnable hs hnot hy.process hx).1
  · exact .inr (hy.serving hs.sound hfs (.inl ⟨l, x, hc⟩) hg hr hne)

/-- Above more frames is above fewer. -/
theorem Serving.of_append {above : List Frame} (h : s.Serving pid (above ++ fs)) :
    s.Serving pid fs := by
  obtain ⟨above', run, keep, rest, sig, action, saved, below, c, m, hx⟩ := h
  exact ⟨above', run, keep, rest, sig, action, saved, below ++ above, c, m, by simpa using hx⟩

/-! ## Steps above some frames -/

/-- A step that a process takes alone, above some frames. -/
theorem OwnMove.eq_step (h : OwnMove (s.step pid) pid fs p q y y') (hy : s.Above pid fs p y)
    (hl : y.control.isShared = false) : ∃ root, p.task = some ⟨y.frames ++ fs, y.control, root⟩ ∧
      q = (p.step s.now pid ⟨y.frames ++ fs, y.control, root⟩).1 := by
  obtain ⟨root, ht, -⟩ := Process.context?_eq_some.1 hy.context
  refine ⟨root, ht, ?_⟩
  have hq := h.process
  rw [step_of_not_isShared hy.process ht hl] at hq
  exact eq_of_process?_act hy.process hq

/-- Where the step has led. -/
theorem OwnMove.eq_of_context? (h : OwnMove s' pid fs p q y y') (frames : List Frame)
    (hx : q.context? = some ⟨frames ++ fs, c, m'⟩) : y' = ⟨frames, c, m'⟩ := by
  obtain ⟨hfs, hc, hm⟩ := Context.mk.inj (Option.some.inj (h.context.symm.trans hx))
  obtain ⟨frames', c', mask'⟩ := y'
  obtain rfl : frames' = frames := List.append_cancel_right hfs
  obtain rfl : c' = c := hc
  obtain rfl : mask' = m' := hm
  rfl

/-! ## Time -/

theorem Evolves.now_le {actor : Option Pid} {kin mortal : Bool}
    (h : Evolves actor kin mortal s s') : s.now ≤ s'.now := by
  induction h with
  | refl => exact Nat.le_refl _
  | tail _ h ih =>
    refine Nat.le_trans ih ?_
    cases h with
    | remark | root | child | forget => exact Nat.le_refl _
    | deed => exact Nat.le_of_eq act_now.symm
    | wait t => exact Nat.le_max_left _ _

/-- **Time does not go back.** -/
theorem now_le_move (hs : s.Sound) (m : Move) : s.now ≤ (s.move m).now := by
  rcases alone_or_affairs hs m with ⟨pid, rfl, p, t, -, -, -, he, -⟩ | h
  · show s.now ≤ (s.step pid).now
    rw [he]
    exact Nat.le_of_eq act_now.symm
  · exact Evolves.now_le (h.evolves hs.ordered)

/-! ## The end of a call -/

/-- The last check point of a call is over. -/
def Passed (s : System) (pid : Pid) (fs : List Frame) : Prop :=
  ∃ result w m, s.context? pid = some ⟨.callExit result :: fs, .reply (.ok w), m⟩

/-- During a call its frame is on the stack, and more. -/
theorem During.deep (h : During pid fs.length s₀ s) (hd : s₀.Deep pid fs.length) :
    s.Deep pid fs.length := by
  cases h with
  | refl => exact hd
  | tail _ hm => exact hm.2

/-- Others leave what is deep in something where it is. -/
theorem context?_of_others {n : Nat} (hs : s.Sound) (hd : s.Deep pid n) {move : Move}
    (hm : move ≠ .process pid) : (s.move move).context? pid = s.context? pid := by
  obtain ⟨x, hx, hlt⟩ := hd
  obtain ⟨p, hp, hpx⟩ := context?_eq_some.1 hx
  have hfits := (hs.contexts pid x hx).fits
  have hne : x.frames ≠ [] := fun he => by simp [he] at hlt
  have hi : x.control ≠ .idle := fun hc => by
    rw [hc] at hfits
    exact hne hfits
  have hf : ∀ e, x.control ≠ .finish e := fun e hc => by
    rw [hc] at hfits
    exact hne hfits
  rcases move_cases hs hp hpx hi hf move with ⟨he, -⟩ | ⟨-, q, hq, hdist⟩
  · exact absurd he hm
  · rw [hx]
    exact context?_eq_some.2
      ⟨q, hq, (Process.context?_congr hdist.task hdist.blocked).trans hpx⟩

/-- **Where the last check point of a call is over, there was a moment at which nothing was left
to deliver**, and the process has done nothing since. -/
theorem settled_of_passed (hs : Reachable s₀) (hd : s₀.Deep pid fs.length)
    (h₀ : ¬ s₀.Passed pid fs) (hrun : During pid fs.length s₀ s)
    (hx : s.context? pid = some ⟨.callExit result :: fs, .reply (.ok w), m⟩) :
    ∃ v, During pid fs.length s₀ v ∧ During pid fs.length v s ∧
      v.context? pid = some ⟨.callExit result :: fs, .reply (.ok w), m⟩ ∧ v.Settled pid := by
  induction hrun with
  | refl => exact absurd ⟨_, _, _, hx⟩ h₀
  | @tail u v hu hm ih =>
    obtain ⟨⟨move, rfl⟩, hdeep⟩ := hm
    have hr : Reachable u := During.reachable hu hs
    by_cases hm : move = .process pid
    · subst hm
      obtain ⟨p, q, x₀, hp, hx₀, hq, hstep⟩ := step_of_context? hr.sound hx (by simp)
      have hsound := hr.sound.contexts pid x₀ (context?_eq_some.2 ⟨p, hp, hx₀⟩)
      rcases hstep.reply_of_callExit hsound with (⟨d, -, hn, hpending⟩ | ⟨he, -⟩) | ⟨e, -, he, -⟩
      · exact ⟨_, hu.tail ⟨⟨.process pid, rfl⟩, hdeep⟩, .refl, hx, q, hq, hn, hpending⟩
      · cases he
      · cases he
    · have hsame := context?_of_others hr.sound (During.deep hu hd) hm
      obtain ⟨v, hsv, hvu, hv, hsettled⟩ := ih (hsame.symm.trans hx)
      exact ⟨v, hsv, hvu.tail ⟨⟨move, rfl⟩, hdeep⟩, hv, hsettled⟩

/-- A handler above some frames panics now. -/
def PanicsAbove (s : System) (pid : Pid) (fs : List Frame) : Prop :=
  ∃ run keep rest below m, s.context? pid =
    some ⟨Frame.body run keep rest :: below ++ fs, .perform .panic, m⟩

/-- **A panic above some frames began as that of a handler** above them, if there was none when
something began there that has gone on since. -/
theorem exists_panicsAbove {P : System → Prop} {above : List Frame} {n : Nat} (hs : Reachable s₀)
    (hb : fs ≠ []) (hdeep : ∀ u, Throughout P s₀ u → u.Deep pid n)
    (h₀ : ∀ y, s₀.context? pid = some y → y.control ≠ .panic) (hrun : Throughout P s₀ s)
    (hne : above ≠ []) (hx : s.context? pid = some ⟨above ++ fs, .panic, m⟩) :
    ∃ u, Throughout P s₀ u ∧ Throughout P u s ∧ u.PanicsAbove pid fs := by
  induction hrun generalizing above m with
  | refl => exact absurd rfl (h₀ _ hx)
  | @tail u v hu hm ih =>
    have hr := Throughout.reachable hu hs
    obtain ⟨⟨move, rfl⟩, hP⟩ := hm
    have hlast : Throughout P u (u.move move) := .single ⟨⟨move, rfl⟩, hP⟩
    by_cases hm : move = .process pid
    · subst hm
      obtain ⟨p, q, x₀, hp, hx₀, -, hstep⟩ := step_of_context? hr.sound hx (by simp)
      have hu₀ := context?_eq_some.2 ⟨p, hp, hx₀⟩
      rcases hstep.of_panic with rfl | ⟨f, m', rfl⟩
      · obtain ⟨f, above, rfl⟩ := List.exists_cons_of_ne_nil hne
        have hsound := hr.sound.contexts pid _ hu₀
        cases f with
        | main keep => exact absurd (List.append_eq_nil_iff.1 hsound.stacked.1).2 hb
        | body run keep rest => exact ⟨u, hu, hlast, run, keep, rest, above, m, hu₀⟩
        | _ => cases hsound.fits
      · obtain ⟨w, hw, hwu, hpanics⟩ := ih (List.cons_ne_nil f above) hu₀
        exact ⟨w, hw, hwu.trans hlast, hpanics⟩
    · obtain ⟨w, hw, hwu, hpanics⟩ :=
        ih hne ((context?_of_others hr.sound (hdeep u hu) hm).symm.trans hx)
      exact ⟨w, hw, hwu.trans hlast, hpanics⟩

/-- An end is not undone while a call lasts. -/
theorem exited_of_during (hs : Reachable s) (hrun : During pid fs.length s s')
    (hy : s.Above pid fs p y) (he : p.status.isExited = true) :
    ∃ q y', s'.Above pid fs q y' ∧ q.status.isExited = true := by
  induction hrun with
  | refl => exact ⟨p, y, hy, he⟩
  | @tail u v hu hm ih =>
    obtain ⟨q, y', hq, he⟩ := ih
    obtain ⟨⟨move, rfl⟩, hd⟩ := hm
    rcases hq.move (During.reachable hu hs).sound move with ⟨-, r, z, hown⟩ | ⟨-, r, hr, hdist⟩
    · exact ⟨r, z, hown.above hd, hown.ended he⟩
    · exact ⟨r, y', hr, hdist.isExited he⟩

/-- **The mask on return** from a call whose body is about to start. -/
theorem mask_of_return {call : SystemCall Handler} {m' : SignalSet} (hs : Reachable s₀)
    (hx : s₀.context? pid = some ⟨.callBody call :: fs, .execute call, m⟩)
    (hrun : During pid fs.length s₀ s)
    (hret : (s.step pid).context? pid = some ⟨fs, c, m'⟩) : m' = Context.maskAfter call m := by
  obtain ⟨hr, p, y, hy, hphase⟩ := maskPhase_of_execute hs hx hrun
  obtain ⟨q, hown⟩ := hy.leave hr.sound hret
  rcases hphase.step (hy.sound hr.sound) hown.step with ⟨-, hm⟩ | hphase'
  · exact hm
  · exact absurd rfl hphase'.ne_nil

end System

end PosixSignals
