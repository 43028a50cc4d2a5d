import PosixSignals.Proofs.Scenario.MaskDiscipline
import PosixSignals.Proofs.Scenario.Pace
import PosixSignals.Proofs.Scenario.Rousing

/-!
# What wakes a suspension

A `sigsuspend` from the moment it begins to its return. Once a handler has
been entered or the process has been continued it does not come to rest
before it is over, which it is after a bounded number of steps, and then it
has succeeded, unless the process has ended or a handler has failed. The
history since the beginning tells which of these has happened.
-/

namespace PosixSignals

namespace System

variable {s s' s₀ u v : System} {pid : Pid} {p q : Process} {fs frames : List Frame}
  {m mask m' : SignalSet} {c : Control} {new later : List Record} {y y' : Context}
  {call : SystemCall Handler} {r ret : Reply} {failed : Errno → Prop}

/-! ## Awake -/

/-- **A handler breaks off a suspension**, or the check point at the end of its call. -/
def BreaksOff (s : System) (pid : Pid) (fs : List Frame) (e : Errno) : Prop :=
  (∃ saved n call, s.FailsOver pid (.suspended saved n :: .callBody call :: fs) e) ∨
    s.HandlerFails pid fs e

/-- It was broken off with this error on the way from one state to another. -/
def Broken (s s' : System) (pid : Pid) (fs : List Frame) (e : Errno) : Prop :=
  ∃ u, During pid fs.length s u ∧ During pid fs.length u s' ∧ u.BreaksOff pid fs e

/-- **A suspension that has entered a handler**, seen from above the frames below its call. -/
inductive Awake (call : SystemCall Handler) (m : SignalSet) (failed : Errno → Prop)
    (p : Process) : List Frame → Control → Prop
  /-- A handler is not back yet. -/
  | serves {above : List Frame} {n : Nat} {c : Control} (hne : above ≠ [])
      (hback : ∀ e, above = [.round] → c = .reply (.error e) → failed e) :
      Awake call m failed p (above ++ [Frame.suspended m n, .callBody call]) c
  | looks {n : Nat} {c : Control} (hc : c.loop? = some (.check true)) :
      Awake call m failed p [.suspended m n, .callBody call] c
  | looked {n : Nat} :
      Awake call m failed p [.suspended m n, .callBody call] (.reply (.ok (.delivered true)))
  | fails {n : Nat} {e : Errno} (he : e = .mustExit ∧ p.status.isExited = true ∨ failed e) :
      Awake call m failed p [.suspended m n, .callBody call] (.reply (.error e))
  /-- A handler has panicked. -/
  | panics {n : Nat} : Awake call m failed p [.suspended m n, .callBody call] .panic
  | panicked : Awake call m failed p [.callBody call] .panic

theorem Awake.disturbed (h : Awake call m failed p frames c) (hd : p.Disturbed q) :
    Awake call m failed q frames c := by
  cases h with
  | serves hne hback => exact .serves hne hback
  | looks hc => exact .looks hc
  | looked => exact .looked
  | fails he => exact .fails (he.imp_left (And.imp_right hd.isExited))
  | panics => exact .panics
  | panicked => exact .panicked

theorem Awake.bottom (h : Awake call m failed p frames c) :
    ∃ above, frames = above ++ [Frame.callBody call] := by
  cases h with
  | @serves above n => exact ⟨above ++ [Frame.suspended m n], by simp⟩
  | looks | looked | fails | panics => exact ⟨[.suspended m _], rfl⟩
  | panicked => exact ⟨[], rfl⟩

/-- **What the body of a suspension comes to.** -/
inductive BodyEnds (failed : Errno → Prop) (roused : Prop) (p : Process) (r : Reply) : Prop
  | wakes (hr : r = .ok .done) (h : roused)
  | ended (hr : r = .error .mustExit) (he : p.status.isExited = true)
  | broken {e : Errno} (hr : r = .error e) (he : failed e)

theorem BodyEnds.mono {roused roused' : Prop} (h : BodyEnds failed roused p r)
    (hr : roused → roused') (he : p.status.isExited = true → q.status.isExited = true) :
    BodyEnds failed roused' q r := by
  cases h with
  | wakes hr' h => exact .wakes hr' (hr h)
  | ended hr' h => exact .ended hr' (he h)
  | broken hr' h => exact .broken hr' h

/-- **A step while a handler is not back.** -/
theorem awake_of_serves {above : List Frame} {n : Nat} (hs : s.Sound) (hy : s.Above pid fs p y)
    (hfs : y.frames = above ++ [Frame.suspended m n, .callBody call]) (hne : above ≠ [])
    (hback : ∀ e, above = [.round] → y.control = .reply (.error e) → failed e)
    (hf : ∀ e, s.BreaksOff pid fs e → failed e) (hown : OwnMove s' pid fs p q y y') :
    Awake call m failed q y'.frames y'.control := by
  obtain ⟨frames, c, mask⟩ := y
  obtain rfl : frames = above ++ [Frame.suspended m n, .callBody call] := hfs
  obtain ⟨f, above, rfl⟩ := List.exists_cons_of_ne_nil hne
  obtain ⟨above', hfs', -⟩ := hown.step.within
    (show _ = f :: above ++ [Frame.suspended m n, .callBody call] from rfl)
  have hsound := hy.sound hs
  obtain ⟨frames', c', mask'⟩ := y'
  obtain rfl : frames' = above' ++ [Frame.suspended m n, .callBody call] := hfs'
  by_cases hne' : above' = []
  · -- only the check point itself comes back to the suspension
    subst hne'
    obtain rfl : above = [] := by
      cases above with
      | nil => rfl
      | cons g above =>
        obtain ⟨_, hlong, -⟩ := hown.step.within
          (show _ = [f] ++ (g :: above ++ [Frame.suspended m n, .callBody call]) from rfl)
        have hlength := congrArg List.length hlong
        simp at hlength
        omega
    obtain rfl : f = .round := by
      have hst := hsound.stacked.1
      cases f <;> simp [Frame.StandsOn, Frame.isDelivery, Frame.hostsDelivery, Frame.hostsWait,
        Frame.isRoutine] at hst ⊢
    have hstep := hown.step
    dsimp only [List.nil_append, List.cons_append] at hstep ⊢
    cases hstep with
    | roundNext => exact .looks rfl
    | roundFail => exact .fails (.inr (hback _ rfl rfl))
    | unwind => exact .panics
  · refine .serves hne' fun e he hc => ?_
    subst he
    obtain rfl : c' = .reply (.error e) := hc
    obtain ⟨sig, action, saved, r, m', hx, hr⟩ := hown.whole.reply_of_round hsound
    obtain rfl : r = .error e := by cases r <;> simp_all [Except.map]
    exact hf e (.inl ⟨m, n, call, sig, action, saved, m', hy.context?.trans (congrArg some hx)⟩)

section OnItsFrame

variable {n : Nat} (hy : s.Above pid fs p y) (hfs : y.frames = [.suspended m n, .callBody call])
  (hown : OwnMove (s.step pid) pid fs p q y y')
include hy hfs hown

/-- **A step where the check point looks**, or is blocked. -/
theorem awake_of_looks (hs : s.Sound) (hc : y.control.loop? = some (.check true)) :
    Awake call m failed q y'.frames y'.control := by
  have hx := hy.context
  have heq := hown.eq_step hy
  have hcome : ∀ frames {c m'}, q.context? = some ⟨frames ++ fs, c, m'⟩ → y' = ⟨frames, c, m'⟩ :=
    fun frames => hown.eq_of_context? frames
  obtain ⟨frames, c, mask⟩ := y
  obtain rfl : frames = [.suspended m n, .callBody call] := hfs
  dsimp only at hx heq
  obtain rfl | ⟨l, rfl⟩ := Control.loop?_eq_some hc
  · obtain ⟨root, -, rfl⟩ := heq rfl
    have hlook : p.Look pid true ([Frame.suspended m n, .callBody call] ++ fs) mask
        (p.step s.now pid
          ⟨[Frame.suspended m n, .callBody call] ++ fs, .loop (.check true), root⟩) :=
      Process.look_check pid (hs.inboxes pid p hy.process) hx
    cases hlook with
    | ends he hx' hst =>
      obtain rfl := hcome _ hx'
      exact .fails (.inl ⟨rfl, hst ▸ he⟩)
    | pauses _ hx' | drops _ hx' | acts _ _ _ hx' =>
      obtain rfl := hcome _ hx'
      exact .looks rfl
    | passes _ hx' =>
      obtain rfl := hcome _ hx'
      exact .looked
    | @enters sig action run rest _ _ _ _ hx' =>
      obtain rfl := hcome ([Frame.body run false rest, .delivery sig action mask, .round] ++
        [Frame.suspended m n, .callBody call]) hx'
      exact .serves (by simp) (by simp)
  · obtain ⟨root, -, rfl⟩ := heq rfl
    have hx' : (p.awaken s.now (.check true) l).context? =
          some ⟨[Frame.suspended m n, .callBody call] ++ fs, .loop (.check true), mask⟩ ∨
        (p.awaken s.now (.check true) l).context? =
          some ⟨[Frame.suspended m n, .callBody call] ++ fs, .blocked (.check true) l, mask⟩ := by
      rcases p.awaken_cases s.now (.check true) l rfl with he | he <;> rw [he]
      · exact .inl (by rw [Process.context?_goto, hx]; rfl)
      · exact .inr hx
    rcases hx' with hx' | hx'
    · obtain rfl := hcome _ hx'
      exact .looks rfl
    · obtain rfl := hcome _ hx'
      exact .looks rfl

/-- **When the check point has delivered something, or failed, the suspension is over**, with what
it says. -/
theorem body_over (hc : y.control = .reply r)
    (hr : r = .ok (.delivered true) ∨ ∃ e, r = .error e) :
    y'.frames = [.callBody call] ∧ y'.control = .reply (r.map fun _ => .done) := by
  have hx := hy.context
  obtain ⟨frames, c, mask⟩ := y
  obtain rfl : frames = [.suspended m n, .callBody call] := hfs
  obtain rfl : c = .reply r := hc
  obtain ⟨root, -, rfl⟩ := hown.eq_step hy rfl
  have hpop : p.pop.context? = some ⟨.callBody call :: fs, .reply r, mask⟩ := by
    rw [Process.context?_pop, hx]
    rfl
  have hx' : (p.pop.finishSuspend m n r).context? =
      some ⟨.callBody call :: fs, .reply (r.map fun _ => .done), m \ .uncatchable⟩ := by
    obtain rfl | ⟨e, rfl⟩ := hr <;> exact Process.context?_answer_restore hpop m _
  obtain rfl := hown.eq_of_context? [.callBody call] hx'
  exact ⟨rfl, rfl⟩

/-- A panic goes on below the suspension. -/
theorem awake_of_panics (hc : y.control = .panic) :
    Awake call m failed q y'.frames y'.control := by
  have hx := hy.context
  obtain ⟨frames, c, mask⟩ := y
  obtain rfl : frames = [.suspended m n, .callBody call] := hfs
  obtain rfl : c = .panic := hc
  obtain ⟨root, -, rfl⟩ := hown.eq_step hy rfl
  have hx' : (p.pop.restore m).context? =
      some ⟨[Frame.callBody call] ++ fs, .panic, m \ .uncatchable⟩ := by
    rw [Process.context?_restore, Process.context?_pop, hx]
    rfl
  obtain rfl := hown.eq_of_context? [.callBody call] hx'
  exact .panicked

end OnItsFrame

/-- A panic leaves the body of a call. -/
theorem frames_of_panicked (hy : s.Above pid fs p y) (hfs : y.frames = [.callBody call])
    (hc : y.control = .panic) (hown : OwnMove (s.step pid) pid fs p q y y') : y'.frames = [] := by
  have hx := hy.context
  obtain ⟨frames, c, mask⟩ := y
  obtain rfl : frames = [.callBody call] := hfs
  obtain rfl : c = .panic := hc
  obtain ⟨root, -, rfl⟩ := hown.eq_step hy rfl
  have hx' : p.pop.context? = some ⟨[] ++ fs, .panic, mask⟩ := by
    rw [Process.context?_pop, hx]
    rfl
  obtain rfl := hown.eq_of_context? [] hx'
  rfl

/-- **A step of a suspension that has entered a handler**: it goes on, or its body comes to a
result. -/
theorem Awake.step (h : Awake call m failed p frames c) (hs : s.Sound) (hy : s.Above pid fs p y)
    (hfs : y.frames = frames) (hc : y.control = c) (hf : ∀ e, s.BreaksOff pid fs e → failed e)
    (hown : OwnMove (s.step pid) pid fs p q y y') (hne : y'.frames ≠ []) :
    Awake call m failed q y'.frames y'.control ∨
      ∃ r, y'.frames = [.callBody call] ∧ y'.control = .reply r ∧ BodyEnds failed True q r := by
  cases h with
  | serves hserves hback =>
    exact .inl (awake_of_serves hs hy hfs hserves (fun e he hr => hback e he (hc ▸ hr)) hf hown)
  | looks hloop => exact .inl (awake_of_looks hy hfs hown hs (hc ▸ hloop))
  | looked =>
    obtain ⟨hfs', hc'⟩ := body_over hy hfs hown hc (.inl rfl)
    exact .inr ⟨_, hfs', hc', .wakes rfl trivial⟩
  | @fails n e he =>
    obtain ⟨hfs', hc'⟩ := body_over hy hfs hown hc (.inr ⟨e, rfl⟩)
    refine .inr ⟨_, hfs', hc', ?_⟩
    rcases he with ⟨rfl, he⟩ | he
    · exact .ended rfl (hown.ended he)
    · exact .broken rfl he
  | panics => exact .inl (awake_of_panics hy hfs hown hc)
  | panicked => exact absurd (frames_of_panicked hy hfs hc hown) hne

/-! ## The phases of the call -/

/-- **A suspension goes on**, from the moment it began to its return, with what has been noted
since: it has not entered a handler yet, or it has, or its body has come to a result, which the
last check point holds. -/
inductive SuspendPhase (pid : Pid) (fs : List Frame) (mask m : SignalSet) (failed : Errno → Prop)
    (new : List Record) (p : Process) (y : Context) : Prop
  | dormant (h : p.Dormant (.callBody (.sigsuspend mask) :: fs) m (y.frames ++ fs) y.control)
      (hb : y.blocked = mask \ .uncatchable) (he : ¬ Entered pid new)
      (hc : p.continued = true ↔ Continued pid new)
  | awake (h : Awake (.sigsuspend mask) m failed p y.frames y.control) (he : Entered pid new)
  | came {r : Reply} (hfs : y.frames = [.callBody (.sigsuspend mask)]) (hc : y.control = .reply r)
      (hr : BodyEnds failed (Continued pid new ∨ Entered pid new) p r)
  | checks {result : Reply} (h : y.LastCheck failed result p)
      (hr : BodyEnds failed (Continued pid new ∨ Entered pid new) p result)

theorem roused_append (h : Continued pid new ∨ Entered pid new) (later : List Record) :
    Continued pid (later ++ new) ∨ Entered pid (later ++ new) :=
  h.imp (continued_append.2 ∘ .inl) (entered_append.2 ∘ .inl)

/-- **What others do** while a suspension goes on. -/
theorem SuspendPhase.other (h : SuspendPhase pid fs mask m failed new p y) (hs : s.Sound)
    (hy : s.Above pid fs p y) {move : Move} (hm : move ≠ .process pid) :
    ∃ later q, (s.move move).history = later ++ s.history ∧ (s.move move).Above pid fs q y ∧
      SuspendPhase pid fs mask m failed (later ++ new) q y := by
  obtain ⟨q, later, hheard⟩ := heard_of_others hs hy.process hy.context (hy.busy hs) hm
  have htold := hheard.told
  have hd := htold.sent.toDisturbed
  have hq : (s.move move).Above pid fs q y :=
    ⟨hheard.process, (Process.context?_congr hd.task hd.blocked).trans hy.context, hy.nonempty⟩
  refine ⟨later, q, hheard.history, hq, ?_⟩
  cases h with
  | dormant h hb he hc =>
    have hlater : ¬ Entered pid later := fun ⟨r, hr, hsrc, _⟩ => hheard.source r hr hsrc
    refine .dormant (h.told htold) hb (fun h => (entered_append.1 h).elim he hlater) ?_
    rw [htold.continued, continued_append, hc]
    simp [Continued]
  | awake h he => exact .awake (h.disturbed hd) (entered_append.2 (.inl he))
  | came hfs hc hr => exact .came hfs hc (hr.mono (roused_append · later) hd.isExited)
  | checks h hr => exact .checks (h.disturbed hd) (hr.mono (roused_append · later) hd.isExited)

/-- **A step of a suspension that has not entered a handler.** -/
theorem dormant_step
    (h : p.Dormant (.callBody (.sigsuspend mask) :: fs) m (y.frames ++ fs) y.control)
    (hb : y.blocked = mask \ .uncatchable) (he : ¬ Entered pid new)
    (hc : p.continued = true ↔ Continued pid new) (hs : s.Sound) (hy : s.Above pid fs p y)
    (hown : OwnMove (s.step pid) pid fs p q y y') :
    ∃ later, (s.step pid).history = later ++ s.history ∧
      SuspendPhase pid fs mask m failed (later ++ new) q y' := by
  have hshared := h.busy.1
  obtain ⟨root, ht, rfl⟩ := hown.eq_step hy hshared
  have hstirs : Process.Stirs _ m p.inbox.blocked pid p (p.step s.now pid _) :=
    h.step ht (hs.inboxes pid p hy.process)
  obtain ⟨src, hsrc, hhistory⟩ := history_step_of_not_isShared hy.process ht hshared
  rw [Process.blocked_of_context? hy.context] at hstirs
  refine ⟨_, hhistory, ?_⟩
  cases hstirs with
  | @dormant frames' c' hx' h' hq =>
    obtain ⟨rfl, rfl, hmask⟩ := Context.mk.inj (Option.some.inj (hown.context.symm.trans hx'))
    refine .dormant h' (hmask.trans hb) (fun hin => ?_) ?_
    · rcases entered_append.1 hin with hin | hin
      · exact he hin
      · obtain ⟨e, hmem, hentry⟩ := (entered_of_events hsrc).1 hin
        simp [(hq.events e hmem).1] at hentry
    · rw [hq.continued, continued_append, hc]
      refine (or_iff_left fun hin => ?_).symm
      exact (hq.events _ (continued_of_events.1 hin)).2 rfl
  | @enters run rest sig action n mask' hx' hentry =>
    obtain rfl := hown.eq_of_context? ([Frame.body run false rest,
      .delivery sig action y.blocked, .round] ++
        [Frame.suspended m n, .callBody (.sigsuspend mask)]) hx'
    exact .awake (.serves (by simp) (by simp))
      (entered_append.2 (.inr ((entered_of_events hsrc).2 hentry)))
  | @comes reply hx' hr hst =>
    obtain rfl := hown.eq_of_context? [.callBody (.sigsuspend mask)] hx'
    refine .came rfl rfl ?_
    rcases hr with ⟨rfl, hcont⟩ | ⟨rfl, hend⟩
    · exact .wakes rfl (roused_append (.inl (hc.1 hcont)) _)
    · exact .ended rfl (hst ▸ hend)

/-- **A move while a suspension goes on.** -/
theorem SuspendPhase.move (h : SuspendPhase pid fs mask m failed new p y) (hs : s.Sound)
    (hy : s.Above pid fs p y) (hf : ∀ e, s.BreaksOff pid fs e → failed e) {move : Move}
    (hd : (s.move move).Deep pid fs.length) :
    ∃ later q y', (s.move move).history = later ++ s.history ∧ (s.move move).Above pid fs q y' ∧
      SuspendPhase pid fs mask m failed (later ++ new) q y' := by
  rcases hy.move hs move with ⟨rfl, q, y', hown⟩ | ⟨hm, -⟩
  · have hy' := hown.above hd
    change OwnMove (s.step pid) pid fs p q y y' at hown
    obtain ⟨news, hnews⟩ := exists_history_move hs (.process pid)
    cases h with
    | dormant h hb he hc =>
      obtain ⟨later, hlater, h'⟩ := dormant_step h hb he hc hs hy hown
      exact ⟨later, q, y', hlater, hy', h'⟩
    | awake h he =>
      have he' : Entered pid (news ++ new) := entered_append.2 (.inl he)
      refine ⟨news, q, y', hnews, hy', ?_⟩
      rcases h.step hs hy rfl rfl hf hown hy'.nonempty with h' | ⟨r, hfs, hc, hr⟩
      · exact .awake h' he'
      · exact .came hfs hc (hr.mono (fun _ => .inr he') id)
    | came hfs hc hr =>
      have hwhole := hown.whole
      rw [hfs, hc] at hwhole
      obtain rfl := hown.eq_of_context? [.callExit _]
        (hown.context.trans (congrArg _ hwhole.of_concluded))
      exact ⟨news, q, _, hnews, hy', .checks Context.lastCheck_of_loop
        (hr.mono (roused_append · news) hown.ended)⟩
    | checks h hr =>
      exact ⟨news, q, y', hnews, hy',
        .checks (h.step hy hs (fun e he => hf e (.inr he)) hown hy'.nonempty)
          (hr.mono (roused_append · news) hown.ended)⟩
  · obtain ⟨later, q, hlater, hq, h'⟩ := h.other hs hy hm
    exact ⟨later, q, y, hlater, hq, h'⟩

/-! ## The call from its beginning -/

/-- **The suspension begins**: earlier continues are forgotten, and the mask is replaced. -/
theorem process?_of_execute (hp : s.process? pid = some p)
    (hx : p.context? = some ⟨fs, .execute (.sigsuspend mask), m⟩) :
    (s.step pid).process? pid = some (p.beginSuspend mask) ∧
      (p.beginSuspend mask).context? = some ⟨fs, .loop (.suspend m), mask \ .uncatchable⟩ := by
  obtain ⟨root, ht, hb⟩ := Process.context?_eq_some.1 hx
  obtain rfl : p.inbox.blocked = m := hb
  refine ⟨?_, ?_⟩
  · rw [step_of_execute hp ht rfl]
    exact process?_act_self hp
  · simp only [Process.beginSuspend, Process.context?, Process.goto, ht]
    rfl

section Call

variable (hx : s.context? pid = some
  ⟨.callBody (.sigsuspend mask) :: fs, .execute (.sigsuspend mask), m⟩)
include hx

theorem above_of_execute : ∃ p, s.process? pid = some p ∧
    (s.step pid).Above pid fs (p.beginSuspend mask)
      ⟨[.callBody (.sigsuspend mask)], .loop (.suspend m), mask \ .uncatchable⟩ := by
  obtain ⟨p, hp, hpx⟩ := context?_eq_some.1 hx
  obtain ⟨hq, hqx⟩ := process?_of_execute hp hpx
  exact ⟨p, hp, hq, hqx, List.cons_ne_nil _ _⟩

/-- Nothing has come yet. -/
theorem suspendPhase_begin (failed : Errno → Prop) : ∃ p, s.process? pid = some p ∧
    SuspendPhase pid fs mask m failed [] (p.beginSuspend mask)
      ⟨[.callBody (.sigsuspend mask)], .loop (.suspend m), mask \ .uncatchable⟩ := by
  obtain ⟨p, hp, -⟩ := above_of_execute hx
  refine ⟨p, hp, .dormant (.waits rfl) rfl (by simp [Entered]) ?_⟩
  simp [Process.beginSuspend, Process.goto, Continued]

/-- **While the call lasts, so does its phase**, with the errors of the handlers that have failed
on the way to `s'`. -/
theorem suspendPhase_run (hs : Reachable s) (hrun : During pid fs.length (s.step pid) s') :
    ∃ new p y, s'.history = new ++ (s.step pid).history ∧ s'.Above pid fs p y ∧
      SuspendPhase pid fs mask m ((s.step pid).Broken s' pid fs) new p y := by
  have hr : Reachable (s.step pid) := hs.move (.process pid)
  -- by induction on the run so far, with the rest of it up to `s'` carried along
  suffices h : ∀ u, During pid fs.length (s.step pid) u → During pid fs.length u s' →
      ∃ new p y, u.history = new ++ (s.step pid).history ∧ u.Above pid fs p y ∧
        SuspendPhase pid fs mask m ((s.step pid).Broken s' pid fs) new p y from h s' hrun .refl
  intro u hu
  induction hu with
  | refl =>
    intro _
    obtain ⟨p, hp, hy⟩ := above_of_execute hx
    obtain ⟨p', hp', hphase⟩ := suspendPhase_begin hx _
    obtain rfl := Option.some.inj (hp.symm.trans hp')
    exact ⟨[], _, _, rfl, hy, hphase⟩
  | @tail u v hu hm ih =>
    intro hv
    obtain ⟨new, p, y, hnew, hy, hphase⟩ := ih (.head hm hv)
    obtain ⟨⟨move, rfl⟩, hd⟩ := hm
    obtain ⟨later, q, y', hlater, hy', hphase'⟩ := hphase.move (During.reachable hu hr).sound hy
      (fun e he => ⟨u, hu, .head ⟨⟨move, rfl⟩, hd⟩ hv, he⟩) hd
    exact ⟨later ++ new, q, y', by rw [hlater, hnew, List.append_assoc], hy', hphase'⟩

end Call

/-! ## It comes to an end -/

/-- A handler that a call has run has panicked on the way from one state to another. -/
def Panicked (s s' : System) (pid : Pid) (fs : List Frame) : Prop :=
  ∃ u, During pid fs.length s u ∧ During pid fs.length u s' ∧ u.PanicsAbove pid fs

/-- On its own frame a suspension is concerned with signals alone. -/
theorem SuspendPhase.isLone (h : SuspendPhase pid fs mask m failed new p y)
    (hcalls : ∀ f ∈ y.frames, f.isCallBody = true) : y.control.isLone = true := by
  obtain ⟨frames, c, mask'⟩ := y
  dsimp only at hcalls ⊢
  cases h with
  | dormant h =>
    generalize frames ++ fs = all at h
    cases h with
    | waits hc => exact Control.isLone_of_loop? hc rfl
    | looks hc => exact Control.isLone_of_loop? hc rfl
    | looked | ended => rfl
  | awake h =>
    cases h with
    | @serves above n =>
      cases hcalls (.suspended m n) (List.mem_append_right above List.mem_cons_self)
    | looks hc => exact Control.isLone_of_loop? hc rfl
    | looked | fails | panics | panicked => rfl
  | came _ hc =>
    obtain rfl := hc
    rfl
  | @checks result h =>
    obtain ⟨above, hfs⟩ := h.bottom
    obtain rfl := hfs
    cases hcalls (.callExit result) (List.mem_append_right above List.mem_cons_self)

theorem SuspendPhase.engaged (h : SuspendPhase pid fs mask m failed new p y)
    (hy : s.Above pid fs p y) : s.Engaged pid fs p y.frames y.control where
  process := hy.process
  context := ⟨y.blocked, hy.context⟩
  busy he := absurd he hy.nonempty
  lone := h.isLone

/-- The frame of the call is at the bottom. -/
theorem SuspendPhase.bottom (h : SuspendPhase pid fs mask m failed new p y) :
    ∃ above f, y.frames = above ++ [f] ∧ f.isCall = true := by
  cases h with
  | dormant h =>
    obtain ⟨above, hfs⟩ := h.bottom
    rw [List.append_cons] at hfs
    exact ⟨above, _, List.append_cancel_right hfs, rfl⟩
  | awake h =>
    obtain ⟨above, hfs⟩ := h.bottom
    exact ⟨above, _, hfs, rfl⟩
  | came hfs => exact ⟨[], _, hfs, rfl⟩
  | checks h =>
    obtain ⟨above, hfs⟩ := h.bottom
    exact ⟨above, _, hfs, rfl⟩

/-- **A move lets the call go on, or it is left** by a step of the process. -/
theorem SuspendPhase.left (h : SuspendPhase pid fs mask m failed new p y) (hs : s.Sound)
    (hy : s.Above pid fs p y) (move : Move) :
    (s.move move).Deep pid fs.length ∨ move = .process pid ∧
      ((∃ ret m', (s.step pid).context? pid = some ⟨fs, .reply ret, m'⟩) ∨
        y.control = .panic ∧ ∃ m', (s.step pid).context? pid = some ⟨fs, .panic, m'⟩) := by
  rcases hy.move hs move with ⟨rfl, q, y', hown⟩ | ⟨-, q, hq, -⟩
  · by_cases hne : y'.frames = []
    · have hret := context?_eq_some.2 ⟨q, hown.process, hown.context⟩
      rw [hne] at hret
      obtain ⟨above, f, hfs, hf⟩ := h.bottom
      have hstep := hown.step
      obtain ⟨frames, c, mask'⟩ := y
      obtain rfl : frames = above ++ [f] := hfs
      refine .inr ⟨rfl, ?_⟩
      rcases hstep.of_left hf hne with ⟨r, hr⟩ | ⟨hc, hc'⟩
      · exact .inl ⟨r, _, hr ▸ hret⟩
      · exact .inr ⟨hc, _, hc' ▸ hret⟩
    · exact .inl (Above.deep ⟨hown.process, hown.context, hne⟩)
  · exact .inl hq.deep

/-! ## At rest -/

/-- **A process that cannot go on** is stopped, or in a handler, or nothing has roused it. -/
theorem SuspendPhase.rest (h : SuspendPhase pid fs mask m failed new p y) (hs : Reachable s)
    (hy : s.Above pid fs p y) (hrest : p.isRunnable s.now = false) :
    p.status.isStopped = true ∨ s.Serving pid fs ∨
      ∃ l, p.context? = some ⟨.callBody (.sigsuspend mask) :: fs, .blocked (.suspend m) l,
          mask \ .uncatchable⟩ ∧ p.status = .normal ∧
        (∀ sig ∈ p.inbox.pending, sig ∈ p.inbox.blocked) ∧
        ¬ Continued pid new ∧ ¬ Entered pid new := by
  have hstops : ∀ {b l}, y.control = .blocked (.check b) l → p.status.isStopped = true :=
    fun {b l} hc => by
      have hx := hy.context
      rw [hc] at hx
      exact (awaits_of_not_isRunnable hs hrest hy.process hx).1
  obtain ⟨l, z, hblocked⟩ := hy.blocked_of_not_isRunnable hs.sound hrest
  cases h with
  | dormant h hb he hc =>
    have hx := hy.context
    generalize y.frames ++ fs = frames at h hx
    rw [hblocked] at h hx
    cases h with
    | waits hl =>
      obtain rfl : l = .suspend m := Option.some.inj hl
      obtain ⟨hn, hd, hcont⟩ := (awaits_of_not_isRunnable hs hrest hy.process hx).1
      refine .inr (.inr ⟨z, hb ▸ hx, hn, hd, fun h => ?_, he⟩)
      simp [hc.2 h] at hcont
    | looks hl =>
      obtain rfl : l = .check _ := Option.some.inj hl
      exact .inl (hstops hblocked)
  | awake h =>
    generalize hfs : y.frames = frames at h
    rw [hblocked] at h
    cases h with
    | serves hne =>
      have hserving := hy.serving hs.sound hfs (.inl ⟨_, _, hblocked⟩) rfl rfl hne
      exact .inr (.inl hserving.of_append)
    | looks hl =>
      obtain rfl : l = .check true := Option.some.inj hl
      exact .inl (hstops hblocked)
  | came _ hc => simp [hblocked] at hc
  | checks h =>
    obtain ⟨above, hfs⟩ := h.bottom
    rcases hy.stopped_or_serving hs hrest hfs hblocked rfl rfl rfl rfl with hst | hserving
    · exact .inl hst
    · exact .inr (.inl hserving.of_append)

/-! ## The return -/

/-- **What the caller of a suspension receives.** -/
theorem SuspendPhase.return (h : SuspendPhase pid fs mask m failed new p y) (hs : s.Sound)
    (hy : s.Above pid fs p y) (hret : (s.step pid).context? pid = some ⟨fs, .reply ret, m'⟩) :
    (ret = .ok .done ∧ (Continued pid new ∨ Entered pid new) ∧
      ∃ w, s.context? pid = some ⟨.callExit (.ok .done) :: fs, .reply (.ok w), m'⟩) ∨
    (ret = .error .mustExit ∧
      ∃ q, (s.step pid).process? pid = some q ∧ q.status.isExited = true) ∨
    ∃ e, ret = .error e ∧ failed e := by
  obtain ⟨q, hown⟩ := hy.leave hs hret
  have hbody : ∀ above, y.frames ≠ above ++ [Frame.callBody (.sigsuspend mask)] :=
      fun above hfs => by
    obtain ⟨frames, c, mask'⟩ := y
    obtain rfl : frames = above ++ [Frame.callBody (.sigsuspend mask)] := hfs
    obtain ⟨-, result, hfalse, -⟩ := hown.step.returns rfl
    cases hfalse
  cases h with
  | dormant h =>
    obtain ⟨above, hfs⟩ := h.bottom
    rw [List.append_cons] at hfs
    exact absurd (List.append_cancel_right hfs) (hbody above)
  | awake h =>
    obtain ⟨above, hfs⟩ := h.bottom
    exact absurd hfs (hbody above)
  | came hfs => exact absurd hfs (hbody [])
  | @checks result h hr =>
    obtain ⟨above, hfs⟩ := h.bottom
    have hx := hy.context?
    have hended := hown.ended
    have hfail := h.ended
    obtain ⟨frames, c, mask'⟩ := y
    obtain rfl : frames = above ++ [Frame.callExit result] := hfs
    have hstep := hown.step
    obtain ⟨rfl, result', hres, ⟨w, rfl, rfl, -⟩ | ⟨e, rfl, rfl⟩⟩ := hown.step.returns rfl
    · obtain rfl := Frame.callExit.inj hres
      obtain rfl : mask' = m' := by
        dsimp only [List.nil_append] at hstep
        cases hstep with
        | exitCall => rfl
      cases hr with
      | wakes hok h => exact .inl ⟨hok, h, w, hok ▸ hx⟩
      | ended hok he => exact .inr (.inl ⟨hok, q, hown.process, hended he⟩)
      | broken hok he => exact .inr (.inr ⟨_, hok, he⟩)
    · rcases hfail e rfl rfl with ⟨rfl, he⟩ | he
      · exact .inr (.inl ⟨rfl, q, hown.process, hended he⟩)
      · exact .inr (.inr ⟨e, rfl, he⟩)

section Call

variable (hx : s.context? pid = some
  ⟨.callBody (.sigsuspend mask) :: fs, .execute (.sigsuspend mask), m⟩)
include hx

/-- It has only just begun. -/
theorem begun_of_execute :
    (s.step pid).Deep pid fs.length ∧ ¬ (s.step pid).Passed pid fs ∧
      During pid fs.length s (s.step pid) := by
  obtain ⟨p, -, hy⟩ := above_of_execute hx
  have hd : (s.step pid).Deep pid fs.length := ⟨_, hy.context?, by simp⟩
  refine ⟨hd, fun ⟨result, w, m', hpassed⟩ => ?_, .single ⟨⟨.process pid, rfl⟩, hd⟩⟩
  have := hy.context?.symm.trans hpassed
  simp at this

variable (hs : Reachable s)
include hs

/-- **The return of a suspension**, under the old mask and after a moment at which nothing was left
to deliver. -/
theorem suspension_returns (hrun : During pid fs.length (s.step pid) s')
    (hnew : s'.history = new ++ (s.step pid).history)
    (hret : (s'.step pid).context? pid = some ⟨fs, .reply ret, m'⟩) :
    m' = m ∧ (ret = .ok .done ∧ (Continued pid new ∨ Entered pid new) ∧
        (∃ v w, During pid fs.length (s.step pid) v ∧ During pid fs.length v s' ∧
          v.context? pid = some ⟨.callExit (.ok .done) :: fs, .reply (.ok w), m⟩ ∧ v.Settled pid) ∨
      (ret = .error .mustExit ∧
        ∃ q, (s'.step pid).process? pid = some q ∧ q.status.isExited = true) ∨
      ∃ e, ret = .error e ∧ (s.step pid).Broken s' pid fs e) := by
  obtain ⟨hd, hnot, hstart⟩ := begun_of_execute hx
  have hr : Reachable (s.step pid) := hs.move (.process pid)
  obtain ⟨new', p, y, hnew', hy, hphase⟩ := suspendPhase_run hx hs hrun
  obtain rfl := List.append_cancel_right (hnew.symm.trans hnew')
  obtain rfl : m' = m := mask_of_return hs hx (hstart.trans hrun) hret
  refine ⟨rfl, ?_⟩
  rcases hphase.return (hrun.reachable hr).sound hy hret with ⟨rfl, hroused, w, hx'⟩ | hend | hbroken
  · obtain ⟨v, hsv, hvs, hv, hsettled⟩ := settled_of_passed hr hd hnot hrun hx'
    exact .inl ⟨rfl, hroused, v, w, hsv, hvs, hv, hsettled⟩
  · exact .inr (.inl hend)
  · exact .inr (.inr hbroken)

/-- **A suspension is left** by a reply, or by the panic of a handler that it has run. -/
theorem suspension_left (hrun : During pid fs.length (s.step pid) s') (move : Move) :
    (s'.move move).Deep pid fs.length ∨ move = .process pid ∧
      ((∃ ret m', (s'.step pid).context? pid = some ⟨fs, .reply ret, m'⟩) ∨
        (s.step pid).Panicked s' pid fs ∧
          ∃ m', (s'.step pid).context? pid = some ⟨fs, .panic, m'⟩) := by
  have hr : Reachable (s.step pid) := hs.move (.process pid)
  have hb : fs ≠ [] := ((hs.sound.contexts pid _ hx).stacked).1.ne_nil
  obtain ⟨hd, -, -⟩ := begun_of_execute hx
  obtain ⟨new, p, y, -, hy, hphase⟩ := suspendPhase_run hx hs hrun
  refine (hphase.left (hrun.reachable hr).sound hy move).imp_right fun ⟨hm, hback⟩ =>
    ⟨hm, hback.imp_right fun ⟨hc, hpanic⟩ => ⟨?_, hpanic⟩⟩
  have hpx := hy.context?
  rw [hc] at hpx
  refine exists_panicsAbove hr hb (fun u hu => During.deep hu hd) (fun z hz => ?_) hrun
    hy.nonempty hpx
  obtain ⟨_, -, hbegun⟩ := above_of_execute hx
  obtain rfl := Option.some.inj (hbegun.context?.symm.trans hz)
  simp

/-- **And it is soon over.** -/
theorem suspension_soonOver (hrun : During pid fs.length (s.step pid) s') :
    SoonOver (·.Deep pid fs.length) pid fs.length s' := by
  have hr : Reachable (s.step pid) := hs.move (.process pid)
  have hb : fs ≠ [] := ((hs.sound.contexts pid _ hx).stacked).1.ne_nil
  refine soonOver_of_engaged (hrun.reachable hr) hb fun u hu => ?_
  obtain ⟨new, p, y, -, hy, hphase⟩ := suspendPhase_run hx hs (hrun.trans hu)
  exact ⟨p, _, _, hphase.engaged hy⟩

/-- **Who ends before the last check point is over is told so.** -/
theorem breaks_of_exited (hrun : During pid fs.length (s.step pid) s')
    (hp : s'.process? pid = some p) (he : p.status.isExited = true) (hnot : ¬ s'.Passed pid fs)
    (hrest : During pid fs.length s' v)
    (hret : (v.step pid).context? pid = some ⟨fs, .reply ret, m'⟩) :
    ret = .error .mustExit ∨ ∃ e, ret = .error e ∧ (s.step pid).Broken v pid fs e := by
  have hr : Reachable (s.step pid) := hs.move (.process pid)
  have hr' := hrun.reachable hr
  obtain ⟨new, q, y, hnew, hy, hphase⟩ := suspendPhase_run hx hs (hrun.trans hrest)
  rcases hphase.return (hrest.reachable hr').sound hy hret with ⟨-, -, w, hx'⟩ | ⟨hend, -⟩ | hbroken
  · -- a moment at which nothing was left to deliver is not one after the end
    have hd := hrun.deep (begun_of_execute hx).1
    obtain ⟨u, hsu, -, -, z, hz, hn, -⟩ := settled_of_passed hr' hd hnot hrest hx'
    obtain ⟨-, p', y', -, hy', -⟩ := suspendPhase_run hx hs hrun
    obtain rfl := Option.some.inj (hy'.process.symm.trans hp)
    obtain ⟨q', y'', hq', he'⟩ := exited_of_during hr' hsu hy' he
    obtain rfl := Option.some.inj (hz.symm.trans hq'.process)
    simp [hn, Status.isExited] at he'
  · exact .inl hend
  · exact .inr hbroken

end Call

/-- **A suspension wakes exactly on delivery.** In a reachable state the body of a `sigsuspend`
is about to start under the mask `m`. Then the mask is replaced by the
temporary one, less `kill` and `stop`. As long as everything that was pending
or comes is blocked by it or will be discarded, and the process is neither
continued nor ended, it stays suspended, and enters no handler.

In any case: it is left by a step of the process alone, with a reply, or with the
panic of a handler that it has run, and it is soon over: outside of handlers the
process takes twelve steps at most up to then, and thirteen more for each signal
it takes and each notification. When a step of the process would do nothing, then
it is stopped, or a handler is not back, or it is blocked in the suspension and
has neither been continued nor entered a handler since it began; so whoever has
been roused goes on until the call has returned. When it returns, the mask is `m`
again; it has succeeded, has been continued or has entered a handler since it
began, and there was a moment at which the mask was `m` and nothing was left to
deliver; or it is told that the process has ended; or a handler has broken it
off. And it is told so whenever the process has ended before that moment. -/
theorem suspends_until_delivery (hs : Reachable s) (hx : s.context? pid = some
      ⟨.callBody (.sigsuspend mask) :: fs, .execute (.sigsuspend mask), m⟩) :
    let frames := .callBody (.sigsuspend mask) :: fs
    let temp := mask \ .uncatchable
    let s₁ := s.step pid
    s₁.context? pid = some ⟨frames, .loop (.suspend m), temp⟩ ∧
    (∀ p, s.process? pid = some p → p.status.isExited = false →
      (∀ sig ∈ p.inbox.pending, sig ∈ temp ∨ ¬ p.Effective sig) →
      ∀ moves new, (s₁.run moves).history = new ++ s₁.history →
        (∀ r ∈ new, r.event.Lulls pid temp p) →
        (s₁.run moves).Sleeping pid frames m temp p ∧ ¬ Entered pid new) ∧
    ∀ s', During pid fs.length s₁ s' → ∃ new, s'.history = new ++ s₁.history ∧
      (∀ move, (s'.move move).Deep pid fs.length ∨ move = .process pid ∧
        ((∃ ret m', (s'.step pid).context? pid = some ⟨fs, .reply ret, m'⟩) ∨
          s₁.Panicked s' pid fs ∧
            ∃ m', (s'.step pid).context? pid = some ⟨fs, .panic, m'⟩)) ∧
      SoonOver (·.Deep pid fs.length) pid fs.length s' ∧
      (∀ q, s'.process? pid = some q → s'.step pid = s' →
        q.status.isStopped = true ∨ s'.Serving pid fs ∨
        ∃ l, q.context? = some ⟨frames, .blocked (.suspend m) l, temp⟩ ∧ q.status = .normal ∧
          (∀ sig ∈ q.inbox.pending, sig ∈ q.inbox.blocked) ∧
          ¬ Continued pid new ∧ ¬ Entered pid new) ∧
      (∀ ret m', (s'.step pid).context? pid = some ⟨fs, .reply ret, m'⟩ →
        m' = m ∧ (ret = .ok .done ∧ (Continued pid new ∨ Entered pid new) ∧
            (∃ v w, During pid fs.length s₁ v ∧ During pid fs.length v s' ∧
              v.context? pid = some ⟨.callExit (.ok .done) :: fs, .reply (.ok w), m⟩ ∧
              v.Settled pid) ∨
          (ret = .error .mustExit ∧
            ∃ q, (s'.step pid).process? pid = some q ∧ q.status.isExited = true) ∨
          ∃ e, ret = .error e ∧ s₁.Broken s' pid fs e)) ∧
      ∀ q, s'.process? pid = some q → q.status.isExited = true → ¬ s'.Passed pid fs →
        ∀ v ret m', During pid fs.length s' v →
          (v.step pid).context? pid = some ⟨fs, .reply ret, m'⟩ →
          ret = .error .mustExit ∨ ∃ e, ret = .error e ∧ s₁.Broken v pid fs e := by
  intro frames temp s₁
  obtain ⟨p, hp, hy⟩ := above_of_execute hx
  have hr : Reachable s₁ := hs.move (.process pid)
  refine ⟨hy.context?, fun p' hp' hlive hpending moves new hnew hl => ?_, fun s' hrun => ?_⟩
  · obtain rfl := Option.some.inj (hp.symm.trans hp')
    exact Sleeping.run ⟨_, _, _, hy.process, hy.context, .waits rfl, ⟨hlive, rfl, hpending⟩, rfl⟩ hr
      hnew hl
  · obtain ⟨new, q, y, hnew, hy', hphase⟩ := suspendPhase_run hx hs hrun
    refine ⟨new, hnew, suspension_left hx hs hrun, suspension_soonOver hx hs hrun,
      fun q' hq' hstay => ?_, fun ret m' => suspension_returns hx hs hrun hnew,
      fun q' hq' he hpassed v ret m' => breaks_of_exited hx hs hrun hq' he hpassed⟩
    obtain rfl := Option.some.inj (hq'.symm.trans hy'.process)
    have hr' := hrun.reachable hr
    exact hphase.rest hr' hy' (not_isRunnable_of_step hr'.sound hq' hstay)

/-- A process that blocks `hup` is stopped and continued, and then suspends with `hup` blocked. -/
def drowsing : List Move :=
  [Move.host (.root "sleeper"),
    .host (.command 1 (.perform { request := .engine (.changeMask .block (.single .hup)) })),
    .process 1, .process 1,
    .host (.send 1 (.kernel .stop)), .host (.send 1 (.kernel .cont)),
    .host (.command 1 (.perform { request := .system (.sigsuspend (.single .hup)) })),
    .process 1]

/-- It is sent `hup`, and two signals it discards. -/
def undisturbed : List Move :=
  List.replicate 4 (Move.process 1) ++ [Move.host (.send 1 (.kernel .hup)),
    .host (.send 1 (.kernel .chld)), .host (.send 1 (.kernel .cont))] ++
  List.replicate 8 (Move.process 1)

/-- What is noted of that. -/
def unheeded : List Record :=
  [⟨⟨none, []⟩, .generated (.kernel .cont) 1 .discarded⟩,
    ⟨⟨none, []⟩, .generated (.kernel .chld) 1 .discarded⟩,
    ⟨⟨none, []⟩, .generated (.kernel .hup) 1 .queued⟩]

/-- Then it is stopped and continued. -/
def roused : List Move :=
  undisturbed ++ [Move.host (.send 1 (.kernel .stop)), .host (.send 1 (.kernel .cont))] ++
  List.replicate 6 (Move.process 1)

theorem drowsing_context : (initial.run drowsing).context? 1 =
    some ⟨[.callBody (.sigsuspend (.single .hup)), .main false],
      .execute (.sigsuspend (.single .hup)), .single .hup⟩ := by cbv

theorem drowsing_process : ((initial.run drowsing).process? 1).map (fun p =>
    (p.status, p.inbox.pending, p.dispositions.get .chld, p.dispositions.get .cont)) =
    some (.normal, ∅, .default, .default) := by cbv

theorem undisturbed_history :
    (((initial.run drowsing).step 1).run undisturbed).history =
      unheeded ++ ((initial.run drowsing).step 1).history := by cbv

theorem unheeded_lulls {p : Process} (hchld : p.dispositions.get .chld = .default)
    (hcont : p.dispositions.get .cont = .default) :
    ∀ r ∈ unheeded, r.event.Lulls 1 (.single .hup) p := by
  have hkept : ∀ sig, p.dispositions.get sig = .default → sig.defaultAction.isIdle = true →
      ¬ p.Effective sig := fun sig hd hi => by
    simp [Process.Effective, hd, Disposition.discards, hi]
  simp only [unheeded, List.forall_mem_cons, Event.Lulls]
  exact ⟨fun _ => .inr (.inl (hkept .cont hcont rfl)), fun _ => .inr (.inl (hkept .chld hchld rfl)),
    fun _ => .inl (by decide), by simp⟩

theorem roused_during : During 1 1 ((initial.run drowsing).step 1)
    (((initial.run drowsing).step 1).run roused) :=
  during_of_checks (by cbv)

theorem roused_return : ((((initial.run drowsing).step 1).run roused).step 1).context? 1 =
    some ⟨[.main false], .reply (.ok .done), .single .hup⟩ := by cbv

/-- **It sleeps through what it discards**, and the continue from before, and returns after the
second one. -/
theorem suspends_until_delivery_of_drowsing :
    let s₁ := (initial.run drowsing).step 1
    let s' := s₁.run roused
    (∃ p, (s₁.run undisturbed).Sleeping 1 [.callBody (.sigsuspend (.single .hup)), .main false]
      (.single .hup) (.single .hup) p) ∧
    (s'.step 1).context? 1 = some ⟨[.main false], .reply (.ok .done), .single .hup⟩ ∧
    ∃ new, s'.history = new ++ s₁.history ∧ (Continued 1 new ∨ Entered 1 new) ∧
      ∃ v, During 1 1 s₁ v ∧ During 1 1 v s' ∧ v.Settled 1 := by
  intro s₁ s'
  obtain ⟨-, hstays, hgoes⟩ :=
    suspends_until_delivery (Reachable.initial.run drowsing) drowsing_context
  refine ⟨?_, roused_return, ?_⟩
  · obtain ⟨p, hp, -⟩ := context?_eq_some.1 drowsing_context
    have hstate := drowsing_process
    rw [hp, Option.map_some, Option.some.injEq] at hstate
    simp only [Prod.mk.injEq] at hstate
    obtain ⟨hn, hpending, hchld, hcont⟩ := hstate
    obtain ⟨hsleep, -⟩ := hstays p hp (by rw [hn]; rfl) (by simp [hpending]) undisturbed _
      undisturbed_history (unheeded_lulls hchld hcont)
    exact ⟨p, hsleep⟩
  · obtain ⟨new, hnew, -, -, -, hreturns, -⟩ := hgoes _ roused_during
    obtain ⟨-, ⟨-, hroused, v, -, hsv, hvs, -, hsettled⟩ | ⟨hend, -⟩ | ⟨e, he, -⟩⟩ :=
      hreturns _ _ roused_return
    · exact ⟨new, hnew, hroused, v, hsv, hvs, hsettled⟩
    · cases hend
    · cases he

end System

end PosixSignals
