import PosixSignals.Proofs.Process.Interruption
import PosixSignals.Proofs.Scenario.Calls
import PosixSignals.Proofs.Scenario.Wakeup

/-!
# Interrupted calls

From the start of a call that can be interrupted to its return the process
either has a signal really delivered to it, or the call is in one of the
places that `Process.Unserved` lists, whatever others do meanwhile. From
these it returns with anything but an interruption. What the calls that
look ahead cannot know is whether the signals that are there when they start
will be discarded: the body of such a call may be interrupted by those, and
by no others.
-/

namespace PosixSignals

namespace System

variable {s s' s₀ : System} {pid : Pid} {p q : Process} {fs frames : List Frame} {c : Control}
  {m m' : SignalSet} {call : SystemCall Handler} {src : Source} {actor : Option Pid}

/-! ## What is pending -/

theorem known_of_standing (hst : q.standing = p.standing) (h : p.inbox.pending.Known) :
    q.inbox.pending.Known := by
  have hpending : q.inbox.pending = p.inbox.pending := congrArg Standing.pending hst
  exact hpending ▸ h

theorem observed_known : Process.Observed pid fun p q =>
    p.inbox.pending.Known → q.inbox.pending.Known where
  trans h h' := h' ∘ h
  standing := known_of_standing
  without _ _ h := h.sdiff _
  shift h := h.disturbed.inbox.known

/-- **No unknown bit is ever pending.** -/
theorem lasting_known : Lasting fun p => p.inbox.pending.Known where
  root _ _ _ := SignalSet.known_empty
  child _ _ _ _ := SignalSet.known_empty
  unparent _ h := h
  deed {actor pid p r} hd h := by
    cases hd with
    | generate info => exact Process.disturbed_generate.inbox.known h
    | exit w => exact Process.shift_exit.disturbed.inbox.known h
    | stop sig => exact Process.shift_stop.disturbed.inbox.known h
    | resume => exact Process.shift_resume.disturbed.inbox.known h
    | noticeChild | limits | placed | buried | released => exact h
    | mild _ hm => exact observed_known.mild hm h
  conduct hc h := observed_known.conduct hc h

/-! ## What others send -/

theorem sent_of_deed {kin mortal : Bool} {r : Process × List Event}
    (h : Deed actor kin mortal pid p r) (hne : actor ≠ some pid) : p.Sent r.1 := by
  cases h with
  | generate info => exact Process.sent_generate
  | exit w => exact Process.shift_exit.sent
  | stop sig => exact Process.shift_stop.sent
  | resume => exact Process.shift_resume.sent
  | noticeChild | limits | placed =>
    exact Process.sent_of_inbox (Process.disturbed_of_eq rfl rfl rfl rfl rfl rfl rfl) rfl
  | mild ha | buried _ ha | released _ ha => exact absurd ha hne

/-- **What the moves of others bring to a process** in the midst of something. -/
theorem sent_of_move (hs : s.Sound) (hp : s.process? pid = some p) {x : Context}
    (hx : p.context? = some x) (hi : x.control ≠ .idle) {m : Move} (hm : m ≠ .process pid) :
    ∃ q, (s.move m).process? pid = some q ∧ p.Sent q :=
  kept_of_others .refl (fun _ _ _ => .trans)
    (fun _ => Process.sent_of_inbox (Process.disturbed_of_eq rfl rfl rfl rfl rfl rfl rfl) rfl)
    (fun _ _ _ hne hd => sent_of_deed hd hne) hs hp hx hi hm

/-! ## Deliveries -/

/-- **A signal was really delivered to a process** between two states of a run: it
entered a handler or carried out a stop. -/
def Delivers (pid : Pid) (s s' : System) : Prop :=
  ∃ new, s'.history = new ++ s.history ∧
    ∃ r ∈ new, r.source.pid = some pid ∧ r.event.delivers pid = true

theorem Delivers.move (h : Delivers pid s₀ s) (hs : s.Sound) (m : Move) :
    Delivers pid s₀ (s.move m) := by
  obtain ⟨new, hnew, r, hr, hsrc, he⟩ := h
  obtain ⟨later, hlater⟩ := exists_history_move hs m
  exact ⟨later ++ new, by rw [hlater, hnew, List.append_assoc], r,
    List.mem_append_right _ hr, hsrc, he⟩

/-- What is delivered later is delivered. -/
theorem Delivers.of_history (h : Delivers pid s s') {new : List Record}
    (hnew : s.history = new ++ s₀.history) : Delivers pid s₀ s' := by
  obtain ⟨later, hlater, r, hr, hsrc, he⟩ := h
  exact ⟨later ++ new, by rw [hlater, hnew, List.append_assoc], r,
    List.mem_append_left _ hr, hsrc, he⟩

/-! ## A step of the call -/

/-- **A call that nothing has been delivered to is under way.** -/
def Underway (s : System) (pid : Pid) (fs : List Frame) (call : SystemCall Handler) : Prop :=
  ∃ p frames c m, s.process? pid = some p ∧ p.context? = some ⟨frames, c, m⟩ ∧
    Process.Unserved fs call p frames c

/-- Such a call is under way, or it has come back with something else than an
interruption. -/
def Unharmed (s : System) (pid : Pid) (fs : List Frame) (call : SystemCall Handler) : Prop :=
  s.Underway pid fs call ∨
    ∃ reply m, s.context? pid = some ⟨fs, .reply reply, m⟩ ∧ reply ≠ .error .intr

/-- A change of the process that is noted in its own name. -/
theorem unharmed_of_proceeds {f : Process → Process × List Event}
    (hp : s.process? pid = some p) (h : Process.Proceeds fs call pid (f p))
    (hsrc : src.pid = some pid ∨ (f p).2 = []) :
    Delivers pid s (s.act src pid f) ∨ (s.act src pid f).Unharmed pid fs call := by
  have hq : (s.act src pid f).process? pid = some (f p).1 := process?_act_self hp
  cases h with
  | delivers h =>
    obtain ⟨e, he, hd⟩ := h
    rcases hsrc with hsrc | hnone
    · exact .inl ⟨_, act_history hp, ⟨src, e⟩,
        List.mem_reverse.2 (List.mem_map_of_mem he), hsrc, hd⟩
    · simp [hnone] at he
  | unserved hx h => exact .inr (.inl ⟨_, _, _, _, hq, hx, h⟩)
  | returned hx hr => exact .inr (.inr ⟨_, _, context?_eq_some.2 ⟨_, hq, hx⟩, hr⟩)

/-- The body of the call begins. -/
theorem unharmed_of_execute (hp : s.process? pid = some p) (hbox : p.inbox.Sound)
    (hx : p.context? = some ⟨.callBody call :: fs, .execute call, m⟩)
    (hi : call.isInterruptible = true) (h : call.looksAhead = true → p.Clear call.awaited)
    (hsrc : src.pid = some pid) :
    Delivers pid s (s.execute src pid p call) ∨
      (s.execute src pid p call).Unharmed pid fs call := by
  cases call with
  | sigtimedwait set timeout =>
    cases timeout with
    | none => simp [SystemCall.isInterruptible] at hi
    | some timeout =>
      exact unharmed_of_proceeds hp (Process.proceeds_beginWaitAny hbox hx (h rfl)) (.inr rfl)
  | wait4 selector options =>
    exact unharmed_of_proceeds hp (Process.proceeds_wait4 hx (h rfl)) (.inl hsrc)
  | nanosleep timeout =>
    have hgoes : (p.beginSleep s.now timeout).context? = some ⟨.callBody (.nanosleep timeout) :: fs,
        .loop (.sleep (timeout.deadline? s.now)), m⟩ := by
      simp only [Process.beginSleep, Process.context?_goto, hx]
      rfl
    exact unharmed_of_proceeds hp (.unserved hgoes (.sleeps rfl)) (.inr rfl)
  | _ => simp [SystemCall.isInterruptible] at hi

/-- **A turn of a wait for children.** -/
theorem unharmed_of_wait4 {selector : Int} {noHang : Bool} (hs : Reachable s)
    (hp : s.process? pid = some p) {root : Bool}
    (ht : p.task = some ⟨.callBody call :: fs, .loop (.wait4 selector noHang), root⟩)
    (h : p.Clear ∅) :
    Delivers pid s (s.step pid) ∨ (s.step pid).Unharmed pid fs call := by
  have hx : p.context? = some ⟨.callBody call :: fs, .loop (.wait4 selector noHang),
      p.inbox.blocked⟩ := Process.context?_eq_some.2 ⟨root, ht, rfl⟩
  obtain ⟨q, x, hq, hqx, hstep, -⟩ := goes_of_step hs.sound hp hx (by simp)
  have hanswer : ∀ r, r ≠ .error .intr →
      Delivers pid s (s.answer pid r) ∨ (s.answer pid r).Unharmed pid fs call := fun r hr =>
    unharmed_of_proceeds hp (Process.proceeds_answer hx hr) (.inr rfl)
  obtain ⟨src, hsrc, hlook⟩ : ∃ src : Source, src.pid = some pid ∧
      s.step pid = s.wait4 src pid p selector noHang := ⟨_, rfl, step_of_wait4 hp ht rfl⟩
  rw [hlook] at hq ⊢
  have hglance := s.glance src pid p selector noHang
  generalize s.wait4 src pid p selector noHang = s' at hglance hq ⊢
  cases hglance with
  | failed hr => exact hanswer _ (by simp [error_of_ready? hr])
  | @reaped child w hr =>
    have hreply := context?_of_reap hs.sound.ordered hp (by simp [ht]) hq hqx
    obtain ⟨frames, c, m⟩ := x
    obtain rfl : c = .reply (.ok (.child child w)) := hreply
    cases hstep with
    | wait4Over => exact .inr (.inl ⟨q, _, _, _, hq, hqx, .comes (by simp)⟩)
    | answer hc => simp [Control.isCall] at hc
    | waitOver hw => simp at hw
  | hurried | left => exact hanswer _ (by simp)
  | interrupted _ _ _ hd =>
    have hpressed := h.pressed (hs.lasting lasting_known pid p hp) hd
    have hgoes : (p.answer (.error .intr)).context? =
        some ⟨.callBody call :: fs, .reply (.error .intr), p.inbox.blocked⟩ := by
      rw [Process.context?_answer, hx]
      rfl
    exact unharmed_of_proceeds hp (.unserved hgoes (.comes fun _ => hpressed)) (.inr rfl)
  | blocked =>
    have hgoes : (p.goto (.blocked (.wait4 selector noHang) (p.listen .child none))).context? =
        some ⟨.callBody call :: fs, .blocked (.wait4 selector noHang) (p.listen .child none),
          p.inbox.blocked⟩ := by
      rw [Process.context?_goto, hx]
      rfl
    exact unharmed_of_proceeds hp (.unserved hgoes (.expects rfl h)) (.inl hsrc)

/-- **A step of the call.** -/
theorem unharmed_step (hs : Reachable s) (hp : s.process? pid = some p)
    (hx : p.context? = some ⟨frames, c, m⟩) (h : Process.Unserved fs call p frames c) :
    Delivers pid s (s.step pid) ∨ (s.step pid).Unharmed pid fs call := by
  obtain ⟨root, ht, -⟩ := Process.context?_eq_some.1 hx
  have hbox := hs.sound.inboxes pid p hp
  cases hl : c.isShared with
  | false =>
    have hk := hs.lasting lasting_known pid p hp
    rw [step_of_not_isShared hp ht hl]
    exact unharmed_of_proceeds hp (h.step ht hbox hk hl) (.inl rfl)
  | true =>
    cases h with
    | starts hi h =>
      rw [step_of_execute hp ht rfl]
      exact unharmed_of_execute hp hbox hx hi h rfl
    | expects hc h =>
      obtain rfl | ⟨y, rfl⟩ := Control.loop?_eq_some hc
      · exact unharmed_of_wait4 hs hp ht h
      · simp [Control.isShared] at hl
    | waits hc | sleeps hc | naps hc | checks hc =>
      obtain rfl | ⟨y, rfl⟩ := Control.loop?_eq_some hc <;> simp [Control.isShared] at hl
    | napped | comes | checked => simp [Control.isShared] at hl

/-- **The call is asked for**: its frame is opened, and nothing else changes. -/
theorem underway_of_call (hp : s.process? pid = some p)
    (hx : p.context? = some ⟨fs, .perform (.system call), m⟩) (hi : call.isInterruptible = true)
    (h : call.looksAhead = true → p.Clear call.awaited) : (s.step pid).Underway pid fs call := by
  obtain ⟨root, ht, -⟩ := Process.context?_eq_some.1 hx
  have hgoes : (p.enter (.callBody call) (.execute call)).context? =
      some ⟨.callBody call :: fs, .execute call, m⟩ := by
    rw [Process.context?_enter, hx]
    rfl
  refine ⟨p.enter (.callBody call) (.execute call), _, _, _, ?_, hgoes, .starts hi h⟩
  rw [step_of_not_isShared hp ht rfl]
  exact process?_act_self hp

/-- **A move while the call is under way.** -/
theorem Underway.move (h : s.Underway pid fs call) (hs : Reachable s) (m : Move) :
    Delivers pid s (s.move m) ∨ (s.move m).Unharmed pid fs call := by
  obtain ⟨p, frames, c, mask, hp, hx, hplace⟩ := h
  by_cases hm : m = .process pid
  · subst hm
    exact unharmed_step hs hp hx hplace
  · have hi : c ≠ .idle := by
      rintro rfl
      cases hplace <;> simp_all [Control.loop?]
    obtain ⟨q, hq, hsent⟩ := sent_of_move hs.sound hp hx hi hm
    have hqx : q.context? = some ⟨frames, c, mask⟩ :=
      (Process.context?_congr hsent.task hsent.blocked).trans hx
    exact .inr (.inl ⟨q, frames, c, mask, hq, hqx, hplace.sent hsent⟩)

/-- Whoever has come back is not in the midst of the call any more. -/
theorem Unharmed.underway (h : s.Unharmed pid fs call) (hd : s.Deep pid fs.length) :
    s.Underway pid fs call := by
  rcases h with h | ⟨reply, m, hx, -⟩
  · exact h
  · obtain ⟨x, hx', hlt⟩ := hd
    obtain rfl := Option.some.inj (hx.symm.trans hx')
    exact absurd hlt (Nat.lt_irrefl _)

/-- **A run while the call lasts**: a signal is delivered, or the call stays under way. -/
theorem underway_run (h : s.Underway pid fs call) (hs : Reachable s)
    (hrun : During pid fs.length s s') : Delivers pid s s' ∨
      (∃ new, s'.history = new ++ s.history) ∧ s'.Underway pid fs call := by
  induction hrun with
  | refl => exact .inr ⟨⟨[], rfl⟩, h⟩
  | @tail u v hu hm ih =>
    obtain ⟨⟨m, rfl⟩, hd⟩ := hm
    have hr : Reachable u := During.reachable hu hs
    rcases ih with hdelivers | ⟨⟨new, hnew⟩, hunder⟩
    · exact .inl (hdelivers.move hr.sound m)
    · rcases hunder.move hr m with hdelivers | hharm
      · exact .inl (hdelivers.of_history hnew)
      · obtain ⟨later, hlater⟩ := exists_history_move hr.sound m
        exact .inr ⟨⟨later ++ new, by rw [hlater, hnew, List.append_assoc]⟩, hharm.underway hd⟩

/-- **No interruption without a delivery.** In every reachable state, when a process
asks for a `nanosleep`, a `wait4` or a `sigtimedwait` with a timeout, the
call lasts for any number of moves and then returns `EINTR`, a signal was
really delivered to the process meanwhile: it entered a handler, or
carried out a stop. Only a `wait4` or `sigtimedwait` may return it without
that, and only if a signal that it does not wait for was pending and not
blocked when it was asked for, whose delivery does nothing. -/
theorem interrupted_by_delivery (hs : Reachable s)
    (hcall : s.context? pid = some ⟨fs, .perform (.system call), m⟩)
    (hi : call.isInterruptible = true) (hrun : During pid fs.length (s.step pid) s')
    (hret : (s'.step pid).context? pid = some ⟨fs, .reply (.error .intr), m'⟩) :
    (∃ new, (s'.step pid).history = new ++ s.history ∧
      ∃ r ∈ new, r.source.pid = some pid ∧ r.event.delivers pid = true) ∨
    (call.looksAhead = true ∧ ∃ p sig, s.process? pid = some p ∧ sig ∈ p.inbox.pending ∧
      sig ∉ p.inbox.blocked ∧ sig ∉ call.awaited ∧ (p.dispositions.get sig).discards sig = true) := by
  obtain ⟨p, hp, hx⟩ := context?_eq_some.1 hcall
  by_cases hclear : call.looksAhead = true → p.Clear call.awaited
  · left
    have hr := hs.move (.process pid)
    have hstart := underway_of_call hp hx hi hclear
    obtain ⟨first, hfirst⟩ := exists_history_move hs.sound (.process pid)
    have hfirst : (s.step pid).history = first ++ s.history := hfirst
    rcases underway_run hstart hr hrun with hdelivers | ⟨⟨new, hnew⟩, hunder⟩
    · exact (hdelivers.of_history hfirst).move (hrun.reachable hr).sound (.process pid)
    have hbefore : s'.history = (new ++ first) ++ s.history := by
      rw [hnew, hfirst, List.append_assoc]
    rcases hunder.move (hrun.reachable hr) (.process pid) with
      hdelivers | hunder | ⟨reply, m, hx', hne⟩
    · exact hdelivers.of_history hbefore
    · -- what is under way has not come back
      obtain ⟨q, frames, c, mask, hq, hqx, hplace⟩ := hunder
      have hsame := (context?_eq_some.2 ⟨q, hq, hqx⟩).symm.trans hret
      obtain ⟨rfl, rfl, -⟩ := Context.mk.inj (Option.some.inj hsame)
      have hlt := hplace.length_lt
      omega
    · have hsame := hx'.symm.trans hret
      obtain ⟨-, hreply, -⟩ := Context.mk.inj (Option.some.inj hsame)
      exact absurd (Control.reply.inj hreply) hne
  · right
    obtain ⟨hahead, hnot⟩ := Classical.not_imp.1 hclear
    simp only [Process.Clear, Process.Effective, Classical.not_forall] at hnot
    obtain ⟨sig, hpending, hblocked, hawaited, hdiscards⟩ := hnot
    exact ⟨hahead, p, sig, hp, hpending, hblocked, hawaited, by simpa using hdiscards⟩

/-- A process with a handler for `usr1` sleeps. -/
def napping : List Move :=
  let handler : Handler := .mk "wakes" 1 []
  [Move.host (.root "sleeper"),
    .host (.command 1 (.perform
      { request := .engine (.changeDisposition .usr1 (some (.handler { handler }))) })),
    .process 1, .process 1,
    .host (.command 1 (.perform { request := .system (.nanosleep .unreachable) }))]

/-- It blocks, is sent the signal, and runs the handler. -/
def awakening : List Move :=
  List.replicate 4 (Move.process 1) ++ [Move.host (.send 1 (.kernel .usr1))] ++
    List.replicate 10 (Move.process 1)

/-- The sleep from its call to its return. -/
theorem napping_sleep :
    let s := initial.run napping
    let s' := (s.step 1).run awakening
    s.context? 1 = some ⟨[.main false], .perform (.system (.nanosleep .unreachable)), ∅⟩ ∧
      During 1 1 (s.step 1) s' ∧
      (s'.step 1).context? 1 = some ⟨[.main false], .reply (.error .intr), ∅⟩ :=
  ⟨by cbv, during_of_checks (by cbv), by cbv⟩

/-- **The sleep returns early**, so a signal was delivered. -/
theorem interrupted_by_delivery_of_napping :
    let s := initial.run napping
    let s' := (s.step 1).run awakening
    (s'.step 1).context? 1 = some ⟨[.main false], .reply (.error .intr), ∅⟩ ∧
      ∃ new, (s'.step 1).history = new ++ s.history ∧
        ∃ r ∈ new, r.source.pid = some 1 ∧ r.event.delivers 1 = true := by
  obtain ⟨hcall, hduring, hreturn⟩ := napping_sleep
  refine ⟨hreturn, ?_⟩
  rcases interrupted_by_delivery (Reachable.initial.run napping) hcall rfl hduring hreturn with
    hdelivered | ⟨hahead, -⟩
  · exact hdelivered
  · simp [SystemCall.looksAhead] at hahead

/-- A process blocks `usr1`, for which it has a handler that waits for a moment, and
`chld`, which it does nothing about. Both are sent, and it unblocks them
by a system call, whose check point starts the handler. -/
def distracting : List Move :=
  let both : SignalSet := .single .usr1 ∪ .single .chld
  let handler : Handler :=
    .mk "waits" 1 [{ request := .system (.sigtimedwait ∅ (some (.millis 0))) }]
  [Move.host (.root "waiter"),
    .host (.command 1 (.perform
      { request := .engine (.changeDisposition .usr1 (some (.handler { handler }))) })),
    .process 1, .process 1,
    .host (.command 1 (.perform { request := .engine (.changeMask .block both) })),
    .process 1, .process 1,
    .host (.send 1 (.kernel .usr1)), .host (.send 1 (.kernel .chld)),
    .host (.command 1 (.perform { request := .system (.sigprocmask 1 (some both)) }))] ++
  List.replicate 5 (Move.process 1)

/-- What the handler runs on top of. -/
def distracted : List Frame :=
  let handler : Handler :=
    .mk "waits" 1 [{ request := .system (.sigtimedwait ∅ (some (.millis 0))) }]
  [.body ⟨.usr1, "waits", 1⟩ false [], .delivery .usr1 { handler := ⟨0, handler⟩ } ∅, .round,
    .callExit (.ok (.set (.single .usr1 ∪ .single .chld))), .main false]

/-- The wait from its call to its return, and the end of the handler. -/
theorem distracting_wait :
    let s := initial.run distracting
    let s' := (s.step 1).run (List.replicate 5 (.process 1))
    s.context? 1 = some ⟨distracted,
        .perform (.system (.sigtimedwait ∅ (some (.millis 0)))), .single .usr1⟩ ∧
      During 1 5 (s.step 1) s' ∧
      (s'.step 1).context? 1 = some ⟨distracted, .reply (.error .intr), .single .usr1⟩ ∧
      ((s'.step 1).run (List.replicate 2 (.process 1))).context? 1 =
        some ⟨distracted.tail, .reply (.ok .done), .single .usr1⟩ ∧
      (s'.step 1).history = [⟨⟨some 1, []⟩, .handling .chld⟩,
        ⟨⟨some 1, [.sigtimedwait]⟩, .concluded .sigtimedwait (.error .intr)⟩] ++ s.history :=
  ⟨by cbv, during_of_checks (by cbv), by cbv, by cbv, by cbv⟩

/-- **A wait is interrupted by a signal that is only discarded**: the wait inside the
handler returns `EINTR`, though no handler was entered meanwhile and no
stop was carried out. The handler itself comes back without an error. -/
theorem interrupted_by_nothing :
    let s := initial.run distracting
    let s' := (s.step 1).run (List.replicate 5 (.process 1))
    let call : SystemCall Handler := .sigtimedwait ∅ (some (.millis 0))
    Reachable s ∧ call.isInterruptible = true ∧
      s.context? 1 = some ⟨distracted, .perform (.system call), .single .usr1⟩ ∧
      During 1 distracted.length (s.step 1) s' ∧
      (s'.step 1).context? 1 = some ⟨distracted, .reply (.error .intr), .single .usr1⟩ ∧
      (∃ new, (s'.step 1).history = new ++ s.history ∧
        ∀ r ∈ new, r.event.delivers 1 = false) ∧
      ((s'.step 1).run (List.replicate 2 (.process 1))).context? 1 =
        some ⟨distracted.tail, .reply (.ok .done), .single .usr1⟩ := by
  obtain ⟨hcall, hrun, hret, hleft, hnew⟩ := distracting_wait
  exact ⟨Reachable.initial.run distracting, rfl, hcall, hrun, hret,
    ⟨_, hnew, by simp [Event.delivers]⟩, hleft⟩

end System

end PosixSignals
