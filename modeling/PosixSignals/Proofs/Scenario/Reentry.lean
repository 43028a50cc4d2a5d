import PosixSignals.Proofs.Scenario.Calls
import PosixSignals.Proofs.Scenario.Entries

/-!
# Handlers are not entered again

While a handler runs, the signals that its action blocks stay blocked,
whatever is nested in it: everything that replaces the mask in between
puts back a mask that has them too, and what lies under the delivery of
the handler is not reached before the handler is left. Only a call that
lets a signal in can break this, so without one no check point enters a
handler for it. All that its generations can leave behind is that it is
pending, and that is used up by the first entry afterwards.
-/

namespace PosixSignals

namespace Control

/-- **Lets a signal in**: a change of mask that takes it out, or a suspension under
a mask without it. -/
def letsIn (sig : Signal) (c : Control) : Bool :=
  match c.maskChange?, c.suspension? with
  | some (.unblock, set), _ => sig ∈ set
  | some (.setMask, set), _ => sig ∉ set
  | _, some mask => sig ∉ mask
  | _, none => false

theorem isCall_of_letsIn {c : Control} {sig : Signal} (h : c.letsIn sig = true) :
    c.isCall = true := by
  cases c with
  | execute => rfl
  | perform request =>
    cases request with
    | engine => rfl
    | _ => simp [letsIn, maskChange?, suspension?] at h
  | _ => simp [letsIn, maskChange?, suspension?] at h

/-- Any other change of mask keeps the signal blocked. -/
theorem mem_apply_of_not_letsIn {c : Control} {sig : Signal} {how : MaskChange}
    {set m : SignalSet} (hc : c.letsIn sig = false) (hm : c.maskChange? = some (how, set))
    (hs : sig ∈ m) : sig ∈ how.apply m set := by
  cases how with
  | block => exact SignalSet.mem_union.2 (.inl hs)
  | unblock => exact SignalSet.mem_sdiff.2 ⟨hs, by simpa [letsIn, hm] using hc⟩
  | setMask =>
    show sig ∈ set
    simpa [letsIn, hm] using hc

theorem mem_of_suspension? {c : Control} {sig : Signal} {mask : SignalSet}
    (hc : c.letsIn sig = false) (hn : c.maskChange? = none)
    (hm : c.suspension? = some mask) : sig ∈ mask := by
  simpa [letsIn, hn, hm] using hc

end Control

namespace Context

variable {p q : Process} {x x' y y' : Context} {sig : Signal} {action : Action Installed}
  {saved m m' : SignalSet} {above below fs : List Frame} {c c' : Control}

/-- **A step that puts two frames on the stack** of which the lower is a delivery
invokes its handler, at a check point or outright, and widens the mask. -/
theorem Step.of_invoked {run : HandlerRun} {keep : Bool} {rest : List (Instruction Handler)}
    (h : Step p q x ⟨.body run keep rest :: .delivery sig action saved :: below, c, m⟩)
    (hlen : x.frames.length ≤ below.length) :
    saved = x.blocked ∧ c = .proceed ∧
      m = (x.blocked ∪ action.blockedDuring sig) \ .uncatchable ∧
      (sig ∈ p.inbox.pending ∨ x.control.outright? = some sig) := by
  cases h with
  | checkEnter _ hs => exact ⟨rfl, rfl, rfl, .inl hs⟩
  | deliver => exact ⟨rfl, rfl, rfl, .inr rfl⟩
  | _ => simp at hlen; try omega

/-- Over the delivery of a handler stands only what takes a reply or unwinds, and
its step leaves the handler. -/
theorem Step.of_delivery (h : Step p q ⟨.delivery sig action saved :: below, c, m⟩ x')
    (hf : c.Fits (.delivery sig action saved :: fs)) : x'.frames = below := by
  have hcall : c.isCall = true → False := fun hi => by
    cases Control.hostsWait_of_isCall hi hf
  cases h with
  | delivered | unwind => rfl
  | stay hr =>
    cases c with
    | idle => cases hf
    | blocked l => cases l <;> cases hf
    | _ => cases hr
  | answer hi | beginSuspend hi | beginWait hi | beginSleep hi => exact (hcall hi).elim
  | changeMask hm => exact (hcall (Control.isCall_of_maskChange? hm)).elim
  | waitOver hw => obtain rfl | ⟨l, rfl⟩ := hw <;> cases hf
  | @block _ _ l | @wake _ _ l => cases l <;> cases hf
  | _ => cases hf

/-- **A signal is held back** until the mask `saved` is put back: it is blocked, and every mask that
is put back before that one has it too. -/
structure HeldBack (sig : Signal) (saved : SignalSet) (y : Context) : Prop where
  blocked : sig ∈ y.blocked
  inner : ∃ masks, y.saved = masks ++ [saved] ∧ ∀ mask ∈ masks, sig ∈ mask

/-- Only a call lets the signal in before the last mask is put back. -/
theorem MaskStep.heldBack (h : MaskStep y y') (hy : y.HeldBack sig saved)
    (hsig : sig.isUncatchable = false) (hc : y.control.letsIn sig = false) (hne : y'.saved ≠ []) :
    y'.HeldBack sig saved := by
  obtain ⟨masks, hsaved, hmasks⟩ := hy.inner
  cases h with
  | kept _ hb hs => exact ⟨hb ▸ hy.blocked, masks, hs ▸ hsaved, hmasks⟩
  | widened set _ hb hs =>
    refine ⟨?_, y.blocked :: masks, by rw [hs, hsaved]; rfl, ?_⟩
    · rw [hb]
      exact SignalSet.mem_sdiff_uncatchable (SignalSet.mem_union.2 (.inl hy.blocked)) hsig
    · exact List.forall_mem_cons.2 ⟨hy.blocked, hmasks⟩
  | replaced mask hn hm hb hs =>
    refine ⟨?_, y.blocked :: masks, by rw [hs, hsaved]; rfl, ?_⟩
    · rw [hb]
      exact SignalSet.mem_sdiff_uncatchable (Control.mem_of_suspension? hc hn hm) hsig
    · exact List.forall_mem_cons.2 ⟨hy.blocked, hmasks⟩
  | changed how set hm hb hs =>
    refine ⟨?_, masks, hs ▸ hsaved, hmasks⟩
    rw [hb]
    exact SignalSet.mem_sdiff_uncatchable
      (Control.mem_apply_of_not_letsIn hc hm hy.blocked) hsig
  | putBack mask _ hb hs =>
    cases masks with
    | nil => exact absurd (List.cons.inj (hs.symm.trans hsaved)).2 hne
    | cons mask' masks =>
      obtain ⟨rfl, hs'⟩ := List.cons.inj (hs.symm.trans hsaved)
      obtain ⟨hmask, hmasks⟩ := List.forall_mem_cons.1 hmasks
      refine ⟨?_, masks, hs', hmasks⟩
      rw [hb]
      exact SignalSet.mem_sdiff_uncatchable hmask hsig

/-- **A signal is kept out** during the invocation of a handler: it is blocked, and
every mask that is put back before the handler's own has it too. -/
structure KeptOut (sig : Signal) (saved : SignalSet) (y : Context) : Prop where
  blocked : sig ∈ y.blocked
  inner : ∃ masks, y.saved = masks ++ [saved] ∧ ∀ mask ∈ masks, sig ∈ mask
  bottom : ∃ above own action, y.frames = above ++ [.delivery own action saved]

theorem MaskStep.keptOut (h : MaskStep y y') (hy : y.KeptOut sig saved)
    (hsig : sig.isUncatchable = false) (hc : y.control.letsIn sig = false)
    (hbottom : ∃ above own action, y'.frames = above ++ [.delivery own action saved]) :
    y'.KeptOut sig saved := by
  -- the delivery is still there, so what was put back is not its own mask
  have hne : y'.saved ≠ [] := by
    obtain ⟨above, own, action, hfs⟩ := hbottom
    simp [Context.saved, hfs, Frame.saved?]
  have hheld := h.heldBack ⟨hy.blocked, hy.inner⟩ hsig hc hne
  exact ⟨hheld.blocked, hheld.inner, hbottom⟩

/-- **A step inside the invocation keeps the signal out**, or leaves the handler. -/
theorem KeptOut.step (hy : y.KeptOut sig saved) (h : Step p q y y')
    (hs : Sound ⟨y.frames ++ fs, y.control, y.blocked⟩) (hsig : sig.isUncatchable = false)
    (hc : y.control.letsIn sig = false) : y'.frames = [] ∨ y'.KeptOut sig saved := by
  obtain ⟨above, own, action, hfs⟩ := hy.bottom
  cases above with
  | nil =>
    left
    obtain ⟨frames, control, mask⟩ := y
    obtain rfl := hfs
    exact h.of_delivery hs.fits
  | cons f above =>
    obtain ⟨above', he, -⟩ := h.within hfs
    exact .inr (h.maskStep.keptOut hy hsig hc ⟨above', own, action, he⟩)

end Context

namespace System

variable {s u v : System} {pid : Pid} {sig other : Signal} {action : Action Installed}
  {below : List Frame}

/-- **A step of a process invokes a handler**: the frames of its body and of its
delivery are new. For `kill` and `stop` there is no handler to ask for. -/
def Invokes (s : System) (pid : Pid) (sig : Signal) (action : Action Installed)
    (below : List Frame) : Prop :=
  ∃ x run keep rest saved c m, s.context? pid = some x ∧ x.frames.length ≤ below.length ∧
    (s.step pid).context? pid =
      some ⟨.body run keep rest :: .delivery sig action saved :: below, c, m⟩ ∧
    (x.control.outright? = some sig → sig.isUncatchable = false)

/-- The process is about to make a call that lets a signal in. -/
def letsIn (s : System) (pid : Pid) (sig : Signal) : Bool :=
  (s.context? pid).any (·.control.letsIn sig)

/-- **One move while a stack stays higher** than `n` frames, by which its process
does not let a signal in. -/
def KeepsOut (pid : Pid) (n : Nat) (sig : Signal) (a b : System) : Prop :=
  (∃ m, b = a.move m ∧ (m = .process pid → a.letsIn pid sig = false)) ∧ b.Deep pid n

/-- The signals that an invocation keeps out: its own unless that is deferred, and
those of its action's mask that can be blocked. -/
def Shields (action : Action Installed) (sig other : Signal) : Prop :=
  (other = sig ∧ action.flags.noDefer = false) ∨
    (other ∈ action.mask ∧ other.isUncatchable = false)

/-- **The entry of a handler** blocks the signals it keeps out. -/
theorem keptOut_of_invokes (hs : Reachable s) (h : s.Invokes pid sig action below)
    (hother : Shields action sig other) :
    other.isUncatchable = false ∧
      ∃ p y saved, (s.step pid).Above pid below p y ∧ y.KeptOut other saved := by
  obtain ⟨x, run, keep, rest, saved, c, m, hx, hlen, hx', hout⟩ := h
  obtain ⟨p, q, x₀, hp, hx₀, hq, hstep⟩ := step_of_context? hs.sound hx' (by
    rintro rfl
    have hfits := (hs.sound.step pid).contexts pid _ hx'
    exact absurd hfits.fits (List.cons_ne_nil _ _))
  obtain rfl : x₀ = x := by simpa [context?, hp, hx₀] using hx
  obtain ⟨rfl, rfl, rfl, hcause⟩ := hstep.of_invoked hlen
  have hsig : other.isUncatchable = false := by
    rcases hother with ⟨rfl, -⟩ | ⟨-, hc⟩
    · -- at a check point the signal was pending, and `kill` and `stop` never are
      rcases hcause with hpending | ho
      · exact (hs.sound.inboxes pid p hp).catchable other hpending
      · exact hout ho
    · exact hc
  have hduring : other ∈ action.blockedDuring sig := by
    refine Action.mem_blockedDuring.2 ⟨?_, hsig⟩
    exact hother.symm.imp And.left And.symm
  obtain ⟨q, hq⟩ := above_of_context? (show (s.step pid).context? pid = some
    ⟨.body run keep rest :: [.delivery sig action x₀.blocked] ++ below, _, _⟩ from hx')
  refine ⟨hsig, q, _, _, hq, ?_, ⟨[], rfl, by simp⟩, [_], _, _, rfl⟩
  exact SignalSet.mem_sdiff_uncatchable (SignalSet.mem_union.2 (.inr hduring)) hsig

/-- **The signal stays out** for as long as the invocation lasts. -/
theorem keptOut_of_run (hs : Reachable s) (h : s.Invokes pid sig action below)
    (hother : Shields action sig other)
    (hrun : Relation.ReflTransGen (KeepsOut pid below.length other) (s.step pid) u) :
    Reachable u ∧ ∃ p y saved, u.Above pid below p y ∧ y.KeptOut other saved := by
  obtain ⟨hsig, hentry⟩ := keptOut_of_invokes hs h hother
  induction hrun with
  | refl => exact ⟨hs.move (.process pid), hentry⟩
  | @tail a b _ hm ih =>
    obtain ⟨ha, p, y, saved, hy, hkept⟩ := ih
    obtain ⟨⟨m, rfl, hout⟩, hd⟩ := hm
    refine ⟨ha.move m, ?_⟩
    rcases hy.move ha.sound m with ⟨hm, q, y', hown⟩ | ⟨-, q, hq, -⟩
    · have hy' := hown.above hd
      have hc : y.control.letsIn other = false := by
        simpa [letsIn, hy.context?] using hout hm
      rcases hkept.step hown.step (hy.sound ha.sound) hsig hc with he | hkept'
      · exact absurd he hy'.nonempty
      · exact ⟨q, y', saved, hy', hkept'⟩
    · exact ⟨q, y, saved, hq, hkept⟩

/-- A run by which a signal is neither let in nor a handler for it asked for. -/
theorem keepsOut_of_unasked {n : Nat}
    (h : Relation.ReflTransGen (fun a b => KeepsOut pid n sig a b ∧ a.asked? pid ≠ some sig) s u) :
    Relation.ReflTransGen (KeepsOut pid n sig) s u :=
  h.lift id fun _ _ hm => hm.1

theorem blocked_of_keptOut {p : Process} {y : Context} {saved : SignalSet}
    (hy : u.Above pid below p y) (h : y.KeptOut other saved) : other ∈ p.inbox.blocked :=
  Process.blocked_of_context? hy.context ▸ h.blocked

/-- **No handler is entered during the invocation.** -/
theorem entries_of_run (hs : Reachable s) (h : s.Invokes pid sig action below)
    (hother : Shields action sig other)
    (hrun : Relation.ReflTransGen
      (fun a b => KeepsOut pid below.length other a b ∧ a.asked? pid ≠ some other) (s.step pid) u) :
    u.entries pid other = (s.step pid).entries pid other := by
  induction hrun with
  | refl => rfl
  | @tail a b hrun hm ih =>
    obtain ⟨ha, p, y, saved, hy, hkept⟩ :=
      keptOut_of_run hs h hother (keepsOut_of_unasked hrun)
    obtain ⟨⟨⟨m, rfl, -⟩, -⟩, ho⟩ := hm
    rw [entries_move ha.sound hy.process (blocked_of_keptOut hy hkept) fun _ => ho, ih]

/-- **A handler is not entered again while it runs.** A step of a process invokes a
handler for `sig`, and a run of any moves keeps the stack above what the
handler stands on, none of its calls being one that lets a signal in which
the invocation keeps out. Then that signal is blocked, and any move that
enters a handler for it is one by which the program asks for it outright.
If none does, no such handler has been entered since; and however often the
signal has been generated up to here, and whatever happens from here on,
more entries than there are generations from here on are at most one. -/
theorem no_reentry (hs : Reachable s) (hinv : s.Invokes pid sig action below)
    (hother : Shields action sig other)
    (hrun : Relation.ReflTransGen (KeepsOut pid below.length other) (s.step pid) u) :
    (∃ p, u.process? pid = some p ∧ other ∈ p.inbox.blocked) ∧
      (∀ m new src run mask pending, (u.move m).history = new ++ u.history →
        ⟨src, .entered run mask pending⟩ ∈ new → src.pid = some pid → run.signal = other →
        u.asked? pid = some other) ∧
      (Relation.ReflTransGen
          (fun a b => KeepsOut pid below.length other a b ∧ a.asked? pid ≠ some other)
          (s.step pid) u →
        u.entries pid other = (s.step pid).entries pid other ∧
          ∀ v, Relation.ReflTransGen (Unasked pid other) u v →
            v.entries pid other + u.generations pid other ≤
              (s.step pid).entries pid other + 1 + v.generations pid other) := by
  obtain ⟨hu, p, y, saved, hy, hkept⟩ := keptOut_of_run hs hinv hother hrun
  have hb := blocked_of_keptOut hy hkept
  refine ⟨⟨p, hy.process, hb⟩, fun m new src run mask pending hnew he hsrc hsig => ?_,
    fun hcalm => ?_⟩
  · obtain ⟨pid', hsrc', -, henters⟩ := enters_of_mem hu.sound hnew he
    obtain rfl : pid' = pid := Option.some.inj (hsrc'.symm.trans hsrc)
    subst hsig
    rcases henters.cause with ⟨q, hq, -, -, hnb, -⟩ | hd
    · obtain rfl : q = p := Option.some.inj (hq.symm.trans hy.process)
      exact absurd hb hnb
    · exact hd
  · -- up to `u` nothing was entered, and from there on the balance counts
    have hsame := entries_of_run hs hinv hother hcalm
    exact ⟨hsame, fun v hv => hsame ▸ entries_le_of_run hu hv⟩

/-- Whether a move leaves a process with more than `n` frames, and the process
neither lets a signal in nor asks for a handler for it. -/
def keepsOut (pid : Pid) (n : Nat) (sig : Signal) (s : System) (m : Move) : Bool :=
  keepsDeep pid n s m && !s.letsIn pid sig && s.asked? pid != some sig

theorem keepsOut_of_checks {n : Nat} {moves : List Move}
    (h : checks move (keepsOut pid n sig) s moves = true) :
    Relation.ReflTransGen (fun a b => KeepsOut pid n sig a b ∧ a.asked? pid ≠ some sig) s
      (s.run moves) :=
  (reflTransGen_of_checks h).lift id fun a b ⟨m, he, hm⟩ => by
    obtain ⟨⟨hd, hin⟩, ho⟩ : (keepsDeep pid n a m = true ∧ a.letsIn pid sig = false) ∧
        a.asked? pid ≠ some sig := by simpa [keepsOut] using hm
    exact ⟨⟨⟨m, he, fun _ => hin⟩, he ▸ deep_of_keepsDeep hd⟩, ho⟩

/-- A process sends itself `usr1`, for which it has a handler. -/
def raisingWith (handler : Handler) : List Move :=
  [.host (.root "raiser"),
    .host (.command 1 (.perform
      { request := .engine (.changeDisposition .usr1 (some (.handler { handler }))) })),
    .process 1, .process 1,
    .host (.command 1 (.perform { request := .system (.kill .self 10) })),
    .process 1, .process 1, .process 1]

/-- What its handler stands on. -/
def raised : List Frame := [.round, .callExit (.ok .done), .main false]

/-- The next step invokes the handler. -/
theorem invokes_of_raisingWith (tag : String) (body : List (Instruction Handler)) :
    (initial.run (raisingWith (.mk tag 1 body))).Invokes 1 .usr1
      { handler := ⟨0, .mk tag 1 body⟩ } raised := by
  have hx : (initial.run (raisingWith (.mk tag 1 body))).context? 1 =
      some ⟨raised.tail, .loop (.check false), ∅⟩ := by cbv
  have hx' : ((initial.run (raisingWith (.mk tag 1 body))).step 1).context? 1 =
      some ⟨.body ⟨.usr1, tag, 1⟩ false body ::
        .delivery .usr1 { handler := ⟨0, .mk tag 1 body⟩ } ∅ :: raised, .proceed,
        .single .usr1⟩ := by cbv
  exact ⟨_, _, _, _, _, _, _, hx, by decide, hx', fun h => by simp [Control.outright?] at h⟩

/-- A handler that sends its own signal again, the first time it runs. -/
def repeating : List Move :=
  raisingWith (.mk "repeats" 1 [{ request := .system (.kill .self 10) }])

/-- Up to its end it makes no call that lets the signal in. -/
theorem repeating_keepsOut :
    Relation.ReflTransGen
      (fun a b => KeepsOut 1 raised.length .usr1 a b ∧ a.asked? 1 ≠ some .usr1)
      ((initial.run repeating).step 1)
      (((initial.run repeating).step 1).run (List.replicate 8 (.process 1))) :=
  keepsOut_of_checks (by cbv)

/-- **The signal that the handler has sent itself is delivered once it has left**, and
then once. -/
theorem no_reentry_of_repeating :
    let s := initial.run repeating
    let u := (s.step 1).run (List.replicate 8 (.process 1))
    let v := u.run (List.replicate 3 (.process 1))
    (∃ p, u.process? 1 = some p ∧ .usr1 ∈ p.inbox.blocked) ∧
      u.entries 1 .usr1 = (s.step 1).entries 1 .usr1 ∧
      v.entries 1 .usr1 + u.generations 1 .usr1 ≤
        (s.step 1).entries 1 .usr1 + 1 + v.generations 1 .usr1 ∧
      v.entries 1 .usr1 = 2 := by
  obtain ⟨hblocked, -, hcount⟩ :=
    no_reentry (Reachable.initial.run repeating) (invokes_of_raisingWith _ _) (.inl ⟨rfl, rfl⟩)
      (keepsOut_of_unasked repeating_keepsOut)
  obtain ⟨hsame, hmore⟩ := hcount repeating_keepsOut
  exact ⟨hblocked, hsame, hmore _ (unasked_of_checks (by cbv)), by cbv⟩

/-- A handler that asks the engine to run another one for its own signal. -/
def asking : List Move :=
  raisingWith (.mk "asks" 1
    [{ request := .engine (.deliver .usr1 { handler := .mk "inner" 1 [] }) }])

theorem asking_keepsOut :
    Relation.ReflTransGen
      (fun a b => KeepsOut 1 raised.length .usr1 a b ∧ a.asked? 1 ≠ some .usr1)
      ((initial.run asking).step 1) (((initial.run asking).step 1).run [.process 1]) :=
  keepsOut_of_checks (by cbv)

/-- **A handler that is asked for outright is entered though its signal is blocked**,
inside an invocation for that signal. -/
theorem reentered_outright :
    let s := initial.run asking
    let u := (s.step 1).run [.process 1]
    Reachable s ∧ (∃ action, action.flags.noDefer = false ∧ s.Invokes 1 .usr1 action raised) ∧
      Relation.ReflTransGen (KeepsOut 1 raised.length .usr1) (s.step 1) u ∧
      (u.step 1).Deep 1 raised.length ∧
      (u.step 1).history =
        ⟨⟨some 1, []⟩, .entered ⟨.usr1, "inner", 1⟩ (.single .usr1) ∅⟩ :: u.history :=
  ⟨Reachable.initial.run asking, ⟨_, rfl, invokes_of_raisingWith _ _⟩,
    keepsOut_of_unasked asking_keepsOut, deep_of_keepsDeep (m := .process 1) (by cbv), by cbv⟩

end System

end PosixSignals
