import PosixSignals.Proofs.Task.Transition

/-!
# Under a call

What goes on above the frame of a system call until the call returns. The
frame of the call stays where it is, or becomes the frame of its last
check point; and every routine that runs above it has the delivery of its
handler under it, hence a saved mask.
-/

namespace PosixSignals

namespace Frame

/-- The frame of a system call, at work or at its last check point. -/
def isCall : Frame → Bool
  | .callBody _ | .callExit _ => true
  | _ => false

theorem not_isRoutine_of_isCall {f : Frame} (h : f.isCall = true) :
    f.isDelivery = false ∧ f.isRoutine = false := by
  cases f <;> simp [isCall] at h <;> simp [isDelivery, isRoutine]

end Frame

namespace Context

variable {p q : Process} {f : Frame} {above fs : List Frame} {c : Control} {m : SignalSet}
  {x x' : Context}

/-- The first step of a system call opens its frame. -/
theorem Step.of_called {call : SystemCall Handler}
    (h : Step p q ⟨fs, .perform (.system call), m⟩ x') :
    x' = ⟨.callBody call :: fs, .execute call, m⟩ := by
  cases h with
  | call => rfl
  | stay hr => simp [Control.isResting] at hr
  | answer hc | beginSuspend hc | beginWait hc | beginSleep hc => simp [Control.isCall] at hc
  | changeMask hm => simp [Control.maskChange?] at hm
  | waitOver hw => simp at hw

/-- The step that concludes its body begins its last check point. -/
theorem Step.of_concluded {call : SystemCall Handler} {r : Reply}
    (h : Step p q ⟨.callBody call :: fs, .reply r, m⟩ x') :
    x' = ⟨.callExit (call.handOver (call.conclude r)) :: fs, .loop (.check false), m⟩ := by
  cases h with
  | conclude => rfl
  | stay hr => simp [Control.isResting] at hr
  | answer hc | beginSuspend hc | beginWait hc | beginSleep hc => simp [Control.isCall] at hc
  | changeMask hm => simp [Control.maskChange?] at hm
  | waitOver hw => simp at hw

/-- **What becomes of the frame of a call in a step**: it stays, or the body has
come to its result and the last check point begins, or it is left. -/
theorem Step.bottom (h : Step p q ⟨above ++ [f], c, m⟩ x') (hf : f.isCall = true) :
    (x'.frames = [] ∧ x'.saved = []) ∨ (∃ above', x'.frames = above' ++ [f]) ∨
      ∃ call r, above = [] ∧ f = .callBody call ∧ c = .reply r ∧
        x' = ⟨[.callExit (call.handOver (call.conclude r))], .loop (.check false), m⟩ := by
  cases above with
  | cons g above =>
    obtain ⟨above', he, -⟩ := h.within (show _ = g :: above ++ [f] from rfl)
    exact .inr (.inl ⟨above', he⟩)
  | nil =>
    cases h with
    | conclude => exact .inr (.inr ⟨_, _, rfl, rfl, rfl, rfl⟩)
    | exitCall | exitError | unwind => exact .inl ⟨rfl, rfl⟩
    | call | waitServe | suspendCheck | sleepCheck => exact .inr (.inl ⟨[_], rfl⟩)
    | deliver => exact .inr (.inl ⟨[_, _], rfl⟩)
    | checkEnter => exact .inr (.inl ⟨[_, _, _], rfl⟩)
    | failBody | failMain | leave | next | mainIdle | mainFinish | bodyNext | bodyUnwind
    | delivered | roundNext | roundFail | served | serveFail | suspendOver | suspendBlock
    | sleepReply | sleepBlock => simp [Frame.isCall] at hf
    | _ => exact .inr (.inl ⟨[], rfl⟩)

/-- **A call returns** by its last check point: the result, if the check point is
over, or the error that it has come to. -/
theorem Step.returns {r : Reply} {m' : SignalSet}
    (h : Step p q ⟨above ++ [f], c, m⟩ ⟨[], .reply r, m'⟩) (hf : f.isCall = true) :
    above = [] ∧ ∃ result, f = .callExit result ∧
      ((∃ v, c = .reply (.ok v) ∧ r = result ∧ q.status = p.status ∧ q.inbox = p.inbox) ∨
        ∃ e, c = .reply (.error e) ∧ r = .error e) := by
  cases above with
  | cons g above =>
    obtain ⟨above', he, -⟩ := h.within (show _ = g :: above ++ [f] from rfl)
    simp at he
  | nil =>
    cases h with
    | exitCall hs hi => exact ⟨rfl, _, rfl, .inl ⟨_, rfl, rfl, hs, hi⟩⟩
    | exitError => exact ⟨rfl, _, rfl, .inr ⟨_, rfl, rfl⟩⟩
    | failBody | leave | bodyUnwind | delivered | roundFail | serveFail | suspendOver
    | sleepReply => simp [Frame.isCall] at hf

/-- **A call is left** by a reply, or by a panic on its way down. -/
theorem Step.of_left (h : Step p q ⟨above ++ [f], c, m⟩ x') (hf : f.isCall = true)
    (hfs : x'.frames = []) : (∃ r, x'.control = .reply r) ∨ c = .panic ∧ x'.control = .panic := by
  cases above with
  | cons g above =>
    obtain ⟨above', he, -⟩ := h.within (show _ = g :: above ++ [f] from rfl)
    simp [he] at hfs
  | nil =>
    cases h with
    | exitCall | exitError => exact .inl ⟨_, rfl⟩
    | unwind => exact .inr ⟨rfl, rfl⟩
    | failBody | failMain | leave | mainIdle | mainFinish | bodyUnwind | delivered | roundNext
    | roundFail | served | serveFail | suspendOver | suspendBlock | sleepReply | sleepBlock =>
      cases hf
    | _ => cases hfs

/-- **How a panic comes about**: it is asked for, or it was there before. -/
theorem Step.of_panic (h : Step p q x ⟨fs, .panic, m⟩) :
    x = ⟨fs, .perform .panic, m⟩ ∨ ∃ f m', x = ⟨f :: fs, .panic, m'⟩ := by
  cases h with
  | panic => exact .inl rfl
  | unwind => exact .inr ⟨_, _, rfl⟩
  | stay hr => cases hr

theorem saved_cons_ne_nil (g : Frame) (h : above.filterMap Frame.saved? ≠ []) :
    (g :: above).filterMap Frame.saved? ≠ [] := fun he =>
  h (List.filterMap_eq_nil_iff.2 fun a ha =>
    List.filterMap_eq_nil_iff.1 he a (List.mem_cons_of_mem _ ha))

/-- **A routine above a call, or a wait, has a saved mask under it**: that of its delivery. -/
theorem saved_of_isRoutine {g : Frame} (hs : Stacked (g :: above ++ f :: fs))
    (hg : g.isRoutine = true) (hf : f.isDelivery = false) : above.filterMap Frame.saved? ≠ [] := by
  cases g <;> simp [Frame.isRoutine] at hg
  case main keep => simp [Frame.StandsOn] at hs
  case body run keep rest =>
    cases above with
    | nil => simp [Frame.StandsOn, hf] at hs
    | cons d above =>
      cases d <;> simp [Frame.StandsOn, Frame.isDelivery, Frame.saved?] at hs ⊢

/-- **What makes a call above another call, or a wait, has a saved mask under it.** -/
theorem saved_of_isCall (hs : Stacked (above ++ f :: fs)) (hc : c.isCall = true)
    (hfit : c.Fits (above ++ f :: fs)) (hf : f.isDelivery = false ∧ f.isRoutine = false)
    (hne : above ≠ []) : above.filterMap Frame.saved? ≠ [] := by
  obtain ⟨g, above, rfl⟩ := List.exists_cons_of_ne_nil hne
  have hw := Control.hostsWait_of_isCall hc hfit
  by_cases hg : g.isRoutine = true
  · exact saved_cons_ne_nil g (saved_of_isRoutine hs hg hf.1)
  · -- the body of another call, which stands on a routine in its turn
    obtain ⟨call, rfl⟩ : ∃ call, g = .callBody call := by
      cases g <;> simp [Frame.hostsWait, Frame.isRoutine] at hw hg
      exact ⟨_, rfl⟩
    cases above with
    | nil => simp [Frame.StandsOn, hf.2] at hs
    | cons g above =>
      have hr : g.isRoutine = true := by simpa [Frame.StandsOn] using hs.1
      exact saved_cons_ne_nil _ (saved_cons_ne_nil g (saved_of_isRoutine hs.2 hr hf.1))

/-! ## The last check point -/

section CheckPoint

variable {g : Frame} {result r' : Reply} {m' : SignalSet}

/-- The end of a check point: everything deliverable is delivered, or the
process has ended. -/
def CheckOver (q : Process) (r : Reply) : Prop :=
  (∃ d, r = .ok (.delivered d) ∧ q.status = .normal ∧
    ∀ sig ∈ q.inbox.pending, sig ∈ q.inbox.blocked) ∨
  r = .error .mustExit ∧ q.status.isExited = true

/-- **Where a reply comes from** to a frame that makes no call, holds no wait and
is no delivery: from a check point over it, or from a handler run for it. -/
theorem Step.reply_cases (h : Step p q x ⟨g :: fs, .reply r', m'⟩) (hs : x.Sound)
    (hg : g.hostsWait = false) (hd : g.isDelivery = false) :
    (g.hostsCheck = true ∧ CheckOver q r') ∨
      (g.hostsCheck = true ∧ ∃ e m, r' = .error e ∧ x = ⟨.round :: g :: fs, .reply r', m⟩) ∨
      (g.hostsDelivery = true ∧ ∃ sig action saved r m,
        x = ⟨.delivery sig action saved :: g :: fs, .reply r, m⟩ ∧ r' = r.map fun _ => .done) := by
  obtain ⟨hst, hfit, -, -⟩ := hs
  have hcall : g.isCallBody = false := by cases g <;> first | rfl | simp [Frame.hostsWait] at hg
  have hroutine : g.isRoutine = false := by cases g <;> first | rfl | simp [Frame.hostsWait] at hg
  -- what calls or waits is a routine or the body of a call, and the frame is neither
  have hnot : ∀ {c : Control}, c.isCall = true → ¬ c.Fits (g :: fs) := fun hc hf => by
    simpa [hg] using Control.hostsWait_of_isCall hc hf
  cases h with
  | checkDone hn hq => exact .inl ⟨topIs_cons.1 hfit, .inl ⟨_, rfl, hn, hq⟩⟩
  | checkExited he => exact .inl ⟨topIs_cons.1 hfit, .inr ⟨rfl, he⟩⟩
  | roundFail => exact .inr (.inl ⟨topIs_cons.1 hst.1, _, _, rfl, rfl⟩)
  | delivered => exact .inr (.inr ⟨topIs_cons.1 hst.1, _, _, _, _, _, rfl, rfl⟩)
  | stay hr => simp [Control.isResting] at hr
  | answer hc => exact absurd hfit (hnot hc)
  | changeMask hm => exact absurd hfit (hnot (Control.isCall_of_maskChange? hm))
  | waitOver hw => obtain rfl | ⟨l, rfl⟩ := hw <;> simp [Control.Fits, Loop.host, hg] at hfit
  | sleepOver | wait4Over => simp [Control.Fits, Loop.host, hg, hcall] at hfit
  | failBody | leave | bodyUnwind => simp [Frame.StandsOn, hd] at hst
  | exitCall | exitError | serveFail | suspendOver | sleepReply =>
    simp [Frame.StandsOn, hroutine, hg] at hst

/-- **How the last check point of a call comes to a reply**: nothing is left to
deliver, or the process has ended, or a handler failed. -/
theorem Step.reply_of_callExit (h : Step p q x ⟨.callExit result :: fs, .reply r', m'⟩)
    (hs : x.Sound) :
    CheckOver q r' ∨
      ∃ e m, r' = .error e ∧ x = ⟨.round :: .callExit result :: fs, .reply r', m⟩ := by
  rcases h.reply_cases hs rfl rfl with ⟨-, hover⟩ | ⟨-, hround⟩ | ⟨hd, -⟩
  · exact .inl hover
  · exact .inr hround
  · simp [Frame.hostsDelivery] at hd

/-- **How a check point hears of a handler**: its delivery is over. -/
theorem Step.reply_of_round (h : Step p q x ⟨.round :: fs, .reply r', m'⟩) (hs : x.Sound) :
    ∃ sig action saved r m, x = ⟨.delivery sig action saved :: .round :: fs, .reply r, m⟩ ∧
      r' = r.map fun _ => .done := by
  rcases h.reply_cases hs rfl rfl with ⟨hc, -⟩ | ⟨hc, -⟩ | ⟨-, hd⟩
  · simp [Frame.hostsCheck] at hc
  · simp [Frame.hostsCheck] at hc
  · exact hd

end CheckPoint

end Context

end PosixSignals
