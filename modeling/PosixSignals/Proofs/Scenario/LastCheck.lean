import PosixSignals.Proofs.Scenario.Calls

/-!
# The last check point of a call

Once the body of a call has come to its result, the frame of the call
holds the result and a check point runs above it, with all the handlers it
delivers to. What the check point itself comes to decides what the caller
receives: the result if it is over, an error if the process has ended, and
an error too if a handler failed. The invariant says that an error on its
way through the last check point has one of these two origins.
-/

namespace PosixSignals

namespace System

/-- A handler that a check point over the frames `gs` has run comes back with an error. -/
def FailsOver (s : System) (pid : Pid) (gs : List Frame) (e : Errno) : Prop :=
  ∃ sig action saved m,
    s.context? pid = some ⟨.delivery sig action saved :: .round :: gs, .reply (.error e), m⟩

/-- The handler that the last check point of a call has run comes back with an
error. -/
def HandlerFails (s : System) (pid : Pid) (fs : List Frame) (e : Errno) : Prop :=
  ∃ sig action saved result m, s.context? pid =
    some ⟨.delivery sig action saved :: .round :: .callExit result :: fs, .reply (.error e), m⟩

end System

namespace Context

variable {failed : Errno → Prop} {result : Reply} {p q : Process} {y y' : Context}
  {pid : Pid} {fs : List Frame} {s s' : System}

/-- **What errors there are over the frames `gs`**, on top of which a check point runs: that a
handler failed, or that the process has ended. -/
structure ErrorsOver (failed : Errno → Prop) (gs : List Frame) (p : Process) (y : Context) :
    Prop where
  ended : ∀ e, y.frames = gs → y.control = .reply (.error e) →
    (e = .mustExit ∧ p.status.isExited = true) ∨ failed e
  back : ∀ e, y.frames = .round :: gs → y.control = .reply (.error e) → failed e

theorem ErrorsOver.disturbed {gs : List Frame} (h : ErrorsOver failed gs p y) (hd : p.Disturbed q) :
    ErrorsOver failed gs q y :=
  ⟨fun e hfs hc => (h.ended e hfs hc).imp_left (And.imp_right hd.isExited), h.back⟩

/-- **How errors come to a frame** that runs a check point and nothing else. -/
theorem ErrorsOver.step {g : Frame} {gs : List Frame} (h : ErrorsOver failed (g :: gs) p y)
    (hg : g.hostsWait = false ∧ g.isDelivery = false ∧ g.hostsDelivery = false)
    (hy : s.Above pid fs p y) (hs : s.Sound)
    (hf : ∀ e, s.FailsOver pid (g :: gs ++ fs) e → failed e)
    (hown : s'.OwnMove pid fs p q y y') : ErrorsOver failed (g :: gs) q y' := by
  obtain ⟨hwait, hdelivery, hhosts⟩ := hg
  have hsound := hy.sound hs
  have hwhole := hown.whole
  refine ⟨fun e hfs' hc => ?_, fun e hfs' hc => ?_⟩ <;> rw [hfs', hc] at hwhole
  · -- an error is that of the check point itself, or was on its way in the round before
    rcases hwhole.reply_cases hsound hwait hdelivery with
      ⟨-, ⟨d, hr, -⟩ | ⟨hr, he⟩⟩ | ⟨-, e', m, hr, hx⟩ | ⟨hd, -⟩
    · cases hr
    · exact .inl ⟨by simpa using hr, he⟩
    · obtain ⟨hfs₀, hc₀, -⟩ := Context.mk.inj hx
      exact .inr (h.back e ((List.append_left_inj fs).1 hfs₀) hc₀)
    · simp [hhosts] at hd
  · obtain ⟨sig, action, saved, r, m, hx, hr⟩ := hwhole.reply_of_round hsound
    obtain rfl : r = .error e := by cases r <;> simp_all [Except.map]
    exact hf e ⟨sig, action, saved, m, hy.context?.trans (congrArg some hx)⟩

/-- **Whatever goes on above the last check point of a call**, an error that has
come back to it is that of a handler that failed, or says that the process
has ended. -/
structure LastCheck (failed : Errno → Prop) (result : Reply) (p : Process) (y : Context) :
    Prop where
  bottom : ∃ above, y.frames = above ++ [.callExit result]
  ended : ∀ e, y.frames = [.callExit result] → y.control = .reply (.error e) →
    (e = .mustExit ∧ p.status.isExited = true) ∨ failed e
  back : ∀ e, y.frames = [.round, .callExit result] → y.control = .reply (.error e) → failed e

/-- The check point has just begun. -/
theorem lastCheck_of_loop {l : Loop} {m : SignalSet} :
    LastCheck failed result p ⟨[.callExit result], .loop l, m⟩ :=
  ⟨⟨[], rfl⟩, by simp, by simp⟩

theorem LastCheck.disturbed (h : LastCheck failed result p y) (hd : p.Disturbed q) :
    LastCheck failed result q y :=
  ⟨h.bottom, fun e hfs hc => (h.ended e hfs hc).imp_left (And.imp_right hd.isExited), h.back⟩

/-- **A step above the last check point**, if it does not leave it. -/
theorem LastCheck.step (h : LastCheck failed result p y) (hy : s.Above pid fs p y)
    (hs : s.Sound) (hf : ∀ e, s.HandlerFails pid fs e → failed e)
    (hown : s'.OwnMove pid fs p q y y') (hne : y'.frames ≠ []) :
    LastCheck failed result q y' := by
  obtain ⟨above, hfs⟩ := h.bottom
  have herrors : ErrorsOver failed [.callExit result] q y' :=
    ErrorsOver.step ⟨h.ended, h.back⟩ ⟨rfl, rfl, rfl⟩ hy hs
      (fun e ⟨sig, action, saved, m, hx⟩ => hf e ⟨sig, action, saved, result, m, hx⟩) hown
  refine ⟨?_, herrors.ended, herrors.back⟩
  -- a last check point is never the body of a call that comes to its result
  obtain ⟨frames, c, m⟩ := y
  obtain rfl : frames = above ++ [.callExit result] := hfs
  rcases hown.step.bottom rfl with ⟨he, -⟩ | habove | ⟨call, r, -, hcall, -⟩
  · exact absurd he hne
  · exact habove
  · cases hcall

end Context

namespace System

variable {failed : Errno → Prop} {result ret : Reply} {p : Process} {y : Context}
  {pid : Pid} {fs : List Frame} {s : System} {m' : SignalSet}

/-- **A move during the last check point.** -/
theorem lastCheck_move (hs : s.Sound) (hy : s.Above pid fs p y)
    (h : y.LastCheck failed result p) (hf : ∀ e, s.HandlerFails pid fs e → failed e) {m : Move}
    (hd : (s.move m).Deep pid fs.length) :
    ∃ q y', (s.move m).Above pid fs q y' ∧ y'.LastCheck failed result q := by
  rcases hy.move hs m with ⟨-, q, y', hown⟩ | ⟨-, q, hq, hdist⟩
  · have hy' := hown.above hd
    exact ⟨q, y', hy', h.step hy hs hf hown hy'.nonempty⟩
  · exact ⟨q, y, hq, h.disturbed hdist⟩

/-- **What the caller receives**: the result, if the check point has come to its
end, and else the error that it came to. -/
theorem lastCheck_return (hs : s.Sound) (hy : s.Above pid fs p y)
    (h : y.LastCheck failed result p)
    (hret : (s.step pid).context? pid = some ⟨fs, .reply ret, m'⟩) :
    ∃ q, (s.step pid).process? pid = some q ∧
      (p.status.isExited = true → q.status.isExited = true) ∧
      ((ret = result ∧ q.status = p.status ∧ q.inbox = p.inbox ∧
          ∃ v, y.frames = [.callExit result] ∧ y.control = .reply (.ok v)) ∨
        ∃ e, ret = .error e ∧ (e = .mustExit ∧ p.status.isExited = true ∨ failed e)) := by
  obtain ⟨q, hown⟩ := hy.leave hs hret
  obtain ⟨frames, c, m⟩ := y
  obtain ⟨above, hfs⟩ := h.bottom
  obtain rfl : frames = above ++ [.callExit result] := hfs
  refine ⟨q, hown.process, hown.ended, ?_⟩
  obtain ⟨rfl, result', hres, ⟨v, rfl, rfl, hst, hin⟩ | ⟨e, rfl, rfl⟩⟩ := hown.step.returns rfl
  · obtain rfl : result = ret := Frame.callExit.inj hres
    exact .inl ⟨rfl, hst, hin, v, rfl, rfl⟩
  · exact .inr ⟨e, rfl, h.ended e rfl rfl⟩

end System

end PosixSignals
