import PosixSignals.Proofs.Process.SignalWait
import PosixSignals.Proofs.Scenario.Abstention
import PosixSignals.Proofs.Scenario.MaskDiscipline
import PosixSignals.Proofs.Scenario.Pace
import PosixSignals.Proofs.Scenario.Reentry

/-!
# Waits for signals, from beginning to end

A wait for the signals of a set blocks them and looks for them; without a
timeout it has other signals delivered in place, by a check point that runs
over a frame of the wait. Below that frame and the check point's own masks
lies the mask to put back at the end, so the signals of the set stay
blocked until then, whatever is nested in between, unless a handler asks
for something else; and whatever handlers do to the mask ends with them.
-/

namespace PosixSignals

/-- The set that a wait is made for, and its timeout, if a wait for signals starts now. -/
def Control.wait? : Control → Option (SignalSet × Option Timeout)
  | .execute (.sigtimedwait set timeout) => some (set, timeout)
  | .execute (.sigwait set) => some (set, none)
  | .perform (.engine (.waitAny set timeout)) => some (set, timeout)
  | _ => none

/-- What a wait goes by that starts at the time `now` and under the mask `m`. -/
def AnyWait.start (set : SignalSet) (timeout : Option Timeout) (now : Nat) (m : SignalSet) :
    AnyWait where
  set := set \ .uncatchable
  bounded := timeout.isSome
  deadline := timeout.bind (·.deadline? now)
  saved := m

namespace Context

variable {p q : Process} {y y' : Context} {f : Frame} {above fs : List Frame} {c : Control}
  {m temp saved : SignalSet} {w : AnyWait} {failed : Errno → Prop} {masks : List SignalSet}

/-! ## The mask in between -/

/-- **The mask `saved` is put back last**, and the one in force by then is `temp`. -/
def Restores (temp saved : SignalSet) (y : Context) : Prop :=
  ∃ masks, y.saved = masks ++ [saved] ∧ masks.foldl (fun _ mask => mask) y.blocked = temp

/-- What saves and puts back masks in between does not change that. -/
theorem MaskStep.restores (h : MaskStep y y') (hy : y.Restores temp saved)
    (hb : ∀ m ∈ y.saved, m.Blockable) (hc : y.control.maskChange? = none ∨ y.saved.tail ≠ [])
    (hne : y'.saved ≠ []) : y'.Restores temp saved := by
  obtain ⟨masks, hsaved, htemp⟩ := hy
  cases h with
  | kept _ hm hs => exact ⟨masks, hs ▸ hsaved, hm ▸ htemp⟩
  | widened _ _ _ hs | replaced _ _ _ _ hs =>
    exact ⟨y.blocked :: masks, by rw [hs, hsaved]; rfl, htemp⟩
  | putBack mask _ hm hs =>
    cases masks with
    | nil => exact absurd (List.cons.inj (hs.symm.trans hsaved)).2 hne
    | cons mask' masks =>
      obtain ⟨rfl, hs'⟩ := List.cons.inj (hs.symm.trans hsaved)
      have hmask : mask \ .uncatchable = mask := hb mask (by simp [hs])
      exact ⟨masks, hs', by rw [hm, hmask]; exact htemp⟩
  | changed _ _ hm _ hs =>
    have hinner := hc.resolve_left fun hn => by simp [hn] at hm
    cases masks with
    | nil => exact absurd (by rw [hsaved]; rfl) hinner
    | cons mask masks => exact ⟨mask :: masks, hs ▸ hsaved, htemp⟩

/-- **What becomes of the frame of a wait in a step**: it stays; or the check point over it is
over, and the wait looks again; or the wait is left by an error or by unwinding. -/
theorem Step.of_waiting (h : Step p q ⟨above ++ Frame.waiting w :: fs, c, m⟩ y) :
    (∃ above', y.frames = above' ++ Frame.waiting w :: fs) ∨ above = [] ∧
      ((∃ v, c = .reply (.ok v) ∧ y = ⟨fs, .loop (.waitAny w), m⟩) ∨
        (∃ e, c = .reply (.error e) ∧ y = ⟨fs, .reply (.error e), w.saved \ .uncatchable⟩) ∨
        y = ⟨fs, .panic, w.saved \ .uncatchable⟩) := by
  cases above with
  | cons g above =>
    obtain ⟨above', he, -⟩ := h.within (show _ = g :: above ++ Frame.waiting w :: fs from rfl)
    exact .inl ⟨above', he⟩
  | nil =>
    cases h with
    | served => exact .inr ⟨rfl, .inl ⟨_, rfl, rfl⟩⟩
    | serveFail => exact .inr ⟨rfl, .inr (.inl ⟨_, rfl, rfl⟩)⟩
    | unwind => exact .inr ⟨rfl, .inr (.inr rfl)⟩
    | call | waitServe | suspendCheck | sleepCheck => exact .inl ⟨[_], rfl⟩
    | deliver => exact .inl ⟨[_, _], rfl⟩
    | checkEnter => exact .inl ⟨[_, _, _], rfl⟩
    | _ => exact .inl ⟨[], rfl⟩

/-! ## The phases -/

/-- **A wait goes on**: it looks, or a check point runs over its frame, which only a wait without a
timeout has. -/
structure WaitPhase (f : Frame) (w : AnyWait) (temp : SignalSet) (failed : Errno → Prop)
    (p : Process) (y : Context) : Prop where
  place : (y.frames = [f] ∧ y.control.loop? = some (.waitAny w)) ∨
    w.bounded = false ∧ ∃ above, y.frames = above ++ [Frame.waiting w, f]
  masks : y.Restores temp w.saved
  errors : ErrorsOver failed [.waiting w, f] p y

theorem WaitPhase.disturbed (h : WaitPhase f w temp failed p y) (hd : p.Disturbed q) :
    WaitPhase f w temp failed q y :=
  ⟨h.place, h.masks, h.errors.disturbed hd⟩

theorem WaitPhase.ne_nil (h : WaitPhase f w temp failed p y) : y.frames ≠ [] := by
  rcases h.place with ⟨hfs, -⟩ | ⟨-, above, hfs⟩ <;> simp [hfs]

section Looks

variable (hf : f.hostsWait = true)
include hf

theorem saved?_of_hostsWait : f.saved? = none := by
  cases f <;> first | rfl | simp [Frame.hostsWait] at hf

/-- Where a wait looks, the only mask to put back is its own. -/
theorem saved_of_looks (hc : c.loop? = some (.waitAny w)) :
    Context.saved ⟨[f], c, m⟩ = [w.saved] := by
  have hsaved : c.saved? = some w.saved := by
    obtain rfl | ⟨x, rfl⟩ := Control.loop?_eq_some hc <;> rfl
  simp [Context.saved, hsaved, saved?_of_hostsWait hf]

theorem waitPhase_of_loop? (hc : c.loop? = some (.waitAny w)) :
    WaitPhase f w m failed p ⟨[f], c, m⟩ := by
  refine ⟨.inl ⟨rfl, hc⟩, ⟨[], saved_of_looks hf hc, rfl⟩, fun e he _ => ?_, fun e he _ => ?_⟩
  · simp at he
  · simp at he

theorem waitPhase_of_serve (hb : w.bounded = false) :
    WaitPhase f w m failed p ⟨[.waiting w, f], .loop (.check false), m⟩ := by
  refine ⟨.inr ⟨hb, [], rfl⟩, ⟨[], ?_, rfl⟩, fun e _ hc => ?_, fun e he _ => ?_⟩
  · have hwait : (Frame.waiting w).saved? = some w.saved := rfl
    simp [saved, Control.saved?, Loop.saved?, hwait, saved?_of_hostsWait hf]
  · cases hc
  · simp at he

/-- With nothing above the wait, the mask in force is its own. -/
theorem WaitPhase.blocked_eq (h : WaitPhase f w temp failed p y)
    (hfs : (y.frames = [f] ∧ y.control.loop? = some (.waitAny w)) ∨
      y.frames = [.waiting w, f] ∧ y.control.saved? = none) : y.blocked = temp := by
  obtain ⟨masks, hsaved, htemp⟩ := h.masks
  have hnone := saved?_of_hostsWait hf
  suffices hmasks : masks = [] by rw [← htemp, hmasks]; rfl
  rcases hfs with ⟨hfs, hc⟩ | ⟨hfs, hc⟩
  · have hone := saved_of_looks (m := y.blocked) hf hc
    rw [← hfs] at hone
    simpa [hone] using hsaved
  · have hwait : (Frame.waiting w).saved? = some w.saved := rfl
    simpa [saved, hfs, hc, List.filterMap_cons, hwait, hnone] using hsaved

end Looks

end Context

namespace System

variable {s s' s₀ u v : System} {pid : Pid} {p q : Process} {y y' : Context} {f : Frame}
  {fs gs : List Frame} {c : Control} {m m' temp : SignalSet} {w : AnyWait} {set : SignalSet}
  {timeout : Option Timeout} {failed : Errno → Prop} {sig : Signal} {r : Reply}
  {new : List Record}

/-! ## Moves during a wait -/

/-- **What ends a wait**: a result, with the old mask, or a handler's panic. -/
inductive WaitOver (f : Frame) (w : AnyWait) (now : Nat) (failed : Errno → Prop) (p q : Process)
    (y : Context) : Prop
  | result {r : Reply} (hy : y = ⟨[f], .reply r, w.saved \ .uncatchable⟩)
      (h : p.WaitEnds w now failed q r)
  | panic (hb : w.bounded = false) (hy : y = ⟨[f], .panic, w.saved \ .uncatchable⟩)

section Step

variable (hf : f.hostsWait = true) (hs : Reachable s) (hy : s.Above pid fs p y)
  (hfail : ∀ e, s.FailsOver pid (.waiting w :: f :: fs) e → failed e)
  (hown : OwnMove (s.step pid) pid fs p q y y')
include hf hs hy hown

/-- **A step where the wait looks**, or is blocked. -/
theorem waitPhase_of_looks (hfs : y.frames = [f]) (hc : y.control.loop? = some (.waitAny w))
    (hb : y.blocked = temp) :
    y'.WaitPhase f w temp failed q ∨ WaitOver f w s.now failed p q y' := by
  have hx := hy.context
  have heq := hown.eq_step hy
  have hcome : ∀ frames {c m'}, q.context? = some ⟨frames ++ fs, c, m'⟩ → y' = ⟨frames, c, m'⟩ :=
    fun frames => hown.eq_of_context? frames
  obtain ⟨frames, c, mask⟩ := y
  obtain rfl : frames = [f] := hfs
  obtain rfl : mask = temp := hb
  dsimp only at hx heq
  obtain rfl | ⟨l, rfl⟩ := Control.loop?_eq_some hc
  · obtain ⟨root, -, rfl⟩ := heq rfl
    have hturn : p.WaitTurn s.now w (f :: fs) mask (p.waitAny s.now w) :=
      Process.turn_waitAny (hs.sound.inboxes pid p hy.process)
        (hs.lasting lasting_known pid p hy.process) hx
    cases hturn with
    | ends hx' h =>
      exact .inr (.result (hcome [f] hx') (h.mono fun _ he => he.elim))
    | pauses _ hx' | blocks _ _ _ _ hx' =>
      obtain rfl := hcome [f] hx'
      exact .inl (Context.waitPhase_of_loop? hf rfl)
    | serves _ _ _ hb hx' =>
      obtain rfl := hcome [.waiting w, f] hx'
      exact .inl (Context.waitPhase_of_serve hf hb)
  · obtain ⟨root, -, rfl⟩ := heq rfl
    obtain ⟨hv, -⟩ := hs.watchfulAt pid p _ hy.process hx
    rcases Process.awaken_waitAny s.now hx (hv.blocked _ l rfl) with hx' | hx' | ⟨r, hx', h⟩
    · obtain rfl := hcome [f] hx'
      exact .inl (Context.waitPhase_of_loop? hf rfl)
    · obtain rfl := hcome [f] hx'
      exact .inl (Context.waitPhase_of_loop? hf rfl)
    · exact .inr (.result (hcome [f] hx') (h.mono fun _ he => he.elim))

include hfail

/-- **A step above the frame of the wait**, or one that leaves it. -/
theorem waitPhase_of_serves {above : List Frame} (h : y.WaitPhase f w temp failed p)
    (hb : w.bounded = false) (hfs : y.frames = above ++ [Frame.waiting w, f]) :
    y'.WaitPhase f w temp failed q ∨ WaitOver f w s.now failed p q y' := by
  have hsound := hy.sound hs.sound
  have herrors := h.errors.step ⟨rfl, rfl, rfl⟩ hy hs.sound hfail hown
  have hstep := hown.step
  have hinner : y.control.maskChange? = none ∨ y.saved.tail ≠ [] := by
    by_cases hm : y.control.maskChange? = none
    · exact .inl hm
    -- a change of mask is a call, and what makes one above the wait has a saved mask under it
    obtain ⟨change, hm⟩ := Option.ne_none_iff_exists'.1 hm
    have hcall := Control.isCall_of_maskChange? hm
    have hst : Stacked (above ++ Frame.waiting w :: f :: fs) := by simpa [hfs] using hsound.stacked
    have hfit : y.control.Fits (above ++ Frame.waiting w :: f :: fs) := by
      simpa [hfs] using hsound.fits
    have hne : above ≠ [] := by
      rintro rfl
      simpa [Frame.hostsWait] using Control.hostsWait_of_isCall hcall hfit
    have hsaved := Context.saved_of_isCall hst hcall hfit ⟨rfl, rfl⟩ hne
    have hwait : (Frame.waiting w).saved? = some w.saved := rfl
    have hall : y.saved = above.filterMap Frame.saved? ++ [w.saved] := by
      simp [Context.saved, hfs, Control.saved?_of_isCall hcall, hwait,
        Context.saved?_of_hostsWait hf]
    obtain ⟨mask, masks, he⟩ := List.exists_cons_of_ne_nil hsaved
    exact .inr (by simp [hall, he])
  have hblockable : ∀ mask ∈ y.saved, mask.Blockable := fun mask hmem =>
    hsound.savedBlockable mask (by
      simp only [Context.saved, List.filterMap_append, ← List.append_assoc]
      exact List.mem_append_left _ hmem)
  obtain ⟨frames, c, mask⟩ := y
  obtain rfl : frames = above ++ [Frame.waiting w, f] := hfs
  rcases hstep.of_waiting with ⟨above', hfs'⟩ | ⟨rfl, ⟨v, rfl, rfl⟩ | ⟨e, rfl, rfl⟩ | rfl⟩
  · refine .inl ⟨.inr ⟨hb, above', hfs'⟩, ?_, herrors⟩
    exact hstep.maskStep.restores h.masks hblockable hinner
      (by simp [Context.saved, hfs', Frame.saved?])
  · obtain rfl : mask = temp := h.blocked_eq hf (.inr ⟨rfl, rfl⟩)
    exact .inl (Context.waitPhase_of_loop? hf rfl)
  · refine .inr (.result rfl ?_)
    rcases h.errors.ended e rfl rfl with ⟨rfl, he⟩ | he
    · exact .ended rfl he
    · exact .broken rfl hb he
  · exact .inr (.panic hb rfl)

/-- **A step of a wait** goes on with it or ends it. -/
theorem waitPhase_step (h : y.WaitPhase f w temp failed p) :
    y'.WaitPhase f w temp failed q ∨ WaitOver f w s.now failed p q y' := by
  rcases h.place with ⟨hfs, hc⟩ | ⟨hb, above, hfs⟩
  · exact waitPhase_of_looks hf hs hy hown hfs hc (h.blocked_eq hf (.inl ⟨hfs, hc⟩))
  · exact waitPhase_of_serves hf hs hy hfail hown h hb hfs

end Step

/-! ## Runs during a wait -/

/-- **A process is in a wait** over the frames `gs`: it looks or is blocked, or a check point runs
over the frame of the wait. -/
def InWait (s : System) (pid : Pid) (gs : List Frame) (w : AnyWait) : Prop :=
  ∃ x, s.context? pid = some x ∧ ((x.frames = gs ∧ x.control.loop? = some (.waitAny w)) ∨
    ∃ above, x.frames = above ++ Frame.waiting w :: gs)

/-- **A run of any moves during which a wait goes on.** -/
def DuringWait (pid : Pid) (gs : List Frame) (w : AnyWait) : System → System → Prop :=
  Relation.ReflTransGen fun a b => (∃ m, b = a.move m) ∧ b.InWait pid gs w

/-- One move of such a run, by which the process does not let a signal in. -/
def WaitsShut (pid : Pid) (gs : List Frame) (w : AnyWait) (sig : Signal) (a b : System) : Prop :=
  (∃ m, b = a.move m ∧ (m = .process pid → a.letsIn pid sig = false)) ∧ b.InWait pid gs w

/-- A handler that the wait has run has failed on the way from one state to another. -/
def WaitBroken (s s' : System) (pid : Pid) (gs : List Frame) (w : AnyWait) (e : Errno) : Prop :=
  ∃ u, DuringWait pid gs w s u ∧ DuringWait pid gs w u s' ∧ u.FailsOver pid (.waiting w :: gs) e

/-- A handler that the wait has run has panicked on the way from one state to another. -/
def WaitPanicked (s s' : System) (pid : Pid) (gs : List Frame) (w : AnyWait) : Prop :=
  ∃ u, DuringWait pid gs w s u ∧ DuringWait pid gs w u s' ∧ u.PanicsAbove pid gs

theorem DuringWait.reachable (h : DuringWait pid gs w s s') (hs : Reachable s) : Reachable s' :=
  Throughout.reachable h hs

/-- A wait takes no time back. -/
theorem DuringWait.now_le (h : DuringWait pid gs w s s') (hs : Reachable s) : s.now ≤ s'.now := by
  induction h with
  | refl => exact Nat.le_refl _
  | tail hu hm ih =>
    obtain ⟨⟨m, rfl⟩, -⟩ := hm
    exact Nat.le_trans ih (now_le_move (DuringWait.reachable hu hs).sound m)

theorem duringWait_of_waitsShut (h : Relation.ReflTransGen (WaitsShut pid gs w sig) s s') :
    DuringWait pid gs w s s' :=
  h.lift id fun _ _ ⟨⟨m, he, _⟩, hin⟩ => ⟨⟨m, he⟩, hin⟩

/-- Seen from above the frames below the one it looks on. -/
theorem Above.inWait_iff (hy : s.Above pid fs p y) : s.InWait pid (f :: fs) w ↔
    (y.frames = [f] ∧ y.control.loop? = some (.waitAny w)) ∨
      ∃ above, y.frames = above ++ [Frame.waiting w, f] := by
  have hone : y.frames ++ fs = f :: fs ↔ y.frames = [f] := by
    rw [← List.singleton_append, List.append_left_inj]
  have hmore : ∀ above, y.frames ++ fs = above ++ Frame.waiting w :: f :: fs ↔
      y.frames = above ++ [Frame.waiting w, f] := fun above => by
    rw [show above ++ Frame.waiting w :: f :: fs = above ++ [Frame.waiting w, f] ++ fs by simp,
      List.append_left_inj]
  constructor
  · rintro ⟨x, hx, hin⟩
    obtain rfl := Option.some.inj (hy.context?.symm.trans hx)
    simpa only [hone, hmore] using hin
  · intro hin
    exact ⟨_, hy.context?, by simpa only [hone, hmore] using hin⟩

theorem inWait_of_phase (hy : s.Above pid fs p y) (h : y.WaitPhase f w temp failed p) :
    s.InWait pid (f :: fs) w :=
  hy.inWait_iff.2 (h.place.imp_right And.right)

/-- **A move during a wait**: it goes on, or the process ends it by its step. -/
theorem waitPhase_move (hf : f.hostsWait = true) (hs : Reachable s) (hy : s.Above pid fs p y)
    (h : y.WaitPhase f w temp failed p)
    (hfail : ∀ e, s.FailsOver pid (.waiting w :: f :: fs) e → failed e) (m : Move) :
    (∃ q y', (s.move m).Above pid fs q y' ∧ y'.WaitPhase f w temp failed q) ∨
      m = .process pid ∧ ∃ q y', OwnMove (s.step pid) pid fs p q y y' ∧
        WaitOver f w s.now failed p q y' := by
  rcases hy.move hs.sound m with ⟨rfl, q, y', hown⟩ | ⟨-, q, hq, hd⟩
  · rcases waitPhase_step hf hs hy hfail hown h with h' | hover
    · exact .inl ⟨q, y', ⟨hown.process, hown.context, h'.ne_nil⟩, h'⟩
    · exact .inr ⟨rfl, q, y', hown, hover⟩
  · exact .inl ⟨q, y, hq, h.disturbed hd⟩

/-- Who neither looks nor is blocked on the frames of a wait is not in it. -/
theorem not_inWait (hx : s.context? pid = some ⟨gs, c, m⟩) (hc : c.loop? = none) :
    ¬ s.InWait pid gs w := by
  rintro ⟨x, hx', hin⟩
  obtain rfl := Option.some.inj (hx.symm.trans hx')
  rcases hin with ⟨-, hloop⟩ | ⟨above, hfs⟩
  · simp [hc] at hloop
  · have hlength := congrArg List.length hfs
    simp at hlength
    omega

/-- Where a wait is over, the process is not in it. -/
theorem WaitOver.not_inWait (h : WaitOver f w u.now failed p q y')
    (hown : OwnMove s' pid fs p q y y') : ¬ s'.InWait pid (f :: fs) w := by
  have hx := context?_eq_some.2 ⟨q, hown.process, hown.context⟩
  cases h with
  | result hy | panic _ hy =>
    subst hy
    exact System.not_inWait hx rfl

/-- **A wait goes on, or its process ends it**, and its mask is put back. -/
theorem waits_or_ends (hf : f.hostsWait = true) (hs : Reachable s) (hy : s.Above pid fs p y)
    (h : y.WaitPhase f w temp failed p)
    (hfail : ∀ e, s.FailsOver pid (.waiting w :: f :: fs) e → failed e) (move : Move) :
    (s.move move).InWait pid (f :: fs) w ∨ move = .process pid ∧
      ∃ q, (s.step pid).process? pid = some q ∧
        ((∃ r, q.context? = some ⟨f :: fs, .reply r, w.saved \ .uncatchable⟩ ∧
            p.WaitEnds w s.now failed q r) ∨
          w.bounded = false ∧ q.context? = some ⟨f :: fs, .panic, w.saved \ .uncatchable⟩) := by
  rcases waitPhase_move hf hs hy h hfail move with
    ⟨q, y', hq, hphase⟩ | ⟨rfl, q, y', hown, hover⟩
  · exact .inl (inWait_of_phase hq hphase)
  · refine .inr ⟨rfl, q, hown.process, ?_⟩
    have hx := hown.context
    cases hover with
    | result hy' h =>
      subst hy'
      exact .inl ⟨_, hx, h⟩
    | panic hb hy' =>
      subst hy'
      exact .inr ⟨hb, hx⟩

section Run

variable (hf : f.hostsWait = true) (hs : Reachable s) (hy : s.Above pid fs p y)
  (hstart : ∀ failed, y.WaitPhase f w temp failed p)
include hf hs hy hstart

/-- **For as long as the wait lasts, so does its phase**, with the errors of the handlers that have
failed on the way to `s'`. -/
theorem waitPhase_run (hrun : DuringWait pid (f :: fs) w s s') :
    ∃ q y', s'.Above pid fs q y' ∧ y'.WaitPhase f w temp (s.WaitBroken s' pid (f :: fs) w) q := by
  -- by induction on the run so far, with the rest of it up to `s'` carried along
  suffices h : ∀ u, DuringWait pid (f :: fs) w s u → DuringWait pid (f :: fs) w u s' →
      ∃ q y', u.Above pid fs q y' ∧ y'.WaitPhase f w temp (s.WaitBroken s' pid (f :: fs) w) q from
    h s' hrun .refl
  intro u hu
  induction hu with
  | refl => exact fun _ => ⟨p, y, hy, hstart _⟩
  | @tail u v hu hm ih =>
    intro hv
    obtain ⟨q, y', hy', hphase⟩ := ih (.head hm hv)
    obtain ⟨⟨m, rfl⟩, hin⟩ := hm
    rcases waitPhase_move hf (DuringWait.reachable hu hs) hy' hphase
      (fun e he => ⟨u, hu, .head ⟨⟨m, rfl⟩, hin⟩ hv, he⟩) m with hnext | ⟨rfl, q', y'', hown, hover⟩
    · exact hnext
    · exact absurd hin (hover.not_inWait hown)

/-- **A signal of the set stays blocked**, and nothing acts on it, unless it is let in. -/
theorem heldBack_run (hheld : y.HeldBack sig w.saved)
    (hrun : Relation.ReflTransGen (WaitsShut pid (f :: fs) w sig) s s') :
    Abstains pid sig s s' ∧ ∃ q y', s'.Above pid fs q y' ∧ y'.HeldBack sig w.saved := by
  induction hrun with
  | refl => exact ⟨.of_history rfl, p, y, hy, hheld⟩
  | @tail u v hu hm ih =>
    obtain ⟨habstains, q, y', hy', hheld'⟩ := ih
    have hr := (duringWait_of_waitsShut hu).reachable hs
    obtain ⟨⟨m, rfl, hshut⟩, hin⟩ := hm
    refine ⟨habstains.trans (hy'.abstains hr.sound hheld'.blocked m), ?_⟩
    rcases hy'.move hr.sound m with ⟨rfl, r, y'', hown⟩ | ⟨-, r, hr', -⟩
    · obtain ⟨r₂, y₂, hy₂, hphase⟩ := waitPhase_run hf hs hy hstart
        (duringWait_of_waitsShut (hu.tail ⟨⟨.process pid, rfl, hshut⟩, hin⟩))
      obtain rfl := hown.eq_of_context? _ ((Option.some.inj
        (hy₂.process.symm.trans hown.process)) ▸ hy₂.context)
      obtain ⟨masks, hsaved, -⟩ := hphase.masks
      have hc : y'.control.letsIn sig = false := by
        simpa [letsIn, hy'.context?] using hshut rfl
      have hsig : sig.isUncatchable = false :=
        (hy'.sound hr.sound).blockable.catchable hheld'.blocked
      refine ⟨r₂, y₂, hy₂, hown.step.maskStep.heldBack hheld' hsig hc ?_⟩
      simp [show Context.saved ⟨y₂.frames, y₂.control, y₂.blocked⟩ = _ from hsaved]
    · exact ⟨r, y', hr', hheld'⟩

/-- And neither does the move by which the wait ends. -/
theorem abstains_of_shut (hheld : y.HeldBack sig w.saved)
    (hrun : Relation.ReflTransGen (WaitsShut pid (f :: fs) w sig) s s') (move : Move) :
    Abstains pid sig s (s'.move move) := by
  obtain ⟨habstains, q, z, hz, hheld'⟩ := heldBack_run hf hs hy hstart hheld hrun
  have hr := (duringWait_of_waitsShut hrun).reachable hs
  exact habstains.trans (hz.abstains hr.sound hheld'.blocked move)

end Run

/-! ## From its beginning -/

/-- **The wait begins**: its set is blocked. -/
theorem process?_of_wait? (hp : s.process? pid = some p) (hx : p.context? = some ⟨gs, c, m⟩)
    (hc : c.wait? = some (set, timeout)) :
    (s.step pid).process? pid = some (p.beginWaitAny s.now set timeout) ∧
      (p.beginWaitAny s.now set timeout).context? =
        some ⟨gs, .loop (.waitAny (.start set timeout s.now m)),
          (m ∪ set \ .uncatchable) \ .uncatchable⟩ := by
  obtain ⟨root, ht, hb⟩ := Process.context?_eq_some.1 hx
  obtain rfl : p.inbox.blocked = m := hb
  refine ⟨?_, ?_⟩
  · unfold Control.wait? at hc
    split at hc <;> simp only [Option.some.injEq, Prod.mk.injEq, reduceCtorEq] at hc
    · obtain ⟨rfl, rfl⟩ := hc
      rw [step_of_execute hp ht rfl]
      exact process?_act_self hp
    · obtain ⟨rfl, rfl⟩ := hc
      rw [step_of_execute hp ht rfl]
      exact process?_act_self hp
    · obtain ⟨rfl, rfl⟩ := hc
      simp only [step, hp, ht]
      exact process?_act_self hp
  · simp only [Process.beginWaitAny, Process.context?, Process.goto, ht]
    rfl

theorem hostsWait_of_wait? (hs : s.Sound) (hx : s.context? pid = some ⟨f :: fs, c, m⟩)
    (hc : c.wait? = some (set, timeout)) : f.hostsWait = true := by
  have hcall : c.isCall = true := by
    unfold Control.wait? at hc
    split at hc <;> first | rfl | cases hc
  simpa using Control.hostsWait_of_isCall hcall (hs.contexts pid _ hx).fits

theorem above_of_wait? (hs : s.Sound) (hx : s.context? pid = some ⟨f :: fs, c, m⟩)
    (hc : c.wait? = some (set, timeout)) : ∃ p, (s.step pid).Above pid fs p
      ⟨[f], .loop (.waitAny (.start set timeout s.now m)), m ∪ set \ .uncatchable⟩ := by
  obtain ⟨p, hp, hpx⟩ := context?_eq_some.1 hx
  obtain ⟨hq, hqx⟩ := process?_of_wait? hp hpx hc
  have hunion := (hs.contexts pid _ hx).blockable.union (SignalSet.blockable_sdiff set)
  exact ⟨_, hq, hqx.trans (by rw [show _ \ _ = _ from hunion]; rfl), List.cons_ne_nil _ _⟩

section Wait

variable (hs : Reachable s) (hy : s.Above pid fs p y) (h : y.WaitPhase f w temp failed p)
include hs hy h

/-- **A process in a wait that cannot go on** is stopped, or a handler is not back, or nothing has
come that would end the wait. -/
theorem rest_of_wait (hnot : p.isRunnable s.now = false) :
    p.status.isStopped = true ∨
      (w.bounded = false ∧ s.Serving pid (.waiting w :: f :: fs)) ∨
      p.status = .normal ∧ p.Lacks w ∧ p.Delivered ∧ ∀ d, w.deadline = some d → s.now < d := by
  obtain ⟨l, z, hblocked⟩ := hy.blocked_of_not_isRunnable hs.sound hnot
  rcases h.place with ⟨hfs, hc⟩ | ⟨hb, above, hfs⟩
  · obtain rfl : l = .waitAny w := by
      rw [hblocked] at hc
      exact Option.some.inj hc
    have hx := hy.context
    rw [hblocked] at hx
    obtain ⟨hawaits, hlate⟩ := awaits_of_not_isRunnable hs hnot hy.process hx
    rcases hawaits with ⟨hst, -⟩ | ⟨hn, hdeadline, hl, hdelivered⟩
    · exact .inl hst
    · refine .inr (.inr ⟨hn, hl, hdelivered, fun d hd => ?_⟩)
      simpa [Process.expired, hdeadline, hd] using hlate
  · rcases hy.stopped_or_serving hs hnot hfs hblocked rfl rfl rfl rfl with hst | hserving
    · exact .inl hst
    · exact .inr (.inl ⟨hb, hserving⟩)

/-- **What lets a signal in during a wait** is a handler that the wait has run. -/
theorem serving_of_letsIn (hin : s.letsIn pid sig = true) :
    s.Serving pid (.waiting w :: f :: fs) := by
  have hcall : y.control.isCall = true :=
    Control.isCall_of_letsIn (show y.control.letsIn sig = true by
      simpa [letsIn, hy.context?] using hin)
  rcases h.place with ⟨hfs, hc⟩ | ⟨hb, above, hfs⟩
  · obtain he | ⟨l, he⟩ := Control.loop?_eq_some hc <;> rw [he] at hcall <;> cases hcall
  · refine hy.serving hs.sound hfs (.inr hcall) rfl rfl fun hne => ?_
    have hfits := (hy.sound hs.sound).fits
    rw [hfs, hne] at hfits
    simpa [Frame.hostsWait] using Control.hostsWait_of_isCall hcall hfits

omit hs in
/-- Where the wait looks, its mask is in force. -/
theorem blocked_of_looking (hf : f.hostsWait = true)
    (hx : p.context? = some ⟨f :: fs, .loop (.waitAny w), m⟩) : m = temp := by
  obtain ⟨hfs, hc, rfl⟩ := Context.mk.inj (Option.some.inj (hy.context.symm.trans hx))
  exact h.blocked_eq hf (.inl ⟨List.append_cancel_right (hfs.trans (by rfl : _ = [f] ++ fs)),
    by rw [hc]; rfl⟩)

/-- Nothing but the wait itself is above its frame, so its mask is in force. -/
theorem blocked_of_waiting (hf : f.hostsWait = true)
    (hx : p.context? = some ⟨.waiting w :: f :: fs, c, m⟩) : m = temp := by
  obtain ⟨hfs, rfl, rfl⟩ := Context.mk.inj (Option.some.inj (hy.context.symm.trans hx))
  have hfs : y.frames = [.waiting w, f] :=
    List.append_cancel_right (hfs.trans (by rfl : _ = [Frame.waiting w, f] ++ fs))
  refine h.blocked_eq hf (.inr ⟨hfs, ?_⟩)
  have hfits := (hy.sound hs.sound).fits
  rw [hfs] at hfits
  cases hc : y.control with
  | loop l | blocked l z =>
    rw [hc] at hfits
    cases l <;> simp [Control.Fits, Loop.host, Frame.hostsWait, Frame.isCallBody] at hfits
    rfl
  | _ => rfl

end Wait

/-- The step by which a wait goes on after the check point inside it. -/
theorem context?_step_served {v : Value} (hp : s.process? pid = some p)
    (hx : p.context? = some ⟨.waiting w :: gs, .reply (.ok v), m⟩) :
    (s.step pid).context? pid = some ⟨gs, .loop (.waitAny w), m⟩ := by
  obtain ⟨root, ht, -⟩ := Process.context?_eq_some.1 hx
  rw [step_of_not_isShared hp ht rfl, context?, process?_act_self hp]
  show (p.pop.goto (.loop (.waitAny w))).context? = _
  rw [Process.context?_goto, Process.context?_pop, hx]
  rfl

/-- **A turn of the wait** is what its step makes of the context. -/
theorem turn_of_wait (hs : Reachable s) (hp : s.process? pid = some p)
    (hx : p.context? = some ⟨gs, .loop (.waitAny w), m⟩) :
    (s.step pid).context? pid = (p.waitAny s.now w).1.context? ∧
      p.WaitTurn s.now w gs m (p.waitAny s.now w) := by
  obtain ⟨root, ht, -⟩ := Process.context?_eq_some.1 hx
  have hknown := hs.lasting lasting_known pid p hp
  refine ⟨?_, Process.turn_waitAny (hs.sound.inboxes pid p hp) hknown hx⟩
  rw [step_of_not_isShared hp ht rfl, context?, process?_act_self hp]
  rfl

/-- **A blocked wait whose step does anything** looks again, or its time is up. -/
theorem wakes_of_wait (hs : s.Sound) (hp : s.process? pid = some p)
    (hx : p.context? = some ⟨gs, .blocked (.waitAny w) l, m⟩) (hgo : s.step pid ≠ s) :
    (s.step pid).context? pid = some ⟨gs, .loop (.waitAny w), m⟩ ∨
      (s.step pid).context? pid =
        some ⟨gs, .reply (.ok (.taken none)), w.saved \ .uncatchable⟩ := by
  obtain ⟨root, ht, -⟩ := Process.context?_eq_some.1 hx
  have hcan := (canStep_iff hs).2 hgo
  rw [step_of_not_isShared hp ht rfl, context?, process?_act_self hp]
  exact Process.awaken_waitAny_of_isRunnable hx (by simpa [canStep, hp] using hcan)

theorem DuringWait.during (h : DuringWait pid (f :: fs) w s s') : During pid fs.length s s' := by
  refine h.lift id fun a b ⟨hm, x, hx, hin⟩ => ⟨hm, x, hx, ?_⟩
  rcases hin with ⟨hfs, -⟩ | ⟨above, hfs⟩
  · simp [hfs]
  · simp [hfs]
    omega

/-- **In a wait the process is engaged** above the frames that the wait began on. -/
theorem engaged_of_wait (hy : s.Above pid fs p y) (h : y.WaitPhase f w temp failed p) :
    ∃ above, s.Engaged pid (f :: fs) p above y.control := by
  have hx := hy.context
  rcases h.place with ⟨hfs, hc⟩ | ⟨-, above, hfs⟩
  · refine ⟨[], hy.process, ⟨y.blocked, ?_⟩, fun _ => by simp [hc], fun _ =>
      Control.isLone_of_loop? hc rfl⟩
    rwa [hfs] at hx
  · refine ⟨above ++ [.waiting w], hy.process, ⟨y.blocked, ?_⟩, fun he => by simp at he,
      fun hcalls => ?_⟩
    · simpa [hfs] using hx
    · cases hcalls (.waiting w) (by simp)

/-- **A wait is soon over.** -/
theorem wait_soonOver (hf : f.hostsWait = true) (hs : Reachable s) (hy : s.Above pid fs p y)
    (hstart : ∀ failed, y.WaitPhase f w temp failed p) (hrun : DuringWait pid (f :: fs) w s s') :
    SoonOver (·.InWait pid (f :: fs) w) pid (f :: fs).length s' := by
  refine soonOver_of_engaged (hrun.reachable hs) (List.cons_ne_nil f fs) fun u hu => ?_
  obtain ⟨q, z, hz, hphase⟩ := waitPhase_run hf hs hy hstart (hrun.trans hu)
  obtain ⟨above, he⟩ := engaged_of_wait hz hphase
  exact ⟨q, above, _, he⟩

/-- **A panic that ends a wait** began as that of a handler which the wait has run. -/
theorem panicked_of_wait (hs : Reachable s) (hy : s.Above pid fs p y) (hc : y.control ≠ .panic)
    (hrun : DuringWait pid (f :: fs) w s s') (hin : s'.InWait pid (f :: fs) w)
    (hpanic : (s'.step pid).context? pid = some ⟨f :: fs, .panic, m'⟩) :
    s.WaitPanicked s' pid (f :: fs) w := by
  have hr := hrun.reachable hs
  obtain ⟨q, r, x, hq, hqx, -, hstep⟩ := step_of_context? hr.sound hpanic (by simp)
  have hx := context?_eq_some.2 ⟨q, hq, hqx⟩
  rcases hstep.of_panic with rfl | ⟨g, m₀, rfl⟩
  · exact absurd hin (not_inWait hx rfl)
  · refine exists_panicsAbove (n := fs.length) hs (List.cons_ne_nil f fs)
      (fun u hu => ?_) (fun z hz => ?_) hrun (List.cons_ne_nil g []) hx
    · exact (DuringWait.during hu).deep hy.deep
    · obtain rfl := Option.some.inj (hy.context?.symm.trans hz)
      exact hc

/-- **How a wait ends that comes to a reply**, under the mask that is put back. -/
theorem waitEnds_of_reply (hf : f.hostsWait = true) (hs : Reachable s) (hy : s.Above pid fs p y)
    (hstart : ∀ failed, y.WaitPhase f w temp failed p) (hrun : DuringWait pid (f :: fs) w s s')
    (hret : (s'.step pid).context? pid = some ⟨f :: fs, .reply r, m'⟩) :
    m' = w.saved \ .uncatchable ∧ ∃ q q', s'.process? pid = some q ∧
      q.WaitEnds w s'.now (s.WaitBroken s' pid (f :: fs) w) q' r := by
  obtain ⟨q, z, hz, hphase⟩ := waitPhase_run hf hs hy hstart hrun
  -- the step that returns is not one by which the wait goes on
  rcases waits_or_ends hf (hrun.reachable hs) hz hphase
      (fun e he => ⟨s', hrun, .refl, he⟩) (.process pid) with
    hin | ⟨-, q', hq', ⟨r', hx, h⟩ | ⟨-, hx⟩⟩
  · exact absurd hin (not_inWait hret rfl)
  · obtain ⟨-, hc, hmask⟩ := Context.mk.inj (Option.some.inj
      ((context?_eq_some.2 ⟨q', hq', hx⟩).symm.trans hret))
    obtain rfl := Control.reply.inj hc
    exact ⟨hmask.symm, q, q', hz.process, h⟩
  · cases (context?_eq_some.2 ⟨q', hq', hx⟩).symm.trans hret

/-- **Who ends during a wait is told so** when it is over. -/
theorem ended_of_wait (hf : f.hostsWait = true) (hs : Reachable s) (hy : s.Above pid fs p y)
    (hstart : ∀ failed, y.WaitPhase f w temp failed p) (hrun : DuringWait pid (f :: fs) w s s')
    (hq : s'.process? pid = some q) (he : q.status.isExited = true)
    (hrest : DuringWait pid (f :: fs) w s' v)
    (hret : (v.step pid).context? pid = some ⟨f :: fs, .reply r, m'⟩) :
    r = .error .mustExit ∨ ∃ e, r = .error e ∧ s.WaitBroken v pid (f :: fs) w e := by
  have hr := hrun.reachable hs
  obtain ⟨q', z, hz, -⟩ := waitPhase_run hf hs hy hstart hrun
  obtain rfl := Option.some.inj (hq.symm.trans hz.process)
  obtain ⟨p', z', hz', he'⟩ := exited_of_during hr hrest.during hz he
  obtain ⟨-, p'', q'', hp'', h⟩ := waitEnds_of_reply hf hs hy hstart (hrun.trans hrest) hret
  obtain rfl := Option.some.inj (hz'.process.symm.trans hp'')
  exact h.of_isExited he'

/-- **A wait for signals.** In a reachable state a wait for the signals of a set is about to start,
by a system call or by itself, under the mask `m`. Then the set, less `kill` and `stop`, is blocked
besides. Whatever happens while the wait goes on, any move lets it go on, or the process ends it by
its own step, under the mask `m` again. Then it has taken the lowest signal of the set that is
pending, and only that; or it is told that the process has ended; or, with a timeout, it was
interrupted by a signal outside the set, or its deadline has passed, and it has taken nothing; or,
without one, a handler that it has run has failed or panicked. Whoever ends meanwhile is told so.

And the wait is soon over: outside of handlers the process takes twelve steps at most up to its end,
and thirteen more for each signal it takes and each notification. When a step of the process would
do nothing, then it is stopped, or is in a handler that the wait has run, or nothing has come that
would end the wait and its deadline has not passed; with a timeout of zero it is stopped. In
particular, where the wait looks, whoever has ended is told so in that step, and a signal of the set
that is there is taken in it. If there is none, but another signal to deliver, a wait with a timeout
is interrupted, and one without has it delivered in place, with its set blocked, and then looks
again. If there is none of these either, and the deadline has passed, it ends with nothing. And a
step of a blocked wait that does anything has it look again, or end with nothing.

Finally, a signal of the set is not acted on from the beginning to the end of the wait, unless a
handler that the wait has run lets it in. -/
theorem waits_for_any (hs : Reachable s) (hx : s.context? pid = some ⟨f :: fs, c, m⟩)
    (hc : c.wait? = some (set, timeout)) :
    let gs := f :: fs
    let w := AnyWait.start set timeout s.now m
    let s₁ := s.step pid
    s₁.context? pid = some ⟨gs, .loop (.waitAny w), m ∪ w.set⟩ ∧
    ∀ s', DuringWait pid gs w s₁ s' → ∃ p, s'.process? pid = some p ∧
      (∀ move, (s'.move move).InWait pid gs w ∨ move = .process pid ∧
        ∃ q, (s'.step pid).process? pid = some q ∧
          ((∃ r, q.context? = some ⟨gs, .reply r, m⟩ ∧
              p.WaitEnds w s'.now (s₁.WaitBroken s' pid gs w) q r) ∨
            timeout = none ∧ s₁.WaitPanicked s' pid gs w ∧ q.context? = some ⟨gs, .panic, m⟩)) ∧
      SoonOver (·.InWait pid gs w) pid gs.length s' ∧
      (p.status.isExited = true → ∀ v r m', DuringWait pid gs w s' v →
        (v.step pid).context? pid = some ⟨gs, .reply r, m'⟩ →
        r = .error .mustExit ∨ ∃ e, r = .error e ∧ s₁.WaitBroken v pid gs w e) ∧
      (s'.step pid = s' → p.status.isStopped = true ∨
        (timeout = none ∧ s'.Serving pid (.waiting w :: gs)) ∨
        (p.status = .normal ∧ p.Lacks w ∧ p.Delivered ∧
          ∀ d, w.deadline = some d → s'.now < d) ∧ timeout ≠ some (.millis 0)) ∧
      (∀ b, p.context? = some ⟨gs, .loop (.waitAny w), b⟩ →
        (p.status.isExited = true →
          (s'.step pid).context? pid = some ⟨gs, .reply (.error .mustExit), m⟩) ∧
        (p.status = .normal → ¬ p.Lacks w → ∃ info,
          (s'.step pid).context? pid = some ⟨gs, .reply (.ok (.taken (some info))), m⟩) ∧
        (p.status = .normal → p.Lacks w → ¬ p.Delivered →
          (timeout = none → (s'.step pid).context? pid =
            some ⟨.waiting w :: gs, .loop (.check false), m ∪ w.set⟩) ∧
          (timeout ≠ none →
            (s'.step pid).context? pid = some ⟨gs, .reply (.error .intr), m⟩)) ∧
        (p.status = .normal → p.Lacks w → p.Delivered → ∀ d, w.deadline = some d → d ≤ s'.now →
          (s'.step pid).context? pid = some ⟨gs, .reply (.ok (.taken none)), m⟩)) ∧
      (∀ l b, p.context? = some ⟨gs, .blocked (.waitAny w) l, b⟩ → s'.step pid ≠ s' →
        (s'.step pid).context? pid = some ⟨gs, .loop (.waitAny w), b⟩ ∨
          (s'.step pid).context? pid = some ⟨gs, .reply (.ok (.taken none)), m⟩) ∧
      (∀ c b, p.context? = some ⟨.waiting w :: gs, c, b⟩ → b = m ∪ w.set ∧
        ∀ v, c = .reply (.ok v) →
          (s'.step pid).context? pid = some ⟨gs, .loop (.waitAny w), b⟩) ∧
      ∀ sig ∈ w.set, (s'.letsIn pid sig = true → s'.Serving pid (.waiting w :: gs)) ∧
        (Relation.ReflTransGen (WaitsShut pid gs w sig) s₁ s' →
          ∀ move, Abstains pid sig s₁ (s'.move move)) := by
  intro gs w s₁
  have hf := hostsWait_of_wait? hs.sound hx hc
  obtain ⟨p₁, hy⟩ := above_of_wait? hs.sound hx hc
  have hr : Reachable s₁ := hs.move (.process pid)
  have hm : w.saved \ .uncatchable = m := (hs.sound.contexts pid _ hx).blockable
  have hbounded : w.bounded = false ↔ timeout = none := by
    cases timeout <;> simp [w, AnyWait.start]
  have hstart : ∀ failed, Context.WaitPhase f w (m ∪ w.set) failed p₁
      ⟨[f], .loop (.waitAny w), m ∪ w.set⟩ := fun _ => Context.waitPhase_of_loop? hf rfl
  refine ⟨hy.context?, fun s' hrun => ?_⟩
  have hr' := hrun.reachable hr
  obtain ⟨p, y, hy', hphase⟩ := waitPhase_run hf hr hy hstart hrun
  refine ⟨p, hy'.process, fun move => ?_, wait_soonOver hf hr hy hstart hrun,
    fun he v r m' => ended_of_wait hf hr hy hstart hrun hy'.process he, fun hstay => ?_,
    fun b hx' => ?_, fun l b hx' hgo => ?_, fun c b hx' => ?_, fun sig hsig => ?_⟩
  · have hmove := waits_or_ends hf hr' hy' hphase (fun e he => ⟨s', hrun, .refl, he⟩) move
    rw [hm, hbounded] at hmove
    refine hmove.imp_right fun ⟨hown, q, hq, hover⟩ => ⟨hown, q, hq, hover.imp_right
      fun ⟨hnone, hqx⟩ => ⟨hnone, ?_, hqx⟩⟩
    exact panicked_of_wait hr hy (by simp) hrun (inWait_of_phase hy' hphase)
      (context?_eq_some.2 ⟨q, hq, hqx⟩)
  · have hnot := not_isRunnable_of_step hr'.sound hy'.process hstay
    rcases rest_of_wait hr' hy' hphase hnot with hst | ⟨hb, hserving⟩ | ⟨hn, hl, hd, hlate⟩
    · exact .inl hst
    · exact .inr (.inl ⟨hbounded.1 hb, hserving⟩)
    · refine .inr (.inr ⟨⟨hn, hl, hd, hlate⟩, ?_⟩)
      rintro rfl
      have hbegun : s.now ≤ s₁.now := now_le_move hs.sound (.process pid)
      have hsince := hrun.now_le hr
      have hnow := hlate (s.now + 0) rfl
      omega
  · obtain rfl := blocked_of_looking hy' hphase hf hx'
    obtain ⟨hnext, hturn⟩ := turn_of_wait hr' hy'.process hx'
    rw [hnext]
    refine ⟨fun he => hm ▸ hturn.of_isExited he, fun hn hl => hm ▸ hturn.of_not_lacks hn hl,
      fun hn hl hd => ?_, fun hn hl hd d hdeadline hle => hm ▸ hturn.of_late hn hl hd hdeadline hle⟩
    obtain ⟨hserves, hleaves⟩ := hturn.of_not_delivered hn hl hd
    exact ⟨fun hnone => hserves (hbounded.2 hnone), fun hsome => hm ▸ hleaves
      (eq_true_of_ne_false fun hb => hsome (hbounded.1 hb))⟩
  · exact hm ▸ wakes_of_wait hr'.sound hy'.process hx' hgo
  · obtain rfl : b = m ∪ w.set := blocked_of_waiting hr' hy' hphase hf hx'
    refine ⟨rfl, ?_⟩
    rintro v rfl
    exact context?_step_served hy'.process hx'
  · have hmember : sig ∈ m ∪ w.set := SignalSet.mem_union.2 (.inr hsig)
    have hheld : Context.HeldBack sig w.saved ⟨[f], .loop (.waitAny w), m ∪ w.set⟩ :=
      ⟨hmember, [], Context.saved_of_looks hf rfl, by simp⟩
    exact ⟨serving_of_letsIn hr' hy' hphase,
      fun hshut => abstains_of_shut hf hr hy hstart hheld hshut⟩

/-- **A wait goes on for as long as its process is seen** higher than at its beginning, or looking
or blocked. -/
theorem inWait_of_checks {ok : System → Move → Bool} {moves : List Move} (hs : Reachable s)
    (hx : s.context? pid = some ⟨f :: fs, c, m⟩) (hc : c.wait? = some (set, timeout))
    (hok : ∀ {a move y}, ok a move = true → (a.move move).context? pid = some y →
      (f :: fs).length < y.frames.length ∨ y.control.loop?.isSome = true)
    (h : checks move ok (s.step pid) moves = true) :
    Relation.ReflTransGen (fun a b => (∃ move, b = a.move move ∧ ok a move = true) ∧
      b.InWait pid (f :: fs) (.start set timeout s.now m)) (s.step pid)
      ((s.step pid).run moves) := by
  have hf := hostsWait_of_wait? hs.sound hx hc
  obtain ⟨p, hy⟩ := above_of_wait? hs.sound hx hc
  have hr : Reachable (s.step pid) := hs.move (.process pid)
  have hmoves := reflTransGen_of_checks h
  change Relation.ReflTransGen _ _ ((s.step pid).run moves) at hmoves
  generalize (s.step pid).run moves = v at hmoves ⊢
  induction hmoves with
  | refl => exact .refl
  | @tail u v _ hm ih =>
    obtain ⟨m, rfl, hm⟩ := hm
    refine ih.tail ⟨⟨m, rfl, hm⟩, ?_⟩
    have hu : DuringWait pid (f :: fs) _ (s.step pid) u :=
      ih.lift id fun _ _ ⟨⟨m, he, _⟩, hin⟩ => ⟨⟨m, he⟩, hin⟩
    obtain ⟨q, y, hy', hphase⟩ := waitPhase_run hf hr hy
      (fun _ => Context.waitPhase_of_loop? hf rfl) hu
    rcases waits_or_ends hf (hu.reachable hr) hy' hphase (fun e he => ⟨u, hu, .refl, he⟩) m with
      hin | ⟨rfl, q', hq, hover⟩
    · exact hin
    · -- where it is over, the stack is as high as at the beginning, and nothing loops
      have hback : ∃ c m, q'.context? = some ⟨f :: fs, c, m⟩ ∧ c.loop? = none := by
        rcases hover with ⟨r, hqx, -⟩ | ⟨-, hqx⟩ <;> exact ⟨_, _, hqx, rfl⟩
      obtain ⟨c, m, hqx, hloop⟩ := hback
      rcases hok hm (context?_eq_some.2 ⟨q', hq, hqx⟩) with hlt | hsome
      · exact absurd hlt (Nat.lt_irrefl _)
      · simp [hloop] at hsome

/-- Whether a move leaves a process in a wait that started with `n` frames, and the process does not
let a signal in. -/
def keepsWaiting (pid : Pid) (n : Nat) (sig : Signal) (s : System) (m : Move) : Bool :=
  ((s.move m).context? pid).any (fun x => n < x.frames.length || x.control.loop?.isSome) &&
    !s.letsIn pid sig

theorem waitsShut_of_checks {moves : List Move} (hs : Reachable s)
    (hx : s.context? pid = some ⟨f :: fs, c, m⟩) (hc : c.wait? = some (set, timeout))
    (h : checks move (keepsWaiting pid (fs.length + 1) sig) (s.step pid) moves = true) :
    Relation.ReflTransGen (WaitsShut pid (f :: fs) (.start set timeout s.now m) sig) (s.step pid)
      ((s.step pid).run moves) := by
  refine (inWait_of_checks hs hx hc (fun hok hy => ?_) h).lift id fun a b ⟨⟨m, he, hok⟩, hin⟩ =>
    ⟨⟨m, he, fun _ => by simpa using (Bool.and_eq_true_iff.1 hok).2⟩, hin⟩
  rw [keepsWaiting, hy] at hok
  simpa using (Bool.and_eq_true_iff.1 hok).1

/-- A process with a handler for `usr1` is about to wait for `hup`. -/
def awaitingHup : List Move :=
  [.host (.root "waiter"),
    .host (.command 1 (.perform
      { request := .engine (.changeDisposition .usr1
          (some (.handler { handler := .mk "serves" 1 [] }))) })),
    .process 1, .process 1,
    .host (.command 1 (.perform { request := .system (.sigwait (.single .hup)) })), .process 1]

/-- It is sent `usr1`, and `hup` while its handler runs. -/
def sentBoth : List Move :=
  [Move.process 1, .host (.send 1 (.kernel .usr1))] ++ List.replicate 3 (Move.process 1) ++
    [Move.host (.send 1 (.kernel .hup))] ++ List.replicate 5 (Move.process 1)

theorem awaitingHup_context : (initial.run awaitingHup).context? 1 =
    some ⟨[.callBody (.sigwait (.single .hup)), .main false],
      .execute (.sigwait (.single .hup)), ∅⟩ := by cbv

/-- Up to then `hup` is not let in. -/
theorem sentBoth_shut :
    Relation.ReflTransGen
      (WaitsShut 1 [.callBody (.sigwait (.single .hup)), .main false]
        (.start (.single .hup) none (initial.run awaitingHup).now ∅) .hup)
      ((initial.run awaitingHup).step 1) (((initial.run awaitingHup).step 1).run sentBoth) :=
  waitsShut_of_checks (Reachable.initial.run awaitingHup) awaitingHup_context rfl (by cbv)

theorem sentBoth_takes : ((((initial.run awaitingHup).step 1).run sentBoth).step 1).context? 1 =
    some ⟨[.callBody (.sigwait (.single .hup)), .main false],
      .reply (.ok (.taken (some (.kernel .hup)))), ∅⟩ := by cbv

theorem sentBoth_entries :
    (((initial.run awaitingHup).step 1).run sentBoth).entries 1 .usr1 = 1 := by cbv

/-- **Another signal is handled in place, and the one it waits for is taken then**, though it came
while the handler ran. -/
theorem waits_for_any_of_sentBoth :
    let s := initial.run awaitingHup
    let s' := (s.step 1).run sentBoth
    s'.entries 1 .usr1 = 1 ∧ Abstains 1 .hup (s.step 1) (s'.step 1) ∧
      ∃ p q, s'.process? 1 = some p ∧ (s'.step 1).process? 1 = some q ∧
        Process.Picks (.start (.single .hup) none s.now ∅) (.kernel .hup) p q := by
  intro s s'
  obtain ⟨-, hwait⟩ :=
    waits_for_any (Reachable.initial.run awaitingHup) awaitingHup_context rfl
  obtain ⟨p, hp, hmoves, -, -, -, -, -, -, hheld⟩ :=
    hwait s' (duringWait_of_waitsShut sentBoth_shut)
  obtain ⟨-, habstains⟩ := hheld .hup (by decide)
  refine ⟨sentBoth_entries, habstains sentBoth_shut (.process 1), p, ?_⟩
  rcases hmoves (.process 1) with hin | ⟨-, q, hq, ⟨r, hqx, h⟩ | ⟨-, -, hqx⟩⟩
  · exact absurd hin (not_inWait sentBoth_takes rfl)
  · obtain ⟨-, hc, -⟩ := Context.mk.inj (Option.some.inj
      ((context?_eq_some.2 ⟨q, hq, hqx⟩).symm.trans sentBoth_takes))
    obtain rfl := Control.reply.inj hc
    refine ⟨q, hp, hq, ?_⟩
    cases h with
    | takes hr _ h =>
      cases hr
      exact h
    | ended hr | interrupted hr | expired hr | broken hr => cases hr
  · have := (context?_eq_some.2 ⟨q, hq, hqx⟩).symm.trans sentBoth_takes
    cases this

end System

end PosixSignals
