import PosixSignals.Proofs.Scenario.Calls

/-!
# Mask discipline

However deeply handlers and waits nest during a call, the mask on return
is the mask at the call, unless the call itself changes it. The invariant
is the mask that would be in force if everything above the frame of the
call were left at once: the outermost of the masks saved there, or the one
in force if none is. A step saves the mask in force or puts the last one
back, and neither changes the outermost; and what changes the mask in
force stands above a saved one, except in the first step of the call.
-/

namespace PosixSignals

namespace Context

variable {p q : Process} {x x' y y' : Context} {f : Frame} {above fs : List Frame}

/-- The mask in force after every saved mask has been put back. -/
def restored (x : Context) : SignalSet := x.saved.foldl (fun _ mask => mask) x.blocked

/-- With a mask saved, the one in force does not matter. -/
theorem restored_congr (hs : x'.saved = x.saved) (h : x.saved ≠ []) :
    x'.restored = x.restored := by
  obtain ⟨mask, masks, he⟩ := List.exists_cons_of_ne_nil h
  simp [restored, hs, he]

/-- **Saving and putting back do not change what is restored in the end.** -/
theorem MaskStep.restored_eq (h : MaskStep x x') (hb : ∀ m ∈ x.saved, m.Blockable)
    (hc : x.control.maskChange? = none ∨ x.saved ≠ []) : x'.restored = x.restored := by
  cases h with
  | kept _ hm hs => simp [restored, hm, hs]
  | widened _ _ _ hs | replaced _ _ _ _ hs => simp [restored, hs]
  | putBack mask _ hm hs =>
    have hmask : mask \ .uncatchable = mask := hb mask (by simp [hs])
    simp [restored, hm, hs, hmask]
  | changed _ _ hm _ hs =>
    refine restored_congr hs (hc.resolve_left fun hn => ?_)
    simp [hn] at hm

/-- With no mask saved, a change of mask is what is restored in the end. -/
theorem MaskStep.restored_of_change (h : MaskStep x x') {how : MaskChange} {set : SignalSet}
    (hc : x.control.maskChange? = some (how, set)) (hs : x.saved = []) :
    x'.restored = how.apply x.blocked set \ .uncatchable := by
  cases h with
  | kept hn | widened _ hn | replaced _ hn | putBack _ hn => simp [hn] at hc
  | changed how' set' hm hb hs' =>
    obtain ⟨rfl, rfl⟩ : how' = how ∧ set' = set := by simpa [hm] using hc
    simp [restored, hs', hs, hb]

/-- A call that is at its own frame does not start once more. -/
theorem Step.maskChange?_eq_none (h : Step p q y y') (hne : y.frames ≠ [])
    (hf : f.isCall = true) (hfs : y'.frames = [f]) : y'.control.maskChange? = none := by
  cases h with
  | stay hr => exact Control.maskChange?_of_isResting hr
  | call => exact absurd (List.cons.inj hfs).2 hne
  | next =>
    obtain rfl := (List.cons.inj hfs).1
    simp [Frame.isCall] at hf
  | _ => rfl

/-- The mask on return from a call made under the mask `m`. -/
def maskAfter (call : SystemCall Handler) (m : SignalSet) : SignalSet :=
  match (Control.execute call).maskChange? with
  | some (how, set) => how.apply m set \ .uncatchable
  | none => m

theorem maskAfter_of_ne {call : SystemCall Handler} {m : SignalSet}
    (h : ∀ how set change, call = .sigprocmask how (some set) →
      MaskChange.ofNumber? how ≠ some change) : maskAfter call m = m := by
  unfold maskAfter
  cases hc : (Control.execute call).maskChange? with
  | none => rfl
  | some change =>
    unfold Control.maskChange? at hc
    split at hc
    · next how set hcall =>
      obtain ⟨change', hh, -⟩ := Option.map_eq_some_iff.1 hc
      exact absurd hh (h how set change' (Control.execute.inj hcall))
    · next hcall => cases hcall
    · simp at hc

/-- **During a call**: it is about to start, or what is restored in the end is
the mask on return. -/
inductive MaskPhase (call : SystemCall Handler) (m : SignalSet) (y : Context) : Prop
  | begins (hy : y = ⟨[.callBody call], .execute call, m⟩)
  | goes (above : List Frame) (f : Frame) (hfs : y.frames = above ++ [f]) (hf : f.isCall = true)
      (hc : above = [] → y.control.maskChange? = none) (hr : y.restored = maskAfter call m)

theorem MaskPhase.ne_nil {call : SystemCall Handler} {m : SignalSet} (h : MaskPhase call m y) :
    y.frames ≠ [] := by
  cases h with
  | begins hy => simp [hy]
  | goes above f hfs => simp [hfs]

theorem maskPhase_of_restored {call : SystemCall Handler} {m : SignalSet} (h : Step p q y y')
    (hne : y.frames ≠ []) (hr : y'.restored = maskAfter call m) (hf : f.isCall = true)
    (hfs : y'.frames = above ++ [f]) : MaskPhase call m y' := by
  refine .goes above f hfs hf (fun ha => ?_) hr
  exact h.maskChange?_eq_none hne hf (by simpa [ha] using hfs)

/-- **A step of the call**, or of anything above it, keeps the phase, and leaves
the mask on return if it leaves the call. -/
theorem MaskPhase.step {call : SystemCall Handler} {m : SignalSet} (hy : MaskPhase call m y)
    (hs : Sound ⟨y.frames ++ fs, y.control, y.blocked⟩) (h : Step p q y y') :
    (y'.frames = [] ∧ y'.blocked = maskAfter call m) ∨ MaskPhase call m y' := by
  have hblockable : ∀ mask ∈ y.saved, mask.Blockable := fun mask hm =>
    hs.savedBlockable mask (by
      simp only [saved, List.filterMap_append, ← List.append_assoc]
      exact List.mem_append_left _ hm)
  have hphase : ∀ {above f}, y.frames = above ++ [f] → f.isCall = true →
      y'.restored = maskAfter call m →
      (y'.frames = [] ∧ y'.blocked = maskAfter call m) ∨ MaskPhase call m y' := by
    intro above f hfs hf hr
    obtain ⟨frames, c, mask⟩ := y
    obtain rfl : frames = above ++ [f] := hfs
    -- the frame of the call is left, or it stays, or its body comes to a result
    rcases h.bottom hf with ⟨he, hn⟩ | ⟨above', he⟩ | ⟨call', r, rfl, rfl, rfl, rfl⟩
    · exact .inl ⟨he, by simpa [restored, hn] using hr⟩
    · exact .inr (maskPhase_of_restored h (by simp) hr hf he)
    · exact .inr (maskPhase_of_restored h (by simp) hr rfl (List.nil_append _).symm)
  cases hy with
  | begins hy =>
    subst hy
    -- nothing is saved yet, so the first step decides what is restored in the end
    have hnone : saved ⟨[.callBody call], .execute call, m⟩ = [] := rfl
    have hr : y'.restored = maskAfter call m := by
      cases hc : (Control.execute call).maskChange? with
      | none =>
        rw [h.maskStep.restored_eq hblockable (.inl hc)]
        simp [maskAfter, hc, restored, hnone]
      | some change =>
        obtain ⟨how, set⟩ := change
        rw [h.maskStep.restored_of_change hc hnone]
        simp [maskAfter, hc]
    exact hphase (show _ = [] ++ [_] from rfl) rfl hr
  | goes above f hfs hf hc hr =>
    have hr' : y'.restored = maskAfter call m := by
      rw [h.maskStep.restored_eq hblockable ?_, hr]
      by_cases hab : above = []
      · exact .inl (hc hab)
      by_cases hm : y.control.maskChange? = none
      · exact .inl hm
      -- what changes the mask is a call, and above another call that has a saved mask under it
      obtain ⟨change, hm⟩ := Option.ne_none_iff_exists'.1 hm
      have hst : Stacked (above ++ f :: fs) := by simpa [hfs] using hs.stacked
      have hfit : y.control.Fits (above ++ f :: fs) := by simpa [hfs] using hs.fits
      have hsaved := saved_of_isCall hst (Control.isCall_of_maskChange? hm) hfit
        (Frame.not_isRoutine_of_isCall hf) hab
      refine .inr fun he => hsaved ?_
      simp only [saved, hfs, List.filterMap_append, List.append_eq_nil_iff] at he
      exact he.2.1
    exact hphase hfs hf hr'

end Context

namespace System

variable {s₀ s : System} {pid : Pid} {fs : List Frame} {call : SystemCall Handler}
  {m m' : SignalSet} {c : Control}

/-- While a call lasts, so does its phase. -/
theorem maskPhase_of_execute (h₀ : Reachable s₀)
    (hx : s₀.context? pid = some ⟨.callBody call :: fs, .execute call, m⟩)
    (hrun : During pid fs.length s₀ s) :
    Reachable s ∧ ∃ p y, s.Above pid fs p y ∧ y.MaskPhase call m := by
  induction hrun with
  | refl =>
    obtain ⟨p, hp⟩ := above_of_context?
      (show s₀.context? pid = some ⟨.callBody call :: [] ++ fs, _, _⟩ from hx)
    exact ⟨h₀, p, _, hp, .begins rfl⟩
  | tail _ hm ih =>
    obtain ⟨hs, p, y, hy, hphase⟩ := ih
    obtain ⟨⟨m, rfl⟩, hd⟩ := hm
    refine ⟨hs.move m, ?_⟩
    rcases hy.move hs.sound m with ⟨-, q, y', hown⟩ | ⟨-, q, hq, -⟩
    · have hy' := hown.above hd
      rcases hphase.step (hy.sound hs.sound) hown.step with ⟨he, -⟩ | hphase'
      · exact absurd he hy'.nonempty
      · exact ⟨q, y', hy', hphase'⟩
    · exact ⟨q, y, hq, hphase⟩

theorem During.maskPhase (h₀ : Reachable s₀)
    (hcall : s₀.context? pid = some ⟨fs, .perform (.system call), m⟩)
    (hrun : During pid fs.length (s₀.step pid) s) :
    Reachable s ∧ ∃ p y, s.Above pid fs p y ∧ y.MaskPhase call m := by
  obtain ⟨p, hp⟩ := above_of_call h₀ hcall
  exact maskPhase_of_execute (h₀.move (.process pid)) hp.context? hrun

/-- **Mask discipline.** A process makes a system call under the mask `m`, and
after a run of any moves during which the call lasts, one more step leaves
it, by a return or by unwinding. Then the mask is bit for bit `m` again,
whatever handlers ran meanwhile and whatever they did to it; but for
`sigprocmask` with a valid `how` and a set, for which it is exactly the mask
the call asks for, less `kill` and `stop`. -/
theorem mask_on_return (h₀ : Reachable s₀)
    (hcall : s₀.context? pid = some ⟨fs, .perform (.system call), m⟩)
    (hrun : During pid fs.length (s₀.step pid) s)
    (hret : (s.step pid).context? pid = some ⟨fs, c, m'⟩) :
    (∀ how set change, call = .sigprocmask how (some set) →
        MaskChange.ofNumber? how = some change →
        m' = change.apply m set \ .uncatchable) ∧
      ((∀ how set change, call = .sigprocmask how (some set) →
        MaskChange.ofNumber? how ≠ some change) → m' = m) := by
  obtain ⟨hs, p, y, hy, hphase⟩ := During.maskPhase h₀ hcall hrun
  obtain ⟨q, hown⟩ := hy.leave hs.sound hret
  have hr : m' = Context.maskAfter call m := by
    rcases hphase.step (hy.sound hs.sound) hown.step with ⟨-, hr⟩ | hphase'
    · exact hr
    · exact absurd rfl hphase'.ne_nil
  constructor
  · rintro how set change rfl hh
    simp [hr, Context.maskAfter, Control.maskChange?, hh]
  · intro hno
    rw [hr, Context.maskAfter_of_ne hno]

/-- A process that blocks `hup` and suspends under the empty mask; its handler
for `usr1` blocks everything it can. -/
def suspending : List Move :=
  let handler : Handler := .mk "greedy" 1 [{ request := .system (.sigprocmask 2 (some .full)) }]
  [Move.host (.root "sleeper"),
    .host (.command 1 (.perform
      { request := .engine (.changeDisposition .usr1 (some (.handler { handler }))) })),
    .process 1, .process 1,
    .host (.command 1 (.perform { request := .engine (.changeMask .block (.single .hup)) })),
    .process 1, .process 1,
    .host (.command 1 (.perform { request := .system (.sigsuspend ∅) }))]

/-- It blocks, is sent the signal, runs the handler and ends the suspension. -/
def interrupted : List Move :=
  List.replicate 5 (Move.process 1) ++ .host (.send 1 (.user .usr1 0)) ::
    List.replicate 17 (Move.process 1)

/-- **The suspension returns under the mask it was made under.** -/
theorem mask_on_return_of_suspension :
    let s₀ := initial.run suspending
    let s := (s₀.step 1).run interrupted
    s₀.context? 1 = some ⟨[.main false], .perform (.system (.sigsuspend ∅)), .single .hup⟩ ∧
      During 1 1 (s₀.step 1) s ∧
      ∃ m', (s.step 1).context? 1 = some ⟨[.main false], .reply (.ok .done), m'⟩ ∧
        m' = .single .hup := by
  have h₀ : Reachable (initial.run suspending) := Reachable.initial.run suspending
  have hcall : (initial.run suspending).context? 1 =
      some ⟨[.main false], .perform (.system (.sigsuspend ∅)), .single .hup⟩ := by cbv
  have hrun : During 1 1 ((initial.run suspending).step 1)
      (((initial.run suspending).step 1).run interrupted) := during_of_checks (by cbv)
  exact ⟨hcall, hrun, _, by cbv, (mask_on_return h₀ hcall hrun (by cbv)).2 (by simp)⟩

end System

end PosixSignals
