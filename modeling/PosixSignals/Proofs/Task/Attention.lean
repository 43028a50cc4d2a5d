import PosixSignals.Proofs.Task.Transition

/-!
# Waits for children on the stack

A wait for children calls nothing and runs no handler, so its frame is only
ever on top of the stack, and while it is there nothing goes on but the
wait. Hence its body comes to an answer where it begins or where it looks,
and nowhere else.
-/

namespace PosixSignals

/-- The frame of a wait for children. -/
def Frame.isWait4 : Frame → Bool
  | .callBody (.wait4 ..) => true
  | _ => false

/-- What goes on in a wait for children. -/
def Control.attends : Control → Bool
  | .execute (.wait4 ..) | .loop (.wait4 ..) | .blocked (.wait4 ..) _ | .reply _ => true
  | _ => false

namespace Context

variable {p q : Process} {x y : Context} {f g : Frame} {fs : List Frame} {c c' : Control}
  {m m' : SignalSet} {r : Reply}

/-- **A wait for children is on top of the stack**, and nothing goes on but the wait. -/
structure Attentive (x : Context) : Prop where
  top : TopIs Frame.isWait4 x.frames → x.control.attends = true
  below : ∀ f ∈ x.frames.tail, f.isWait4 = false

theorem attentive_of_idle (hf : x.frames = []) : x.Attentive :=
  ⟨fun h => absurd (hf ▸ h) not_topIs_nil, by simp [hf]⟩

theorem Attentive.not_top (h : Attentive ⟨f :: fs, c, m⟩) : ¬TopIs Frame.isWait4 fs := by
  obtain ⟨-, hbelow⟩ := h
  cases fs with
  | nil => exact not_topIs_nil
  | cons g fs => simp [hbelow g List.mem_cons_self]

/-- None comes up when a frame is left. -/
theorem Attentive.pop (h : Attentive ⟨f :: fs, c, m⟩) : Attentive ⟨fs, c', m'⟩ :=
  ⟨fun ht => absurd ht h.not_top, fun g hg => h.below g (List.mem_of_mem_tail hg)⟩

theorem Attentive.keep (h : Attentive ⟨fs, c, m⟩) (hc : c.attends = true → c'.attends = true) :
    Attentive ⟨fs, c', m'⟩ :=
  ⟨fun ht => hc (h.top ht), h.below⟩

theorem Attentive.swap (h : Attentive ⟨f :: fs, c, m⟩) (hf : g.isWait4 = false) :
    Attentive ⟨g :: fs, c', m'⟩ :=
  ⟨fun ht => by simp [hf] at ht, h.below⟩

theorem Attentive.push (h : Attentive ⟨fs, c, m⟩) (above : List Frame) (hc : c.attends = false)
    (ht : f.isWait4 = true → c'.attends = true) (ha : ∀ g ∈ above, g.isWait4 = false) :
    Attentive ⟨f :: (above ++ fs), c', m'⟩ := by
  refine ⟨fun h => ht (by simpa using h), fun g hg => ?_⟩
  rcases List.mem_append.1 hg with hg | hg
  · exact ha g hg
  · cases fs with
    | nil => cases hg
    | cons k fs =>
      rcases List.mem_cons.1 hg with rfl | hg
      · refine Bool.eq_false_iff.2 fun hk => ?_
        simp [h.top (by simpa using hk)] at hc
      · exact h.below g hg

/-- Of the calls only a wait for children attends. -/
theorem wait4_of_attends (hc : c.isCall = true) (ha : c.attends = true) :
    ∃ selector options, c = .execute (.wait4 selector options) := by
  cases c with
  | execute call => cases call <;> first | exact ⟨_, _, rfl⟩ | simp [Control.attends] at ha
  | _ => simp [Control.attends, Control.isCall] at hc ha

/-- **A wait for children is left alone by whatever goes on**, if it begins as it should. -/
theorem Attentive.step (h : x.Attentive) (hstep : x.Step p q y)
    (hbegin : ∀ selector options, x.control = .execute (.wait4 selector options) →
      y.control.attends = true) : y.Attentive := by
  have hcall : x.control.isCall = true → x.control.attends = true → y.control.attends = true :=
    fun hc ha =>
      have ⟨selector, options, he⟩ := wait4_of_attends hc ha
      hbegin selector options he
  cases hstep with
  | stay => exact h
  | @call fs call m =>
    refine h.push [] rfl (fun ht => ?_) (by simp)
    cases call <;> first | rfl | cases ht
  | deliver => exact h.push [_] rfl (fun ht => by cases ht) (by simp [Frame.isWait4])
  | checkEnter =>
    exact h.push [_, _] rfl (fun ht => by cases ht) (by simp [Frame.isWait4])
  | waitServe | suspendCheck | sleepCheck =>
    exact h.push [] rfl (fun ht => by cases ht) (by simp)
  | failBody | failMain | leave | mainIdle | mainFinish | bodyUnwind | delivered | roundNext
  | roundFail | exitCall | exitError | served | serveFail | suspendOver | suspendBlock | sleepReply
  | sleepBlock | unwind => exact h.pop
  | next | bodyNext | conclude => exact h.swap rfl
  | answer | changeMask | checkExited | checkDone | waitOver | sleepOver | wait4Over | beginWait4 =>
    exact h.keep fun _ => rfl
  | beginSuspend hc | beginWait hc | beginSleep hc => exact h.keep (hcall hc)
  | panic | beginCheck | checkNext | unwound => exact h.keep fun ha => by cases ha
  | @block _ _ l | @wake _ _ l => exact h.keep fun ha => by cases l <;> exact ha

/-- **The body of a wait for children comes to an answer** where it begins, or where it looks. -/
theorem Attentive.origin (h : x.Attentive) (hstep : x.Step p q y)
    (ht : TopIs Frame.isWait4 y.frames) (hr : y.control = .reply r) : y.frames = x.frames ∧
      ((∃ selector options, x.control = .execute (.wait4 selector options)) ∨
        ∃ selector noHang, x.control = .loop (.wait4 selector noHang)) := by
  cases hstep with
  | answer hc => exact ⟨rfl, .inl (wait4_of_attends hc (h.top ht))⟩
  | changeMask hm =>
    exact ⟨rfl, .inl (wait4_of_attends (Control.isCall_of_maskChange? hm) (h.top ht))⟩
  | wait4Over => exact ⟨rfl, .inr ⟨_, _, rfl⟩⟩
  | checkExited | checkDone | sleepOver => cases h.top ht
  | waitOver hc => obtain rfl | ⟨l, rfl⟩ := hc <;> cases h.top ht
  | failBody | leave | bodyUnwind | delivered | roundFail | exitCall | exitError | serveFail
  | suspendOver | sleepReply => exact absurd ht h.not_top
  | stay hc =>
    obtain rfl := hr
    cases hc
  | _ => cases hr

end Context

end PosixSignals
