import PosixSignals.Proofs.Scenario.LastCheck
import PosixSignals.Proofs.Scenario.Wakeup

/-!
# What a wait for children reports

From the start of a `wait4` to its return the call looks for a child that is a
zombie, blocks, or holds what it has found while its last check point lasts.
What it has found is a child on the caller's list together with the wait
status that this child had as a zombie, so if the call returns a child at all
it returns that one, with that wait status.
-/

namespace PosixSignals

namespace System

variable {s s' a : System} {pid child : Pid} {p q : Process} {w : WaitStatus} {fs : List Frame}
  {selector : Int} {options : BitVec 32} {m m' : SignalSet} {x y : Context} {src : Source}
  {found : Pid → WaitStatus → Prop}

/-- **A child can be reaped**: it is on the list of the process, and a zombie with this wait
status. -/
def Reapable (s : System) (pid child : Pid) (w : WaitStatus) : Prop :=
  ∃ p c, s.process? pid = some p ∧ child ∈ p.children ∧ s.process? child = some c ∧
    c.status = .zombie w

/-- What a wait comes to names no child, or one that was found. -/
def Tells (found : Pid → WaitStatus → Prop) (r : Reply) : Prop :=
  ∀ child w, r = .ok (.child child w) → (child = 0 ∧ w = 0) ∨ found child w

theorem tells_error (e : Errno) : Tells found (.error e) := fun _ _ h => by cases h

/-- **Where a wait for children is** between its start and its end. -/
inductive Seeks (found : Pid → WaitStatus → Prop) (selector : Int) (options : BitVec 32)
    (p : Process) : Context → Prop
  | starts {m : SignalSet} : Seeks found selector options p
      ⟨[.callBody (.wait4 selector options)], .execute (.wait4 selector options), m⟩
  | looks {noHang : Bool} {m : SignalSet} : Seeks found selector options p
      ⟨[.callBody (.wait4 selector options)], .loop (.wait4 selector noHang), m⟩
  | blocked {noHang : Bool} {l : Listener} {m : SignalSet} : Seeks found selector options p
      ⟨[.callBody (.wait4 selector options)], .blocked (.wait4 selector noHang) l, m⟩
  | comes {r : Reply} {m : SignalSet} (hr : Tells found r) : Seeks found selector options p
      ⟨[.callBody (.wait4 selector options)], .reply r, m⟩
  | checks {y : Context} {r : Reply} (hr : Tells found r)
      (h : y.LastCheck (fun _ => True) r p) : Seeks found selector options p y

theorem Seeks.disturbed (h : Seeks found selector options p y) (hd : p.Disturbed q) :
    Seeks found selector options q y := by
  cases h with
  | starts => exact .starts
  | looks => exact .looks
  | blocked => exact .blocked
  | comes hr => exact .comes hr
  | checks hr h => exact .checks hr (h.disturbed hd)

/-! ## A turn of the wait -/

/-- The body of the call is refused, or begins to look. -/
theorem control_of_wait4 (hx : (p.wait4 selector options).1.context? = some x) :
    (∃ e, e ≠ .mustExit ∧ x.control = .reply (.error e)) ∨
      ∃ noHang, x.control = .loop (.wait4 selector noHang) := by
  unfold Process.wait4 at hx
  split at hx
  · exact .inl ⟨.inval, by simp, Process.control_of_goto hx⟩
  split at hx
  · exact .inl ⟨.inval, by simp, Process.control_of_goto hx⟩
  split at hx
  · exact .inl ⟨.unsupported, by simp, Process.control_of_goto hx⟩
  · exact .inr ⟨_, Process.control_of_goto hx⟩

/-- **One look at the children** blocks, or comes to what there is; it comes to `BREAK` only
in a process that has ended. -/
theorem control_of_look {noHang : Bool} (ho : s.Ordered) (hp : s.process? pid = some p)
    (ht : p.task ≠ none)
    (hq : (s.wait4 src pid p selector noHang).process? pid = some q) (hx : q.context? = some x) :
    (∃ l, x.control = .blocked (.wait4 selector noHang) l) ∨
      ∃ r, x.control = .reply r ∧ Tells (s.Reapable pid) r ∧
        (mustExit r = true → p.status.isExited = true) := by
  have hanswer : ∀ r, Tells (s.Reapable pid) r → (mustExit r = true → p.status.isExited = true) →
      (s.answer pid r).process? pid = some q → ∃ r, x.control = .reply r ∧
        Tells (s.Reapable pid) r ∧ (mustExit r = true → p.status.isExited = true) :=
    fun r hr hm hq => ⟨r, context?_of_answer hq hx, hr, hm⟩
  have hglance := s.glance src pid p selector noHang
  generalize s.wait4 src pid p selector noHang = s' at hglance hq
  cases hglance with
  | failed hr =>
    simp only [error_of_ready? hr] at hq
    exact .inr (hanswer _ (tells_error _) (by simp [mustExit]) hq)
  | reaped hr =>
    obtain ⟨hmem, c, hc, hst⟩ := ready?_eq_some hr
    refine .inr ⟨_, context?_of_reap ho hp ht hq hx, fun child' w' he => .inr ?_,
      by simp [mustExit]⟩
    cases he
    exact ⟨p, c, hp, mem_of_mem_selected hmem, hc, hst⟩
  | hurried =>
    refine .inr (hanswer _ (fun child' w' he => ?_) (by simp [mustExit]) hq)
    cases he
    exact .inl ⟨rfl, rfl⟩
  | left _ _ he => exact .inr (hanswer _ (tells_error _) (fun _ => he) hq)
  | interrupted => exact .inr (hanswer _ (tells_error _) (by simp [mustExit]) hq)
  | blocked =>
    obtain rfl := eq_of_process?_act hp hq
    exact .inl ⟨_, Process.control_of_goto hx⟩

/-- What concerns others goes on where it is. -/
theorem frames_of_isShared (h : Context.Step p q x y) (hc : x.control.isShared = true) :
    y.frames = x.frames := by
  cases h with
  | stay hr => rfl
  | answer | changeMask | beginSuspend | beginWait | beginSleep | beginWait4 | wait4Over | block =>
    rfl
  | waitOver hw => rfl
  | _ => simp [Control.isShared] at hc

/-- **A step of the wait.** -/
theorem Seeks.step {y' : Context} (h : Seeks found selector options p y) (hs : s.Sound)
    (hy : s.Above pid fs p y) (hfound : ∀ child w, s.Reapable pid child w → found child w)
    (hown : (s.step pid).OwnMove pid fs p q y y') (hne : y'.frames ≠ []) :
    Seeks found selector options q y' := by
  obtain ⟨root, ht, -⟩ := Process.context?_eq_some.1 hy.context
  have hq := hown.process
  obtain ⟨frames, c, mask⟩ := y'
  cases h with
  | starts =>
    obtain rfl := frames_of_isShared hown.step rfl
    rw [step_of_execute hy.process ht rfl] at hq
    obtain rfl := eq_of_process?_act (f := (·.wait4 selector options)) hy.process hq
    obtain ⟨e, -, rfl⟩ | ⟨noHang, rfl⟩ := control_of_wait4 hown.context
    · exact .comes (tells_error e)
    · exact .looks
  | looks =>
    obtain rfl := frames_of_isShared hown.step rfl
    rw [step_of_wait4 hy.process ht rfl] at hq
    obtain ⟨l, rfl⟩ | ⟨r, rfl, hr, -⟩ :=
      control_of_look hs.ordered hy.process (by simp [ht]) hq hown.context
    · exact .blocked
    · exact .comes fun child w he => (hr child w he).imp_right (hfound child w)
  | blocked =>
    cases hown.step with
    | stay => exact .blocked
    | wake => exact .looks
    | answer hc => simp [Control.isCall] at hc
    | changeMask hc => simp [Control.maskChange?] at hc
    | beginSuspend hc | beginWait hc | beginSleep hc => simp [Control.isCall] at hc
    | waitOver hc => simp at hc
  | comes hr =>
    obtain ⟨rfl, rfl, rfl⟩ := Context.mk.inj hown.step.of_concluded
    exact .checks hr Context.lastCheck_of_loop
  | checks hr h => exact .checks hr (h.step hy hs (fun _ _ => trivial) hown hne)

/-- **A move during the wait.** -/
theorem seeks_move (h : Seeks found selector options p y) (hs : s.Sound)
    (hy : s.Above pid fs p y) (hfound : ∀ child w, s.Reapable pid child w → found child w)
    {mv : Move} (hd : (s.move mv).Deep pid fs.length) :
    ∃ q y', (s.move mv).Above pid fs q y' ∧ Seeks found selector options q y' := by
  rcases hy.move hs mv with ⟨rfl, q, y', hown⟩ | ⟨-, q, hq, hdist⟩
  · have hy' := hown.above hd
    exact ⟨q, y', hy', h.step hs hy hfound hown hy'.nonempty⟩
  · exact ⟨q, y, hq, h.disturbed hdist⟩

/-- **What a wait for children reports** is a child that it found on the caller's list, and the
wait status that this child had as a zombie. The moments while the wait lasts may be told
apart by more than the state they leave the system in. -/
theorem reported_of_wait4 {σ : Type} (view : σ → System) {R : σ → σ → Prop} {b e : σ}
    (hR : ∀ u u', R u u' → (∃ m, view u' = (view u).move m) ∧ (view u').Deep pid fs.length)
    (ha : Reachable a) (hb : view b = a.step pid)
    (hcall : a.context? pid = some ⟨fs, .perform (.system (.wait4 selector options)), m⟩)
    (hrun : Relation.ReflTransGen R b e)
    (hret : ((view e).step pid).context? pid = some ⟨fs, .reply (.ok (.child child w)), m'⟩) :
    (child = 0 ∧ w = 0) ∨ ∃ u, Relation.ReflTransGen R b u ∧ Relation.ReflTransGen R u e ∧
      (view u).Reapable pid child w := by
  let found (child : Pid) (w : WaitStatus) : Prop := ∃ u, Relation.ReflTransGen R b u ∧
    Relation.ReflTransGen R u e ∧ (view u).Reapable pid child w
  -- by induction on the run so far, with the rest of it up to `e` carried along
  have hinv : ∀ u, Relation.ReflTransGen R b u → Relation.ReflTransGen R u e →
      Reachable (view u) ∧ ∃ p y, (view u).Above pid fs p y ∧ Seeks found selector options p y := by
    intro u hu
    induction hu with
    | refl =>
      intro _
      obtain ⟨p, hp⟩ := above_of_call ha hcall
      rw [hb]
      exact ⟨ha.move (.process pid), p, _, hp, .starts⟩
    | @tail u u' hu hm ih =>
      intro he
      obtain ⟨hr, p, y, hy, hseeks⟩ := ih (.head hm he)
      obtain ⟨⟨mv, hmove⟩, hd⟩ := hR u u' hm
      rw [hmove] at hd ⊢
      exact ⟨hr.move mv, seeks_move hseeks hr.sound hy
        (fun child w hreap => ⟨u, hu, .head hm he, hreap⟩) hd⟩
  obtain ⟨hr, p, y, hy, hseeks⟩ := hinv e hrun .refl
  obtain ⟨q, hown⟩ := hy.leave hr.sound hret
  cases hseeks with
  | checks hr' h =>
    obtain ⟨-, -, -, ⟨he, -⟩ | ⟨e, he, -⟩⟩ := lastCheck_return hr.sound hy h hret
    · exact hr' child w he.symm
    · cases he
  -- anywhere else the frame of the call is still on the stack
  | starts | looks => cases frames_of_isShared hown.step rfl
  | blocked => cases hown.step
  | comes hr => cases hown.step.of_concluded

end System

end PosixSignals
