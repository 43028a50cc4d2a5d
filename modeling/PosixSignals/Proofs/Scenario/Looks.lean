import PosixSignals.Proofs.Scenario.Groups
import PosixSignals.Proofs.Scenario.Numbers
import PosixSignals.Proofs.Scenario.Reaping
import PosixSignals.Proofs.System.Seniority
import PosixSignals.Proofs.Task.Attention

/-!
# A look at the children

A wait for children is a loop, and one turn of it is a look: at the children
that the call selects, in the order of their births. What the look comes to
depends on whether there is such a child, whether one is dead, and only then
on how patient the call is, whether the process has ended and whether
something is to be delivered. A call looks only if its arguments are valid.
-/

namespace PosixSignals

/-- The arguments of a wait for children are valid, and this is how patient it is. -/
def Admits (selector : Int) (options : BitVec 32) (noHang : Bool) : Prop :=
  (selector = -1 ∨ 0 < selector) ∧
    ∃ o, WaitOptions.ofWord? options = some o ∧ o.unsupported = false ∧ noHang = o.noHang

/-- **A wait for children is on top of the stack**, and one that its call may make. -/
structure Context.Posed (x : Context) : Prop extends x.Attentive where
  asked : ∀ selector noHang, (x.control = .loop (.wait4 selector noHang) ∨
      ∃ l, x.control = .blocked (.wait4 selector noHang) l) →
    ∃ options fs, x.frames = .callBody (.wait4 selector options) :: fs ∧
      Admits selector options noHang

namespace System

variable {s s' : System} {pid c : Pid} {p q : Process} {selector : Int} {options : BitVec 32}
  {noHang : Bool} {w : WaitStatus} {x y : Context} {r : Reply} {m : Move}

/-! ## The arguments -/

/-- **The body of the call refuses what is not valid**, and else begins to look. -/
theorem wait4_cases_of_arguments (p : Process) (selector : Int) (options : BitVec 32) :
    (∃ noHang, Admits selector options noHang ∧
      (p.wait4 selector options).1 = p.goto (.loop (.wait4 selector noHang))) ∨
    (∀ noHang, ¬Admits selector options noHang) ∧ ∃ e, (e = .inval ∨ e = .unsupported) ∧
      (p.wait4 selector options).1 = p.answer (.error e) := by
  unfold Process.wait4
  split
  · next hsel =>
    exact .inr ⟨fun _ h => by have := h.1; omega, .inval, .inl rfl, rfl⟩
  next hsel =>
  cases ho : WaitOptions.ofWord? options with
  | none => exact .inr ⟨fun _ ⟨_, o, h, _⟩ => by simp [ho] at h, .inval, .inl rfl, rfl⟩
  | some o =>
    cases hu : o.unsupported with
    | false =>
      refine .inl ⟨o.noHang, ⟨by omega, o, ho, hu, rfl⟩, ?_⟩
      simp [hu]
    | true =>
      refine .inr ⟨fun _ ⟨_, o', h, hu', _⟩ => ?_, .unsupported, .inr rfl, by simp [hu]; rfl⟩
      obtain rfl := Option.some.inj (ho.symm.trans h)
      simp [hu] at hu'

/-- **Where the body of the call begins**, it begins to look, or it is refused. -/
theorem begins_of_step (hp : s.process? pid = some p) (hx : p.context? = some x)
    (hc : x.control = .execute (.wait4 selector options))
    (hy : (s.step pid).context? pid = some y) :
    (∃ noHang, Admits selector options noHang ∧ y.control = .loop (.wait4 selector noHang)) ∨
      (∀ noHang, ¬Admits selector options noHang) ∧ ∃ e, (e = .inval ∨ e = .unsupported) ∧
        y.control = .reply (.error e) := by
  obtain ⟨root, ht, -⟩ := Process.context?_eq_some.1 hx
  obtain ⟨q, hq, hqy⟩ := context?_eq_some.1 hy
  rw [step_of_execute hp ht hc] at hq
  obtain rfl := eq_of_process?_act (f := (·.wait4 selector options)) hp hq
  rcases wait4_cases_of_arguments p selector options with ⟨noHang, ha, he⟩ | ⟨hnot, e, hor, he⟩
  · exact .inl ⟨noHang, ha, Process.control_of_goto (he ▸ hqy)⟩
  · exact .inr ⟨hnot, e, hor, Process.control_of_goto (he ▸ hqy)⟩

/-- A wait that comes up in a step was there before, or the call has just begun. -/
theorem posed_of_step (h : x.Posed) (hfits : x.control.Fits x.frames) (hstep : x.Step p q y)
    (hbegin : ∀ selector options, x.control = .execute (.wait4 selector options) →
      (∃ noHang, Admits selector options noHang ∧ y.control = .loop (.wait4 selector noHang)) ∨
        ∃ r, y.control = .reply r) : y.Posed := by
  refine ⟨h.toAttentive.step hstep fun selector options hc => ?_, fun selector noHang hy => ?_⟩
  · obtain ⟨noHang, -, he⟩ | ⟨r, he⟩ := hbegin selector options hc <;> rw [he] <;> rfl
  cases hstep with
  | stay => exact h.asked selector noHang hy
  | block =>
    obtain hl | ⟨l, hl⟩ := hy
    · cases hl
    · obtain ⟨rfl, -⟩ := Control.blocked.inj hl
      exact h.asked selector noHang (.inl rfl)
  | wake =>
    obtain hl | ⟨l, hl⟩ := hy
    · obtain rfl := Control.loop.inj hl
      exact h.asked selector noHang (.inr ⟨_, rfl⟩)
    · cases hl
  | beginWait4 =>
    obtain hl | ⟨l, hl⟩ := hy
    · obtain ⟨noHang', ha, he⟩ | ⟨r, he⟩ := hbegin _ _ rfl
      · obtain ⟨rfl, rfl⟩ := Loop.wait4.inj (Control.loop.inj (he.symm.trans hl))
        obtain ⟨fs, hfs⟩ := List.head?_eq_some_iff.1 (show List.head? _ = some _ from hfits)
        exact ⟨_, fs, hfs, ha⟩
      · cases he
    · cases hl
  | _ => obtain hl | ⟨l, hl⟩ := hy <;> cases hl

/-- **Where the context of a process comes from**: it was there before, it is that of a process
that is in the midst of nothing, its main routine was told what to do, or it is a step. -/
theorem context_of_move (hs : s.Sound) (hy : (s.move m).context? pid = some y) :
    s.context? pid = some y ∨ (y.frames = [] ∧ y.control = .idle) ∨
      (∃ x, s.context? pid = some x ∧ Told x y) ∨
      m = .process pid ∧ ∃ p q x, s.process? pid = some p ∧ p.context? = some x ∧ x.Step p q y := by
  by_cases hm : m.actor = some pid
  · cases m with
    | clock t => simp [Move.actor] at hm
    | host step =>
      obtain ⟨c, rfl⟩ := command_of_focusOf hm
      rcases context?_of_command hy with hx | ⟨p, x, hp, hx, htold⟩
      · exact .inl hx
      · exact .inr (.inr (.inl ⟨x, context?_eq_some.2 ⟨p, hp, hx⟩, htold⟩))
    | process pid' =>
      obtain rfl : pid' = pid := Option.some.inj hm
      rcases context_of_step hs hy with ⟨q, -, hqy, hb⟩ | ⟨p, q, x, hp, hx, -, hstep⟩
      · exact .inr (.inl (hb y hqy))
      · exact .inr (.inr (.inr ⟨rfl, p, q, x, hp, hx, hstep⟩))
  · obtain ⟨q, hq, hqy⟩ := context?_eq_some.1 hy
    rcases (spares_of_actor hs hm).known q hq with ⟨p, hp, hd⟩ | hb
    · exact .inl (context?_eq_some.2
        ⟨p, hp, (Process.context?_congr hd.task hd.blocked).symm.trans hqy⟩)
    · exact .inr (.inl (hb y hqy))

theorem posed_of_idle (hf : x.frames = []) (hc : x.control = .idle) : x.Posed :=
  ⟨Context.attentive_of_idle hf, fun selector noHang hl => by
    rw [hc] at hl
    obtain hl | ⟨l, hl⟩ := hl <;> cases hl⟩

/-- A main routine that is told what to do is in no wait yet. -/
theorem posed_of_told (hfits : x.control.Fits x.frames) (h : Told x y) : y.Posed := by
  cases h with
  | @perform fs _ _ _ =>
    obtain rfl : fs = [] := hfits
    exact ⟨⟨fun ht => (by cases ht), by simp⟩, fun selector noHang hl => by
      obtain hl | ⟨l, hl⟩ := hl <;> cases hl⟩
  | finish =>
    exact ⟨Context.attentive_of_idle hfits, fun selector noHang hl => by
      obtain hl | ⟨l, hl⟩ := hl <;> cases hl⟩

/-- **Whoever looks at his children, or waits to, may.** -/
theorem Reachable.posed (h : Reachable s) : ∀ pid x, s.context? pid = some x → x.Posed := by
  induction h with
  | initial =>
    intro pid x hx
    simp [context?, System.initial, System.process?, Registry.get?] at hx
  | @move s h m ih =>
    intro pid y hy
    rcases context_of_move h.sound hy with
      hx | ⟨hf, hc⟩ | ⟨x, hx, htold⟩ | ⟨rfl, p, q, x, hp, hx, hstep⟩
    · exact ih pid y hx
    · exact posed_of_idle hf hc
    · exact posed_of_told (h.sound.contexts _ x hx).fits htold
    have hpx := context?_eq_some.2 ⟨p, hp, hx⟩
    refine posed_of_step (ih _ x hpx) (h.sound.contexts _ x hpx).fits hstep
      fun selector options hc => ?_
    obtain hbegins | ⟨-, e, -, he⟩ := begins_of_step hp hx hc hy
    · exact .inl hbegins
    · exact .inr ⟨_, he⟩

theorem Reachable.seniority (h : Reachable s) : s.Seniority := by
  induction h with
  | initial => exact seniority_initial
  | @move s h m ih =>
    rcases alone_or_affairs h.sound m with ⟨pid, rfl, ha⟩ | ha
    · exact ih.congr ha.aged ha.kin?
    · exact ha.seniority h.sound.ordered h.linked ih

/-! ## Looking -/

/-- A process is about to look at its children. -/
def Looks (s : System) (pid : Pid) (p : Process) (selector : Int) (noHang : Bool) : Prop :=
  s.process? pid = some p ∧ ∃ t, p.task = some t ∧ t.control = .loop (.wait4 selector noHang)

/-- What a process is in the midst of has come to this. -/
def Replies (s : System) (pid : Pid) (r : Reply) : Prop :=
  ∃ x, s.context? pid = some x ∧ x.control = .reply r

/-- **The eldest of the dead** among the children that are selected. -/
structure Eldest (s : System) (p : Process) (selector : Int) (c : Pid) (w : WaitStatus) :
    Prop where
  selected : c ∈ System.selected p selector
  zombie : ∃ q, s.process? c = some q ∧ q.status = .zombie w
  first : ∀ c' ∈ System.selected p selector, c' ≠ c → ∀ q, s.process? c' = some q →
    q.status.isZombie = true → s.birth c < s.birth c'

/-- A child is selected, and none that is has died. -/
def AllLive (s : System) (p : Process) (selector : Int) : Prop :=
  selected p selector ≠ [] ∧
    ∀ c ∈ selected p selector, ∀ q, s.process? c = some q → q.status.isZombie = false

theorem eldest_of_ready? (hs : s.Seniority) (hp : s.process? pid = some p)
    (h : s.ready? p selector = .ok (some (c, w))) : s.Eldest p selector c w := by
  have hsorted : (selected p selector).Pairwise fun c c' => s.birth c < s.birth c' :=
    (hs.siblings pid p.kin (kin?_of_process? hp)).sublist List.filter_sublist
  obtain ⟨hmem, hzombie⟩ := ready?_eq_some h
  refine ⟨hmem, hzombie, fun c' hc' hne q hq hz => ?_⟩
  unfold ready? at h
  split at h
  · simp at h
  obtain ⟨younger, c₀, older, hsplit, hfound, hnone⟩ :=
    List.findSome?_eq_some_iff.1 (Except.ok.inj h)
  obtain ⟨w', -, he⟩ := Option.map_eq_some_iff.1 hfound
  obtain ⟨rfl, rfl⟩ := Prod.mk.inj he
  rw [hsplit] at hc' hsorted
  rcases List.mem_append.1 hc' with hbefore | hafter
  · -- a zombie that stands before would have been found
    have hmiss := hnone c' hbefore
    cases hst : q.status <;> simp [hst, Status.isZombie] at hz
    simp [hq, hst, Status.reapable?] at hmiss
  · rcases List.mem_cons.1 hafter with he | hafter
    · exact absurd he hne
    · exact List.rel_of_pairwise_cons (List.pairwise_append.1 hsorted).2.1 hafter

theorem allLive_of_ready? (h : s.ready? p selector = .ok none) : s.AllLive p selector := by
  unfold ready? at h
  split at h
  · simp at h
  · next hne =>
    refine ⟨hne, fun c hc q hq => ?_⟩
    have hnone := List.findSome?_eq_none_iff.1 (Except.ok.inj h) c hc
    cases hst : q.status <;> simp [hq, hst, Status.reapable?] at hnone ⊢ <;> rfl

theorem selected_of_ready? {e : Errno} (h : s.ready? p selector = .error e) :
    e = .child ∧ selected p selector = [] := by
  unfold ready? at h
  split at h
  · next hnil => exact ⟨(Except.error.inj h).symm, hnil⟩
  · simp at h

/-- **What a look comes to.** -/
inductive Look (s : System) (pid : Pid) (p : Process) (selector : Int) (noHang : Bool) : Prop
  | childless (h : selected p selector = []) (hstep : s.step pid = s.answer pid (.error .child))
  | reaps {src : Source} {c : Pid} {w : WaitStatus} (h : s.Eldest p selector c w)
      (hsrc : src.pid = some pid)
      (hstep : s.step pid = ((s.reap src pid c).answer pid (.ok (.child c w))).sweep)
  | hurries (h : s.AllLive p selector) (hn : noHang = true)
      (hstep : s.step pid = s.answer pid (.ok (.child 0 0)))
  | leaves (h : s.AllLive p selector) (hn : noHang = false) (he : p.status.isExited = true)
      (hstep : s.step pid = s.answer pid (.error .mustExit))
  | interrupted (h : s.AllLive p selector) (hn : noHang = false)
      (hd : p.inbox.hasDeliverable = true) (hstep : s.step pid = s.answer pid (.error .intr))
  | blocks {src : Source} (h : s.AllLive p selector) (hn : noHang = false)
      (hstep : s.step pid = s.act src pid fun p =>
        (p.goto (.blocked (.wait4 selector noHang) (p.listen .child none)), [.noChildReady]))

theorem look (hs : Reachable s) (h : s.Looks pid p selector noHang) :
    s.Look pid p selector noHang := by
  obtain ⟨hp, t, ht, hc⟩ := h
  have hglance := s.glance ⟨some pid, t.openCalls⟩ pid p selector noHang
  rw [← step_of_wait4 hp ht hc] at hglance
  generalize hs' : s.step pid = s' at hglance
  cases hglance with
  | failed hr =>
    obtain ⟨rfl, hnil⟩ := selected_of_ready? hr
    exact .childless hnil hs'
  | reaped hr => exact .reaps (eldest_of_ready? hs.seniority hp hr) rfl hs'
  | hurried hr hn => exact .hurries (allLive_of_ready? hr) hn hs'
  | left hr hn he => exact .leaves (allLive_of_ready? hr) hn he hs'
  | interrupted hr hn _ hd => exact .interrupted (allLive_of_ready? hr) hn hd hs'
  | blocked hr hn => exact .blocks (allLive_of_ready? hr) hn hs'

end System

end PosixSignals
