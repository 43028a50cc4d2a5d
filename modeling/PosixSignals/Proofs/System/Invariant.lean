import PosixSignals.Proofs.System.Inversion

/-!
# What holds of the system

The table is in order, every inbox is sound, and every context is: its
stack is well built, what goes on fits the stack, and every mask, in force
or saved, is free of `kill` and `stop`. A step of a process keeps all of it.
-/

namespace PosixSignals

namespace System

variable {s s' : System} {own : Option Pid} {pid pid' : Pid} {p q : Process} {x : Context}

/-- What a process of the system is in the midst of. -/
def context? (s : System) (pid : Pid) : Option Context := (s.process? pid).bind (·.context?)

theorem context?_eq_some :
    s.context? pid = some x ↔ ∃ p, s.process? pid = some p ∧ p.context? = some x :=
  Option.bind_eq_some_iff

/-- **What holds of the system between any two steps.** -/
structure Sound (s : System) : Prop where
  ordered : s.Ordered
  inboxes : s.InboxesSound
  contexts : ∀ pid x, s.context? pid = some x → x.Sound

theorem sound_initial : initial.Sound where
  ordered := ordered_initial
  inboxes pid p hp := by simp [initial, process?, Registry.get?] at hp
  contexts pid x hx := by simp [context?, initial, process?, Registry.get?] at hx

/-- To be in the midst of nothing is sound. -/
theorem Blank.sound (h : Blank p) (hb : p.inbox.Sound) (hx : p.context? = some x) : x.Sound := by
  obtain ⟨fs, c, m⟩ := x
  obtain ⟨rfl, rfl⟩ : fs = [] ∧ c = .idle := h _ hx
  exact ⟨trivial, rfl, Process.blocked_of_context? hx ▸ hb.blockable,
    by simp [Context.saved, Control.saved?]⟩

/-- A process that is spared is as sound as it was. -/
theorem Spares.sound (h : Spares pid s s') (hs : s.Sound) (hi : s'.InboxesSound)
    (hx : s'.context? pid = some x) : x.Sound := by
  obtain ⟨q, hq, hqx⟩ := context?_eq_some.1 hx
  rcases h.known q hq with ⟨p, hp, hd⟩ | hb
  · refine hs.contexts pid x (context?_eq_some.2 ⟨p, hp, ?_⟩)
    exact (Process.context?_congr hd.task hd.blocked).symm.trans hqx
  · exact hb.sound (hi pid q hq) hqx

theorem Changed.sound (h : Changed none s s') (hs : s.Sound) : s'.Sound where
  ordered := h.ordered hs.ordered
  inboxes := h.inboxesSound hs.inboxes
  contexts _ _ hx := (h.spares hs.ordered (by simp)).sound hs (h.inboxesSound hs.inboxes) hx

/-! ## A step of a process -/

/-- What concerns others is a turn in the midst of a change, or an end. -/
theorem step_of_isShared {t : Task} (hs : s.Sound) (hp : s.process? pid = some p)
    (ht : p.task = some t) (hl : t.control.isShared = true) :
    Shares pid ⟨t.frames, t.control, p.inbox.blocked⟩ s (s.step pid) ∨
      ∃ src e, t.control = .finish e ∧ s.step pid = s.finish src pid t e := by
  unfold step
  simp only [hp, ht]
  split
  · next hc => exact .inl (hc ▸ shares_execute (hs.inboxes pid p hp))
  · next hc => exact .inl (hc ▸ shares_wait4 hs.ordered)
  · next hc => exact .inr ⟨_, _, hc, rfl⟩
  · next hc => simp_all [Control.isShared]

/-- **A step is a turn of the process alone, or a change of the system.** -/
theorem step_cases (hs : s.Sound) (pid : Pid) :
    Changed (some pid) s (s.step pid) ∨
      ∃ p x src f, s.process? pid = some p ∧ p.context? = some x ∧ src.pid = some pid ∧
        s.step pid = s.act src pid f ∧ p.Own pid x (f p) := by
  cases hp : s.process? pid with
  | none =>
    left
    rw [step_of_none hp]
    exact .refl
  | some p =>
    cases ht : p.task with
    | none =>
      left
      rw [step_of_task_eq_none hp ht]
      exact .refl
    | some t =>
      have hx : p.context? = some ⟨t.frames, t.control, p.inbox.blocked⟩ := by
        simp [Process.context?, ht]
      cases hl : t.control.isShared with
      | false =>
        have hfits := (hs.contexts pid _ (context?_eq_some.2 ⟨p, hp, hx⟩)).fits
        exact .inr ⟨p, _, _, _, rfl, hx, rfl, step_of_not_isShared hp ht hl,
          Process.own_step ht (hs.inboxes pid p hp) hfits hl⟩
      | true =>
        left
        rcases step_of_isShared hs hp ht hl with h | ⟨src, e, -, he⟩
        · exact h.changed hs.ordered hl hp hx
        · exact he ▸ changed_finish hs.ordered

/-- **The context of whoever steps takes a step**, unless it is at its end. -/
theorem goes_of_step (hs : s.Sound) (hp : s.process? pid = some p) (hx : p.context? = some x)
    (hf : ∀ e, x.control ≠ .finish e) : Goes pid p x (s.step pid) := by
  obtain ⟨root, ht, hb⟩ := Process.context?_eq_some.1 hx
  obtain ⟨fs, c, m⟩ := x
  obtain rfl : p.inbox.blocked = m := hb
  cases hl : c.isShared with
  | false =>
    have hfits := (hs.contexts pid _ (context?_eq_some.2 ⟨p, hp, hx⟩)).fits
    have hown : p.Own pid ⟨fs, c, p.inbox.blocked⟩ (p.step s.now pid ⟨fs, c, root⟩) :=
      Process.own_step ht (hs.inboxes pid p hp) hfits hl
    obtain ⟨x', hx', hstep⟩ := hown.context
    rw [step_of_not_isShared hp ht hl]
    exact ⟨_, x', process?_act_self hp, hx', hstep, hown.turn.ended⟩
  | true =>
    rcases step_of_isShared hs hp ht hl with h | ⟨src, e, he, -⟩
    · exact h.goes hs.ordered hl hp hx
    · exact absurd he (hf e)

/-- At its end a process loses its context. -/
theorem blank_of_step {e : Ending} (hs : s.Sound) (hp : s.process? pid = some p)
    (hx : p.context? = some x) (hf : x.control = .finish e)
    (hq : (s.step pid).process? pid = some q) : Blank q := by
  obtain ⟨root, ht, -⟩ := Process.context?_eq_some.1 hx
  rw [step_of_finish hp ht hf] at hq
  exact blank_of_finish hs.ordered hq

/-- **Where the context of whoever steps comes from**: it has taken a step, or the
process is at its end. -/
theorem context_of_step (hs : s.Sound) (hx : (s.step pid).context? pid = some x) :
    (∃ q, (s.step pid).process? pid = some q ∧ q.context? = some x ∧ Blank q) ∨
      ∃ p q x₀, s.process? pid = some p ∧ p.context? = some x₀ ∧
        (s.step pid).process? pid = some q ∧ x₀.Step p q x := by
  obtain ⟨q, hq, hqx⟩ := context?_eq_some.1 hx
  cases hp : s.process? pid with
  | none =>
    rw [step_of_none hp, hp] at hq
    simp at hq
  | some p =>
    cases hpx : p.context? with
    | none =>
      have ht : p.task = none := by simpa [Process.context?] using hpx
      -- without a task it does not step, and has no context to be in
      rw [step_of_task_eq_none hp ht, hp] at hq
      obtain rfl := Option.some.inj hq
      simp [hpx] at hqx
    | some x₀ =>
      by_cases hf : ∃ e, x₀.control = .finish e
      · obtain ⟨e, hf⟩ := hf
        exact .inl ⟨q, hq, hqx, blank_of_step hs hp hpx hf hq⟩
      · obtain ⟨q', x', hq', hqx', hstep, -⟩ :=
          goes_of_step hs hp hpx fun e he => hf ⟨e, he⟩
        obtain rfl : q' = q := Option.some.inj (hq'.symm.trans hq)
        obtain rfl : x' = x := Option.some.inj (hqx'.symm.trans hqx)
        exact .inr ⟨p, q', x₀, rfl, hpx, hq, hstep⟩

/-- In the midst of anything it is there by a step. -/
theorem step_of_context? (hs : s.Sound) (hx : (s.step pid).context? pid = some x)
    (hi : x.control ≠ .idle) : ∃ p q x₀, s.process? pid = some p ∧ p.context? = some x₀ ∧
      (s.step pid).process? pid = some q ∧ x₀.Step p q x := by
  rcases context_of_step hs hx with ⟨q, -, hqx, hb⟩ | h
  · exact absurd (hb x hqx).2 hi
  · exact h

/-- **A step spares everyone else.** -/
theorem spares_of_step (hs : s.Sound) (hne : pid ≠ pid') : Spares pid s (s.step pid') := by
  rcases step_cases hs pid' with h | ⟨p, x, src, f, -, -, -, he, -⟩
  · exact h.spares hs.ordered fun he => hne (Option.some.inj he).symm
  · rw [he]
    exact spares_of_process? (.inl (by rw [process?_act, if_neg hne]))

theorem Sound.step (hs : s.Sound) (pid : Pid) : (s.step pid).Sound := by
  obtain ⟨ho, hi⟩ : (s.step pid).Ordered ∧ (s.step pid).InboxesSound := by
    rcases step_cases hs pid with h | ⟨p, x, src, f, hp, -, -, he, hown⟩
    · exact ⟨h.ordered hs.ordered, h.inboxesSound hs.inboxes⟩
    · rw [he]
      refine ⟨hs.ordered.act, fun pid' q hq => ?_⟩
      rw [process?_act, hp] at hq
      split at hq
      · exact Option.some.inj hq ▸ hown.turn.sound (hs.inboxes pid p hp)
      · exact hs.inboxes pid' q hq
  refine ⟨ho, hi, fun pid' x' hx' => ?_⟩
  by_cases hne : pid' = pid
  · subst hne
    rcases context_of_step hs hx' with ⟨q, hq, hqx, hb⟩ | ⟨p, q, x, hp, hx, -, hstep⟩
    · exact hb.sound (hi pid' q hq) hqx
    · exact hstep.sound (hs.contexts pid' x (context?_eq_some.2 ⟨p, hp, hx⟩))
  · exact (spares_of_step hs hne).sound hs hi hx'

end System

end PosixSignals
