import PosixSignals.Proofs.Scenario.Hearing

/-!
# A blocked signal is not acted on

A signal is acted on in two places: where a check point takes it and deals
with it, and where its default action is carried out as it comes. Whatever
move is made, neither happens to a signal that a process in the midst of
something blocks. The one step that sends signals and may change a mask too
is the body of a call, and there the call sends or changes, but not both.
-/

namespace PosixSignals

/-- **A signal is acted on for a process**: a check point of the process takes it to deal with it,
or its default action is carried out as it comes. -/
def Record.ActsOn (pid : Pid) (sig : Signal) (r : Record) : Prop :=
  (r.source.pid = some pid ∧ r.event = .handling sig) ∨
    ∃ info action, r.event = .generated info pid (.defaultAction action) ∧ info.signal = sig

namespace Process

variable {p : Process} {pid : Pid} {sig : Signal} {c : Process × List Event}

/-- A default action that a check point carries out is noted by what it changes. -/
theorem acted_of_mem {action : DefaultAction} {e : Event} (he : e ∈ (p.act pid sig action).2) :
    (∃ w, e = .exited pid w) ∨ e = .stopped pid sig := by
  cases action with
  | terminate | coreDump => exact .inl ⟨_, eq_exited_of_mem he⟩
  | stop => exact .inr (eq_stopped_of_mem he)
  | ignore | «continue» => simp [act] at he

/-- **A step alone generates nothing**, and what it deals with was not blocked. -/
theorem unblocked_of_conduct (h : p.Conduct pid c) {e : Event} (he : e ∈ c.2) :
    (e = .handling sig → sig ∉ p.inbox.blocked) ∧
      ∀ info target outcome, e ≠ .generated info target outcome := by
  cases h with
  | mild h =>
    cases h with
    | plain _ hplain =>
      have := hplain e he
      cases e <;> simp_all [Event.isPlain]
    | ended =>
      obtain rfl := eq_exited_of_mem he
      simp
  | concluded | outright | took => simp_all
  | handled hs _ hdealt =>
    rcases List.mem_cons.1 he with rfl | he
    · refine ⟨fun heq => ?_, by simp⟩
      obtain rfl := Event.handling.inj heq
      exact (SignalSet.mem_sdiff.1 hs).2
    · cases hdealt with
      | ignored | entered => simp_all
      | default => obtain ⟨w, rfl⟩ | rfl := acted_of_mem he <;> simp

end Process

namespace System

variable {s s' s₀ : System} {pid : Pid} {p : Process} {src : Source} {sig : Signal} {x : Context}
  {f : Process → Process × List Event}

/-- **From one state to another a signal is not acted on** for a process. -/
def Abstains (pid : Pid) (sig : Signal) (s s' : System) : Prop :=
  ∃ new, s'.history = new ++ s.history ∧ ∀ r ∈ new, ¬ r.ActsOn pid sig

theorem Abstains.of_history (h : s'.history = s.history) : Abstains pid sig s s' :=
  ⟨[], h, by simp⟩

theorem Abstains.trans (h : Abstains pid sig s₀ s) (h' : Abstains pid sig s s') :
    Abstains pid sig s₀ s' := by
  obtain ⟨new, hnew, hold⟩ := h
  obtain ⟨later, hlater, hold'⟩ := h'
  exact ⟨later ++ new, by rw [hlater, hnew, List.append_assoc],
    fun r hr => (List.mem_append.1 hr).elim (hold' r) (hold r)⟩

theorem abstains_answer {r : Reply} : Abstains pid sig s (s.answer pid r) :=
  .of_history update_history

theorem abstains_note {e : Event} (he : ¬ Record.ActsOn pid sig ⟨src, e⟩) :
    Abstains pid sig s (s.note src e) :=
  ⟨[⟨src, e⟩], rfl, by simpa using he⟩

theorem abstains_act {target : Pid} (hf : ∀ p, s.process? target = some p → ∀ e ∈ (f p).2,
    ¬ Record.ActsOn pid sig ⟨src, e⟩) : Abstains pid sig s (s.act src target f) := by
  cases hp : s.process? target with
  | none => exact .of_history (by rw [act_of_none hp])
  | some p =>
    refine ⟨_, act_history hp, fun r hr => ?_⟩
    obtain ⟨e, he, rfl⟩ := List.mem_map.1 (List.mem_reverse.1 hr)
    exact hf p hp e he

/-! ## The process's own steps -/

/-- A turn of a wait for children. -/
theorem abstains_wait4 (ho : s.Ordered) (selector : Int) (noHang : Bool) :
    Abstains pid sig s (s.wait4 src pid p selector noHang) := by
  have hglance := s.glance src pid p selector noHang
  generalize s.wait4 src pid p selector noHang = s' at hglance ⊢
  cases hglance with
  | failed | hurried | left | interrupted => exact abstains_answer
  | reaped =>
    refine Abstains.trans ?_ (.of_history (sweep_history (ordered_update (ordered_reap ho))))
    refine Abstains.trans (Abstains.trans ?_ (abstains_note (by simp [Record.ActsOn])))
      abstains_answer
    exact (Abstains.of_history update_history).trans (.of_history update_history)
  | blocked =>
    exact abstains_act fun _ _ e he => by
      obtain rfl := List.mem_singleton.1 he
      simp [Record.ActsOn]

section Own

variable (hp : s.process? pid = some p) (hb : sig ∈ p.inbox.blocked)
include hp hb

theorem abstains_conduct (hf : p.Conduct pid (f p)) : Abstains pid sig s (s.act src pid f) := by
  refine abstains_act fun p' hp' e he => ?_
  obtain rfl := Option.some.inj (hp.symm.trans hp')
  obtain ⟨hhandling, hgenerated⟩ := Process.unblocked_of_conduct hf he
  rintro (⟨-, heq⟩ | ⟨info, action, heq, -⟩)
  · exact hhandling heq hb
  · exact hgenerated _ _ _ heq

/-- Signals are sent to many, and the mask stays as it is. -/
theorem abstains_sendAll (hu : sig.isUncatchable = false) {info : SignalInfo}
    (targets : List Pid) : Abstains pid sig s (s.sendAll src info targets) := by
  unfold sendAll
  induction targets generalizing s p with
  | nil => exact .of_history rfl
  | cons target targets ih =>
    have hfirst : Abstains pid sig s (s.act src target (·.generate target info)) := by
      refine abstains_act fun q hq e he => ?_
      have hconcerns := Process.concerns_generate pid e he
      rintro (⟨-, heq⟩ | ⟨info', action, heq, hi⟩)
      · have hself := Process.concerns_generate target e he
        rw [show e = .handling sig from heq] at hself
        simp [Event.concerns] at hself
      · obtain rfl : e = .generated info' pid (.defaultAction action) := heq
        obtain rfl : target = pid := by simpa [Event.concerns] using hconcerns
        obtain rfl := Option.some.inj (hp.symm.trans hq)
        have htold : p.Told target _ _ := Process.told_generate info
        have hkill := htold.unblocked info' action he (hi ▸ hb)
        rw [hi, hu] at hkill
        cases hkill
    obtain ⟨q, hq, hb'⟩ : ∃ q, (s.act src target (·.generate target info)).process? pid = some q ∧
        sig ∈ q.inbox.blocked := by
      by_cases he : target = pid
      · subst he
        exact ⟨_, process?_act_self hp, by rw [Process.disturbed_generate.blocked]; exact hb⟩
      · exact ⟨p, by rw [process?_act, if_neg (Ne.symm he), hp], hb⟩
    exact hfirst.trans (ih hq hb')

/-- **The body of a call.** -/
theorem abstains_execute (hu : sig.isUncatchable = false) (call : SystemCall Handler) :
    Abstains pid sig s (s.execute src pid p call) := by
  have hcreated : ∀ {s : System} {child : Pid} {parent : Option Pid},
      Abstains pid sig s (s.note src (.created child parent)) := fun {s child parent} =>
    abstains_note (by simp [Record.ActsOn])
  cases call with
  | kill recipient number =>
    show Abstains pid sig s (s.kill src pid p recipient number)
    rcases s.kill_cases src pid p recipient number with ⟨e, h⟩ | h | ⟨sig', h⟩ <;> rw [h]
    · exact abstains_answer
    · exact abstains_answer
    · exact (abstains_sendAll hp hb hu _).trans abstains_answer
  | sigaction number new => exact abstains_conduct hp hb (.mild (p.mild_sigaction number new))
  | exit code => exact abstains_conduct hp hb (.mild (p.mild_exitCall code))
  | wait4 selector options => exact abstains_conduct hp hb (.mild (p.mild_wait4 selector options))
  | fork =>
    show Abstains pid sig s (s.forkCall src pid p)
    rw [forkCall_eq]
    rcases s.fork_cases src pid p (some {}) with h | ⟨child, pids, -, h⟩ <;> rw [h]
    · exact abstains_answer
    · have hborn : Abstains pid sig s (s.bear src child pids (p.childOf pid (some {}))) :=
        ⟨[_], rfl, by simp [Record.ActsOn]⟩
      exact (hborn.trans (.of_history update_history)).trans abstains_answer
  | prlimit target resource new =>
    show Abstains pid sig s (s.prlimit src pid target resource new)
    rcases s.prlimit_cases src pid target resource new with
      ⟨e, h⟩ | ⟨r, q, e, h⟩ | ⟨r, q, old, limits, h⟩ <;> rw [h]
    · exact abstains_answer
    · exact (abstains_note (by simp [Record.ActsOn])).trans abstains_answer
    · exact ((abstains_note (by simp [Record.ActsOn])).trans (.of_history update_history)).trans
        abstains_answer
  | _ => exact .of_history update_history

end Own

/-! ## Every move -/

/-- **No move acts on a signal** that a process in the midst of something blocks. -/
theorem abstains_move (hs : s.Sound) (hp : s.process? pid = some p) (hx : p.context? = some x)
    (hi : x.control ≠ .idle) (hf : ∀ e, x.control ≠ .finish e) (hb : sig ∈ p.inbox.blocked)
    (m : Move) : Abstains pid sig s (s.move m) := by
  have hu : sig.isUncatchable = false := (hs.inboxes pid p hp).blockable.catchable hb
  by_cases hm : m = .process pid
  · subst hm
    obtain ⟨root, ht, -⟩ := Process.context?_eq_some.1 hx
    cases hl : x.control.isShared with
    | false =>
      have hst := (hs.contexts pid x (context?_eq_some.2 ⟨p, hp, hx⟩)).stacked
      show Abstains pid sig s (s.step pid)
      rw [step_of_not_isShared hp ht hl]
      exact abstains_conduct hp hb (Process.conduct_step ht (hs.inboxes pid p hp) hst)
    | true =>
      obtain ⟨frames, c, mask⟩ := x
      show Abstains pid sig s (s.step pid)
      cases c with
      | execute call => exact step_of_execute hp ht rfl ▸ abstains_execute hp hb hu call
      | loop l =>
        cases l with
        | wait4 selector noHang =>
          exact step_of_wait4 hp ht rfl ▸ abstains_wait4 hs.ordered selector noHang
        | _ => cases hl
      | finish e => exact absurd rfl (hf e)
      | _ => cases hl
  · obtain ⟨q, new, hheard⟩ := heard_of_others hs hp hx hi hm
    refine ⟨new, hheard.history, fun r hr => ?_⟩
    rintro (⟨hsrc, -⟩ | ⟨info, action, he, rfl⟩)
    · exact hheard.source r hr hsrc
    · have hkill := hheard.told.unblocked info action (he ▸ List.mem_map_of_mem hr) hb
      rw [hu] at hkill
      cases hkill

theorem Above.abstains {fs : List Frame} {y : Context} (hy : s.Above pid fs p y) (hs : s.Sound)
    (hb : sig ∈ y.blocked) (m : Move) : Abstains pid sig s (s.move m) := by
  have hfits := (hy.sound hs).fits
  have hne : y.frames ++ fs ≠ [] := fun h => hy.nonempty (List.append_eq_nil_iff.1 h).1
  refine abstains_move hs hy.process hy.context (fun hc => hne ?_) (fun e hc => hne ?_)
    (Process.blocked_of_context? hy.context ▸ hb) m
  · rwa [show y.control = .idle from hc] at hfits
  · rwa [show y.control = .finish e from hc] at hfits

end System

end PosixSignals
