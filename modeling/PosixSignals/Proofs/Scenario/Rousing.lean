import Mathlib.Logic.Basic
import PosixSignals.Proofs.Process.Suspension
import PosixSignals.Proofs.Scenario.Hearing

/-!
# What does not rouse a suspension

As long as what is pending is blocked or will be discarded, and no more than
that comes, a suspension stays suspended, whatever the other processes do
and however long it lasts. What has come since is read off the history.
-/

namespace PosixSignals

/-- **An event that does not rouse a process** under a mask: it neither continues nor ends it, and
no signal comes but such as are blocked, discarded or stop it. -/
def Event.Lulls (pid : Pid) (mask : SignalSet) (p : Process) : Event → Prop
  | .continued target | .exited target _ => target ≠ pid
  | .generated info target outcome => target = pid →
    info.signal ∈ mask ∨ ¬ p.Effective info.signal ∨ outcome = .defaultAction .stop
  | _ => True

namespace Process

variable {p q p₀ : Process} {pid : Pid} {events : List Event} {gs frames : List Frame}
  {m mask : SignalSet} {c : Control}

/-- What others do leaves a suspension where it is. -/
theorem Dormant.told (h : Dormant gs m p frames c) (ht : p.Told pid q events) :
    Dormant gs m q frames c := by
  have hcontinued : p.continued = true → q.continued = true := fun h => ht.continued.2 (.inl h)
  cases h with
  | waits hc => exact .waits hc
  | looks hc hb =>
    refine .looks hc fun h => ?_
    by_cases hn : q.status = .normal
    · exact .inl ((ht.lifted hn).elim (fun hp => hcontinued ((hb h).resolve_right (· hp))) id)
    · exact .inr hn
  | looked hb => exact .looked fun h => hcontinued (hb h)
  | ended he => exact .ended (ht.sent.isExited he)

/-- **What does not rouse a process leaves it lulled.** -/
theorem Lulled.told (h : p.Lulled) (ht : p.Told pid q events)
    (hl : ∀ e ∈ events, e.Lulls pid mask p₀) (hb : p.inbox.blocked = mask)
    (hd : p.dispositions = p₀.dispositions) : q.Lulled := by
  refine ⟨Bool.eq_false_iff.2 fun he => ?_, Bool.eq_false_iff.2 fun hc => ?_, fun sig hs => ?_⟩
  · rcases ht.ended he with he | ⟨w, hw⟩
    · simp [h.live] at he
    · exact hl _ hw rfl
  · rcases ht.continued.1 hc with hc | hc
    · simp [h.continued] at hc
    · exact hl _ hc rfl
  · have hsame : ∀ other, q.Effective other ↔ p₀.Effective other := fun other => by
      rw [Effective, Effective, ht.sent.dispositions, hd]
    have hold : sig ∈ q.inbox.blocked ↔ sig ∈ mask := by rw [ht.sent.blocked, hb]
    rw [hold, hsame]
    rcases ht.pending sig hs with hs | ⟨info, rfl, hg | hg⟩
    · rcases h.discarded sig hs with hs | hs
      · exact .inl (hb ▸ hs)
      · refine .inr fun heff => hs ?_
        rwa [Effective, hd]
    · rcases hl _ hg rfl with hm | heff | hstop
      · exact .inl hm
      · exact .inr heff
      · cases hstop
    · rcases hl _ hg rfl with hm | heff | hstop
      · exact .inl hm
      · exact .inr heff
      · cases hstop

/-- Whoever is asleep is in the midst of something that concerns him alone. -/
theorem Asleep.busy (h : Asleep gs m frames c) : c.isShared = false ∧ c ≠ .idle := by
  cases h with
  | waits hc | looks hc =>
    obtain rfl | ⟨y, rfl⟩ := Control.loop?_eq_some hc <;> simp [Control.isShared]
  | looked => simp [Control.isShared]

/-- So is who is dormant. -/
theorem Dormant.busy (h : Dormant gs m p frames c) : c.isShared = false ∧ c ≠ .idle := by
  cases h with
  | waits hc | looks hc =>
    obtain rfl | ⟨y, rfl⟩ := Control.loop?_eq_some hc <;> simp [Control.isShared]
  | looked | ended => simp [Control.isShared]

/-- Below is what the suspension was called from. -/
theorem Dormant.bottom (h : Dormant gs m p frames c) : ∃ above, frames = above ++ gs := by
  cases h with
  | waits => exact ⟨[], rfl⟩
  | looks | looked | ended => exact ⟨[.suspended m _], rfl⟩

end Process

namespace System

variable {s : System} {pid : Pid} {p p₀ : Process} {gs : List Frame} {m temp : SignalSet}
  {new later : List Record} {moves : List Move}

/-! ## What is on record -/

/-- The process was continued. -/
def Continued (pid : Pid) (new : List Record) : Prop := ∃ r ∈ new, r.event = .continued pid

/-- The process has entered a handler. -/
def Entered (pid : Pid) (new : List Record) : Prop :=
  ∃ r ∈ new, r.source.pid = some pid ∧ r.event.isEntry = true

/-- A continue on record is among the earlier records or the later. -/
theorem continued_append :
    Continued pid (later ++ new) ↔ Continued pid new ∨ Continued pid later := by
  simp only [Continued, List.mem_append, or_and_right, exists_or, or_comm]

/-- An entry on record is among the earlier records or the later. -/
theorem entered_append : Entered pid (later ++ new) ↔ Entered pid new ∨ Entered pid later := by
  simp only [Entered, List.mem_append, or_and_right, exists_or, or_comm]

/-- What a step of the process notes. -/
theorem entered_of_events {src : Source} {events : List Event} (hsrc : src.pid = some pid) :
    Entered pid (events.map fun e => (⟨src, e⟩ : Record)).reverse ↔
      ∃ e ∈ events, e.isEntry = true := by
  simp [Entered, hsrc]

/-- A step has put a continue on record if it has noted one. -/
theorem continued_of_events {src : Source} {events : List Event} :
    Continued pid (events.map fun e => (⟨src, e⟩ : Record)).reverse ↔ .continued pid ∈ events := by
  simp [Continued]

/-- A step that a process takes alone is noted in its name. -/
theorem history_step_of_not_isShared {t : Task} (hp : s.process? pid = some p)
    (ht : p.task = some t) (hl : t.control.isShared = false) :
    ∃ src : Source, src.pid = some pid ∧ (s.step pid).history =
      ((p.step s.now pid t).2.map fun e => (⟨src, e⟩ : Record)).reverse ++ s.history :=
  ⟨_, rfl, by rw [step_of_not_isShared hp ht hl]; exact act_history hp⟩

/-! ## Asleep -/

/-- **A suspension that nothing rouses**, under its own mask. -/
def Sleeping (s : System) (pid : Pid) (gs : List Frame) (m temp : SignalSet)
    (p₀ : Process) : Prop :=
  ∃ q frames c, s.process? pid = some q ∧ q.context? = some ⟨frames, c, temp⟩ ∧
    Process.Asleep gs m frames c ∧ q.Lulled ∧ q.dispositions = p₀.dispositions

/-- **A move that brings nothing to wake for** leaves a suspension asleep, and enters no handler. -/
theorem Sleeping.move (h : s.Sleeping pid gs m temp p₀) (hs : s.Sound) {move : Move}
    (hnew : (s.move move).history = new ++ s.history)
    (hl : ∀ r ∈ new, r.event.Lulls pid temp p₀) :
    (s.move move).Sleeping pid gs m temp p₀ ∧ ¬ Entered pid new := by
  obtain ⟨p, frames, c, hp, hx, hplace, hlull, hd⟩ := h
  obtain ⟨hshared, hi⟩ := hplace.busy
  obtain ⟨root, ht, hb⟩ := Process.context?_eq_some.1 hx
  obtain rfl : p.inbox.blocked = temp := hb
  by_cases hm : move = .process pid
  · subst hm
    obtain ⟨frames', c', hx', hplace', hlull', hq⟩ :=
      hplace.step s.now pid hlull ht (hs.inboxes pid p hp)
    have hmove := step_of_not_isShared (s := s) hp ht hshared
    have hmove : s.move (.process pid) = s.act ⟨some pid, _⟩ pid (·.step s.now pid _) := hmove
    rw [hmove, act_history hp] at hnew
    obtain rfl := List.append_cancel_right hnew
    refine ⟨⟨_, frames', c', hmove ▸ process?_act_self hp, hx', hplace', hlull',
      hq.dispositions.trans hd⟩, fun he => ?_⟩
    obtain ⟨e, hmem, he⟩ := (entered_of_events rfl).1 he
    simp [(hq.events e hmem).1] at he
  · obtain ⟨q, new', hheard⟩ := heard_of_others hs hp hx hi hm
    rw [hheard.history] at hnew
    obtain rfl := List.append_cancel_right hnew
    have htold := hheard.told
    refine ⟨⟨q, frames, c, hheard.process, ?_, hplace, hlull.told htold ?_ rfl hd,
      htold.sent.dispositions.trans hd⟩, fun ⟨r, hr, hsrc, _⟩ => hheard.source r hr hsrc⟩
    · exact (Process.context?_congr htold.sent.task htold.sent.blocked).trans hx
    · simpa using hl

/-- **Nothing rouses it in a whole run.** -/
theorem Sleeping.run (h : s.Sleeping pid gs m temp p₀) (hs : Reachable s)
    (hnew : (s.run moves).history = new ++ s.history)
    (hl : ∀ r ∈ new, r.event.Lulls pid temp p₀) :
    (s.run moves).Sleeping pid gs m temp p₀ ∧ ¬ Entered pid new := by
  induction moves generalizing s new with
  | nil =>
    obtain rfl : [] = new := List.self_eq_append_left.1 hnew |>.symm
    exact ⟨h, by simp [Entered]⟩
  | cons move moves ih =>
    obtain ⟨first, hfirst⟩ := exists_history_move hs.sound move
    obtain ⟨rest, hrest⟩ := exists_history_run (hs.move move) moves
    have hall : (s.run (move :: moves)).history = rest ++ first ++ s.history := by
      rw [List.append_assoc, ← hfirst]
      exact hrest
    rw [hall] at hnew
    obtain rfl := List.append_cancel_right hnew
    obtain ⟨hsleep, hfirst'⟩ := h.move hs.sound hfirst
      fun r hr => hl r (List.mem_append_right _ hr)
    obtain ⟨hend, hrest'⟩ := ih hsleep (hs.move move) hrest
      fun r hr => hl r (List.mem_append_left _ hr)
    exact ⟨hend, fun he => (entered_append.1 he).elim hfirst' hrest'⟩

end System

end PosixSignals
