import PosixSignals.Proofs.Process.Disturbance
import PosixSignals.Proofs.Process.Search
import PosixSignals.Proofs.Process.Tally

/-!
# What becomes of installations

A disposition is installed under a number of its own, and its handler is
counted by that number whenever it is entered. A step of a process installs
one disposition at most, enters one handler at most, and puts back to
default the signal of a handler that comes back, if it was to run once.
From this it follows that no number is ever in two rows of the table, that
an invocation in progress is of an installation that is in its signal's row
or nowhere, and that an installation that is nowhere is never entered again.
And a table that comes about by installing and resetting has default for
`kill` and `stop`, whatever was asked for.
-/

namespace PosixSignals

namespace DispositionTable

variable {H : Type} {t : DispositionTable H} {sig : Signal}

/-- **The tables that come about**: from nothing installed by installing and resetting. -/
inductive Built : DispositionTable H → Prop
  | empty : Built .empty
  | install {t : DispositionTable H} (h : Built t) (sig : Signal) (d : Disposition H) :
      Built (t.install sig d).2
  | reset {t : DispositionTable H} (h : Built t) (sig : Signal) : Built (t.reset sig)

/-- A signal at default stays so whatever is reset. -/
theorem get_reset_of_default {other : Signal} (h : t.get sig = .default) :
    (t.reset other).get sig = .default := by
  by_cases he : other = sig
  · rw [he, reset, get_put_self]
  · rw [reset, get_put_of_ne _ _ he, h]

/-- **Nothing is ever installed for `kill` and `stop`**: installing refuses the two, and a reset
leaves default behind. -/
theorem Built.get_of_isUncatchable (h : t.Built) (hu : sig.isUncatchable = true) :
    t.get sig = .default := by
  induction h with
  | empty => exact get_empty sig
  | install _ other d ih =>
    unfold DispositionTable.install
    split
    · exact ih
    · next hc =>
      have hne : other ≠ sig := fun he => hc (he ▸ hu)
      rw [get_put_of_ne _ _ hne, ih]
  | reset _ other ih => exact get_reset_of_default ih

end DispositionTable

/-- The signal and the installation of the invocation that a frame waits for. -/
def Frame.invocation? : Frame → Option (Signal × Nat)
  | .delivery sig action _ => some (sig, action.handler.id)
  | _ => none

/-- What the next step installs, and for which signal. -/
def Control.installs? : Control → Option (Signal × Disposition Handler)
  | .execute (.sigaction number (some new)) => (Signal.ofNumber? number).map (·, new)
  | .perform (.engine (.changeDisposition sig (some new))) => some (sig, new)
  | _ => none

namespace Process

variable {p q r : Process} {pid : Pid} {sig : Signal} {c : Control} {f : Frame} {now id : Nat}
  {result : Reply}

/-- The invocations that are in progress, innermost first. -/
def invocations (p : Process) : List (Signal × Nat) :=
  (p.task.elim [] (·.frames)).filterMap Frame.invocation?

/-! ## Nothing installed, entered or reset -/

/-- **A process keeps its installations**, and begins no invocation. -/
structure Retains (p q : Process) : Prop where
  dispositions : q.dispositions = p.dispositions
  installs : q.installs = p.installs
  runs : q.runs = p.runs
  invocations : q.invocations ⊆ p.invocations

/-- Whoever does nothing keeps his installations. -/
theorem Retains.refl (p : Process) : p.Retains p := ⟨rfl, rfl, rfl, fun _ h => h⟩

/-- So does who keeps them twice. -/
theorem Retains.trans (h : p.Retains q) (h' : q.Retains r) : p.Retains r where
  dispositions := h'.dispositions.trans h.dispositions
  installs := h'.installs.trans h.installs
  runs := h'.runs.trans h.runs
  invocations := fun _ hi => h.invocations (h'.invocations hi)

/-- **Others do not touch installations.** -/
theorem Disturbed.retains (h : p.Disturbed q) : p.Retains q :=
  ⟨h.dispositions, h.installs, h.runs, fun _ hi => by rwa [Process.invocations, h.task] at hi⟩

/-- To move on begins no invocation and ends none. -/
theorem invocations_goto : (p.goto c).invocations = p.invocations := by
  cases ht : p.task <;> simp [invocations, goto, ht]

/-- Only the frame that waits for a handler is one. -/
theorem invocations_enter (hf : f.invocation? = none) :
    (p.enter f c).invocations = p.invocations := by
  cases ht : p.task <;> simp [invocations, enter, ht, hf]

/-- A frame that is left may have been one. -/
theorem invocations_pop : p.pop.invocations ⊆ p.invocations := by
  cases ht : p.task with
  | none => simp [invocations, pop, ht]
  | some t =>
    simp only [invocations, pop, ht, Option.map_some, Option.elim_some]
    exact ((List.tail_sublist _).filterMap _).subset

theorem Retains.goto (h : p.Retains q) (c : Control) : p.Retains (q.goto c) :=
  ⟨h.dispositions, h.installs, h.runs, by rw [invocations_goto]; exact h.invocations⟩

theorem Retains.enter (h : p.Retains q) (hf : f.invocation? = none) (c : Control) :
    p.Retains (q.enter f c) :=
  ⟨h.dispositions, h.installs, h.runs, by rw [invocations_enter hf]; exact h.invocations⟩

theorem Retains.pop (h : p.Retains q) : p.Retains q.pop :=
  ⟨h.dispositions, h.installs, h.runs, fun _ hi => h.invocations (invocations_pop hi)⟩

theorem Retains.inbox (h : p.Retains q) (inbox : Inbox) : p.Retains { q with inbox } :=
  ⟨h.dispositions, h.installs, h.runs, h.invocations⟩

theorem Retains.answer (h : p.Retains q) (result : Reply) : p.Retains (q.answer result) :=
  h.goto _

theorem Retains.leaveWait (h : p.Retains q) (w : AnyWait) (result : Reply) :
    p.Retains (q.leaveWait w result) :=
  (h.inbox _).answer result

theorem Retains.continued (h : p.Retains q) (b : Bool) : p.Retains { q with continued := b } :=
  ⟨h.dispositions, h.installs, h.runs, h.invocations⟩

/-! ## What a step does -/

/-- **An invocation begins**: it is counted and in progress. -/
structure Begins (p : Process) (sig : Signal) (id : Nat) (q : Process) : Prop where
  dispositions : q.dispositions = p.dispositions
  installs : q.installs = p.installs
  runs : q.runs = (p.countRun id).2.runs
  invocations : q.invocations ⊆ (sig, id) :: p.invocations

/-- **To deliver is to begin an invocation.** -/
theorem begins_deliver (action : Action Installed) :
    p.Begins sig action.handler.id (p.deliver sig action).1 where
  dispositions := rfl
  installs := rfl
  runs := rfl
  invocations := by
    cases ht : p.task with
    | none => simp [Process.invocations, deliver, enter, countRun, ht]
    | some t =>
      simp only [Process.invocations, deliver, enter, countRun, ht, Option.map_some,
        Option.elim_some]
      exact List.Subset.refl _

/-- What began where a process got to by keeping its installations, began there. -/
theorem Retains.begins (h : p.Retains q) (hb : q.Begins sig id r) : p.Begins sig id r where
  dispositions := hb.dispositions.trans h.dispositions
  installs := hb.installs.trans h.installs
  runs := by rw [hb.runs, countRun, countRun, h.runs]
  invocations := fun i hi => by
    rcases List.mem_cons.1 (hb.invocations hi) with rfl | hi
    · exact List.mem_cons_self
    · exact List.mem_cons_of_mem _ (h.invocations hi)

/-- **What a step of a process does about installations.** -/
inductive Manages (c : Control) (p : Process) : Process → Prop
  | retains {q : Process} (h : p.Retains q) : Manages c p q
  | installs {q : Process} {sig : Signal} {new : Disposition Handler}
      (hc : c.installs? = some (sig, new))
      (h : (p.changeDisposition sig (some new)).2.Retains q) : Manages c p q
  | enters {q : Process} {sig : Signal} {action : Action Installed}
      (hd : p.dispositions.get sig = .handler action)
      (h : p.Begins sig action.handler.id q) : Manages c p q
  /-- A handler that is not in the table is entered, under a number of its own. -/
  | outright {q : Process} {sig : Signal}
      (h : Begins { p with installs := p.installs + 1 } sig p.installs q) : Manages c p q
  | resets {q : Process} {sig : Signal} {id : Nat} (hi : (sig, id) ∈ p.invocations)
      (h : Retains { p with dispositions := p.dispositions.reset sig } q) : Manages c p q

section Steps

variable (p)

/-- Of the constructs of the engine one installs, and one enters a handler that is in no row. -/
theorem manages_engage (call : EngineCall Handler) :
    p.Manages (.perform (.engine call)) (p.engage now call).1 := by
  have hp : p.Retains p := .refl p
  cases call with
  | checkPoint | sleep => exact .retains (hp.goto _)
  | suspend => exact .retains (((hp.continued false).inbox _).goto _)
  | waitAny | changeMask => exact .retains ((hp.inbox _).goto _)
  | pending => exact .retains (hp.goto _)
  | changeDisposition sig new =>
    cases new with
    | none => exact .retains (hp.goto _)
    | some new => exact .installs rfl (Retains.goto (.refl _) _)
  | deliver sig action =>
    exact .outright (begins_deliver (p := { p with installs := p.installs + 1 })
      { handler := ⟨p.installs, action.handler⟩, mask := action.mask, flags := action.flags })

/-- A handler that goes on, or returns, keeps all installations. -/
theorem retains_proceed (frames : List Frame) : p.Retains (p.proceed frames).1 := by
  have hp : p.Retains p := .refl p
  unfold proceed
  split
  · exact hp.pop.goto _
  · exact hp.pop.enter rfl _
  · exact hp.goto _

/-- What a routine asks for touches them by the engine alone. -/
theorem manages_perform (frames : List Frame) (request : Request Handler) :
    p.Manages (.perform request) (p.perform now frames request).1 := by
  have hp : p.Retains p := .refl p
  cases request with
  | system call => exact .retains (hp.enter rfl _)
  | engine call => exact p.manages_engage call
  | panic => exact .retains (hp.goto _)
  | fail e =>
    simp only [perform]
    split <;> exact .retains (hp.pop.goto _)

/-- A check point enters what is in the table. -/
theorem manages_check (delivered : Bool) : p.Manages c (p.check pid delivered).1 := by
  have hp : p.Retains p := .refl p
  have hchecked := p.checked pid delivered
  generalize p.check pid delivered = r at hchecked ⊢
  cases hchecked with
  | ended | stopped | passed => exact .retains (hp.goto _)
  | @took sig _ _ _ h =>
    -- the signal is out of the inbox, and the table is as it was
    have htaken : p.Retains (p.without sig) := hp.inbox _
    cases h with
    | ignored => exact .retains (htaken.goto _)
    | default => exact .retains ((htaken.trans (shift_act _ _).disturbed.retains).goto _)
    | @entered action hd =>
      exact .enters hd ((htaken.enter rfl .proceed).begins (begins_deliver action))

/-- A wait takes signals without entering their handlers. -/
theorem retains_waitAny (w : AnyWait) : p.Retains (p.waitAny now w).1 := by
  have hp : p.Retains p := .refl p
  have hwaited := p.waited now w
  generalize p.waitAny now w = r at hwaited ⊢
  cases hwaited with
  | ended | interrupted | expired => exact hp.leaveWait w _
  | stopped | blocked => exact hp.goto _
  | serves => exact hp.enter rfl _
  | took => exact (hp.inbox _).leaveWait w _

/-- A process that is woken keeps its installations. -/
theorem retains_awaken (l : Loop) (listener : Listener) : p.Retains (p.awaken now l listener) := by
  have hp : p.Retains p := .refl p
  have hawoken := p.awoken now l listener
  generalize p.awaken now l listener = q at hawoken ⊢
  cases hawoken with
  | looks | slept => exact hp.goto _
  | left => exact hp.leaveWait _ _
  | rests => exact hp

/-- What comes back with an error, or is not to run once, resets nothing. -/
theorem retains_finishDelivery {action : Action Installed} (saved : SignalSet)
    (hk : (∃ e, result = .error e) ∨ action.flags.resetHand = false) :
    p.Retains (p.pop.finishDelivery sig action saved result) := by
  have hp : p.Retains p := .refl p
  unfold finishDelivery
  split
  · exact (hp.pop.inbox _).goto _
  · have ha : ¬ action.flags.resetHand = true := by simpa using hk
    simp only [ha]
    exact (hp.pop.inbox _).goto _

/-- A one-shot handler puts its signal back to default when it comes back. -/
theorem resets_finishDelivery {action : Action Installed} (saved : SignalSet)
    (hv : ∃ v, result = .ok v) (ha : action.flags.resetHand = true) :
    Retains { p with dispositions := p.dispositions.reset sig }
      (p.pop.finishDelivery sig action saved result) := by
  obtain ⟨v, rfl⟩ := hv
  simp only [finishDelivery, ha, if_true]
  refine ⟨rfl, rfl, rfl, fun i h => ?_⟩
  rw [answer, invocations_goto] at h
  exact invocations_pop h

/-- The return of a handler resets its own signal, or nothing. -/
theorem manages_finishDelivery (action : Action Installed) (saved : SignalSet)
    (hi : (sig, action.handler.id) ∈ p.invocations) :
    p.Manages c (p.pop.finishDelivery sig action saved result) := by
  cases ha : action.flags.resetHand with
  | false => exact .retains (p.retains_finishDelivery saved (.inr ha))
  | true =>
    cases result with
    | error e => exact .retains (p.retains_finishDelivery saved (.inl ⟨e, rfl⟩))
    | ok v => exact .resets hi (p.resets_finishDelivery saved ⟨v, rfl⟩ ha)

/-- A suspension that ends, or blocks, keeps them. -/
theorem retains_finishSuspend (saved : SignalSet) (seen : Nat) :
    p.Retains (p.finishSuspend saved seen result) := by
  have hp : p.Retains p := .refl p
  unfold finishSuspend
  split
  · exact (hp.inbox _).goto _
  · exact (hp.inbox _).goto _
  split
  · exact ((hp.continued false).inbox _).goto _
  · exact hp.goto _

/-- A sleep that ends, or blocks, keeps them. -/
theorem retains_finishSleep (deadline : Option Nat) (seen : Nat) :
    p.Retains (p.finishSleep now deadline seen result) := by
  have hp : p.Retains p := .refl p
  unfold finishSleep
  split
  · exact hp.goto _
  · exact hp.goto _
  split <;> exact hp.goto _

/-- What a frame does with a reply. -/
theorem manages_accommodate {t : Task} {rest : List Frame} (ht : p.task = some t)
    (hf : t.frames = f :: rest) : p.Manages c (p.pop.accommodate now f result).1 := by
  have hpop : p.Retains p.pop := (Retains.refl p).pop
  cases f with
  | main keep => exact .retains (hpop.goto _)
  | body run keep rest =>
    simp only [accommodate]
    split
    · exact .retains (hpop.goto _)
    · exact .retains (hpop.enter rfl _)
  | delivery sig action saved =>
    refine p.manages_finishDelivery action saved ?_
    simp [invocations, ht, hf, Frame.invocation?]
  | round =>
    simp only [accommodate]
    split <;> exact .retains (hpop.goto _)
  | callBody call => exact .retains (hpop.enter rfl _)
  | callExit =>
    simp only [accommodate]
    split <;> exact .retains (hpop.goto _)
  | waiting w =>
    simp only [accommodate]
    split
    · exact .retains (hpop.goto _)
    · exact .retains (hpop.leaveWait w _)
  | suspended saved seen => exact .retains (hpop.trans (p.pop.retains_finishSuspend saved seen))
  | asleep deadline seen => exact .retains (hpop.trans (p.pop.retains_finishSleep deadline seen))

/-- A panic resets nothing. -/
theorem retains_unwind (f : Frame) : p.Retains (p.pop.unwind f) := by
  have hpop : p.Retains p.pop := (Retains.refl p).pop
  cases f with
  | delivery | waiting | suspended => exact hpop.inbox _
  | main | body | round | callBody | callExit | asleep => exact hpop

/-- **A step of a process manages its installations.** -/
theorem manages_step {t : Task} (ht : p.task = some t) :
    p.Manages t.control (p.step now pid t).1 := by
  have hp : p.Retains p := .refl p
  unfold step
  split
  · exact .retains hp
  · exact .retains hp
  · exact .retains hp
  · exact .retains hp
  · next request hc => exact hc ▸ p.manages_perform _ request
  · exact .retains (p.retains_proceed _)
  · exact p.manages_check _
  · exact .retains (p.retains_waitAny _)
  · exact .retains (hp.enter rfl _)
  · exact .retains (hp.enter rfl _)
  · exact .retains (p.retains_awaken _ _)
  · split
    · exact .retains (hp.goto _)
    · next f rest hf => exact p.manages_accommodate ht hf
  · split
    · exact .retains (hp.goto _)
    · exact .retains (p.retains_unwind _)

end Steps

/-! ## Tables that come about -/

/-- Whatever is asked for is installed in the one way there is. -/
theorem built_changeDisposition (h : p.dispositions.Built) (new : Disposition Handler) :
    (p.changeDisposition sig (some new)).2.dispositions.Built := by
  cases new <;> exact h.install sig _

/-- **A step builds on the table that there is.** -/
theorem Manages.built (hm : p.Manages c q) (h : p.dispositions.Built) : q.dispositions.Built := by
  cases hm with
  | retains hr => exact hr.dispositions ▸ h
  | installs _ hr => exact hr.dispositions ▸ built_changeDisposition h _
  | enters _ hb | outright hb => exact hb.dispositions ▸ h
  | resets _ hr => exact hr.dispositions ▸ h.reset _

/-! ## The numbers of installations -/

/-- What a change of a disposition leaves in the table: what was there, or the new handler under
the next number. -/
theorem get_changeDisposition {new : Disposition Handler} {other : Signal}
    {action : Action Installed}
    (h : (p.changeDisposition sig (some new)).2.dispositions.get other = .handler action) :
    p.dispositions.get other = .handler action ∨
      other = sig ∧ action.handler.id = p.installs ∧
        (p.changeDisposition sig (some new)).2.installs = p.installs + 1 := by
  have hrow : ∀ {d : Disposition Installed} {action},
      (p.dispositions.install sig d).2.get other = .handler action →
        p.dispositions.get other = .handler action ∨ other = sig ∧ d = .handler action := by
    intro d action h
    unfold DispositionTable.install at h
    split at h
    · exact .inl h
    by_cases he : other = sig
    · subst he
      exact .inr ⟨rfl, (DispositionTable.get_put_self ..).symm.trans h⟩
    · exact .inl ((DispositionTable.get_put_of_ne _ _ (Ne.symm he)).symm.trans h)
  cases new with
  | default | ignore => exact (hrow h).imp_right fun ⟨_, hd⟩ => by simp at hd
  | handler a =>
    refine (hrow h).imp_right fun ⟨he, hd⟩ => ⟨he, ?_, rfl⟩
    rw [← Disposition.handler.inj hd]

/-- A change of a disposition is for one signal. -/
theorem default_changeDisposition {new : Disposition Handler} {other : Signal}
    (h : p.dispositions.get other = .default) (hne : other ≠ sig) :
    (p.changeDisposition sig (some new)).2.dispositions.get other = .default := by
  have hrow : ∀ d : Disposition Installed,
      (p.dispositions.install sig d).2.get other = .default := fun d => by
    unfold DispositionTable.install
    split
    · exact h
    · exact (DispositionTable.get_put_of_ne _ _ (Ne.symm hne)).trans h
  cases new <;> exact hrow _

/-- Numbers of installations only grow. -/
theorem installs_changeDisposition (new : Disposition Handler) :
    p.installs ≤ (p.changeDisposition sig (some new)).2.installs := by
  cases new with
  | default | ignore => exact Nat.le_refl _
  | handler => exact Nat.le_succ _

/-- To install is not to enter. -/
theorem runs_changeDisposition (new : Disposition Handler) :
    (p.changeDisposition sig (some new)).2.runs = p.runs := by
  cases new <;> rfl

/-- And it begins no invocation. -/
theorem invocations_changeDisposition (new : Disposition Handler) :
    (p.changeDisposition sig (some new)).2.invocations = p.invocations := by
  cases new <;> rfl

/-- **Installations are told apart by their numbers.** No number is in two rows, and none is
that is yet to be given out. An invocation in progress is of an installation that is in the
row of its signal, or in no row. -/
structure Distinct (p : Process) : Prop where
  below : ∀ {sig action}, p.dispositions.get sig = .handler action →
    action.handler.id < p.installs
  once : ∀ {sig other action action'}, p.dispositions.get sig = .handler action →
    p.dispositions.get other = .handler action' → action.handler.id = action'.handler.id →
      sig = other
  begun : ∀ {sig id}, (sig, id) ∈ p.invocations → id < p.installs ∧
    ∀ {other action}, p.dispositions.get other = .handler action → action.handler.id = id →
      other = sig

/-- An installation that is **in no row of the table**, though its number was given out. -/
structure Spent (id : Nat) (p : Process) : Prop where
  below : id < p.installs
  gone : ∀ {sig action}, p.dispositions.get sig = .handler action → action.handler.id ≠ id

/-- Installations that are kept stay apart. -/
theorem Retains.distinct (h : p.Retains q) (hp : p.Distinct) : q.Distinct where
  below hq := by
    rw [h.dispositions] at hq
    exact h.installs ▸ hp.below hq
  once hq hq' := by
    rw [h.dispositions] at hq hq'
    exact hp.once hq hq'
  begun hi := by
    rw [h.installs, h.dispositions]
    exact hp.begun (h.invocations hi)

/-- What is in no row stays in none. -/
theorem Retains.spent (h : p.Retains q) (hp : p.Spent id) : q.Spent id :=
  ⟨h.installs ▸ hp.below, fun hq => hp.gone (h.dispositions ▸ hq)⟩

/-- **An installation is told apart** from all that were there, by a number that was not given
out. -/
theorem distinct_changeDisposition (hp : p.Distinct) (new : Disposition Handler) :
    (p.changeDisposition sig (some new)).2.Distinct where
  below hq := by
    rcases get_changeDisposition hq with hq | ⟨-, hid, hinstalls⟩
    · exact Nat.lt_of_lt_of_le (hp.below hq) (installs_changeDisposition new)
    · omega
  once hq hq' hid := by
    -- the number of a new handler is above all that are in the table
    rcases get_changeDisposition hq with hq | ⟨he, hnew, -⟩ <;>
      rcases get_changeDisposition hq' with hq' | ⟨he', hnew', -⟩
    · exact hp.once hq hq' hid
    · have := hp.below hq
      omega
    · have := hp.below hq'
      omega
    · exact he.trans he'.symm
  begun hi := by
    rw [invocations_changeDisposition] at hi
    obtain ⟨hlt, hrow⟩ := hp.begun hi
    refine ⟨Nat.lt_of_lt_of_le hlt (installs_changeDisposition new), fun hq hid => ?_⟩
    rcases get_changeDisposition hq with hq | ⟨-, hnew, -⟩
    · exact hrow hq hid
    · omega

/-- An invocation begins of an installation that is in the row of its signal, or in no row. -/
theorem Begins.distinct (h : p.Begins sig id q) (hp : p.Distinct) (hlt : id < p.installs)
    (hrow : ∀ {other action}, p.dispositions.get other = .handler action →
      action.handler.id = id → other = sig) : q.Distinct where
  below hq := by
    rw [h.dispositions] at hq
    exact h.installs ▸ hp.below hq
  once hq hq' := by
    rw [h.dispositions] at hq hq'
    exact hp.once hq hq'
  begun hi := by
    rw [h.installs, h.dispositions]
    rcases List.mem_cons.1 (h.invocations hi) with he | hi
    · obtain ⟨rfl, rfl⟩ := Prod.mk.inj he
      exact ⟨hlt, hrow⟩
    · exact hp.begun hi

/-- A reset leaves the handlers of the other signals. -/
theorem get_of_reset {other : Signal} {action : Action Installed}
    (h : (p.dispositions.reset sig).get other = .handler action) :
    other ≠ sig ∧ p.dispositions.get other = .handler action := by
  by_cases he : other = sig
  · subst he
    rw [DispositionTable.reset, DispositionTable.get_put_self] at h
    simp at h
  · exact ⟨he, (DispositionTable.get_put_of_ne _ _ (Ne.symm he)).symm.trans h⟩

/-- **Every step keeps installations apart.** -/
theorem Manages.distinct (h : p.Manages c q) (hp : p.Distinct) : q.Distinct := by
  cases h with
  | retains h => exact h.distinct hp
  | installs _ h => exact h.distinct (distinct_changeDisposition hp _)
  | enters hd h => exact h.distinct hp (hp.below hd) fun hq hid => hp.once hq hd hid
  | outright h =>
    have hp' : Distinct { p with installs := p.installs + 1 } :=
      ⟨fun hq => Nat.lt_succ_of_lt (hp.below hq), hp.once, fun hi =>
        ⟨Nat.lt_succ_of_lt (hp.begun hi).1, (hp.begun hi).2⟩⟩
    exact h.distinct hp' (Nat.lt_succ_self _) fun hq hid => absurd hid (Nat.ne_of_lt (hp.below hq))
  | resets _ h =>
    refine h.distinct ⟨fun hq => hp.below (get_of_reset hq).2, fun hq hq' => ?_, fun hi => ?_⟩
    · exact hp.once (get_of_reset hq).2 (get_of_reset hq').2
    · exact ⟨(hp.begun hi).1, fun hq => (hp.begun hi).2 (get_of_reset hq).2⟩

/-- An invocation is counted for its own installation alone. -/
theorem Begins.lookup (h : p.Begins sig id q) {other : Nat} (hne : other ≠ id) :
    q.runs.lookup other = p.runs.lookup other := by
  rw [h.runs, countRun, Tally.lookup_countRun, if_neg hne]

/-- **An installation that is in no row is never entered again**, and never back in one. -/
theorem Manages.spent (h : p.Manages c q) (hp : p.Spent id) :
    q.Spent id ∧ q.runs.lookup id = p.runs.lookup id := by
  cases h with
  | retains h => exact ⟨h.spent hp, by rw [h.runs]⟩
  | @installs sig new _ h =>
    refine ⟨h.spent ⟨?_, fun hq => ?_⟩, by rw [h.runs, runs_changeDisposition]⟩
    · exact Nat.lt_of_lt_of_le hp.below (installs_changeDisposition new)
    · -- what is installed now gets a number that was not given out before
      rcases get_changeDisposition hq with hq | ⟨-, hnew, -⟩
      · exact hp.gone hq
      · have := hp.below
        omega
  | enters hd h =>
    refine ⟨⟨h.installs ▸ hp.below, fun hq => hp.gone (h.dispositions ▸ hq)⟩, ?_⟩
    exact h.lookup (hp.gone hd).symm
  | outright h =>
    refine ⟨⟨h.installs ▸ Nat.lt_succ_of_lt hp.below, fun hq => hp.gone (h.dispositions ▸ hq)⟩, ?_⟩
    exact h.lookup (Nat.ne_of_lt hp.below)
  | resets _ h =>
    exact ⟨h.spent ⟨hp.below, fun hq => hp.gone (get_of_reset hq).2⟩, by rw [h.runs]⟩

/-- **A default disposition stays** until another is installed for that signal. -/
theorem Manages.default (h : p.Manages c q) (hp : p.dispositions.get sig = .default) :
    q.dispositions.get sig = .default ∨ ∃ new, c.installs? = some (sig, new) := by
  cases h with
  | retains h => exact .inl (h.dispositions ▸ hp)
  | @installs other new hc h =>
    by_cases he : sig = other
    · exact .inr ⟨new, he ▸ hc⟩
    · exact .inl (h.dispositions ▸ default_changeDisposition hp he)
  | enters _ h | outright h => exact .inl (h.dispositions ▸ hp)
  | resets _ h => exact .inl (h.dispositions ▸ DispositionTable.get_reset_of_default hp)

/-- **When a one-shot handler has come back, its installation is spent.** -/
theorem Distinct.spent (hp : p.Distinct) (hi : (sig, id) ∈ p.invocations) :
    Spent id { p with dispositions := p.dispositions.reset sig } :=
  ⟨(hp.begun hi).1, fun hq hid =>
    (get_of_reset hq).1 ((hp.begun hi).2 (get_of_reset hq).2 hid)⟩

end Process

end PosixSignals
