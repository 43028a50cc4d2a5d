import PosixSignals.Proofs.Scenario.Installations

/-!
# The untouchable signals

Nothing that a process asks for and nothing that is done to it makes
`kill` or `stop` blocked or pending, or installs anything for them: not in
its inbox, not in its table. So an occurrence of the one ends whatever it is
generated against, and one of the other stops whatever runs, in the very
step that generates it and whatever the process is in the midst of.
-/

namespace PosixSignals

namespace Process

variable {p : Process} {pid : Pid} {info : SignalInfo}

/-! ## What the two do -/

/-- An occurrence that cannot be caught carries out its default action, on whoever has
not ended. -/
theorem status_generate_of_isUncatchable (hu : info.signal.isUncatchable = true)
    (hp : p.status.isExited = false) :
    (p.generate pid info).1.status =
      (p.act pid info.signal info.signal.defaultAction).1.status := by
  have hg := p.generation pid info
  generalize p.generate pid info = c at hg ⊢
  cases hg with
  | dropped hex => simp [hp] at hex
  | lifted hc =>
    rw [hc] at hu
    exact absurd hu (by decide)
  | accepted _ _ ha =>
    cases ha with
    | acted => rfl
    | noted hr ho =>
      -- what cannot be caught is not looked up
      cases hr with
      | atOnce => exact absurd rfl (ho _)
      | ignored hc | queued hc | idle hc | acted hc | ready hc => simp [hu] at hc

/-- **`kill` ends whatever has not ended**, with its own number as the wait status. -/
theorem status_generate_kill (hp : p.status.isExited = false) (hi : info.signal = .kill) :
    (p.generate pid info).1.status = .exited 9 := by
  rw [status_generate_of_isUncatchable (by rw [hi]; rfl) hp, hi]
  have hact : Signal.kill.defaultAction = .terminate := rfl
  rw [hact, act_terminate hp]
  rfl

/-- **`stop` stops whatever runs.** -/
theorem status_generate_stop (hp : p.status = .normal) (hi : info.signal = .stop) :
    (p.generate pid info).1.status = .stopped .stop := by
  rw [status_generate_of_isUncatchable (by rw [hi]; rfl) (by rw [hp]; rfl), hi]
  have hact : Signal.stop.defaultAction = .stop := rfl
  rw [hact, act_stop hp]
  rfl

/-- A signal leaves a process in a status, if it finds it there. -/
def Settles (sig : Signal) (st : Status) : Prop :=
  ∀ (pid : Pid) (p : Process) (info : SignalInfo), info.signal = sig → p.status = st →
    (p.generate pid info).1.status = st

theorem settles_kill : Settles .kill (.exited 9) := by
  intro pid p info _ hp
  rw [disturbed_generate.ended (by rw [hp]; rfl), hp]

theorem settles_stop : Settles .stop (.stopped .stop) := by
  intro pid p info hi hp
  rw [status_generate_of_isUncatchable (by rw [hi]; rfl) (by rw [hp]; rfl), hi]
  have hact : Signal.stop.defaultAction = .stop := rfl
  simp only [hact, act, orStay, stop, hp]
  exact hp

end Process

namespace System

variable {s s' : System} {pid caller : Pid} {p q : Process} {src : Source} {sig : Signal}
  {st : Status} {info : SignalInfo}

/-! ## Every way to generate -/

/-- The process is there, and has this status. -/
def Stands (s : System) (pid : Pid) (st : Status) : Prop :=
  ∃ p, s.process? pid = some p ∧ p.status = st

theorem Stands.answer (h : s.Stands pid st) (r : Reply) : (s.answer caller r).Stands pid st := by
  obtain ⟨p, hp, hst⟩ := h
  rw [Stands, System.answer, update, process?_act]
  split
  · next he => exact ⟨p.answer r, by rw [← he, hp]; rfl, hst⟩
  · exact ⟨p, hp, hst⟩

/-- A signal that is generated against a process has done what it does. -/
theorem stands_of_generate (hp : s.process? pid = some p)
    (hst : (p.generate pid info).1.status = st) :
    (s.act src pid (·.generate pid info)).Stands pid st :=
  ⟨_, process?_act_self hp, hst⟩

theorem Stands.generate (h : s.Stands pid st) (hset : Process.Settles sig st)
    (hi : info.signal = sig) (target : Pid) :
    (s.act src target (·.generate target info)).Stands pid st := by
  obtain ⟨p, hp, hst⟩ := h
  by_cases he : pid = target
  · subst he
    exact stands_of_generate hp (hset pid p info hi hst)
  · exact ⟨p, by rw [process?_act, if_neg he, hp], hst⟩

theorem Stands.sendAll (h : s.Stands pid st) (hset : Process.Settles sig st)
    (hi : info.signal = sig) (targets : List Pid) : (s.sendAll src info targets).Stands pid st := by
  unfold System.sendAll
  induction targets generalizing s with
  | nil => exact h
  | cons c targets ih => exact ih (h.generate hset hi c)

/-- Whoever is among the targets of a signal has it done to him, once or more. -/
theorem stands_of_sendAll (hp : s.process? pid = some p) (hset : Process.Settles sig st)
    (hi : info.signal = sig) (hst : (p.generate pid info).1.status = st) {targets : List Pid}
    (hmem : pid ∈ targets) : (s.sendAll src info targets).Stands pid st := by
  induction targets generalizing s with
  | nil => simp at hmem
  | cons c targets ih =>
    rw [System.sendAll, List.foldl_cons]
    by_cases he : pid = c
    · subst he
      exact (stands_of_generate hp hst).sendAll hset hi targets
    · refine ih ?_ ((List.mem_cons.1 hmem).resolve_left he)
      rw [process?_act, if_neg he, hp]

/-- **A signal strikes a process**: however it is generated against it, by a call of
any process or by the outside, the process has the status in that very step. -/
structure Strikes (s : System) (sig : Signal) (pid : Pid) (st : Status) : Prop where
  generated : ∀ (src : Source) (info : SignalInfo), info.signal = sig →
    (s.act src pid (·.generate pid info)).Stands pid st
  sent : ∀ info : SignalInfo, info.signal = sig → (s.listed? pid).isSome = true →
    (s.move (.host (.send pid info))).Stands pid st
  called : ∀ (caller : Pid) (q : Process) (t : Task) (recipient : Recipient),
    s.process? caller = some q → q.task = some t →
    t.control = .execute (.kill recipient sig.number) →
    pid ∈ s.addressed q (recipientNumber caller q recipient) →
    (s.move (.process caller)).Stands pid st

theorem strikes_of_generate (hp : s.process? pid = some p) (hset : Process.Settles sig st)
    (hst : ∀ info : SignalInfo, info.signal = sig → (p.generate pid info).1.status = st) :
    s.Strikes sig pid st where
  generated src info hi := stands_of_generate hp (hst info hi)
  sent info hi hl := by
    obtain ⟨q, hq⟩ := Option.isSome_iff_exists.1 hl
    have hmove : s.move (.host (.send pid info)) =
        s.act .host pid (·.generate pid info) := by
      simp only [System.move, System.host, hq]
    exact hmove ▸ stands_of_generate hp (hst info hi)
  called caller q t recipient hq ht hc hmem := by
    have hne : sig.number ≠ 0 := Nat.succ_ne_zero _
    have htargets : (s.addressed q (recipientNumber caller q recipient)).isEmpty = false := by
      cases ha : s.addressed q (recipientNumber caller q recipient) with
      | nil => simp [ha] at hmem
      | cons => rfl
    have hmove : s.move (.process caller) =
        (s.sendAll ⟨some caller, t.openCalls⟩ (.user sig caller)
          (s.addressed q (recipientNumber caller q recipient))).answer caller (.ok .done) := by
      simp [System.move, System.step, hq, ht, hc, System.execute, System.kill, hne, htargets]
    rw [hmove]
    exact (stands_of_sendAll hp hset rfl (hst _ rfl) hmem).answer _

/-! ## What nobody can change -/

/-- **`kill` and `stop` are out of reach for a process**: of its mask, of its pending
set and of its table, so they strike it. -/
structure Untouchable (s : System) (pid : Pid) (p : Process) : Prop where
  unblocked : ∀ sig : Signal, sig.isUncatchable = true → sig ∉ p.inbox.blocked
  unpending : ∀ sig : Signal, sig.isUncatchable = true → sig ∉ p.inbox.pending
  default : ∀ sig : Signal, sig.isUncatchable = true → p.dispositions.get sig = .default
  /-- Whatever has not ended ends. -/
  killed : p.status.isExited = false → s.Strikes .kill pid (.exited 9)
  /-- Whatever runs is stopped. -/
  stopped : p.status = .normal → s.Strikes .stop pid (.stopped .stop)

/-- **The two signals are untouchable** for every process of every reachable state. -/
theorem untouchable_signals (h : Reachable s) (hp : s.process? pid = some p) :
    s.Untouchable pid p := by
  have hbox := h.sound.inboxes pid p hp
  exact {
    unblocked := fun sig hu hb => by
      have := hbox.blockable.catchable hb
      simp [hu] at this
    unpending := fun sig hu hs => by
      have := hbox.catchable sig hs
      simp [hu] at this
    default := fun sig hu => (h.built pid p hp).get_of_isUncatchable hu
    killed := fun hn => strikes_of_generate hp Process.settles_kill fun info hi =>
      Process.status_generate_kill hn hi
    stopped := fun hn => strikes_of_generate hp Process.settles_stop fun info hi =>
      Process.status_generate_stop hn hi }

/-- A process asks for `kill` to be ignored and, in a handler that masks every bit there
is, masks every bit once more and waits for every signal; another is about to send it
`kill`. -/
def besieged : List Move :=
  let every : SignalSet := ⟨BitVec.allOnes 64⟩
  let handler : Handler := .mk "deaf" 1
    [{ request := .engine (.changeMask .setMask every) }, { request := .system (.sigwait every) }]
  let action : Action Handler := { handler, mask := every }
  [Move.host (.root "fortress"),
    .host (.command 1 (.perform
      { request := .engine (.changeDisposition .usr1 (some (.handler action))) })),
    .process 1, .process 1,
    .host (.command 1 (.perform
      { request := .engine (.changeDisposition .kill (some .ignore)) })),
    .process 1, .process 1,
    .host (.send 1 (.user .usr1 0)),
    .host (.command 1 (.perform { request := .engine .checkPoint }))] ++
  List.replicate 9 (Move.process 1) ++
  [.host (.root "besieger"),
    .host (.command 2 (.perform { request := .system (.kill (.number 1) 9) })), .process 2]

/-- **It can be stopped from outside and killed by the other**, though it masks every bit
but two. -/
theorem untouchable_signals_of_besieged :
    let s := initial.run besieged
    (∃ p, s.process? 1 = some p ∧ p.status = .normal ∧
      p.inbox.blocked = ⟨0xfffffffffffbfeff#64⟩) ∧
    (s.move (.host (.send 1 (.user .stop 0)))).Stands 1 (.stopped .stop) ∧
    (s.move (.process 2)).Stands 1 (.exited 9) := by
  have hs : Reachable (initial.run besieged) := Reachable.initial.run besieged
  obtain ⟨p, hp, hn, hb⟩ : ∃ p, (initial.run besieged).process? 1 = some p ∧
      p.status = .normal ∧ p.inbox.blocked = ⟨0xfffffffffffbfeff#64⟩ :=
    ⟨_, by cbv, by cbv, by cbv⟩
  have hu := untouchable_signals hs hp
  have hkill := hu.killed (by rw [hn]; rfl)
  refine ⟨⟨p, hp, hn, hb⟩, (hu.stopped hn).sent _ rfl (by cbv), ?_⟩
  exact hkill.called 2 _ _ (.number 1) (by cbv) (by cbv) (by cbv) (by cbv; exact .head _)

end System

end PosixSignals
