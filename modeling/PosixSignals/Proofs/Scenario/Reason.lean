import PosixSignals.Proofs.Scenario.Course
import PosixSignals.Proofs.System.Chronicle

/-!
# Why a status changes

For every change of status that a move puts on record there is a reason. Either
a signal was generated against the process in that very move, or taken by it
at a check point, whose default action is that change; or the process itself
decides on it, by calling `exit` or by the way its main routine ends; or the
outside asks for it. The reasons are followed through every operation of the
system, since most of them change statuses only by generating signals.
-/

namespace PosixSignals

/-- Whether an event changes a status, or reports the last one of a root. -/
def Event.isFateful : Event → Bool
  | .stopped .. | .continued _ | .exited .. | .becameZombie _ | .rootEnded _ => true
  | _ => false

/-- Whether a default action ends the process. -/
def DefaultAction.isFatal : DefaultAction → Bool
  | .terminate | .coreDump => true
  | .ignore | .stop | .continue => false

/-- **A signal strikes a process**, among some records: its default action is carried out
when it is generated, or the process takes it at a check point. -/
inductive Struck (new : List Record) (pid : Pid) (sig : Signal) : Prop
  | generated {src : Source} {info : SignalInfo} (hi : info.signal = sig)
      (h : ⟨src, .generated info pid (.defaultAction sig.defaultAction)⟩ ∈ new)
  | handled {calls : List CallName} (h : ⟨⟨some pid, calls⟩, .handling sig⟩ ∈ new)

/-- **The signal by which a status changes**, among some records. -/
inductive Caused (new : List Record) : Event → Prop
  | stopped {pid : Pid} {sig : Signal} (h : Struck new pid sig) (hd : sig.defaultAction = .stop) :
      Caused new (.stopped pid sig)
  | continued {pid : Pid} {src : Source} {info : SignalInfo} {outcome : Generated}
      (hi : info.signal = .cont) (h : ⟨src, .generated info pid outcome⟩ ∈ new) :
      Caused new (.continued pid)
  | killed {pid : Pid} {sig : Signal} (h : Struck new pid sig)
      (hd : sig.defaultAction.isFatal = true) : Caused new (.exited pid (.ofSignal sig))

/-- The wait status that a process gives itself by what it does next. -/
def Control.verdict? : Control → Option WaitStatus
  | .execute (.exit code) => some (.ofExitCode code)
  | .finish (.code n) => some (.ofExitCode n)
  | .finish (.error .mustExit) => none
  | .finish (.error e) => some (.ofExitCode e.number)
  | .finish .panic => some (.ofSignal .abrt)
  | _ => none

/-- What a process decides about its status by what it does next. -/
def Control.Decides (pid : Pid) (c : Control) : Event → Prop
  | .exited q w => q = pid ∧ c.verdict? = some w
  | .becameZombie q => q = pid ∧ ∃ e, c = .finish e
  | .rootEnded _ => ∃ e, c = .finish e
  | _ => False

variable {pid : Pid} {sig : Signal} {e : Event} {src : Source} {new new' : List Record}

/-- A signal that has struck has done so among more records. -/
theorem Struck.mono (h : Struck new pid sig) (hsub : new ⊆ new') : Struck new' pid sig := by
  cases h with
  | generated hi h => exact .generated hi (hsub h)
  | handled h => exact .handled (hsub h)

/-- A cause among some records is one among more. -/
theorem Caused.mono (h : Caused new e) (hsub : new ⊆ new') : Caused new' e := by
  cases h with
  | stopped h hd => exact .stopped (h.mono hsub) hd
  | continued hi h => exact .continued hi (hsub h)
  | killed h hd => exact .killed (h.mono hsub) hd

namespace Process

variable {p : Process} {info : SignalInfo} {now : Nat} {events : List Event}

/-- A change that a default action brings about is the one it stands for. -/
theorem caused_of_act (hs : Struck new pid sig)
    (he : e ∈ (p.act pid sig sig.defaultAction).2) : Caused new e := by
  cases ha : sig.defaultAction <;> rw [ha] at he
  case terminate | coreDump => exact eq_exited_of_mem he ▸ .killed hs (by rw [ha]; rfl)
  case stop => exact eq_stopped_of_mem he ▸ .stopped hs ha
  case ignore | «continue» => simp [act] at he

/-- What comes of a signal in the inbox has that signal for its cause. -/
theorem Acceptance.caused {c : Process × List Event} (h : p.Acceptance pid info c)
    (hnew : ∀ e ∈ c.2, ⟨src, e⟩ ∈ new) (he : e ∈ c.2) (hc : e.isFateful = true) :
    Caused new e := by
  cases h with
  | noted =>
    obtain rfl := List.mem_singleton.1 he
    cases hc
  | acted =>
    rcases List.mem_cons.1 he with rfl | he
    · cases hc
    · exact caused_of_act (.generated rfl (hnew _ List.mem_cons_self)) he

/-- **A generated signal is the reason for whatever it changes.** -/
theorem caused_of_generate (hnew : ∀ e ∈ (p.generate pid info).2, ⟨src, e⟩ ∈ new)
    (he : e ∈ (p.generate pid info).2) (hc : e.isFateful = true) : Caused new e := by
  have hg := p.generation pid info
  generalize p.generate pid info = c at hg he hnew
  cases hg with
  | dropped =>
    obtain rfl := List.mem_singleton.1 he
    cases hc
  | lifted hcont _ ha =>
    -- only `cont` lifts anything, and where it went is on record
    rcases List.mem_cons.1 he with rfl | he
    · obtain ⟨outcome, hmem⟩ := ha.mem_generated
      exact .continued hcont (hnew _ (List.mem_cons_of_mem _ hmem))
    · exact ha.caused (fun e he => hnew e (List.mem_cons_of_mem _ he)) he hc
  | accepted _ _ ha => exact ha.caused hnew he hc

/-! ## What a process does alone -/

/-- The start of a handler changes no status. -/
theorem isFateful_of_deliver {action : Action Installed} (he : e ∈ (p.deliver sig action).2) :
    e.isFateful = false := by
  obtain rfl := List.mem_singleton.1 he
  rfl

/-- **At a check point** only the signal that is taken changes the status. -/
theorem caused_of_check {delivered : Bool} {calls : List CallName}
    (hnew : ∀ e ∈ (p.check pid delivered).2, ⟨⟨some pid, calls⟩, e⟩ ∈ new)
    (he : e ∈ (p.check pid delivered).2) (hc : e.isFateful = true) : Caused new e := by
  have hchecked := p.checked pid delivered
  generalize p.check pid delivered = r at hchecked hnew he
  cases hchecked with
  | ended | passed => simp at he
  | stopped =>
    obtain rfl := List.mem_singleton.1 he
    cases hc
  | took _ _ h =>
    cases h with
    | ignored => rcases List.mem_cons.1 he with rfl | he <;> simp_all [Event.isFateful]
    | default =>
      rcases List.mem_cons.1 he with rfl | he
      · cases hc
      · exact caused_of_act (.handled (hnew _ List.mem_cons_self)) he
    | entered =>
      rcases List.mem_cons.1 he with rfl | he
      · cases hc
      · rw [isFateful_of_deliver he] at hc
        cases hc

/-- A wait takes signals without carrying them out. -/
theorem isFateful_of_waitAny {w : AnyWait} (he : e ∈ (p.waitAny now w).2) :
    e.isFateful = false := by
  have hwaited := p.waited now w
  generalize p.waitAny now w = r at hwaited he
  cases hwaited with
  | stopped | took =>
    obtain rfl := List.mem_singleton.1 he
    rfl
  | ended | interrupted | serves | expired | blocked => simp at he

/-- Constructs of the engine change no status as they begin. -/
theorem isFateful_of_engage {call : EngineCall Handler} (he : e ∈ (p.engage now call).2) :
    e.isFateful = false := by
  cases call with
  | deliver sig action => exact isFateful_of_deliver he
  | _ => simp [engage] at he

/-- Nor does anything else that a routine asks for. -/
theorem isFateful_of_perform {frames : List Frame} {request : Request Handler}
    (he : e ∈ (p.perform now frames request).2) : e.isFateful = false := by
  cases request with
  | system call | panic => simp [perform] at he
  | engine call => exact isFateful_of_engage he
  | fail error =>
    simp only [perform] at he
    split at he <;>
    · obtain rfl := List.mem_singleton.1 he
      rfl

/-- To go on with a handler, or to leave it, changes none. -/
theorem isFateful_of_proceed {frames : List Frame} (he : e ∈ (p.proceed frames).2) :
    e.isFateful = false := by
  unfold proceed at he
  split at he
  · obtain rfl := List.mem_singleton.1 he
    rfl
  · simp at he
  · simp at he

/-- A reply that comes to its frame changes none. -/
theorem isFateful_of_accommodate {f : Frame} {r : Reply} (he : e ∈ (p.accommodate now f r).2) :
    e.isFateful = false := by
  cases f with
  | main | body | callBody =>
    obtain rfl := List.mem_singleton.1 he
    rfl
  | delivery | suspended | asleep => simp [accommodate] at he
  | round | callExit | waiting => cases r <;> simp [accommodate] at he

/-- A `sigaction` changes none. -/
theorem isFateful_of_sigaction (number : Nat) (new : Option (Disposition Handler)) :
    ∀ e ∈ (p.sigaction number new).2, e.isFateful = false := by
  unfold sigaction
  split
  · simp
  · dsimp only
    split <;> simp [Event.isFateful]

/-- Nor does a `wait4` as it begins. -/
theorem isFateful_of_wait4 (selector : Int) (options : BitVec 32) :
    ∀ e ∈ (p.wait4 selector options).2, e.isFateful = false := by
  unfold wait4
  split
  · simp [Event.isFateful]
  split
  · simp
  split <;> simp [Event.isFateful]

/-- **What a process does alone** changes its status only by the signals it takes. -/
theorem caused_of_step {t : Task} {calls : List CallName}
    (hnew : ∀ e ∈ (p.step now pid t).2, ⟨⟨some pid, calls⟩, e⟩ ∈ new)
    (he : e ∈ (p.step now pid t).2) (hc : e.isFateful = true) : Caused new e := by
  have hnot : e.isFateful = false → Caused new e := fun h => by rw [hc] at h; cases h
  obtain ⟨frames, c, root⟩ := t
  cases c with
  | idle | execute | finish | blocked => simp [step] at he
  | perform request => exact hnot (isFateful_of_perform he)
  | proceed => exact hnot (isFateful_of_proceed he)
  | loop l =>
    cases l with
    | check delivered => exact caused_of_check hnew he hc
    | waitAny w => exact hnot (isFateful_of_waitAny he)
    | suspend | sleep | wait4 => simp [step] at he
  | reply r =>
    cases frames with
    | nil => simp [step] at he
    | cons f frames => exact hnot (isFateful_of_accommodate he)
  | panic =>
    cases frames with
    | nil => simp [step] at he
    | cons f frames => simp [step] at he

end Process

/-! ## What the system does -/

namespace System

variable {s s' s'' : System} {why : Event → Prop} {f : Process → Process × List Event}
  {g : Process → Process} {p : Process} {info : SignalInfo} {r : Reply}

/-- **Every fateful event between two states has its reason**: a signal, or one that is
given. -/
def Explained (why : Event → Prop) (s s' : System) : Prop :=
  ∃ new, s'.history = new ++ s.history ∧
    ∀ r ∈ new, r.event.isFateful = true → Caused new r.event ∨ why r.event

/-- Where nothing is noted, there is nothing to explain. -/
theorem explained_of_history (h : s'.history = s.history) : Explained why s s' :=
  ⟨[], h, by simp⟩

/-- A reason among the earlier records stays one. -/
theorem Explained.trans (h : Explained why s s') (h' : Explained why s' s'') :
    Explained why s s'' := by
  obtain ⟨new, hs, hnew⟩ := h
  obtain ⟨new', hs', hnew'⟩ := h'
  refine ⟨new' ++ new, by rw [hs', hs, List.append_assoc], fun r hr hc => ?_⟩
  rcases List.mem_append.1 hr with hr | hr
  · exact (hnew' r hr hc).imp_left fun h => h.mono (List.subset_append_left _ _)
  · exact (hnew r hr hc).imp_left fun h => h.mono (List.subset_append_right _ _)

/-- A remark needs no reason. -/
theorem explained_note (he : e.isFateful = false) : Explained why s (s.note src e) :=
  ⟨[⟨src, e⟩], rfl, fun r hr hc => by
    obtain rfl := List.mem_singleton.1 hr
    simp [he] at hc⟩

/-- A quiet change is not fateful. -/
theorem explained_update : Explained why s (s.update pid g) := explained_of_history update_history

/-- An answer is not fateful. -/
theorem explained_answer : Explained why s (s.answer pid r) := explained_update

/-- A change of one process, explained among all that it notes. -/
theorem explained_act (hf : ∀ p new, s.process? pid = some p →
      (∀ e ∈ (f p).2, ⟨src, e⟩ ∈ new) → ∀ e ∈ (f p).2, e.isFateful = true →
      Caused new e ∨ why e) : Explained why s (s.act src pid f) := by
  cases hp : s.process? pid with
  | none => exact explained_of_history (by rw [act_of_none hp])
  | some p =>
    refine ⟨_, act_history hp, fun r hr hc => ?_⟩
    obtain ⟨e, he, rfl⟩ := List.mem_map.1 (List.mem_reverse.1 hr)
    exact hf p _ hp (fun e he => List.mem_reverse.2 (List.mem_map_of_mem he)) e he hc

/-- **A generation explains itself.** -/
theorem explained_generate : Explained why s (s.act src pid (·.generate pid info)) :=
  explained_act fun _ _ _ hnew _ he hc => .inl (Process.caused_of_generate hnew he hc)

/-- What a process does to itself without regard to its status. -/
theorem explained_plain (hf : ∀ p, ∀ e ∈ (f p).2, e.isFateful = false) :
    Explained why s (s.act src pid f) :=
  explained_act fun p _ _ _ e he hc => by simp [hf p e he] at hc

/-- An end that there is a reason for. -/
theorem explained_exit {w : WaitStatus} (hw : why (.exited pid w))
    (hf : ∀ p, (f p).2 = (p.orStay (p.exit pid w)).2) : Explained why s (s.act src pid f) :=
  explained_act fun p _ _ _ e he _ => by
    rw [hf] at he
    exact .inr (Process.eq_exited_of_mem he ▸ hw)

/-- A stop from outside has been decided on. -/
theorem explained_stop {sig : Signal} (hw : why (.stopped pid sig)) :
    Explained why s (s.act src pid fun p => p.orStay (p.stop pid sig)) :=
  explained_act fun _ _ _ _ _ he _ => .inr (Process.eq_stopped_of_mem he ▸ hw)

/-- So has a continue from outside. -/
theorem explained_resume (hw : why (.continued pid)) :
    Explained why s (s.act src pid fun p => p.orStay (p.resume pid)) :=
  explained_act fun _ _ _ _ _ he _ => .inr (Process.eq_continued_of_mem he ▸ hw)

/-! ## Calls -/

/-- Signals explain what they do, one after the other. -/
theorem explained_sendAll (targets : List Pid) : Explained why s (s.sendAll src info targets) := by
  unfold sendAll
  induction targets generalizing s with
  | nil => exact explained_of_history rfl
  | cons q targets ih => exact explained_generate.trans ih

/-- The signals of a `kill` explain what they do. -/
theorem explained_kill (recipient : Recipient) (number : Nat) :
    Explained why s (s.kill src pid p recipient number) := by
  rcases s.kill_cases src pid p recipient number with ⟨e, h⟩ | h | ⟨sig, h⟩ <;> rw [h]
  · exact explained_answer
  · exact explained_answer
  · exact (explained_sendAll _).trans explained_answer

/-- A birth changes nobody's status. -/
theorem explained_bear {pids : IdPool} : Explained why s (s.bear src pid pids p) :=
  ⟨[⟨src, .created pid p.parent⟩], rfl, fun r hr hc => by
    obtain rfl := List.mem_singleton.1 hr
    cases hc⟩

/-- A fork changes nobody's status. -/
theorem explained_fork (task : Option Task) : Explained why s (s.fork src pid p task).2 := by
  rcases s.fork_cases src pid p task with h | ⟨child, pids, -, h⟩
  · exact explained_of_history (by rw [h])
  · rw [h]
    exact explained_bear.trans explained_update

/-- A root that is started, or refused, changes nobody's status. -/
theorem explained_addRoot (name : String) (task : Option Task) :
    Explained why s (s.addRoot src name task).2 := by
  rcases s.addRoot_cases src name task with h | ⟨pid, pids, -, h⟩
  · exact explained_of_history (by rw [h])
  · rw [h]
    exact explained_bear

/-- A `fork` begets a child and answers, and neither is fateful. -/
theorem explained_forkCall : Explained why s (s.forkCall src pid p) := by
  have h : Explained why s (s.fork src pid p (some {})).2 := explained_fork _
  rw [forkCall_eq]
  exact h.trans explained_answer

/-- Limits are no part of a status. -/
theorem explained_prlimit (target : Pid) (resource : Nat) (new : Option Limit) :
    Explained why s (s.prlimit src pid target resource new) := by
  rcases s.prlimit_cases src pid target resource new with
    ⟨e, h⟩ | ⟨r, q, e, h⟩ | ⟨r, q, old, limits, h⟩ <;> rw [h]
  · exact explained_answer
  · exact (explained_note rfl).trans explained_answer
  · exact (explained_note rfl).trans (explained_update.trans explained_answer)

/-- A sweep notes nothing, so there is nothing to explain. -/
theorem explained_sweep (ho : s.Ordered) : Explained why s s.sweep :=
  explained_of_history (sweep_history ho)

/-- To reap a child is not to change its status. -/
theorem explained_wait4 (selector : Int) (noHang : Bool) (ho : s.Ordered) :
    Explained why s (s.wait4 src pid p selector noHang) := by
  have hglance := s.glance src pid p selector noHang
  generalize s.wait4 src pid p selector noHang = s' at hglance ⊢
  cases hglance with
  | failed | hurried | left | interrupted => exact explained_answer
  | @reaped child w =>
    have hreap : Explained why s (s.reap src pid child) :=
      explained_update.trans (explained_update.trans (explained_note rfl))
    exact (hreap.trans explained_answer).trans (explained_sweep (ordered_update (ordered_reap ho)))
  | blocked =>
    exact explained_plain fun p e he => by
      obtain rfl := List.mem_singleton.1 he
      rfl

/-- **The body of a system call** changes a status by signals, or it is `exit`. -/
theorem explained_execute (call : SystemCall Handler)
    (hw : ∀ code, call = .exit code → why (.exited pid (.ofExitCode code))) :
    Explained why s (s.execute src pid p call) := by
  cases call with
  | kill recipient number => exact explained_kill recipient number
  | sigaction number new => exact explained_plain fun p => Process.isFateful_of_sigaction number new
  | fork => exact explained_forkCall
  | exit code => exact explained_exit (hw code rfl) fun _ => rfl
  | wait4 selector options =>
    exact explained_plain fun p => Process.isFateful_of_wait4 selector options
  | prlimit target resource new => exact explained_prlimit target resource new
  | sigprocmask | sigpending | sigtimedwait | sigwait | sigsuspend | nanosleep | getpid | getppid
  | schedYield | sysinfo => exact explained_update

/-! ## Ends -/

/-- A main routine decides on the end that it marks. -/
theorem explained_conclude (e : Ending)
    (hw : ∀ w, (Control.finish e).verdict? = some w → why (.exited pid w)) :
    Explained why s (s.conclude src pid e) := by
  cases e with
  | code n => exact explained_exit (hw _ rfl) fun _ => rfl
  | panic => exact (explained_note rfl).trans (explained_exit (hw _ rfl) fun _ => rfl)
  | error e =>
    cases e with
    | mustExit => exact explained_of_history rfl
    | _ => exact (explained_note rfl).trans (explained_exit (hw _ rfl) fun _ => rfl)

/-- The table stays in order while a process is laid to rest. -/
theorem ordered_ended (e : Ending) (hsrc : src.pid = some pid) (ho : s.Ordered) :
    ((s.conclude src pid e).lay src pid p).Ordered := by
  have hconclude : Evolves (some pid) false false s (s.conclude src pid e) :=
    evolves_conclude hsrc e
  exact (evolves_lay hsrc).ordered (hconclude.ordered ho)

/-- **What an end puts on record**: the burial, and the report where it is that of a root. -/
theorem finish_history (t : Task) (e : Ending) (hsrc : src.pid = some pid) (ho : s.Ordered)
    (hp : (s.conclude src pid e).process? pid = some p) :
    (s.finish src pid t e).history =
      (if t.root then [⟨src, .rootEnded p.status.waitStatus⟩] else []) ++
        ((s.conclude src pid e).lay src pid p).history := by
  have hordered := ordered_ended (p := p) e hsrc ho
  rw [finish_eq t e hp]
  split
  · have hnoted : (((s.conclude src pid e).lay src pid p).note src
        (.rootEnded p.status.waitStatus)).Ordered := ⟨hordered.ascending, hordered.used⟩
    exact sweep_history hnoted
  · exact sweep_history hordered

/-- Orphans keep their status. -/
theorem explained_orphans (children : List Pid) :
    Explained why s (children.foldl orphan s) := by
  induction children generalizing s with
  | nil => exact explained_of_history rfl
  | cons c children ih => exact explained_update.trans ih

/-- A parent is told by a signal. -/
theorem explained_tell (parent : Option Pid) : Explained why s (s.tell src pid parent) := by
  cases parent with
  | none => exact explained_update
  | some parent => exact explained_generate.trans explained_update

/-- A process that ends decides to become a zombie. -/
theorem explained_lay (hw : why (.becameZombie pid)) : Explained why s (s.lay src pid p) := by
  have hentomb : ∀ s : System, Explained why s (s.entomb src pid) := fun s =>
    explained_act fun _ _ _ _ e he _ => .inr (List.mem_singleton.1 he ▸ hw)
  rw [lay_eq]
  exact (explained_orphans p.children).trans
    ((hentomb _).trans ((explained_tell p.parent).trans explained_update))

/-- To mark an end and to lay the process to rest is what the process decides on. -/
theorem explained_ended (e : Ending) (hw : ∀ w, (Control.finish e).verdict? = some w →
    why (.exited pid w)) (hz : why (.becameZombie pid)) :
    Explained why s ((s.conclude src pid e).lay src pid p) :=
  (explained_conclude e hw).trans (explained_lay hz)

/-- **An end** changes what it decides on, and for the rest it generates signals. -/
theorem explained_finish (t : Task) (e : Ending) (hsrc : src.pid = some pid) (ho : s.Ordered)
    (hw : ∀ w, (Control.finish e).verdict? = some w → why (.exited pid w))
    (hz : why (.becameZombie pid)) (hr : ∀ w, why (.rootEnded w)) :
    Explained why s (s.finish src pid t e) := by
  cases hp : (s.conclude src pid e).process? pid with
  | none =>
    have hnone : s.finish src pid t e = s.conclude src pid e := by simp only [finish, hp]
    exact hnone ▸ explained_conclude e hw
  | some p =>
    have hended : Explained why s ((s.conclude src pid e).lay src pid p) := explained_ended e hw hz
    refine hended.trans ⟨_, finish_history t e hsrc ho hp, fun r hmem _ => ?_⟩
    split at hmem
    · obtain rfl := List.mem_singleton.1 hmem
      exact .inr (hr _)
    · cases hmem

/-! ## Moves -/

/-- **What a move decides on**, apart from the signals it generates. -/
def Decides (s : System) : Move → Event → Prop
  | .process pid, e => ∃ x, s.context? pid = some x ∧ x.control.Decides pid e
  | .host (.exit pid w), .exited q w' => q = pid ∧ w' = w
  | .host (.stop pid sig), .stopped q sig' => q = pid ∧ sig' = sig
  | .host (.resume pid), .continued q => q = pid
  | _, _ => False

/-- **What a process does has a reason.** -/
theorem explained_step (hs : s.Sound) (pid : Pid) :
    Explained (s.Decides (.process pid)) s (s.step pid) := by
  have hcontext : ∀ {p t}, s.process? pid = some p → p.task = some t →
      s.context? pid = some ⟨t.frames, t.control, p.inbox.blocked⟩ := fun hp ht =>
    context?_eq_some.2 ⟨_, hp, Process.context?_eq_some.2 ⟨_, ht, rfl⟩⟩
  have hstride := s.stride pid
  generalize s.step pid = s' at hstride ⊢
  cases hstride with
  | nobody => exact explained_of_history rfl
  | alone =>
    refine explained_act fun p' new hp' hnew e he hc => .inl ?_
    exact Process.caused_of_step hnew he hc
  | executes hp ht hc =>
    refine explained_execute _ fun code he => ⟨_, hcontext hp ht, ?_⟩
    exact ⟨rfl, by rw [hc, he]; rfl⟩
  | looks => exact explained_wait4 _ _ hs.ordered
  | @finishes _ t e hp ht hc =>
    have hx := hcontext hp ht
    refine explained_finish t e rfl hs.ordered (fun w hw => ⟨_, hx, rfl, ?_⟩) ⟨_, hx, rfl, e, hc⟩
      fun _ => ⟨_, hx, e, hc⟩
    rw [hc]
    exact hw

/-- **So has what is done from outside.** -/
theorem explained_host (hs : s.Sound) (step : HostStep) :
    Explained (s.Decides (.host step)) s (s.host step).2 := by
  have hstep := s.intervention step
  generalize (s.host step).2 = s' at hstep ⊢
  cases hstep with
  | nothing => exact explained_of_history rfl
  | told => exact explained_update
  | founded => exact explained_addRoot _ _
  | refused => exact (explained_addRoot _ _).trans (explained_note rfl)
  | started =>
    exact addRoots_induct (explained_of_history rfl)
      (fun _ h => h.trans (explained_addRoot _ none)) _
  | forked => exact explained_fork none
  | sent => exact explained_generate
  | removed => exact explained_update.trans (explained_sweep (ordered_update hs.ordered))
  | exited => exact explained_exit ⟨rfl, rfl⟩ fun _ => rfl
  | stopped => exact explained_stop ⟨rfl, rfl⟩
  | resumed => exact explained_resume rfl
  | reaped => exact explained_update.trans (explained_sweep (ordered_update hs.ordered))

/-- **Every change of status has its reason.** -/
theorem explained_move (hs : s.Sound) (m : Move) : Explained (s.Decides m) s (s.move m) := by
  cases m with
  | process pid => exact explained_step hs pid
  | host step => exact explained_host hs step
  | clock t => exact explained_of_history rfl

end System

end PosixSignals
