import Mathlib.Logic.Relation
import PosixSignals.Proofs.Process.Conduct
import PosixSignals.Proofs.System.Sharing

/-!
# How the system evolves

The changes of the system with all they note. A deed is done to one
process: a signal is generated against it, it is ended, stopped or
continued, it is told of a child, or it does something mild itself. Deeds
among kin change who is whose child and who is in the table. Besides, a
process can be born or forgotten, remarks are made, and time passes. A step
that takes a signal is not among these; it stands alone.
-/

namespace PosixSignals

/-- An event that tells of nothing that changes a process. -/
def Event.isRemark : Event → Bool
  | .limitAccessed .. | .reaped _ | .mainFailed _ | .panicked | .rootEnded _
  | .rootRefused _ => true
  | _ => false

namespace System

variable {s s' s'' : System} {actor : Option Pid} {kin mortal : Bool} {pid : Pid} {src : Source}
  {f : Process → Process × List Event} {g : Process → Process} {r : Reply}

/-- **What is done to one process**, with what that notes: by `actor`, if it is
something that a process does to itself. -/
inductive Deed (actor : Option Pid) (kin mortal : Bool) (pid : Pid) (p : Process) :
    Process × List Event → Prop
  | generate (info : SignalInfo) : Deed actor kin mortal pid p (p.generate pid info)
  | exit (w : WaitStatus) : Deed actor kin mortal pid p (p.orStay (p.exit pid w))
  | stop (sig : Signal) : Deed actor kin mortal pid p (p.orStay (p.stop pid sig))
  | resume : Deed actor kin mortal pid p (p.orStay (p.resume pid))
  | noticeChild : Deed actor kin mortal pid p (p.noticeChild, [])
  | limits (l : Limits) : Deed actor kin mortal pid p ({ p with limits := l }, [])
  | mild {r : Process × List Event} (ha : actor = some pid) (h : p.Mild pid r) :
      Deed actor kin mortal pid p r
  /-- Its place among the others is another. -/
  | placed (hk : kin = true) (parent : Option Pid) (children : List Pid) (listed : Bool) :
      Deed actor kin mortal pid p ({ p with parent, children, listed }, [])
  | buried (hm : mortal = true) (ha : actor = some pid) :
      Deed actor kin mortal pid p
        ({ p with children := [], status := p.status.toZombie }, [.becameZombie pid])
  | released (hm : mortal = true) (ha : actor = some pid) :
      Deed actor kin mortal pid p ({ p with task := none }, [])

/-- A process comes into being under a number that the pool has handed out. -/
def bear (s : System) (src : Source) (pid : Pid) (pids : IdPool) (p : Process) : System :=
  note { s with pids, processes := s.processes.insert pid p } src (.created pid p.parent)

/-- **One change of the system.** -/
inductive Happens (actor : Option Pid) (kin mortal : Bool) (s : System) : System → Prop
  | remark {src : Source} {e : Event} (hsrc : src.pid = actor) (he : e.isRemark = true) :
      Happens actor kin mortal s (s.note src e)
  | deed {src : Source} {pid : Pid} {f : Process → Process × List Event}
      (hsrc : src.pid = actor ∨ ∀ p, (f p).2 = [])
      (hf : ∀ p, s.process? pid = some p → Deed actor kin mortal pid p (f p)) :
      Happens actor kin mortal s (s.act src pid f)
  | root {src : Source} {pid : Pid} {pids : IdPool} {name : String} {task : Option Task}
      (hk : kin = true) (hsrc : src.pid = actor) (ha : s.pids.alloc = (some pid, pids))
      (ht : Waiting task) :
      Happens actor kin mortal s (s.bear src pid pids (.root pid name task))
  | child {src : Source} {pid parent : Pid} {pids : IdPool} {p : Process} {task : Option Task}
      (hk : kin = true) (hsrc : src.pid = actor) (ha : s.pids.alloc = (some pid, pids))
      (hp : s.process? parent = some p) (ht : Waiting task) :
      Happens actor kin mortal s (s.bear src pid pids (p.childOf parent task))
  /-- A process that nothing refers to is forgotten. -/
  | forget {pid : Pid} (hk : kin = true)
      (hu : ∀ p, s.process? pid = some p → s.isReferenced pid p = false) :
      Happens actor kin mortal s (s.drop pid)
  | wait (t : Nat) : Happens actor kin mortal s (s.waitUntil t)

/-- Any number of changes. -/
abbrev Evolves (actor : Option Pid) (kin mortal : Bool) : System → System → Prop :=
  Relation.ReflTransGen (Happens actor kin mortal)

/-- What leaves kin alone is allowed where it need not. -/
theorem Deed.mono {p : Process} {r : Process × List Event} (h : Deed actor false false pid p r) :
    Deed actor kin mortal pid p r := by
  cases h with
  | generate info => exact .generate info
  | exit w => exact .exit w
  | stop sig => exact .stop sig
  | resume => exact .resume
  | noticeChild => exact .noticeChild
  | limits l => exact .limits l
  | mild ha h => exact .mild ha h
  | placed h | buried h | released h => simp at h

/-- What leaves kin alone and ends nobody is among what does more. -/
theorem Evolves.mono (h : Evolves actor false false s s') : Evolves actor kin mortal s s' := by
  refine h.lift id fun a b hab => ?_
  cases hab with
  | remark hsrc he => exact .remark hsrc he
  | deed hsrc hf => exact .deed hsrc fun p hp => (hf p hp).mono
  | root hk | child hk | forget hk => simp at hk
  | wait t => exact .wait t

/-! ## What stays in order -/

/-- A birth adds one process, and changes none. -/
theorem process?_bear {pids : IdPool} {p : Process} {pid' : Pid} :
    (s.bear src pid pids p).process? pid' = if pid' = pid then some p else s.process? pid' :=
  Registry.get?_insert

/-- Whoever is there after a birth is the one that was born, or was there. -/
theorem process?_bear_eq_some {pids : IdPool} {p q : Process} {pid' : Pid} :
    (s.bear src pid pids p).process? pid' = some q ↔
      pid' = pid ∧ q = p ∨ pid' ≠ pid ∧ s.process? pid' = some q := by
  rw [process?_bear]
  split <;> simp [*, eq_comm (a := q)]

/-- The table stays in order, and the number of the newborn is in use. -/
theorem Ordered.bear (ho : s.Ordered) {pids : IdPool} {p : Process}
    (ha : s.pids.alloc = (some pid, pids)) : (s.bear src pid pids p).Ordered where
  ascending := ho.ascending.insert _ _
  used pid' hp := by
    have hused : pids.used = pid :: s.pids.used := (IdPool.not_mem_of_alloc ha).2
    show pid' ∈ pids.used
    rw [hused]
    rw [process?_bear] at hp
    split at hp
    · next he => exact he ▸ List.mem_cons_self
    · exact List.mem_cons_of_mem _ (ho.used pid' hp)

/-- **Every change keeps the table in order.** -/
theorem Happens.ordered (h : Happens actor kin mortal s s') (ho : s.Ordered) : s'.Ordered := by
  cases h with
  | remark => exact ⟨ho.ascending, ho.used⟩
  | deed => exact ho.act
  | root _ _ ha | child _ _ ha => exact ho.bear ha
  | forget => exact ho.drop
  | wait t => exact ⟨ho.ascending, ho.used⟩

/-- Any number of changes keeps the table in order. -/
theorem Evolves.ordered (h : Evolves actor kin mortal s s') (ho : s.Ordered) : s'.Ordered := by
  induction h with
  | refl => exact ho
  | tail _ h ih => exact h.ordered ih

/-! ## Single changes -/

/-- A remark in the name of its actor is a change that concerns nobody. -/
theorem evolves_note {e : Event} (hsrc : src.pid = actor) (he : e.isRemark = true) :
    Evolves actor kin mortal s (s.note src e) :=
  .single (.remark hsrc he)

/-- A deed that is noted in the name of its actor is a change. -/
theorem evolves_act (hsrc : src.pid = actor) (hf : ∀ p, Deed actor kin mortal pid p (f p)) :
    Evolves actor kin mortal s (s.act src pid f) :=
  .single (.deed (.inl hsrc) fun p _ => hf p)

/-- A deed that is not noted at all is one, whoever acts. -/
theorem evolves_update (hg : ∀ p, Deed actor kin mortal pid p (g p, [])) :
    Evolves actor kin mortal s (s.update pid g) :=
  .single (.deed (.inr fun _ => rfl) fun p _ => hg p)

/-- What a process does itself, in its own name. -/
theorem evolves_mild (hsrc : src.pid = some pid) (hf : ∀ p : Process, p.Mild pid (f p)) :
    Evolves (some pid) kin mortal s (s.act src pid f) :=
  evolves_act hsrc fun p => .mild rfl (hf p)

/-- What a process does mildly, without a word, is a change. -/
theorem evolves_mildly (hg : ∀ p : Process, p.Mild pid (g p, [])) :
    Evolves (some pid) kin mortal s (s.update pid g) :=
  evolves_update fun p => .mild rfl (hg p)

/-- A call is answered without a signal. -/
theorem evolves_answer (hr : offers? r = none) :
    Evolves (some pid) kin mortal s (s.answer pid r) :=
  evolves_mildly fun _ => Process.mild_answer r hr

/-- A signal that is generated is a deed of whoever sends it. -/
theorem evolves_generate {info : SignalInfo} (hsrc : src.pid = actor) :
    Evolves actor kin mortal s (s.act src pid (·.generate pid info)) :=
  evolves_act hsrc fun _ => .generate info

/-- A signal is generated against each of its targets. -/
theorem evolves_sendAll {info : SignalInfo} (hsrc : src.pid = actor) (targets : List Pid) :
    Evolves actor kin mortal s (s.sendAll src info targets) := by
  unfold sendAll
  induction targets generalizing s with
  | nil => exact .refl
  | cons q targets ih => exact (evolves_generate hsrc).trans ih

/-! ## Calls -/

section Calls

variable {p : Process} (hsrc : src.pid = some pid)
include hsrc

/-- A `kill` is refused, or generates signals. -/
theorem evolves_kill (recipient : Recipient) (number : Nat) :
    Evolves (some pid) kin mortal s (s.kill src pid p recipient number) := by
  rcases s.kill_cases src pid p recipient number with ⟨e, h⟩ | h | ⟨sig, h⟩ <;> rw [h]
  · exact evolves_answer rfl
  · exact evolves_answer rfl
  · exact (evolves_sendAll hsrc _).trans (evolves_answer rfl)

/-- A `prlimit` is refused, or answers with the old limit and sets the new one. -/
theorem evolves_prlimit (target : Pid) (resource : Nat) (new : Option Limit) :
    Evolves (some pid) kin mortal s (s.prlimit src pid target resource new) := by
  rcases s.prlimit_cases src pid target resource new with
    ⟨e, h⟩ | ⟨r, q, e, h⟩ | ⟨r, q, old, limits, h⟩ <;> rw [h]
  · exact evolves_answer rfl
  · exact (evolves_note hsrc rfl).trans (evolves_answer rfl)
  · have hset : ∀ {s : System} (q : Pid) (l : Limits),
        Evolves (some pid) kin mortal s (s.update q fun q => { q with limits := l }) :=
      fun q l => evolves_update fun _ => .limits l
    exact (evolves_note hsrc rfl).trans ((hset _ _).trans (evolves_answer rfl))

/-- **No call but `fork` changes who is kin to whom.** -/
theorem evolves_execute {call : SystemCall Handler} (hc : call ≠ .fork) :
    Evolves (some pid) kin mortal s (s.execute src pid p call) := by
  cases call with
  | kill recipient number => exact evolves_kill hsrc recipient number
  | sigaction number new => exact evolves_mild hsrc fun _ => Process.mild_sigaction number new
  | sigprocmask how set => exact evolves_mildly fun _ => Process.mild_sigprocmask how set
  | sigpending => exact evolves_mildly fun _ => Process.mild_answer _ rfl
  | getpid | getppid | schedYield | sysinfo => exact evolves_answer rfl
  | sigtimedwait set timeout => exact evolves_mildly fun _ => Process.mild_beginWaitAny set timeout
  | sigwait set => exact evolves_mildly fun _ => Process.mild_beginWaitAny set none
  | sigsuspend mask => exact evolves_mildly fun _ => Process.mild_beginSuspend mask
  | fork => exact absurd rfl hc
  | exit code => exact evolves_mild hsrc fun _ => Process.mild_exitCall code
  | wait4 selector options => exact evolves_mild hsrc fun _ => Process.mild_wait4 selector options
  | nanosleep timeout => exact evolves_mildly fun _ => Process.mild_beginSleep timeout
  | prlimit target resource new => exact evolves_prlimit hsrc target resource new

/-- A turn of a wait for children that reaps nobody. -/
theorem evolves_wait4 {selector : Int} {noHang : Bool}
    (hr : ∀ child w, s.ready? p selector ≠ .ok (some (child, w))) :
    Evolves (some pid) kin mortal s (s.wait4 src pid p selector noHang) := by
  have hglance := s.glance src pid p selector noHang
  generalize s.wait4 src pid p selector noHang = s' at hglance ⊢
  cases hglance with
  | failed | hurried | left | interrupted => exact evolves_answer rfl
  | reaped h => exact absurd h (hr _ _)
  | blocked =>
    exact evolves_mild hsrc fun _ =>
      .plain (Process.unseen_goto rfl rfl) (by simp [Event.isPlain])

/-- The end of a main routine is marked in its name. -/
theorem evolves_conclude (e : Ending) : Evolves (some pid) kin mortal s (s.conclude src pid e) := by
  have hexit : ∀ {s : System} (w : WaitStatus),
      Evolves (some pid) kin mortal s (s.act src pid fun p => p.orStay (p.exit pid w)) :=
    fun w => evolves_act hsrc fun _ => .exit w
  cases e with
  | code n => exact hexit _
  | panic => exact (evolves_note hsrc rfl).trans (hexit _)
  | error e =>
    cases e with
    | mustExit => exact .refl
    | _ => exact (evolves_note hsrc rfl).trans (hexit _)

end Calls

end System

end PosixSignals
