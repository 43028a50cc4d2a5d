import PosixSignals.Proofs.Scenario.Entries
import PosixSignals.Proofs.Scenario.LastCheck
import PosixSignals.Proofs.Scenario.Lockstep

/-!
# The check point at the end of a call

In a run in lockstep a call that returns, and whose last check point was
broken off neither by the end of the process nor by a handler that failed,
leaves the process running with nothing to deliver. The check point comes
to its end in such a state, and nobody can get in between that and the
return. Until then the call goes on in one of two phases: its body is at
work, or its last check point.
-/

namespace PosixSignals

namespace System

variable {s : System} {a b c c₀ : System × Option Pid} {pid : Pid} {fs : List Frame}
  {p q : Process} {y : Context} {call : SystemCall Handler} {ret : Reply} {m m' : SignalSet}

/-- **Nothing is left to deliver**: the process runs, and every signal that is
pending for it is blocked. -/
def Settled (s : System) (pid : Pid) : Prop :=
  ∃ p, s.process? pid = some p ∧ p.status = .normal ∧
    ∀ sig ∈ p.inbox.pending, sig ∈ p.inbox.blocked

/-- Where a last check point has come to its end, nothing is left to deliver. -/
def ChecksSettle (s : System) : Prop :=
  ∀ pid result fs v m, s.context? pid = some ⟨.callExit result :: fs, .reply (.ok v), m⟩ →
    s.Settled pid

/-- **Nobody gets in between the end of a check point and what follows.** -/
theorem Lockstep.checksSettle (h : Lockstep a b) (hs : a.1.Sound) (ha : Focused a) :
    b.1.ChecksSettle := by
  intro pid result fs v m hx
  rcases h.of_busy hs ha hx rfl with rfl | ⟨p, x₀, -, -, htold⟩
  · obtain ⟨p, q, x₀, hp, hx₀, hq, hstep⟩ := step_of_context? hs hx (by simp)
    have hsound := hs.contexts pid x₀ (context?_eq_some.2 ⟨p, hp, hx₀⟩)
    -- of the ways to reply to this frame only the end of the check point is no error
    rcases hstep.reply_of_callExit hsound with (⟨d, -, hn, hpending⟩ | ⟨hr, -⟩) | ⟨e, -, hr, -⟩
    · exact ⟨q, hq, hn, hpending⟩
    · cases hr
    · cases hr
  · cases htold

theorem checksSettle_of_lockstep (h : Relation.ReflTransGen Lockstep (initial, none) c) :
    c.1.ChecksSettle := by
  cases h with
  | refl =>
    intro pid result fs v m hx
    simp [context?, initial, process?, Registry.get?] at hx
  | tail hab hm =>
    exact hm.checksSettle (reachable_of_lockstep hab .initial).sound
      (focused_of_lockstep hab .initial focused_initial)

/-! ## The phases of a call -/

/-- **A call goes on**: its body is at work, or its last check point, of which no
handler has failed. -/
inductive CallPhase (call : SystemCall Handler) (p : Process) (y : Context) : Prop
  | body {above : List Frame} (hfs : y.frames = above ++ [.callBody call])
  | lastCheck {result : Reply} (h : y.LastCheck (fun _ => False) result p)

theorem CallPhase.move (h : CallPhase call p y) (hs : s.Sound) (hy : s.Above pid fs p y)
    (hf : ∀ e, ¬ s.HandlerFails pid fs e) {m : Move} (hd : (s.move m).Deep pid fs.length) :
    ∃ q y', (s.move m).Above pid fs q y' ∧ CallPhase call q y' := by
  cases h with
  | lastCheck h =>
    obtain ⟨q, y', hy', h'⟩ := lastCheck_move hs hy h hf hd
    exact ⟨q, y', hy', .lastCheck h'⟩
  | body hfs =>
    rcases hy.move hs m with ⟨-, q, y', hown⟩ | ⟨-, q, hq, -⟩
    · have hy' := hown.above hd
      obtain ⟨frames, control, mask⟩ := y
      obtain rfl := hfs
      rcases hown.step.bottom rfl with ⟨he, -⟩ | ⟨above', he⟩ | ⟨call', r, rfl, -, rfl, rfl⟩
      · exact absurd he hy'.nonempty
      · exact ⟨q, y', hy', .body he⟩
      · exact ⟨q, _, hy', .lastCheck Context.lastCheck_of_loop⟩
    · exact ⟨q, y, hq, .body hfs⟩

/-- **A call returns** with an error of its check point, or settled. -/
theorem CallPhase.return (h : CallPhase call p y) (hs : s.Sound) (hy : s.Above pid fs p y)
    (hc : s.ChecksSettle) (hret : (s.step pid).context? pid = some ⟨fs, .reply ret, m'⟩) :
    ret = .error .mustExit ∨ (s.step pid).Settled pid := by
  cases h with
  | lastCheck h =>
    obtain ⟨q, hq, -, ⟨-, hst, hin, v, hfs, hv⟩ | ⟨e, he, ⟨rfl, -⟩ | hfalse⟩⟩ :=
      lastCheck_return hs hy h hret
    · obtain ⟨p', hp', hn, hpending⟩ := hc pid _ fs v _ (by rw [hy.context?, hfs, hv]; rfl)
      obtain rfl : p' = p := Option.some.inj (hp'.symm.trans hy.process)
      exact .inr ⟨q, hq, hst.trans hn, hin ▸ hpending⟩
    · exact .inl he
    · exact hfalse.elim
  | body hfs =>
    -- a call returns from its last check point only
    obtain ⟨q, hown⟩ := hy.leave hs hret
    obtain ⟨frames, control, mask⟩ := y
    obtain rfl := hfs
    obtain ⟨-, result, hfalse, -⟩ := hown.step.returns rfl
    cases hfalse

/-! ## Calls in lockstep -/

/-- **One move in lockstep while a call lasts** whose check point has not been
broken off: the stack stays higher than below the call, and no handler that
the last check point has run comes back with an error. -/
def CallLasts (pid : Pid) (fs : List Frame) (a b : System × Option Pid) : Prop :=
  Lockstep a b ∧ b.1.Deep pid fs.length ∧ ∀ e, ¬ b.1.HandlerFails pid fs e

theorem lockstep_of_callLasts (h : Relation.ReflTransGen (CallLasts pid fs) a b) :
    Relation.ReflTransGen Lockstep a b :=
  h.lift id fun _ _ hm => hm.1

/-- The call has just been asked for, or it goes on in one of its phases. -/
theorem callPhase_of_callLasts (h₀ : Relation.ReflTransGen Lockstep (initial, none) c₀)
    (hcall : c₀.1.context? pid = some ⟨fs, .perform (.system call), m⟩)
    (h : Relation.ReflTransGen (CallLasts pid fs) c₀ c) :
    c = c₀ ∨ (∃ p y, c.1.Above pid fs p y ∧ CallPhase call p y) ∧
      ∀ e, ¬ c.1.HandlerFails pid fs e := by
  induction h with
  | refl => exact .inl rfl
  | @tail c c' hc hm ih =>
    right
    obtain ⟨hlock, hd, hf⟩ := hm
    refine ⟨?_, hf⟩
    have hrun := h₀.trans (lockstep_of_callLasts hc)
    have hreach := reachable_of_lockstep hrun .initial
    rcases ih with rfl | ⟨⟨p, y, hy, hphase⟩, hf'⟩
    · obtain rfl := hlock.of_acting (focused_of_lockstep hrun .initial focused_initial) hcall rfl
      obtain ⟨p, hp⟩ := above_of_call hreach hcall
      exact ⟨p, _, hp, .body (List.nil_append _).symm⟩
    · obtain ⟨m, -, rfl⟩ := hlock
      exact hphase.move hreach.sound hy hf' hd

/-- Whether the last check point of a call has run a handler that failed. -/
def handlerFails (s : System) (pid : Pid) : Bool :=
  match s.context? pid with
  | some ⟨.delivery .. :: .round :: .callExit _ :: _, .reply (.error _), _⟩ => true
  | _ => false

theorem handlerFails_of_handlerFails {e : Errno} (h : s.HandlerFails pid fs e) :
    s.handlerFails pid = true := by
  obtain ⟨sig, action, saved, result, m, hx⟩ := h
  simp [handlerFails, hx]

/-- Whether a move in lockstep lets a call last. -/
def callLasts (pid : Pid) (n : Nat) (a : System × Option Pid) (m : Move) : Bool :=
  inTurn a m && keepsDeep pid n a.1 m && !(a.1.move m).handlerFails pid

theorem callLasts_of_checks {moves : List Move}
    (h : checks turn (callLasts pid fs.length) a moves = true) :
    Relation.ReflTransGen (CallLasts pid fs) a (moves.foldl turn a) :=
  (reflTransGen_of_checks h).lift id fun a b ⟨m, he, hm⟩ => by
    obtain ⟨⟨hturn, hdeep⟩, hf⟩ : (inTurn a m = true ∧ keepsDeep pid fs.length a.1 m = true) ∧
        (a.1.move m).handlerFails pid = false := by simpa [callLasts] using hm
    refine he ▸ ⟨lockstep_of_inTurn hturn, deep_of_keepsDeep hdeep, fun e he => ?_⟩
    exact absurd (handlerFails_of_handlerFails he) (Bool.eq_false_iff.1 hf)

/-- **The check point guarantee.** In every run in lockstep, when a process has
made a system call, the call has lasted for any number of moves and then
returns, and neither does it return `BREAK` nor did a handler of its last
check point fail, the process runs and no signal that is pending for it is
unblocked. And in every such run a handler only starts while its process is
neither stopped nor ended, unless the program asked the engine outright to
run it, which looks at nothing. -/
theorem checkPoint_guarantee (h₀ : Relation.ReflTransGen Lockstep (initial, none) c₀) :
    (∀ pid fs call m c c' ret m',
      c₀.1.context? pid = some ⟨fs, .perform (.system call), m⟩ →
      Relation.ReflTransGen (CallLasts pid fs) c₀ c → Lockstep c c' →
      c'.1.context? pid = some ⟨fs, .reply ret, m'⟩ → ret ≠ .error .mustExit →
      c'.1.Settled pid) ∧
    ∀ c new src run mask pending, Lockstep c₀ c → c.1.history = new ++ c₀.1.history →
      ⟨src, .entered run mask pending⟩ ∈ new →
      ∃ pid p, src.pid = some pid ∧ c₀.1.process? pid = some p ∧
        (p.status = .normal ∨ c₀.1.asked? pid = some run.signal) := by
  constructor
  · intro pid fs call m c c' ret m' hcall hlasts hm hret hne
    have hrun := h₀.trans (lockstep_of_callLasts hlasts)
    have hreach := reachable_of_lockstep hrun .initial
    have hfocus := focused_of_lockstep hrun .initial focused_initial
    obtain rfl : c' = (c.1.step pid, some pid) := by
      rcases hm.of_busy hreach.sound hfocus hret rfl with h | ⟨p, x₀, -, -, htold⟩
      · exact h
      · cases htold
    rcases callPhase_of_callLasts h₀ hcall hlasts with rfl | ⟨⟨p, y, hy, hphase⟩, -⟩
    · -- a call that was just asked for has its frame put on the stack first
      obtain ⟨p, hp⟩ := above_of_call hreach hcall
      have hx := hp.context?.symm.trans hret
      simp at hx
    · exact (hphase.return hreach.sound hy (checksSettle_of_lockstep hrun) hret).resolve_left hne
  · intro c new src run mask pending hm hnew he
    obtain ⟨m, -, rfl⟩ := hm
    have hreach := reachable_of_lockstep h₀ .initial
    obtain ⟨pid, hsrc, -, henters⟩ := enters_of_mem hreach.sound hnew he
    rcases henters.cause with ⟨p, hp, hn, -⟩ | ho
    · exact ⟨pid, p, hsrc, hp, .inl hn⟩
    · obtain ⟨p, hp, -⟩ := Option.bind_eq_some_iff.1 ho
      exact ⟨pid, p, hsrc, hp, .inr ho⟩

/-- A process with a handler for `usr1` that makes a call of its own sends
itself the signal. -/
def raising : List Move :=
  let handler : Handler := .mk "nests" 1 [{ request := .system .getpid }]
  [.host (.root "raiser"),
    .host (.command 1 (.perform
      { request := .engine (.changeDisposition .usr1 (some (.handler { handler }))) })),
    .process 1, .process 1,
    .host (.command 1 (.perform { request := .system (.kill .self 10) }))]

/-- **The call returns settled**, and its handler has started in a running process. -/
theorem checkPoint_guarantee_of_kill :
    let c₀ := raising.foldl turn (initial, none)
    let c := (List.replicate 15 (.process 1)).foldl turn c₀
    let d := (List.replicate 3 (.process 1)).foldl turn c₀
    (turn c (.process 1)).1.context? 1 = some ⟨[.main false], .reply (.ok .done), ∅⟩ ∧
      (turn c (.process 1)).1.Settled 1 ∧
      ∃ p, d.1.process? 1 = some p ∧ (p.status = .normal ∨ d.1.asked? 1 = some .usr1) := by
  intro c₀ c d
  have h₀ : Relation.ReflTransGen Lockstep (initial, none) c₀ := lockstep_of_checks (by cbv)
  have hcall : c₀.1.context? 1 =
      some ⟨[.main false], .perform (.system (.kill .self 10)), ∅⟩ := by cbv
  have hlasts : Relation.ReflTransGen (CallLasts 1 [.main false]) c₀ c :=
    callLasts_of_checks (by cbv)
  have hret : (turn c (.process 1)).1.context? 1 =
      some ⟨[.main false], .reply (.ok .done), ∅⟩ := by cbv
  have hd : Relation.ReflTransGen Lockstep (initial, none) d :=
    h₀.trans (lockstep_of_checks (by cbv))
  let run : HandlerRun := ⟨.usr1, "nests", 1⟩
  have hnew : (turn d (.process 1)).1.history =
      [⟨⟨some 1, []⟩, .entered run (.single .usr1) ∅⟩, ⟨⟨some 1, []⟩, .handling .usr1⟩] ++
        d.1.history := by cbv
  obtain ⟨pid, p, hpid, hp, hcause⟩ := (checkPoint_guarantee hd).2 _ _ ⟨some 1, []⟩ run
    (.single .usr1) ∅ (lockstep_of_inTurn (by cbv)) hnew (by simp)
  obtain rfl : 1 = pid := Option.some.inj hpid
  refine ⟨hret, ?_, p, hp, hcause⟩
  exact (checkPoint_guarantee h₀).1 1 _ _ _ c _ _ _ hcall hlasts
    (lockstep_of_inTurn (by cbv)) hret (by simp)

/-- A process marks itself as ended, and its main routine, which goes on all the
same, asks the engine to run a handler. -/
def exiting : List Move :=
  [Move.host (.root "exiter"),
    .host (.command 1 (.perform { request := .system (.exit 0), keep := true }))] ++
  List.replicate 6 (Move.process 1) ++
  [Move.host (.command 1 (.perform
    { request := .engine (.deliver .usr1 { handler := .mk "late" 1 [] }), keep := true }))]

/-- **A handler that is asked for outright starts in a process that has ended.** -/
theorem handler_entered_after_exit :
    let c := exiting.foldl turn (initial, none)
    Relation.ReflTransGen Lockstep (initial, none) c ∧ Lockstep c (turn c (.process 1)) ∧
      (c.1.process? 1).map (·.status) = some (.exited 0) ∧
      (turn c (.process 1)).1.history =
        ⟨⟨some 1, []⟩, .entered ⟨.usr1, "late", 1⟩ (.single .usr1) ∅⟩ :: c.1.history :=
  ⟨lockstep_of_checks (by cbv), lockstep_of_inTurn (by cbv), by cbv, by cbv⟩

end System

end PosixSignals
