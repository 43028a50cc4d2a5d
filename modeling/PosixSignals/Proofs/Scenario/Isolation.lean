import PosixSignals.Proofs.Scenario.Continuity

/-!
# Signal state is private

What a process has installed and what it blocks is changed by its own steps
and by nobody else's, whatever the others are to it; and what is pending for
it others can only add to. A forked child starts with a copy of the table and
of the mask and with nothing pending, and from then on it is a process as any
other. So this is said of every move and of every run in which a process
takes no step.
-/

namespace PosixSignals

namespace Inbox

variable {box box' : Inbox} {sig : Signal} {info : SignalInfo}

/-- What is pending keeps the information that it has. -/
theorem info?_push (hs : sig ∈ box.pending) : (box.push info).info? sig = box.info? sig := by
  unfold push
  split
  · rfl
  · next hnot =>
    have hne : info.signal ≠ sig := fun he => hnot (he ▸ hs)
    rw [info?_set, if_neg hne]

/-- What is kept for a pending signal is kept as the inbox grows. -/
theorem Grown.info?_eq (h : box.Grown box') (hs : sig ∈ box.pending) :
    box'.info? sig = box.info? sig := by
  induction h with
  | refl => rfl
  | push h _ ih => rw [info?_push (h.mem_pending hs), ih]

end Inbox

namespace Process

variable {p q r : Process} {pid : Pid}

/-- **What nobody else changes in a process**: its dispositions, its mask and whatever is
pending for it. -/
structure Shielded (p q : Process) : Prop where
  dispositions : q.dispositions = p.dispositions
  blocked : q.inbox.blocked = p.inbox.blocked
  pending : ∀ sig ∈ p.inbox.pending,
    sig ∈ q.inbox.pending ∧ q.inbox.info? sig = p.inbox.info? sig

/-- Whoever is left alone is shielded. -/
theorem Shielded.refl (p : Process) : p.Shielded p := ⟨rfl, rfl, fun _ hs => ⟨hs, rfl⟩⟩

/-- Whoever is shielded twice is shielded. -/
theorem Shielded.trans (h : p.Shielded q) (h' : q.Shielded r) : p.Shielded r where
  dispositions := h'.dispositions.trans h.dispositions
  blocked := h'.blocked.trans h.blocked
  pending sig hs := by
    obtain ⟨hq, hinfo⟩ := h.pending sig hs
    obtain ⟨hr, hinfo'⟩ := h'.pending sig hq
    exact ⟨hr, hinfo'.trans hinfo⟩

/-- Only the table and the inbox matter. -/
theorem shielded_of_eq (hd : q.dispositions = p.dispositions) (hi : q.inbox = p.inbox) :
    p.Shielded q :=
  ⟨hd, congrArg Inbox.blocked hi, fun sig hs => ⟨by rwa [hi], by rw [hi]⟩⟩

/-- To be disturbed is to be shielded. -/
theorem Disturbed.shielded (h : p.Disturbed q) : p.Shielded q :=
  ⟨h.dispositions, h.blocked, fun _ hs => ⟨h.inbox.mem_pending hs, h.inbox.info?_eq hs⟩⟩

/-- **A fresh copy**: the dispositions and the mask of a process, and nothing pending. -/
structure Copies (p : Process) (parent : Pid) (q : Process) : Prop where
  parent : q.parent = some parent
  dispositions : q.dispositions = p.dispositions
  blocked : q.inbox.blocked = p.inbox.blocked
  pending : q.inbox.pending = ∅
  infos : ∀ sig, q.inbox.info? sig = none
  continued : q.continued = false

/-- **A child starts as a copy of its parent**, with nothing pending. -/
theorem copies_childOf (parent : Pid) (task : Option Task) :
    p.Copies parent (p.childOf parent task) :=
  ⟨rfl, rfl, rfl, rfl, fun sig => by simp [childOf, Inbox.fork, Inbox.info?], rfl⟩

end Process

namespace System

variable {s s' : System} {actor : Option Pid} {kin mortal : Bool} {pid parent : Pid}
  {p q : Process} {src : Source} {m : Move} {r : Process × List Event}

/-! ## Moves of others -/

/-- **A deed shields whom it is done to**, unless he does it himself. -/
theorem shielded_of_deed (h : Deed actor kin mortal pid p r) (ha : actor ≠ some pid) :
    p.Shielded r.1 := by
  cases h with
  | generate => exact Process.disturbed_generate.shielded
  | exit => exact Process.shift_exit.disturbed.shielded
  | stop => exact Process.shift_stop.disturbed.shielded
  | resume => exact Process.shift_resume.disturbed.shielded
  | noticeChild | limits | placed => exact Process.shielded_of_eq rfl rfl
  | mild h | buried _ h | released _ h => exact absurd h ha

/-- A process is shielded, if some condition holds of its number. -/
theorem durable_shielded (others : Pid → Prop) :
    Durable fun pid p q => others pid → p.Shielded q where
  refl _ p _ := .refl p
  trans _ _ _ _ h h' hpid := (h hpid).trans (h' hpid)
  unparent _ _ _ := Process.shielded_of_eq rfl rfl

/-- A command touches no dispositions and no inbox. -/
theorem shielded_command (c : Command) :
    Continues (fun _ p q => p.Shielded q) s (s.command pid c).2 := by
  have hdurable : Durable fun _ p q => Process.Shielded p q :=
    ⟨fun _ => .refl, fun _ _ _ _ h h' => h.trans h', fun _ _ => Process.shielded_of_eq rfl rfl⟩
  unfold command
  split
  · exact .refl hdurable s
  split
  · exact .refl hdurable s
  · exact continues_update hdurable fun p => by cases c <;> exact Process.shielded_of_eq rfl rfl

/-- **A move shields everybody** but the process that takes a step by it. -/
theorem shielded_move (hs : s.Sound) (m : Move) :
    Continues (fun pid p q => m ≠ .process pid → p.Shielded q) s (s.move m) := by
  rcases alone_or_affairs hs m with ⟨pid, rfl, p, t, hp, -, -, he, -⟩ | ha
  · rw [show s.move (.process pid) = s.step pid from rfl, he]
    exact continues_act (durable_shielded _) fun _ _ hne => absurd rfl hne
  · have hothers : Continues (fun pid p q => m.actor ≠ some pid → p.Shielded q) s (s.move m) :=
      (ha.evolves hs.ordered).continues (durable_shielded _) fun _ _ _ => shielded_of_deed
    cases m with
    | process pid =>
      refine hothers.mono fun pid' p q h hne => h fun he => hne ?_
      rw [Option.some.inj he]
    | clock t => exact hothers.mono fun pid p q h _ => h (by simp [Move.actor])
    | host step =>
      cases hf : focusOf step with
      | none => exact hothers.mono fun pid p q h _ => h (by simp [Move.actor, hf])
      | some pid =>
        obtain ⟨c, rfl⟩ := command_of_focusOf hf
        exact (shielded_command c).mono fun _ _ _ h _ => h

/-! ## Forks -/

/-- **A move forks a process**: it is about to fork itself, or the outside forks it. -/
def Forks (s : System) (parent : Pid) : Move → Prop
  | .process pid => pid = parent ∧ ∃ p t, s.process? pid = some p ∧ p.task = some t ∧
      t.control = .execute .fork
  | .host (.fork pid) => pid = parent ∧ (s.listed? pid).isSome = true
  | _ => False

/-- **What a fork leaves of the parent and makes of the child**, if there is a number for
it. -/
structure Forked (s : System) (parent : Pid) (p : Process) (s' : System) : Prop where
  forker : ∃ q, s'.process? parent = some q ∧ q.dispositions = p.dispositions ∧
    q.inbox = p.inbox ∧ q.continued = p.continued
  newborn : ∀ child, s.pids.alloc.1 = some child → s.process? child = none ∧
    ∃ q, s'.process? child = some q ∧ p.Copies parent q

/-- A fork of somebody known begets a copy of him, unless the numbers have run out. -/
theorem forked_fork (ho : s.Ordered) (hp : s.process? parent = some p) (task : Option Task) :
    s.Forked parent p (s.fork src parent p task).2 := by
  rcases hal : s.pids.alloc with ⟨_ | child, pids⟩
  · have he : s.fork src parent p task = (none, s) := by simp only [fork, hal]
    rw [he]
    exact ⟨⟨p, hp, rfl, rfl, rfl⟩, fun child hc => by simp [hal] at hc⟩
  · have hfresh : s.process? child = none := ho.fresh hal
    have hne : parent ≠ child := fun he => by simp [he, hfresh] at hp
    have he : s.fork src parent p task = (some child, s.beget src parent child pids p task) := by
      simp only [fork, hal]
      exact congrArg (some child, ·) note_update
    have hparent : (s.beget src parent child pids p task).process? parent =
        some { p with children := p.children ++ [child] } := by
      rw [process?_beget hne, if_neg hne, hp, Option.map_some, if_pos rfl]
    rw [he]
    refine ⟨⟨_, hparent, rfl, rfl, rfl⟩, fun child' hc => ?_⟩
    obtain rfl : child = child' := by simpa [hal] using hc
    exact ⟨hfresh, _, by rw [process?_beget hne, if_pos rfl], Process.copies_childOf parent task⟩

/-- The answer to the parent does not touch the child. -/
theorem Forked.answer (h : s.Forked parent p s') (hp : s.process? parent = some p) (r : Reply) :
    s.Forked parent p (s'.answer parent r) where
  forker := by
    obtain ⟨q, hq, hd, hi, hc⟩ := h.forker
    have hq' : (s'.answer parent r).process? parent = some (q.answer r) := by
      rw [System.answer, process?_update, hq, Option.map_some, if_pos rfl]
    exact ⟨q.answer r, hq', hd, hi, hc⟩
  newborn child ha := by
    obtain ⟨hfresh, q, hq, hcopy⟩ := h.newborn child ha
    have hne : child ≠ parent := fun he => by simp [← he, hfresh] at hp
    have hq' : (s'.answer parent r).process? child = some q := by
      rw [System.answer, process?_update, hq, Option.map_some, if_neg hne]
    exact ⟨hfresh, q, hq', hcopy⟩

/-- **Every move that forks begets a copy.** -/
theorem forked_move (hs : s.Sound) (h : s.Forks parent m) (hp : s.process? parent = some p) :
    s.Forked parent p (s.move m) := by
  cases m with
  | clock t => cases h
  | process pid =>
    obtain ⟨rfl, p', t, hp', ht, hc⟩ := h
    obtain rfl := Option.some.inj (hp.symm.trans hp')
    have hforked : s.Forked pid p (s.fork ⟨some pid, t.openCalls⟩ pid p (some {})).2 :=
      forked_fork hs.ordered hp (some {})
    show s.Forked pid p (s.step pid)
    rw [step_of_fork hp ht hc, forkCall]
    split <;> next he => rw [he] at hforked; exact hforked.answer hp _
  | host step =>
    cases step with
    | fork pid =>
      obtain ⟨rfl, hlisted⟩ := h
      obtain ⟨p', hp'⟩ := Option.isSome_iff_exists.1 hlisted
      obtain rfl := Option.some.inj (hp.symm.trans (listed?_eq_some.1 hp').1)
      have hforked : s.Forked pid p (s.fork .host pid p none).2 := forked_fork hs.ordered hp none
      show s.Forked pid p (s.host (.fork pid)).2
      unfold host
      simp only [hp']
      split <;> next he => rw [he] at hforked; exact hforked
    | _ => cases h

/-! ## Runs -/

/-- **The signal state of every process is its own**, from a state on. -/
structure Isolated (s : System) : Prop where
  /-- A move changes no dispositions and no mask, and takes no pending signal, but of the process
  that takes a step by it. -/
  kept : ∀ m pid p q, m ≠ .process pid → s.process? pid = some p →
    (s.move m).process? pid = some q → p.Shielded q
  /-- So does a run in which a process takes no step and its number is not handed out again. -/
  run : ∀ moves pid p q, .process pid ∉ moves → s.process? pid = some p →
    (s.run moves).process? pid = some q →
      births pid (s.run moves).history = births pid s.history → p.Shielded q
  /-- A fork leaves the signal state of the parent alone, and the child starts with a copy of
  the dispositions and of the mask and with nothing pending. -/
  fork : ∀ m parent p, s.Forks parent m → s.process? parent = some p →
    s.Forked parent p (s.move m)

/-- **No run mixes the signal states of two processes**, whatever they are to each other. -/
theorem signals_isolated (moves : List Move) : (initial.run moves).Isolated := by
  have hs : Reachable (initial.run moves) := Reachable.initial.run moves
  refine ⟨fun m pid p q hm hp hq => (shielded_move hs.sound m).move hs.sound hp hq hm,
    fun later pid p q hlater hp hq hb => ?_, fun m parent p h hp => forked_move hs.sound h hp⟩
  have hrun : Continues (fun pid p q => .process pid ∉ later → p.Shielded q) (initial.run moves)
      ((initial.run moves).run later) := by
    refine continues_run (durable_shielded _) hs fun s m hs hmem => ?_
    exact (shielded_move hs.sound m).mono fun _ _ _ h hnot => h fun he => hnot (he ▸ hmem)
  obtain ⟨p', hp', hshielded⟩ := hrun.same pid q hq hb
  obtain rfl := Option.some.inj (hp.symm.trans hp')
  exact hshielded hlater

/-- A root forks a child, which then blocks the interrupt. -/
def parting : List Move :=
  [Move.host (.root "parent"), .host (.command 1 (.perform { request := .system .fork }))] ++
  List.replicate 6 (Move.process 1) ++
  [Move.host (.command 2 (.perform { request := .system (.sigprocmask 0 (some ⟨2⟩)) }))] ++
  List.replicate 6 (Move.process 2)

-- the child has the new mask, and the parent what it had
example : ((initial.run parting).process? 2).map (·.inbox.blocked) = some ⟨2⟩ ∧
    ((initial.run parting).process? 1).map (·.inbox.blocked) = some .empty := by
  constructor <;> cbv

end System

end PosixSignals
