import PosixSignals.Proofs.Scenario.Moves
import PosixSignals.Proofs.Task.Calls

/-!
# During a call

A system call begins when its frame is put on the stack and lasts for as
long as the stack is higher than before. Meanwhile the run goes on as it
likes: other processes step, the outside acts, time passes, and the
process itself runs handlers that make calls of their own. What goes on
above the frames below the call is a context by itself, and every move
either lets it take a step or leaves it as it is.
-/

namespace PosixSignals

namespace System

variable {s s' : System} {pid : Pid} {fs : List Frame} {p q : Process} {y : Context}
  {call : SystemCall Handler} {m : SignalSet}

/-- **A run of any moves after each of which a property holds.** -/
def Throughout (P : System → Prop) : System → System → Prop :=
  Relation.ReflTransGen fun a b => (∃ m, b = a.move m) ∧ P b

/-- Runs stay among the reachable states. -/
theorem Throughout.reachable {P : System → Prop} (h : Throughout P s s') (hs : Reachable s) :
    Reachable s' := by
  induction h with
  | refl => exact hs
  | tail _ hm ih =>
    obtain ⟨⟨m, rfl⟩, -⟩ := hm
    exact ih.move m

/-- The process has more than `n` frames on its stack. -/
def Deep (s : System) (pid : Pid) (n : Nat) : Prop :=
  ∃ x, s.context? pid = some x ∧ n < x.frames.length

/-- **A run of any moves during which the stack of one process stays higher
than `n` frames.** -/
def During (pid : Pid) (n : Nat) : System → System → Prop :=
  Relation.ReflTransGen fun a b => (∃ m, b = a.move m) ∧ b.Deep pid n

/-- What a process is in the midst of above the frames `fs`. -/
structure Above (s : System) (pid : Pid) (fs : List Frame) (p : Process) (y : Context) :
    Prop where
  process : s.process? pid = some p
  context : p.context? = some ⟨y.frames ++ fs, y.control, y.blocked⟩
  nonempty : y.frames ≠ []

/-- What is seen from above some frames is the context with these below. -/
theorem Above.context? (h : s.Above pid fs p y) :
    s.context? pid = some ⟨y.frames ++ fs, y.control, y.blocked⟩ :=
  context?_eq_some.2 ⟨p, h.process, h.context⟩

/-- There is something above them. -/
theorem Above.deep (h : s.Above pid fs p y) : s.Deep pid fs.length :=
  ⟨_, h.context?, by simpa using List.length_pos_iff.2 h.nonempty⟩

/-- Every context is seen from above the frames below its top. -/
theorem above_of_context? {f : Frame} {above : List Frame} {c : Control} {m : SignalSet}
    (h : s.context? pid = some ⟨f :: above ++ fs, c, m⟩) :
    ∃ p, s.Above pid fs p ⟨f :: above, c, m⟩ := by
  obtain ⟨p, hp, hx⟩ := context?_eq_some.1 h
  exact ⟨p, hp, hx, List.cons_ne_nil _ _⟩

/-- The context as a whole is sound. -/
theorem Above.sound (h : s.Above pid fs p y) (hs : s.Sound) :
    Context.Sound ⟨y.frames ++ fs, y.control, y.blocked⟩ :=
  hs.contexts pid _ h.context?

/-- **A step of the process above some frames**, which it may thereby reach. -/
structure OwnMove (s' : System) (pid : Pid) (fs : List Frame) (p q : Process)
    (y y' : Context) : Prop where
  process : s'.process? pid = some q
  context : q.context? = some ⟨y'.frames ++ fs, y'.control, y'.blocked⟩
  step : y.Step p q y'
  whole : Context.Step p q ⟨y.frames ++ fs, y.control, y.blocked⟩
    ⟨y'.frames ++ fs, y'.control, y'.blocked⟩
  ended : p.status.isExited = true → q.status.isExited = true

/-- **A move, seen from above some frames**: a step of what goes on there, or a
disturbance. -/
theorem Above.move (h : s.Above pid fs p y) (hs : s.Sound) (m : Move) :
    (m = .process pid ∧ ∃ q y', OwnMove (s.move m) pid fs p q y y') ∨
      m ≠ .process pid ∧ ∃ q, (s.move m).Above pid fs q y ∧ p.Disturbed q := by
  obtain ⟨above, c, m'⟩ := y
  obtain ⟨f, above, rfl⟩ := List.exists_cons_of_ne_nil h.nonempty
  have hfits := (h.sound hs).fits
  have hi : c ≠ .idle := by
    rintro rfl
    exact absurd hfits (List.cons_ne_nil _ _)
  have hf : ∀ e, c ≠ .finish e := by
    rintro e rfl
    exact absurd hfits (List.cons_ne_nil _ _)
  rcases move_cases hs h.process h.context hi hf m with
    ⟨hm, q, x', hq, hx', hstep, he⟩ | ⟨hm, q, hq, hd⟩
  · obtain ⟨above', hfs, hlocal⟩ := hstep.within rfl
    obtain ⟨_, c', mask'⟩ := x'
    obtain rfl := hfs
    exact .inl ⟨hm, q, ⟨above', c', mask'⟩, hq, hx', hlocal, hstep, he⟩
  · have hc := (Process.context?_congr hd.task hd.blocked).trans h.context
    exact .inr ⟨hm, q, ⟨hq, hc, List.cons_ne_nil _ _⟩, hd⟩

/-- What goes on above some frames goes on for as long as they are not reached. -/
theorem OwnMove.above {y' : Context} (h : OwnMove s' pid fs p q y y')
    (hd : s'.Deep pid fs.length) : s'.Above pid fs q y' := by
  refine ⟨h.process, h.context, fun he => ?_⟩
  obtain ⟨x, hx, hlt⟩ := hd
  obtain rfl : _ = x :=
    Option.some.inj ((context?_eq_some.2 ⟨q, h.process, h.context⟩).symm.trans hx)
  simp [he] at hlt

/-- **Coming down to the frames below** is a step that leaves nothing above them. -/
theorem Above.leave {c : Control} (h : s.Above pid fs p y) (hs : s.Sound)
    (hx : (s.step pid).context? pid = some ⟨fs, c, m⟩) :
    ∃ q, OwnMove (s.step pid) pid fs p q y ⟨[], c, m⟩ := by
  rcases h.move hs (.process pid) with ⟨-, q, y', hown⟩ | ⟨hne, -⟩
  · have he := (context?_eq_some.2 ⟨q, hown.process, hown.context⟩).symm.trans hx
    obtain ⟨above, c', m'⟩ := y'
    obtain ⟨rfl, rfl, rfl⟩ : above = [] ∧ c' = c ∧ m' = m := by simpa using he
    exact ⟨q, hown⟩
  · exact absurd rfl hne

/-- The first step of a system call opens its frame. -/
theorem above_of_call (hs : Reachable s)
    (hcall : s.context? pid = some ⟨fs, .perform (.system call), m⟩) :
    ∃ p, (s.step pid).Above pid fs p ⟨[.callBody call], .execute call, m⟩ := by
  obtain ⟨p, hp, hx⟩ := context?_eq_some.1 hcall
  obtain ⟨q, x', hq, hx', hstep, -⟩ := goes_of_step hs.sound hp hx (by simp)
  obtain rfl := hstep.of_called
  exact ⟨q, hq, hx', by simp⟩

/-- During a call all states are reachable. -/
theorem During.reachable {n : Nat} (h : During pid n s s') (hs : Reachable s) : Reachable s' :=
  Throughout.reachable h hs

/-! ## Runs that are given move by move -/

/-- Whether a move leaves a process with more than `n` frames. -/
def keepsDeep (pid : Pid) (n : Nat) (s : System) (m : Move) : Bool :=
  ((s.move m).context? pid).any (n < ·.frames.length)

/-- What is checked of a move is that the stack stays higher. -/
theorem deep_of_keepsDeep {n : Nat} {m : Move} (h : keepsDeep pid n s m = true) :
    (s.move m).Deep pid n := by
  obtain ⟨x, hx, hlt⟩ := (Option.any_eq_true _ _).1 h
  exact ⟨x, hx, of_decide_eq_true hlt⟩

/-- A run that is checked move by move is one during a call. -/
theorem during_of_checks {n : Nat} {moves : List Move}
    (h : checks move (keepsDeep pid n) s moves = true) : During pid n s (s.run moves) :=
  (reflTransGen_of_checks h).lift id fun _ _ ⟨m, hm, hok⟩ =>
    ⟨⟨m, hm⟩, by rw [id, hm]; exact deep_of_keepsDeep hok⟩

end System

end PosixSignals
