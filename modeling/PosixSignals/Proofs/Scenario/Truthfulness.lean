import PosixSignals.Proofs.Process.Status
import PosixSignals.Proofs.Scenario.Marks

/-!
# What a wait status says is true

A run accounts for the wait status of a process that has ended if one of its
moves marked the end with it, and if what the wait status says is what
happened in that move: an exit code that the process gave, or a signal whose
default action struck it. Where nobody makes up `BREAK`, a run accounts for all
its zombies and for everything that is reported about them. Where somebody does,
a process becomes a zombie that nothing has ended, and what is reported is
whatever its status happened to show.
-/

namespace PosixSignals

/-- **The exit code that a process gives** by what it does next: to `exit`, or at the end of
its main routine, where an error stands for its number. -/
def Control.code? : Control → Option Int
  | .execute (.exit code) => some code
  | .finish (.code n) => some n
  | .finish (.error .mustExit) => none
  | .finish (.error e) => some e.number
  | _ => none

/-- A process ends by an exit code, or by a panic. -/
theorem verdict?_eq_some {c : Control} {w : WaitStatus} (h : c.verdict? = some w) :
    (∃ n, c.code? = some n ∧ w = .ofExitCode n) ∨ (c = .finish .panic ∧ w = .ofSignal .abrt) := by
  unfold Control.verdict? at h
  split at h <;> simp only [Option.some.injEq, reduceCtorEq] at h
  · exact .inl ⟨_, rfl, h.symm⟩
  · exact .inl ⟨_, rfl, h.symm⟩
  · next e hne =>
    refine .inl ⟨e.number, ?_, h.symm⟩
    cases e <;> first | rfl | exact absurd rfl hne
  · exact .inr ⟨rfl, h.symm⟩

namespace System

variable {s : System} {m : Move} {new earlier later : List Record} {pid : Pid} {w : WaitStatus}
  {src : Source} {st : Status} {moves : List Move}

/-- **What the wait status says is how the process ended** in a move that put these records
down. It says an exit code or a signal, never a stop. -/
structure SaysHow (s : System) (m : Move) (new : List Record) (pid : Pid) (w : WaitStatus) :
    Prop where
  kind : (∃ code, w = .ofExitCode code) ∨ ∃ sig, w = .ofSignal sig
  /-- An exit code is, in its low byte, one that the process gave. So `0` says that it gave
  a multiple of 256. -/
  code {code : Int} (hw : w = .ofExitCode code) : ∃ x n, m = .process pid ∧
    s.context? pid = some x ∧ x.control.code? = some n ∧ n % 256 = code % 256
  /-- A signal has struck the process and killed it by default, or its main routine panicked. -/
  signal {sig : Signal} (hw : w = .ofSignal sig) :
    (sig.defaultAction.isFatal = true ∧ Struck new pid sig) ∨
      sig = .abrt ∧ m = .process pid ∧ ∃ x, s.context? pid = some x ∧ x.control = .finish .panic
  stop (sig : Signal) : w ≠ .ofStop sig

/-- **The run accounts for an end** that is on record: one of its moves marked the end with
this wait status, the process was not born again since, and what the wait status says is how
it ended, unless it is what the outside had it marked with. -/
inductive Accounts (moves : List Move) (history : List Record) (pid : Pid) (w : WaitStatus) : Prop
  | marked {done left : List Move} {m : Move} {src : Source} {since later earlier : List Record}
      (hmoves : moves = done ++ m :: left)
      (hmade : ((initial.run done).move m).history =
        (later ++ ⟨src, .exited pid w⟩ :: earlier) ++ (initial.run done).history)
      (hmark : history =
        since ++ ⟨src, .exited pid w⟩ :: (earlier ++ (initial.run done).history))
      (hsame : ∀ r ∈ since, r.creates pid = false)
      (hw : m = .host (.exit pid w) ∨
        (initial.run done).SaysHow m (later ++ ⟨src, .exited pid w⟩ :: earlier) pid w)

/-! ## Reasons are as the wait status says -/

theorem saysHow_of_caused (h : Caused new (.exited pid w)) : s.SaysHow m new pid w := by
  cases h with
  | killed hstruck hd =>
    exact {
      kind := .inr ⟨_, rfl⟩
      code := fun hw => absurd hw.symm WaitStatus.ofExitCode_ne_ofSignal
      signal := fun hw => .inl (WaitStatus.ofSignal_injective hw ▸ ⟨hd, hstruck⟩)
      stop := fun _ => WaitStatus.ofSignal_ne_ofStop }

theorem saysHow_of_decides (h : s.Decides m (.exited pid w)) :
    m = .host (.exit pid w) ∨ s.SaysHow m new pid w := by
  cases m with
  | process q =>
    obtain ⟨x, hx, rfl, hv⟩ := h
    refine .inr ?_
    rcases verdict?_eq_some hv with ⟨n, hn, rfl⟩ | ⟨hpanic, rfl⟩
    · exact {
        kind := .inl ⟨n, rfl⟩
        code := fun hw => ⟨x, n, rfl, hx, hn, WaitStatus.emod_of_ofExitCode hw⟩
        signal := fun hw => absurd hw WaitStatus.ofExitCode_ne_ofSignal
        stop := fun _ => WaitStatus.ofExitCode_ne_ofStop }
    · exact {
        kind := .inr ⟨.abrt, rfl⟩
        code := fun hw => absurd hw.symm WaitStatus.ofExitCode_ne_ofSignal
        signal := fun hw => .inr ⟨(WaitStatus.ofSignal_injective hw).symm, rfl, x, hx, hpanic⟩
        stop := fun _ => WaitStatus.ofSignal_ne_ofStop }
  | host step =>
    cases step with
    | exit q w' =>
      obtain ⟨rfl, rfl⟩ := h
      exact .inl rfl
    | _ => cases h
  | clock t => cases h

/-- **Every end on record is accounted for**, at whatever moment it is looked up. -/
theorem accounts_of_recorded (ht : initial.allOf truthful moves = true)
    (hh : (initial.run moves).history = later ++ earlier) (hr : recorded? pid earlier = some st)
    (he : st.isExited = true) : Accounts moves earlier pid st.waitStatus := by
  have hmarked : Marked (later ++ earlier) := hh ▸ (RunOf.run .initial ht).marked
  obtain ⟨since, src, before, rfl, hsame⟩ := exists_mark hmarked.of_append hr he
  rw [← List.append_assoc] at hh
  obtain ⟨done, m, left, later', earlier', hmoves, hmade, rfl⟩ := exists_move hh
  refine .marked hmoves hmade rfl hsame ?_
  obtain ⟨-, hcaused | hdecides⟩ := reason_of_record (Reachable.initial.run done) hmade rfl
  · exact .inr (saysHow_of_caused hcaused)
  · exact saysHow_of_decides hdecides

/-! ## Reports -/

/-- The report about a root is accounted for. -/
theorem accounts_of_rootEnded (ht : initial.allOf truthful moves = true)
    (hh : (initial.run moves).history = later ++ ⟨src, .rootEnded w⟩ :: earlier) :
    ∃ pid, src.pid = some pid ∧ Accounts moves earlier pid w := by
  obtain ⟨done, m, left, later', earlier', -, hmade, rfl⟩ := exists_move hh
  obtain ⟨pid, hsrc, hr⟩ := recorded?_of_rootEnded (Reachable.initial.run done) hmade
  rw [List.append_cons] at hh
  exact ⟨pid, hsrc, accounts_of_recorded ht hh hr rfl⟩

/-- One move after another of those during a call, none of which brings it back. -/
def Lasts (s : System) (pid : Pid) (n : Nat) (done done' : List Move) : Prop :=
  (∃ m, done' = done ++ [m]) ∧ (s.run done').Deep pid n

theorem lasts_of_deep {n : Nat} {during : List Move}
    (hdeep : ∀ done rest, during = done ++ rest → (s.run done).Deep pid n) :
    Relation.ReflTransGen (Lasts s pid n) [] during := by
  induction during using List.reverseRecOn with
  | nil => exact .refl
  | append_singleton during m ih =>
    have hlast : Lasts s pid n during (during ++ [m]) :=
      ⟨⟨m, rfl⟩, hdeep _ [] (List.append_nil _).symm⟩
    have hbefore : ∀ done rest, during = done ++ rest → (s.run done).Deep pid n :=
      fun done rest he => hdeep done (rest ++ [m]) (by rw [he, List.append_assoc])
    exact (ih hbefore).tail hlast

theorem append_of_lasts {n : Nat} {done during : List Move}
    (h : Relation.ReflTransGen (Lasts s pid n) done during) : ∃ rest, during = done ++ rest := by
  induction h with
  | refl => exact ⟨[], (List.append_nil _).symm⟩
  | tail _ hm ih =>
    obtain ⟨rest, rfl⟩ := ih
    obtain ⟨⟨m, rfl⟩, -⟩ := hm
    exact ⟨rest ++ [m], List.append_assoc ..⟩

/-- **The child that a `wait4` returns is accounted for**, at the moment when it was found. -/
theorem accounts_of_wait4 {before during : List Move} {child : Pid} {fs : List Frame}
    {selector : Int} {options : BitVec 32} {mask mask' : SignalSet}
    (ht : initial.allOf truthful moves = true) (hmoves : moves = before ++ .process pid :: during)
    (hcall : (initial.run before).context? pid =
      some ⟨fs, .perform (.system (.wait4 selector options)), mask⟩)
    (hdeep : ∀ done rest, during = done ++ rest →
      (((initial.run before).step pid).run done).Deep pid fs.length)
    (hret : ((initial.run moves).step pid).context? pid =
      some ⟨fs, .reply (.ok (.child child w)), mask'⟩) :
    (child = 0 ∧ w = 0) ∨ ∃ done rest, during = done ++ rest ∧
      Accounts moves (initial.run (before ++ .process pid :: done)).history child w := by
  subst hmoves
  have hview : ∀ done, initial.run (before ++ .process pid :: done) =
      ((initial.run before).step pid).run done := fun done => run_append _ _ _
  have hstep : ∀ done done', Lasts ((initial.run before).step pid) pid fs.length done done' →
      (∃ m, ((initial.run before).step pid).run done' =
        (((initial.run before).step pid).run done).move m) ∧
        (((initial.run before).step pid).run done').Deep pid fs.length := by
    rintro done done' ⟨⟨m, rfl⟩, hd⟩
    exact ⟨⟨m, run_append _ _ _⟩, hd⟩
  rw [hview] at hret
  rcases reported_of_wait4 _ hstep (Reachable.initial.run before) rfl hcall (lasts_of_deep hdeep)
    hret with hnone | ⟨done, -, hrest, p, c, -, -, hc, hst⟩
  · exact .inl hnone
  obtain ⟨rest, rfl⟩ := append_of_lasts hrest
  refine .inr ⟨done, rest, rfl, ?_⟩
  -- what is on record then is on record as part of the whole
  have hr : Reachable (initial.run (before ++ .process pid :: done)) := Reachable.initial.run _
  obtain ⟨new, hnew⟩ := exists_history_run hr rest
  have hh : (initial.run (before ++ .process pid :: (done ++ rest))).history =
      new ++ (initial.run (before ++ .process pid :: done)).history := by
    rw [← hnew, ← run_append, List.append_assoc]
    rfl
  have hrecorded := hr.chronicled.recorded child c (by rw [hview]; exact hc)
  rw [hst] at hrecorded
  exact accounts_of_recorded ht hh hrecorded rfl

/-! ## The whole account -/

/-- **What is true of the ends on a run.** -/
structure EndsTruthfully (moves : List Move) : Prop where
  /-- Whoever becomes a zombie was marked as ended before, and that is accounted for. -/
  buried {pid : Pid} {src : Source} {later earlier : List Record}
    (h : (initial.run moves).history = later ++ ⟨src, .becameZombie pid⟩ :: earlier) :
    ∃ w, recorded? pid earlier = some (.exited w) ∧ Accounts moves earlier pid w
  /-- The wait status of whoever has ended, a zombie or not yet, is accounted for. -/
  ended {pid : Pid} {p : Process} (hp : (initial.run moves).process? pid = some p)
    (he : p.status.isExited = true) :
    Accounts moves (initial.run moves).history pid p.status.waitStatus
  /-- What is reported about a root is accounted for. -/
  reports {w : WaitStatus} {src : Source} {later earlier : List Record}
    (h : (initial.run moves).history = later ++ ⟨src, .rootEnded w⟩ :: earlier) :
    ∃ pid, src.pid = some pid ∧ Accounts moves earlier pid w
  /-- What a `wait4` reports that lasts for the end of the run, and returns in the next step,
  is accounted for; it may also name no child. -/
  awaits {before during : List Move} {pid child : Pid} {w : WaitStatus} {fs : List Frame}
    {selector : Int} {options : BitVec 32} {mask mask' : SignalSet}
    (hmoves : moves = before ++ .process pid :: during)
    (hcall : (initial.run before).context? pid =
      some ⟨fs, .perform (.system (.wait4 selector options)), mask⟩)
    (hdeep : ∀ done rest, during = done ++ rest →
      (((initial.run before).step pid).run done).Deep pid fs.length)
    (hret : ((initial.run moves).step pid).context? pid =
      some ⟨fs, .reply (.ok (.child child w)), mask'⟩) :
    (child = 0 ∧ w = 0) ∨ ∃ done rest, during = done ++ rest ∧
      Accounts moves (initial.run (before ++ .process pid :: done)).history child w

/-- **Every final status is truthful**, on every run on which no routine of a process that has
not ended fails with `BREAK` of its own accord, whatever else handlers and main routines do.
Whoever becomes a zombie was marked as ended before; the wait status that it is reported with
is the one of the mark, and says how it ended: an exit code that it gave, or the signal that
killed it, and never a stop. Only an end that the outside has marked outright may say anything. -/
theorem end_is_truthful (h : initial.allOf truthful moves = true) : EndsTruthfully moves where
  buried {pid src later earlier} hh := by
    have hmarked : Marked (later ++ ⟨src, .becameZombie pid⟩ :: earlier) :=
      hh ▸ (RunOf.run .initial h).marked
    obtain ⟨w, hw⟩ := hmarked.of_append.1 pid rfl
    rw [List.append_cons] at hh
    exact ⟨w, hw, accounts_of_recorded h hh hw rfl⟩
  ended hp he := by
    have hr : Reachable (initial.run moves) := Reachable.initial.run moves
    exact accounts_of_recorded h (List.nil_append _).symm (hr.chronicled.recorded _ _ hp) he
  reports hh := accounts_of_rootEnded h hh
  awaits hmoves hcall hdeep hret := accounts_of_wait4 h hmoves hcall hdeep hret

/-- A handler fails with this error, in a call that its process makes to signal itself. -/
def signalling (e : Errno) : List Move :=
  [Move.host (.root "failer"),
    .host (.command 1 (.perform { request := .system (.sigaction 10 (some (.handler
      { handler := .mk "fails" 1 [{ request := .fail e }] }))) }))] ++
  List.replicate 6 (Move.process 1) ++
  [Move.host (.command 1 (.perform { request := .system (.kill .self 10) }))] ++
  List.replicate 10 (Move.process 1)

/-- The call returns the error of the handler, and the main routine goes on to end with it. -/
def failing : List Move :=
  signalling .perm ++
    [Move.host (.command 1 (.perform { request := .fail .perm })), .process 1, .process 1]

/-- What is reported of a process that fails with its handler's error says the error's number. -/
theorem end_is_truthful_of_failing :
    initial.allOf truthful failing = true ∧ ∃ src earlier,
      (initial.run failing).history = ⟨src, .rootEnded (.ofExitCode 1)⟩ :: earlier ∧
        ∃ pid, src.pid = some pid ∧ Accounts failing earlier pid (.ofExitCode 1) := by
  have ht : initial.allOf truthful failing = true := by cbv
  have hlast : ((initial.run failing).history.head?.map (·.event)) =
      some (.rootEnded (.ofExitCode 1)) := by cbv
  obtain ⟨⟨src, event⟩, hhead, rfl⟩ := Option.map_eq_some_iff.1 hlast
  obtain ⟨earlier, hh⟩ := List.head?_eq_some_iff.1 hhead
  have hreport : (initial.run failing).history =
      [] ++ ⟨src, .rootEnded (.ofExitCode 1)⟩ :: earlier := hh
  exact ⟨ht, src, earlier, hh, (end_is_truthful ht).reports hreport⟩

/-- **A zombie that nothing has ended.** A handler makes up `BREAK`, and nobody ever marks the end
of its process, which is nowhere about to give an exit code. It becomes a zombie all the same, and
is reported with the `0` that its status shows as a normal process. Had it been stopped by then,
it would be reported with the signal that stopped it. -/
theorem zombie_unmarked :
    let moves := signalling .mustExit ++ [.process 1]
    let halted := signalling .mustExit ++ [Move.host (.stop 1 .stop), .process 1]
    let marks (r : Record) := match r.event with | .exited .. => true | _ => false
    let gives (s : System) (_ : Move) := (s.context? 1).any fun x => x.control.code?.isSome
    initial.allOf (fun s m => !gives s m) moves = true ∧
      (initial.run moves).history.any marks = false ∧
      ((initial.run moves).history.take 2).map (·.event) = [.rootEnded 0, .becameZombie 1] ∧
      (initial.run halted).history.any marks = false ∧
      ((initial.run halted).history.take 2).map (·.event) =
        [.rootEnded (.ofStop .stop), .becameZombie 1] := by
  intro moves halted marks gives
  exact ⟨by cbv, by cbv, by cbv, by cbv, by cbv⟩

end System

end PosixSignals
