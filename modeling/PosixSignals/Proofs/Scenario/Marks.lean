import Mathlib.Data.List.Induction
import PosixSignals.Proofs.Scenario.Candour
import PosixSignals.Proofs.Scenario.Endings

/-!
# Marked before buried

On a run on which nobody makes up `BREAK` every process is marked as ended
before it becomes a zombie. It becomes one when its main routine is over. If
that came to a code, an error or a panic, the end is marked in that very step;
if it came to `BREAK`, the process is candid, and was marked before. So behind
every zombie on record there is the record of its end, and behind that the move
by which it was marked.
-/

namespace PosixSignals

/-- **Every process was marked as ended before it became a zombie.** -/
def Marked : List Record → Prop
  | [] => True
  | r :: earlier => (∀ pid, r.event = .becameZombie pid →
      ∃ w, recorded? pid earlier = some (.exited w)) ∧ Marked earlier

variable {pid : Pid} {st : Status} {e : Event} {src : Source} {r : Record}
  {new later earlier history : List Record}

theorem Marked.append (h : Marked history) (hnew : ∀ r ∈ new, ∀ pid, r.event ≠ .becameZombie pid) :
    Marked (new ++ history) := by
  induction new with
  | nil => exact h
  | cons r new ih =>
    obtain ⟨hr, hrest⟩ := List.forall_mem_cons.1 hnew
    exact ⟨fun pid he => absurd he (hr pid), ih hrest⟩

theorem Marked.of_append (h : Marked (new ++ history)) : Marked history := by
  induction new with
  | nil => exact h
  | cons r new ih => exact ih h.2

/-- **Where the status of who has ended comes from**: the record marks the end or buries the
process, or it tells nothing about it. -/
theorem changed_cases {before : Option Status} (h : e.changed pid before = some st)
    (he : st.isExited = true) : (∃ w, e = .exited pid w ∧ st = .exited w) ∨
      (∃ st', e = .becameZombie pid ∧ before = some st' ∧ st = st'.toZombie) ∨
      before = some st ∧ (⟨src, e⟩ : Record).creates pid = false := by
  cases e with
  | created q parent =>
    by_cases hq : q = pid
    · obtain rfl : Status.normal = st := Option.some.inj ((if_pos hq).symm.trans h)
      cases he
    · exact .inr (.inr ⟨(if_neg hq).symm.trans h, by simpa [Record.creates] using hq⟩)
  | stopped q sig =>
    by_cases hq : q = pid
    · obtain rfl : Status.stopped sig = st := Option.some.inj ((if_pos hq).symm.trans h)
      cases he
    · exact .inr (.inr ⟨(if_neg hq).symm.trans h, rfl⟩)
  | continued q =>
    by_cases hq : q = pid
    · obtain rfl : Status.normal = st := Option.some.inj ((if_pos hq).symm.trans h)
      cases he
    · exact .inr (.inr ⟨(if_neg hq).symm.trans h, rfl⟩)
  | exited q w =>
    by_cases hq : q = pid
    · exact .inl ⟨w, by rw [hq], (Option.some.inj ((if_pos hq).symm.trans h)).symm⟩
    · exact .inr (.inr ⟨(if_neg hq).symm.trans h, rfl⟩)
  | becameZombie q =>
    by_cases hq : q = pid
    · obtain ⟨st', hst', hz⟩ := Option.map_eq_some_iff.1 ((if_pos hq).symm.trans h)
      exact .inr (.inl ⟨st', by rw [hq], hst', hz.symm⟩)
    · exact .inr (.inr ⟨(if_neg hq).symm.trans h, rfl⟩)
  | _ => exact .inr (.inr ⟨h, rfl⟩)

/-- **Behind every end is its mark**: whoever has ended on record was marked with that wait
status, and was not born again since. -/
theorem exists_mark (hm : Marked history) (h : recorded? pid history = some st)
    (he : st.isExited = true) : ∃ since src earlier,
      history = since ++ ⟨src, .exited pid st.waitStatus⟩ :: earlier ∧
        ∀ r ∈ since, r.creates pid = false := by
  induction history generalizing st with
  | nil => cases h
  | cons r history ih =>
    obtain ⟨src, e⟩ := r
    rcases changed_cases h he with ⟨w, rfl, rfl⟩ | ⟨st', rfl, hst', rfl⟩ | ⟨hst, hc⟩
    · exact ⟨[], src, history, rfl, by simp⟩
    · -- who is buried was marked, with the wait status that is kept
      obtain ⟨w, hw⟩ := hm.1 pid rfl
      obtain rfl := Option.some.inj (hst'.symm.trans hw)
      obtain ⟨since, src', earlier, rfl, hsince⟩ := ih hm.2 hw rfl
      exact ⟨_ :: since, src', earlier, rfl, List.forall_mem_cons.2 ⟨rfl, hsince⟩⟩
    · obtain ⟨since, src', earlier, rfl, hsince⟩ := ih hm.2 hst he
      exact ⟨_ :: since, src', earlier, rfl, List.forall_mem_cons.2 ⟨hc, hsince⟩⟩

namespace System

variable {s s' : System} {actor : Option Pid} {mortal wild : Bool} {p q : Process} {t : Task}
  {src : Source} {e : Ending} {moves : List Move}

/-! ## Zombies have no context -/

/-- No zombie has a context. -/
def Interred (s : System) : Prop :=
  ∀ pid k, s.kin? pid = some k → k.zombie = true → k.running = false

theorem Interred.map (hi : s.Interred) {g : Pid → Kin → Kin}
    (hg : ∀ q, s'.kin? q = (s.kin? q).map (g q))
    (hk : ∀ q k, (k.zombie = true → k.running = false) → (g q k).zombie = true →
      (g q k).running = false) : s'.Interred := by
  intro q k' hk' hz
  obtain ⟨k, hk₀, rfl⟩ := Option.map_eq_some_iff.1 ((hg q).symm.trans hk')
  exact hk q k (hi q k hk₀) hz

theorem Interred.congr (hi : s.Interred) (hg : ∀ q, s'.kin? q = s.kin? q) : s'.Interred :=
  fun q k hk => hi q k (hg q ▸ hk)

theorem Interred.bear (hi : s.Interred) {pids : IdPool} (hp : p.status = .normal) :
    (s.bear src pid pids p).Interred := by
  intro q k hk hz
  rcases kin?_bear_eq_some.1 hk with ⟨-, rfl⟩ | ⟨-, hk⟩
  · simp [Process.kin, hp, Status.isZombie] at hz
  · exact hi q k hk hz

theorem Interred.drop (hi : s.Interred) : (s.drop pid).Interred := by
  intro q k hk hz
  obtain ⟨-, k, hk₀, rfl⟩ := kin?_drop_eq_some.1 hk
  rw [Kin.forgetting_running]
  exact hi q k hk₀ (by simpa using hz)

theorem Affair.interred (h : Affair actor mortal wild s s') (ho : s.Ordered) (hi : s.Interred) :
    s'.Interred := by
  cases h with
  | apart h => exact hi.congr (kin?_of_evolves h)
  | root => exact hi.bear rfl
  | @fork src parent pid pids p task _ ha hp =>
    have hborn : (s.bear src pid pids (p.childOf parent task)).Interred := hi.bear rfl
    refine hborn.map (fun q => kin?_update_children (· ++ [pid])) fun q k h => ?_
    split <;> exact h
  | reaped =>
    refine hi.map (fun _ => kin?_reap) fun q k h => ?_
    dsimp only
    split <;> split <;> exact h
  | @ended src pid p =>
    refine hi.map (fun _ => kin?_lay p) fun q k h => ?_
    dsimp only
    split <;> split <;> first | exact fun _ => rfl | exact h
  | disowned =>
    refine hi.map (fun _ => kin?_disown) fun q k h => ?_
    split <;> exact h
  | unlisted =>
    refine hi.map (fun _ => kin?_unlist) fun q k h => ?_
    split <;> exact h
  | swept => exact sweep_induct (motive := Interred) ho hi fun _ _ _ _ h _ _ => h.drop

theorem Affairs.interred (h : Affairs actor mortal wild s s') (ho : s.Ordered)
    (hi : s.Interred) : s'.Ordered ∧ s'.Interred := by
  induction h with
  | refl => exact ⟨ho, hi⟩
  | tail _ h ih => exact ⟨(h.evolves ih.1).ordered ih.1, h.interred ih.1 ih.2⟩

/-- **In no reachable state has a zombie a context.** -/
theorem Reachable.interred (h : Reachable s) : s.Interred := by
  induction h with
  | initial => exact fun pid k hk => by simp [kin?_initial] at hk
  | move h m ih =>
    rcases alone_or_affairs h.sound m with ⟨pid, rfl, ha⟩ | ha
    · exact ih.congr ha.kin?
    · exact (ha.interred h.sound.ordered ih).2

/-! ## What an end puts on record -/

/-- **Once its end is concluded a process has ended**: now, or before, as it was told. -/
theorem isExited_of_conclude (hc : s.Candid) (hp : s.process? pid = some p)
    (ht : p.task = some t) (he : t.control = .finish e)
    (hq : (s.conclude src pid e).process? pid = some q) : q.status.isExited = true := by
  have hexit : ∀ {u : System} {w : WaitStatus},
      (u.act src pid fun p => p.orStay (p.exit pid w)).process? pid = some q →
        q.status.isExited = true := by
    intro u w hq
    rw [process?_act, if_pos rfl] at hq
    obtain ⟨p, -, rfl⟩ := Option.map_eq_some_iff.1 hq
    exact Process.isExited_of_exit
  cases e with
  | code n => exact hexit hq
  | panic => exact hexit hq
  | error e =>
    cases e with
    | mustExit =>
      have hbids : t.bidsExit = true := by simp [Task.bidsExit, he, Control.bidsExit]
      obtain rfl := Option.some.inj (hp.symm.trans hq)
      exact hc pid p hp t ht hbids
    | _ => exact hexit hq

/-- What is explained without anybody becoming a zombie keeps all zombies marked. -/
theorem Explained.marked (h : Explained (fun e => ∀ q, e ≠ .becameZombie q) s s')
    (hm : Marked s.history) : Marked s'.history := by
  obtain ⟨new, hnew, hexp⟩ := h
  rw [hnew]
  refine hm.append fun r hr pid he => ?_
  rcases hexp r hr (by rw [he]; rfl) with hcaused | hne
  · rw [he] at hcaused
    cases hcaused
  · exact hne pid he

/-- Once its end is concluded a process is on record as ended, and not as a zombie yet. -/
theorem recorded?_of_conclude (hs : Reachable s) (hc : s.Candid) (hp : s.process? pid = some p)
    (ht : p.task = some t) (he : t.control = .finish e) (hsrc : src.pid = some pid) :
    ∃ q w, (s.conclude src pid e).process? pid = some q ∧
      recorded? pid (s.conclude src pid e).history = some (.exited w) := by
  have hconclude : Evolves (some pid) false false s (s.conclude src pid e) :=
    evolves_conclude hsrc e
  obtain ⟨q, hq, hkin⟩ := kin?_eq_some.1
    ((kin?_of_evolves hconclude pid).trans (kin?_of_process? hp))
  have hexited := isExited_of_conclude hc hp ht he hq
  have hzombie : q.status.isZombie = false := by
    have hrun : p.kin.running = true := by simp [Process.kin, ht]
    have hz : q.status.isZombie = p.kin.zombie := congrArg Kin.zombie hkin
    rw [hz, Bool.eq_false_iff]
    exact fun hz => by simp [hs.interred pid p.kin (kin?_of_process? hp) hz] at hrun
  have hrecorded := (hconclude.chronicled hs.chronicled).recorded pid q hq
  cases hst : q.status with
  | exited w => exact ⟨q, w, hq, hst ▸ hrecorded⟩
  | zombie w => simp [hst, Status.isZombie] at hzombie
  | normal | stopped sig => simp [hst, Status.isExited] at hexited

/-- **A burial keeps all zombies marked** if it is of one that is on record as ended. -/
theorem marked_of_lay (hm : Marked s.history) (hp : s.process? pid = some p)
    (hmark : ∃ w, recorded? pid s.history = some (.exited w)) :
    Marked (s.lay src pid p).history := by
  obtain ⟨p₁, hp₁, -⟩ := kin?_eq_some.1 <|
    show (p.children.foldl orphan s).kin? pid = some _ by
      rw [kin?_orphans, kin?_of_process? hp]
      rfl
  have hentomb : Marked ((p.children.foldl orphan s).entomb src pid).history := by
    rw [entomb, act_history hp₁, orphans_history]
    refine ⟨fun pid' he' => ?_, hm⟩
    obtain rfl := Event.becameZombie.inj he'
    exact hmark
  rw [lay_eq, update_history]
  exact (explained_tell p.parent).marked hentomb

/-- **An end keeps all zombies marked**, the new one included. -/
theorem marked_of_finish (hs : Reachable s) (hc : s.Candid) (hm : Marked s.history)
    (hp : s.process? pid = some p) (ht : p.task = some t) (he : t.control = .finish e)
    (hsrc : src.pid = some pid) : Marked (s.finish src pid t e).history := by
  obtain ⟨q, w, hq, hmark⟩ := recorded?_of_conclude hs hc hp ht he hsrc
  have hmarked : Marked (s.conclude src pid e).history :=
    (explained_conclude e fun _ _ => by simp).marked hm
  rw [finish_history t e hsrc hs.sound.ordered hq]
  refine (marked_of_lay hmarked hq ⟨w, hmark⟩).append fun r hr pid' he' => ?_
  -- a report buries nobody
  split at hr
  · obtain rfl := List.mem_singleton.1 hr
    cases he'
  · cases hr

/-! ## Runs -/

/-- **A truthful move keeps all zombies marked.** -/
theorem marked_of_move (hs : Reachable s) (hc : s.Candid) (hm : Marked s.history) (m : Move) :
    Marked (s.move m).history := by
  by_cases hend : ∃ pid, m = .process pid ∧ s.Finishing pid
  · obtain ⟨pid, rfl, p, t, e, hp, ht, he⟩ := hend
    have hmove : s.move (.process pid) = s.finish ⟨some pid, t.openCalls⟩ pid t e :=
      step_of_finish hp ht he
    exact hmove ▸ marked_of_finish hs hc hm hp ht he rfl
  · obtain ⟨new, hnew, hexp⟩ := explained_move hs.sound m
    -- nothing else that a move decides on buries anybody
    have hburies : ∀ e, s.Decides m e → ∀ q, e ≠ .becameZombie q := by
      rintro e hd q rfl
      exact hend (finishing_of_decides (.inl ⟨q, rfl⟩) hd)
    exact Explained.marked ⟨new, hnew, fun r hr hf => (hexp r hr hf).imp_right (hburies _)⟩ hm

/-- **Where nobody makes up `BREAK` every zombie was marked.** -/
theorem RunOf.marked (h : RunOf truthful s) : Marked s.history := by
  induction h with
  | initial => trivial
  | move h _ ih => exact marked_of_move h.reachable h.candid ih _

/-- **Behind every record is the move that made it.** -/
theorem exists_move (h : (initial.run moves).history = later ++ r :: earlier) :
    ∃ done m left later' earlier', moves = done ++ m :: left ∧
      ((initial.run done).move m).history =
        (later' ++ r :: earlier') ++ (initial.run done).history ∧
      earlier = earlier' ++ (initial.run done).history := by
  induction moves using List.reverseRecOn generalizing later with
  | nil =>
    have hnil : ([] : List Record) = later ++ r :: earlier := h
    simp at hnil
  | append_singleton moves m ih =>
    have hmove : initial.run (moves ++ [m]) = (initial.run moves).move m := run_append _ _ _
    obtain ⟨new, hnew⟩ := exists_history_move (Reachable.initial.run moves).sound m
    rw [hmove] at h
    have hold : ∀ {later}, (initial.run moves).history = later ++ r :: earlier →
        ∃ done m' left later' earlier', moves ++ [m] = done ++ m' :: left ∧
          ((initial.run done).move m').history =
            (later' ++ r :: earlier') ++ (initial.run done).history ∧
          earlier = earlier' ++ (initial.run done).history := by
      intro later hh
      obtain ⟨done, m', left, later', earlier', rfl, hmade, he⟩ := ih hh
      exact ⟨done, m', left ++ [m], later', earlier', by simp, hmade, he⟩
    rcases List.append_eq_append_iff.1 (hnew.symm.trans h) with ⟨bs, rfl, hh⟩ | ⟨as, rfl, hh⟩
    · exact hold hh
    · cases as with
      | nil => exact hold (show _ = [] ++ r :: earlier from hh.symm)
      | cons r' as =>
        obtain ⟨rfl, he⟩ := List.cons.inj hh
        exact ⟨moves, m, [], later, as, rfl, hnew, he⟩

end System

end PosixSignals
