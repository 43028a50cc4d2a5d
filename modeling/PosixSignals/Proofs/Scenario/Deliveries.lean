import PosixSignals.Proofs.Process.Deliveries
import PosixSignals.Proofs.Scenario.Hearing
import PosixSignals.Proofs.Scenario.Rest

/-!
# A round of deliveries in a run

A check point of a process with signals to deliver, in a run that lets the
process alone but for lifting its stops: it takes a bounded number of steps
and comes to what going once through the signals in ascending order comes
to. What is pending when it begins does not depend on the order in which it
was sent, since signals that are kept commute.
-/

namespace PosixSignals

/-! ## Signals that are kept commute -/

namespace Inbox

variable {box : Inbox} {a b : SignalInfo}

theorem push_of_mem (h : a.signal ∈ box.pending) : box.push a = box := if_pos h

/-- **The order in which two signals become pending does not matter.** -/
theorem push_comm (hne : a.signal ≠ b.signal) :
    (box.push a).push b = (box.push b).push a := by
  by_cases ha : a.signal ∈ box.pending
  · rw [push_of_mem ha, push_of_mem (mem_push_pending.2 (.inl ha))]
  by_cases hb : b.signal ∈ box.pending
  · rw [push_of_mem hb, push_of_mem (mem_push_pending.2 (.inl hb))]
  have ha' : a.signal ∉ (box.push b).pending := fun h => (mem_push_pending.1 h).elim ha hne
  have hb' : b.signal ∉ (box.push a).pending := fun h =>
    (mem_push_pending.1 h).elim hb (Ne.symm hne)
  have hunion : box.pending ∪ .single a.signal ∪ .single b.signal =
      box.pending ∪ .single b.signal ∪ .single a.signal := by
    show (⟨_ ||| _ ||| _⟩ : SignalSet) = ⟨_ ||| _ ||| _⟩
    rw [BitVec.or_assoc, BitVec.or_comm (SignalSet.single a.signal).bits, ← BitVec.or_assoc]
  have hindex : a.signal.index.val ≠ b.signal.index.val := fun h =>
    hne (congrArg Signal.mk (Fin.ext h))
  rw [push, if_neg hb', push.eq_def (box.push b), if_neg ha']
  simp only [push, ha, hb, if_false, hunion]
  congr 1
  exact Vector.set_comm _ _ hindex

/-- Where a signal goes depends on the mask and the disposition. -/
theorem receive_congr {H : Type} {d : Disposition H} {box' : Inbox}
    (h : box'.blocked = box.blocked) : (box'.receive a d).1 = (box.receive a d).1 := by
  simp only [receive, h]
  split
  · rfl
  cases d with
  | ignore => rfl
  | default =>
    dsimp only
    split
    · rfl
    split <;> rfl
  | handler action =>
    dsimp only
    split <;> rfl

/-- A signal that is kept becomes pending. -/
theorem Reception.eq_push {H : Type} {d : Disposition H} {outcome : Generated} {box' : Inbox}
    (h : box.Reception a d (outcome, box')) (ho : outcome = .queued ∨ outcome = .handlerReady) :
    box' = box.push a := by
  cases h with
  | queued | ready => rfl
  | atOnce | ignored | idle | acted => simp at ho

end Inbox

namespace Process

variable {p q : Process} {pid : Pid} {info other : SignalInfo} {infos infos' : List SignalInfo}

/-- **A process keeps a signal that is sent to it**: it becomes pending. -/
def Keeps (p : Process) (info : SignalInfo) : Prop :=
  (p.inbox.receive info (p.dispositions.get info.signal)).1 = .queued ∨
    (p.inbox.receive info (p.dispositions.get info.signal)).1 = .handlerReady

/-- The signal is pending, and who waits is told. -/
def kept (p : Process) (info : SignalInfo) : Process :=
  wake { p with inbox := p.inbox.push info }

theorem kept_comm (hne : info.signal ≠ other.signal) :
    (p.kept info).kept other = (p.kept other).kept info := by
  simp only [kept, wake, Inbox.push_comm hne]

theorem keeps_kept (h : p.Keeps other) : (p.kept info).Keeps other := by
  have hsame : (p.kept info).inbox.blocked = p.inbox.blocked := Inbox.push_blocked
  unfold Keeps
  rw [Inbox.receive_congr hsame]
  exact h

theorem Acceptance.of_keeps {c : Process × List Event} (ha : p.Acceptance pid info c)
    (h : p.Keeps info) : c.1 = { p with inbox := p.inbox.push info } := by
  unfold Keeps at h
  cases ha with
  | noted hr =>
    rw [hr.receive_eq] at h
    rw [hr.eq_push h]
  | acted hr => simp [hr.receive_eq] at h

/-- **What is kept is all that a signal does.** -/
theorem generate_of_keeps (hn : p.status = .normal) (h : p.Keeps info) :
    (p.generate pid info).1 = p.kept info := by
  have hg := p.generation pid info
  generalize p.generate pid info = c at hg ⊢
  cases hg with
  | dropped hex => simp [hn, Status.isExited] at hex
  | lifted _ hst => simp [hn, Status.isStopped] at hst
  | accepted _ _ ha => exact congrArg wake (ha.of_keeps h)

/-- Signals that are all kept become pending, one after the other. -/
theorem foldl_generate (hn : p.status = .normal) (h : ∀ info ∈ infos, p.Keeps info) :
    infos.foldl (fun p info => (p.generate pid info).1) p = infos.foldl kept p := by
  induction infos generalizing p with
  | nil => rfl
  | cons info infos ih =>
    obtain ⟨hfirst, hrest⟩ := List.forall_mem_cons.1 h
    rw [List.foldl_cons, List.foldl_cons, generate_of_keeps hn hfirst]
    exact ih hn fun other ho => keeps_kept (hrest other ho)

/-- **The order in which distinct signals are kept does not matter.** -/
theorem foldl_kept_of_perm (h : infos.Perm infos') (hd : (infos.map (·.signal)).Nodup) :
    infos.foldl kept p = infos'.foldl kept p := by
  refine h.foldl_eq' (fun a ha b hb q => ?_) p
  by_cases he : a = b
  · rw [he]
  · exact kept_comm fun hs => he (List.inj_on_of_nodup_map hd ha hb hs)

theorem status_foldl_kept : (infos.foldl kept p).status = p.status := by
  induction infos generalizing p with
  | nil => rfl
  | cons info infos ih => exact ih

theorem context?_foldl_kept : (infos.foldl kept p).context? = p.context? := by
  induction infos generalizing p with
  | nil => rfl
  | cons info infos ih =>
    exact ih.trans (context?_congr rfl Inbox.push_blocked)

theorem mem_pending_foldl_kept {sig : Signal} : sig ∈ (infos.foldl kept p).inbox.pending ↔
    sig ∈ p.inbox.pending ∨ ∃ info ∈ infos, info.signal = sig := by
  induction infos generalizing p with
  | nil => simp
  | cons info infos ih =>
    rw [List.foldl_cons, ih, kept, wake, Inbox.mem_push_pending]
    simp only [List.exists_mem_cons_iff, or_assoc, eq_comm (a := sig)]

end Process

namespace System

variable {s s' u v : System} {pid : Pid} {p q : Process} {fs : List Frame} {m : SignalSet}
  {n k k' : Nat} {total : Tally} {noted : List Event} {infos infos' : List SignalInfo}

/-! ## Runs that let a process be -/

/-- **A run in which others let a process be**: no signal comes for it, but its stops may be
lifted. It counts the steps that the process takes. -/
inductive LetsBe (pid : Pid) (s : System) : Nat → System → Prop
  | refl : LetsBe pid s 0 s
  | own {n : Nat} {u : System} (h : LetsBe pid s n u) :
      LetsBe pid s (n + if u.canStep pid then 1 else 0) (u.step pid)
  | other {n : Nat} {u : System} (h : LetsBe pid s n u) {m : Move} (hm : m ≠ .process pid)
      (hl : ∀ p q, u.process? pid = some p → (u.move m).process? pid = some q → p.Lets q) :
      LetsBe pid s n (u.move m)

theorem LetsBe.reachable (h : LetsBe pid s n u) (hs : Reachable s) : Reachable u := by
  induction h with
  | refl => exact hs
  | own _ ih => exact ih.move (.process pid)
  | other _ _ _ ih => exact ih.move _

/-- What a process has noted, the last first, but for its waiting to be continued. -/
def spokenBy (s : System) (pid : Pid) : List Event :=
  ((s.history.filter fun r => r.source.pid == some pid).map (·.event)).filter fun e => !e.isPause

theorem spokenBy_act {src : Source} {f : Process → Process × List Event}
    (hp : s.process? pid = some p) (hsrc : src.pid = some pid) :
    (s.act src pid f).spokenBy pid = spoken (f p).2 ++ s.spokenBy pid := by
  have hown : ((f p).2.map fun e => (⟨src, e⟩ : Record)).reverse.filter
      (fun r => r.source.pid == some pid) = ((f p).2.map fun e => (⟨src, e⟩ : Record)).reverse :=
    List.filter_eq_self.2 fun r hr => by
      obtain ⟨e, -, rfl⟩ := List.mem_map.1 (List.mem_reverse.1 hr)
      simpa using hsrc
  rw [spokenBy, act_history hp, List.filter_append, hown, List.map_append, List.filter_append,
    ← List.map_reverse, List.map_map, spoken, ← List.filter_reverse]
  congr 2
  exact List.map_id _

theorem spokenBy_of_others {new : List Record} (h : s'.history = new ++ s.history)
    (hsrc : ∀ r ∈ new, r.source.pid ≠ some pid) : s'.spokenBy pid = s.spokenBy pid := by
  have hnone : new.filter (fun r => r.source.pid == some pid) = [] :=
    List.filter_eq_nil_iff.2 fun r hr => by simpa using hsrc r hr
  rw [spokenBy, h, List.filter_append, hnone]
  rfl

/-! ## The round in a run -/

/-- **A round that began at a state is under way**, with so many steps left at most. -/
def Rounding (pid : Pid) (fs : List Frame) (m : SignalSet) (total : Tally) (s : System) (k : Nat)
    (u : System) : Prop :=
  ∃ q noted, u.process? pid = some q ∧ Process.Stage pid fs m total k noted q ∧
    u.spokenBy pid = noted ++ s.spokenBy pid

/-- **A round that began at a state is over.** -/
def RoundOver (pid : Pid) (fs : List Frame) (m : SignalSet) (total : Tally) (s u : System) : Prop :=
  ∃ q noted, u.process? pid = some q ∧ Process.Completes fs m total noted q ∧
    u.spokenBy pid = noted ++ s.spokenBy pid

/-- **A step of the process.** -/
theorem Rounding.own (h : Rounding pid fs m total s k u) (hu : Reachable u) :
    (∃ k', k' + (if u.canStep pid then 1 else 0) ≤ k ∧
      Rounding pid fs m total s k' (u.step pid)) ∨
      u.canStep pid = true ∧ RoundOver pid fs m total s (u.step pid) := by
  obtain ⟨q, noted, hq, hstage, hspoken⟩ := h
  obtain ⟨-, x, hx, hshared, -⟩ := hstage.busy
  obtain ⟨root, ht, -⟩ := Process.context?_eq_some.1 hx
  have hstep := step_of_not_isShared (s := u) hq ht hshared
  have hq' : (u.step pid).process? pid =
      some (q.step u.now pid ⟨x.frames, x.control, root⟩).1 := by
    rw [hstep]
    exact process?_act_self hq
  have hspoken' : (u.step pid).spokenBy pid =
      spoken (q.step u.now pid ⟨x.frames, x.control, root⟩).2 ++ noted ++ s.spokenBy pid := by
    rw [hstep, spokenBy_act hq rfl, hspoken, List.append_assoc]
  have hcan : u.canStep pid = q.isRunnable u.now := by simp [canStep, hq]
  rw [hcan]
  cases hrun : q.isRunnable u.now with
  | false =>
    rw [Process.step_of_not_isRunnable ht hrun] at hq' hspoken'
    exact .inl ⟨k, by simp, q, noted, hq', hstage, hspoken'⟩
  | true =>
    rcases hstage.step ht (hu.sound.inboxes pid q hq) hrun with ⟨k', hlt, hnext⟩ | hsettles
    · exact .inl ⟨k', Nat.succ_le_of_lt hlt, _, _, hq', hnext, hspoken'⟩
    · exact .inr ⟨rfl, _, _, hq', hsettles, hspoken'⟩

/-- **What others do.** -/
theorem Rounding.other (h : Rounding pid fs m total s k u) (hu : Reachable u) {move : Move}
    (hm : move ≠ .process pid)
    (hl : ∀ p q, u.process? pid = some p → (u.move move).process? pid = some q → p.Lets q) :
    ∃ k', k' ≤ k ∧ Rounding pid fs m total s k' (u.move move) := by
  obtain ⟨p, noted, hp, hstage, hspoken⟩ := h
  obtain ⟨-, x, hx, -, hi⟩ := hstage.busy
  obtain ⟨q, new, hheard⟩ := heard_of_others hu.sound hp hx hi hm
  obtain ⟨k', hle, hnext⟩ := hstage.lets hheard.told.sent.toDisturbed hheard.announced
    (hl p q hp hheard.process)
  exact ⟨k', hle, q, noted, hheard.process, hnext,
    (spokenBy_of_others hheard.history hheard.source).trans hspoken⟩

/-- **A run of the round**: the steps that were taken and those that are left are bounded, until
the round is over. -/
theorem rounding_run (h : Rounding pid fs m total s k s) (hs : Reachable s)
    (hrun : LetsBe pid s n u) :
    (∃ k', n + k' ≤ k ∧ Rounding pid fs m total s k' u) ∨
      ∃ i j v, n = i + j ∧ i ≤ k ∧ LetsBe pid s i v ∧ LetsBe pid v j u ∧
        RoundOver pid fs m total s v := by
  induction hrun with
  | refl => exact .inl ⟨k, by omega, h⟩
  | @own n u hu ih =>
    rcases ih with ⟨k', hle, hround⟩ | ⟨i, j, v, rfl, hi, hsv, hvu, hover⟩
    · have hpos : 0 < k' := by
        obtain ⟨_, _, _, hstage, _⟩ := hround
        exact hstage.busy.1
      rcases hround.own (hu.reachable hs) with ⟨k'', hless, hnext⟩ | ⟨hcan, hover⟩
      · exact .inl ⟨k'', by omega, hnext⟩
      · have hone : n + (if u.canStep pid then 1 else 0) ≤ k := by
          rw [if_pos hcan]
          omega
        exact .inr ⟨_, 0, _, rfl, hone, hu.own, .refl, hover⟩
    · exact .inr ⟨i, _, v, Nat.add_assoc .., hi, hsv, hvu.own, hover⟩
  | @other n u hu m hm hl ih =>
    rcases ih with ⟨k', hle, hround⟩ | ⟨i, j, v, rfl, hi, hsv, hvu, hover⟩
    · obtain ⟨k'', hless, hnext⟩ := hround.other (hu.reachable hs) hm hl
      exact .inl ⟨k'', by omega, hnext⟩
    · exact .inr ⟨i, j, v, rfl, hi, hsv, hvu.other hm hl, hover⟩

/-- **A round begins** at a check point that has delivered nothing yet. -/
theorem rounding_of_check (hs : Reachable s) (hp : s.process? pid = some p)
    (hx : p.context? = some ⟨fs, .loop (.check false), m⟩) (hn : p.status = .normal)
    (hplain : p.tally.Plain p.inbox.deliverable.toList) :
    Rounding pid fs m (p.tally.through pid m p.inbox.deliverable.toList) s
      (4 * p.inbox.deliverable.toList.length + 1) s := by
  have hblockable : m.Blockable :=
    (hs.sound.contexts pid _ (context?_eq_some.2 ⟨p, hp, hx⟩)).blockable
  have hleft : (p.tally.pending \ m).toList = p.inbox.deliverable.toList := by
    rw [← Process.blocked_of_context? hx]
    rfl
  exact ⟨p, [], hp, .looks hx hn p.shows_tally ⟨hleft, hplain, rfl, hn, hblockable⟩, rfl⟩

/-! ## Signals that are sent -/

/-- A signal is sent to who is in the table. -/
theorem move_send {info : SignalInfo} (hp : s.process? pid = some p) (hl : p.listed = true) :
    s.move (.host (.send pid info)) = s.act .host pid (·.generate pid info) := by
  have hlisted : s.listed? pid = some p := Option.filter_eq_some_iff.2 ⟨hp, hl⟩
  simp only [move, host, hlisted]

/-- **A `cont` that is discarded lets the process be**, but for its stop. -/
theorem LetsBe.cont {info : SignalInfo} (h : LetsBe pid s n u) (hp : u.process? pid = some p)
    (hl : p.listed = true) (hst : p.status.isStopped = true) (hc : info.signal = .cont)
    (hd : p.inbox.receive info (p.dispositions.get info.signal) = (.discarded, p.inbox)) :
    LetsBe pid s n (u.move (.host (.send pid info))) := by
  refine h.other (by simp) fun p' q hp' hq => ?_
  obtain rfl := Option.some.inj (hp.symm.trans hp')
  rw [move_send hp hl] at hq
  obtain rfl := eq_of_process?_act hp hq
  exact Process.lets_generate hc hst hd

/-- And so do its own steps. -/
theorem LetsBe.steps (h : LetsBe pid s n u) (k : Nat) :
    ∃ n', LetsBe pid s n' (u.run (List.replicate k (.process pid))) := by
  induction k generalizing n u with
  | zero => exact ⟨n, h⟩
  | succ k ih => exact ih h.own

/-- Signals are sent to a process from outside, one after the other. -/
def sends (pid : Pid) (infos : List SignalInfo) : List Move :=
  infos.map fun info => .host (.send pid info)

/-- What becomes of who is sent them is what becomes of it by one after the other. -/
theorem process?_run_sends (hp : s.process? pid = some p) (hl : p.listed = true) :
    (s.run (sends pid infos)).process? pid =
      some (infos.foldl (fun p info => (p.generate pid info).1) p) := by
  induction infos generalizing s p with
  | nil => exact hp
  | cons info infos ih =>
    have hkeeps : (p.generate pid info).1.listed = p.listed :=
      congrArg Kin.listed (Process.kin_generate info)
    exact ih (move_send hp hl ▸ process?_act_self hp) (hkeeps.trans hl)

/-- **A round of deliveries is going once through the deliverable signals.** In every
reachable state in which a normal process is at a check point that has
delivered nothing yet: the signals that are pending and not blocked are gone
through in ascending order. If their handlers make no calls, then in every
run in which no signal comes for the process but its stops may be lifted,
it can go on or is stopped, and it takes a bounded number of steps until the
round is over. Then it has the reply, the status, the dispositions and the
pending signals that the tally says, and has noted what the tally says. And
signals that are sent to it and all kept leave it the same in any order. -/
theorem round_of_deliveries (hs : Reachable s) (hp : s.process? pid = some p)
    (hx : p.context? = some ⟨fs, .loop (.check false), m⟩) (hn : p.status = .normal) :
    let signals := p.inbox.deliverable.toList
    let total := p.tally.through pid m signals
    (signals.Pairwise (fun a b => a.number < b.number) ∧
      ∀ sig, sig ∈ signals ↔ sig ∈ p.inbox.pending ∧ sig ∉ p.inbox.blocked) ∧
    (p.tally.Plain signals → ∀ n u, LetsBe pid s n u →
      (n ≤ 4 * signals.length ∧ ∃ q, u.process? pid = some q ∧
        (q.isRunnable u.now = true ∨ q.status.isStopped = true)) ∨
      ∃ i j v, n = i + j ∧ i ≤ 4 * signals.length + 1 ∧ LetsBe pid s i v ∧ LetsBe pid v j u ∧
        ∃ q, v.process? pid = some q ∧ q.context? = some ⟨fs, .reply total.reply, m⟩ ∧
          q.status = total.status ∧ q.Shows total ∧
          v.spokenBy pid = total.noted ++ s.spokenBy pid) ∧
    (∀ infos infos' : List SignalInfo, infos.Perm infos' → (infos.map (·.signal)).Nodup →
      (∀ info ∈ infos, p.Keeps info) →
      ∃ q, (∀ order, order = infos ∨ order = infos' →
          order.foldl (fun p info => (p.generate pid info).1) p = q ∧
          (p.listed = true → (s.run (sends pid order)).process? pid = some q)) ∧
        q.status = .normal ∧ q.context? = p.context? ∧
        ∀ sig, sig ∈ q.inbox.pending ↔ sig ∈ p.inbox.pending ∨ ∃ info ∈ infos, info.signal = sig) := by
  intro signals total
  refine ⟨⟨SignalSet.pairwise_toList _, fun sig => SignalSet.mem_toList.trans SignalSet.mem_sdiff⟩,
    fun hplain n u hrun => ?_, fun infos infos' hperm hd hkeeps => ?_⟩
  · have hstart := rounding_of_check hs hp hx hn hplain
    rcases rounding_run hstart hs hrun with
      ⟨k', hle, q, noted, hq, hstage, -⟩ | ⟨i, j, v, rfl, hi, hsv, hvu, q, noted, hq, hend, hspoken⟩
    · have hpos := hstage.busy.1
      have hle : n + k' ≤ 4 * signals.length + 1 := hle
      exact .inl ⟨by omega, q, hq, hstage.isRunnable_or⟩
    · exact .inr ⟨i, j, v, rfl, hi, hsv, hvu, q, hq, hend.context, hend.status, hend.shows,
        hend.noted ▸ hspoken⟩
  · refine ⟨infos.foldl Process.kept p, fun order ho => ?_, Process.status_foldl_kept.trans hn,
      Process.context?_foldl_kept, fun sig => Process.mem_pending_foldl_kept⟩
    have hfold : order.foldl (fun p info => (p.generate pid info).1) p =
        infos.foldl Process.kept p := by
      rcases ho with rfl | rfl
      · exact Process.foldl_generate hn hkeeps
      · rw [Process.foldl_generate hn fun info h => hkeeps info (hperm.mem_iff.2 h),
          Process.foldl_kept_of_perm hperm hd]
    exact ⟨hfold, fun hl => hfold ▸ process?_run_sends hp hl⟩

/-- A process blocks six signals and is sent them. Then it has a handler for `usr1` that is
reset when it has run, ignores `usr2`, unblocks them all and comes to a check point. -/
def receiving : List Move :=
  let six : SignalSet := .single .usr1 ∪ .single .usr2 ∪ .single .chld ∪ .single .tstp ∪
    .single .vtalrm ∪ .single .prof
  let call (c : EngineCall Handler) : List Move :=
    [.host (.command 1 (.perform { request := .engine c })), .process 1, .process 1]
  [Move.host (.root "target")] ++ call (.changeMask .block six) ++
  sends 1 ([.tstp, .prof, .usr1, .chld, .vtalrm, .usr2].map .kernel) ++
  call (.changeDisposition .usr1
    (some (.handler { handler := .mk "runs" 0 [], flags := { resetHand := true } }))) ++
  call (.changeDisposition .usr2 (some .ignore)) ++ call (.changeMask .unblock six) ++
  [Move.host (.command 1 (.perform { request := .engine .checkPoint })), .process 1]

theorem receiving_context : (initial.run receiving).context? 1 =
    some ⟨[.main false], .loop (.check false), ∅⟩ := by cbv

/-- What the process notes of them, the last first. -/
def received : List Event :=
  [.exited 1 (.ofSignal .vtalrm), .handling .vtalrm, .stopped 1 .tstp, .handling .tstp,
    .handling .chld, .ignored .usr2, .handling .usr2, .left ⟨.usr1, "runs", 1⟩,
    .entered ⟨.usr1, "runs", 1⟩ (.single .usr1) (.single .usr2 ∪ .single .chld ∪
      .single .tstp ∪ .single .vtalrm ∪ .single .prof), .handling .usr1]

/-- Going through the signals ends with `vtalrm`, and `prof` stays. -/
theorem receiving_tally : ((initial.run receiving).process? 1).map (fun p =>
    let total := p.tally.through 1 ∅ p.inbox.deliverable.toList
    (p.status, p.inbox.deliverable.toList.length, p.tally.isPlain p.inbox.deliverable.toList,
      total.status, total.pending, total.noted, total.dispositions.get .usr1)) =
    some (.normal, 6, true, .exited (.ofSignal .vtalrm), .single .prof, received, .default) := by
  cbv

/-- `tstp` stops the process in its seventh step, and a `cont` lifts the stop. -/
theorem receiving_stopped : ∃ p,
    ((initial.run receiving).run (List.replicate 8 (.process 1))).process? 1 = some p ∧
      p.listed = true ∧ p.status.isStopped = true ∧
        p.inbox.receive (.kernel .cont) (p.dispositions.get .cont) = (.discarded, p.inbox) :=
  ⟨_, by cbv, by cbv, by cbv, by cbv⟩

/-- **The six are gone through**, whatever happens but for further signals: the stop of `tstp`
has to be lifted on the way, and there is a run in which it is. -/
theorem round_of_deliveries_of_receiving :
    let s := initial.run receiving
    let lifted := (s.run (List.replicate 8 (.process 1))).move (.host (.send 1 (.kernel .cont)))
    (∃ n, LetsBe 1 s n (lifted.run (List.replicate 3 (.process 1)))) ∧
    ∀ n u, LetsBe 1 s n u →
      (n ≤ 24 ∧ ∃ q, u.process? 1 = some q ∧
        (q.isRunnable u.now = true ∨ q.status.isStopped = true)) ∨
      ∃ i j v, n = i + j ∧ i ≤ 25 ∧ LetsBe 1 s i v ∧ LetsBe 1 v j u ∧
        ∃ q, v.process? 1 = some q ∧
          q.context? = some ⟨[.main false], .reply (.error .mustExit), ∅⟩ ∧
          q.status = .exited (.ofSignal .vtalrm) ∧ q.inbox.pending = .single .prof ∧
          q.dispositions.get .usr1 = .default ∧
          v.spokenBy 1 = received ++ s.spokenBy 1 := by
  intro s lifted
  obtain ⟨n, hsteps⟩ := (show LetsBe 1 s 0 s from .refl).steps 8
  obtain ⟨q, hq, hl, hst, hd⟩ := receiving_stopped
  refine ⟨(hsteps.cont hq hl hst rfl hd).steps 3, fun n u hrun => ?_⟩
  obtain ⟨p, hp, hx⟩ := context?_eq_some.1 receiving_context
  have htally := receiving_tally
  rw [hp, Option.map_some, Option.some.injEq] at htally
  simp only [Prod.mk.injEq] at htally
  obtain ⟨hn, hlength, hplain, hstatus, hpending, hnoted, hreset⟩ := htally
  obtain ⟨-, hround, -⟩ := round_of_deliveries (Reachable.initial.run receiving) hp hx hn
  have hcome := hround (Tally.plain_of_isPlain hplain) n u hrun
  rw [hlength, hstatus, hnoted] at hcome
  rcases hcome with hon | ⟨i, j, v, hij, hi, hsv, hvu, q, hq, hqx, hqs, hshows, hspoken⟩
  · exact .inl hon
  · refine .inr ⟨i, j, v, hij, hi, hsv, hvu, q, hq, ?_, hqs, hshows.pending.trans hpending,
      hshows.dispositions ▸ hreset, hspoken⟩
    rw [hqx, Tally.reply, hstatus]
    rfl

end System

end PosixSignals
