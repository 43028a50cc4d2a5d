import PosixSignals.Proofs.Process.Tally

/-!
# A round of deliveries, step by step

A check point of a process that nobody disturbs, except that a stop is lifted,
follows the tally of its deliverable signals. `Stage` lists the places that
it can be in, each with what has been noted so far and with the number of
steps that are left at most: the check point looks, a stop waits to be
lifted, or a handler is on its way in or out. What carries the argument is
that what the process shows is a tally of the signals served, and that going
through the others from there leads to the same total.
-/

namespace PosixSignals

/-- Whether an event tells only that a stopped process waits. -/
def Event.isPause : Event → Bool
  | .awaitsContinue => true
  | _ => false

/-- What events tell besides, the last first. -/
def spoken (events : List Event) : List Event := (events.filter fun e => !e.isPause).reverse

namespace Process

variable {p q : Process} {pid : Pid} {now n : Nat} {fs : List Frame} {m mask : SignalSet}
  {t total : Tally} {sig : Signal} {rest : List Signal} {action : Action Installed}
  {noted events : List Event} {c : Control}

/-! ## What a process shows of a tally -/

/-- The tally of a process before anything is gone through. -/
def tally (p : Process) : Tally where
  pending := p.inbox.pending
  infos := p.inbox.infos
  dispositions := p.dispositions
  runs := p.runs
  status := p.status
  delivered := false
  noted := []

/-- **A process shows a tally**: its signals, its dispositions and its runs are those. -/
structure Shows (q : Process) (t : Tally) : Prop where
  pending : q.inbox.pending = t.pending
  infos : q.inbox.infos = t.infos
  dispositions : q.dispositions = t.dispositions
  runs : q.runs = t.runs

theorem shows_tally (p : Process) : p.Shows p.tally := ⟨rfl, rfl, rfl, rfl⟩

theorem Shows.congr (h : p.Shows t) (hp : q.inbox.pending = p.inbox.pending)
    (hi : q.inbox.infos = p.inbox.infos) (hd : q.dispositions = p.dispositions)
    (hr : q.runs = p.runs) : q.Shows t :=
  ⟨hp.trans h.pending, hi.trans h.infos, hd.trans h.dispositions, hr.trans h.runs⟩

/-- To take a signal is to take it out of the tally. -/
theorem Shows.without (h : p.Shows t) (sig : Signal) : (p.without sig).Shows (t.take sig) where
  pending := congrArg (·.erase sig) h.pending
  infos := congrArg (fun infos => infos.set sig.index none sig.index_lt) h.infos
  dispositions := h.dispositions
  runs := h.runs

/-- What a delivery makes of the process once the handler has come back. -/
def afterwards (sig : Signal) (action : Action Installed) (saved : SignalSet) (p : Process) :
    Process :=
  if action.flags.resetHand then
    { p.restore saved with dispositions := p.dispositions.reset sig }
  else p.restore saved

theorem afterwards_pending {saved : SignalSet} :
    (p.afterwards sig action saved).inbox.pending = p.inbox.pending := by
  unfold afterwards
  split <;> rfl

theorem afterwards_infos {saved : SignalSet} :
    (p.afterwards sig action saved).inbox.infos = p.inbox.infos := by
  unfold afterwards
  split <;> rfl

theorem afterwards_dispositions {saved : SignalSet} :
    (p.afterwards sig action saved).dispositions =
      if action.flags.resetHand then p.dispositions.reset sig else p.dispositions := by
  unfold afterwards
  split <;> rfl

theorem afterwards_runs {saved : SignalSet} :
    (p.afterwards sig action saved).runs = p.runs := by
  unfold afterwards
  split <;> rfl

theorem afterwards_status {saved : SignalSet} :
    (p.afterwards sig action saved).status = p.status := by
  unfold afterwards
  split <;> rfl

theorem context?_afterwards {saved : SignalSet} : (p.afterwards sig action saved).context? =
    p.context?.map fun x => { x with blocked := saved \ .uncatchable } := by
  unfold afterwards
  split <;> exact context?_restore saved

theorem shows_afterwards {saved : SignalSet} (h : (p.afterwards sig action saved).Shows t)
    (hp : q.inbox.pending = p.inbox.pending) (hi : q.inbox.infos = p.inbox.infos)
    (hd : q.dispositions = p.dispositions) (hr : q.runs = p.runs) :
    (q.afterwards sig action saved).Shows t where
  pending := (afterwards_pending.trans (hp.trans afterwards_pending.symm)).trans h.pending
  infos := (afterwards_infos.trans (hi.trans afterwards_infos.symm)).trans h.infos
  dispositions := by
    rw [← h.dispositions, afterwards_dispositions, afterwards_dispositions, hd]
  runs := (afterwards_runs.trans (hr.trans afterwards_runs.symm)).trans h.runs

end Process

/-- **These signals are left to be gone through**, and that leads to the total. -/
structure Tally.Leads (pid : Pid) (m : SignalSet) (t : Tally) (rest : List Signal)
    (total : Tally) : Prop where
  left : (t.pending \ m).toList = rest
  plain : t.Plain rest
  total : t.through pid m rest = total
  status : t.status = .normal
  blockable : m.Blockable

namespace Tally

variable {pid : Pid} {m : SignalSet} {t total : Tally} {sig : Signal} {rest : List Signal}

theorem serve_pending : (t.serve pid m sig).pending = t.pending.erase sig := by
  unfold serve
  split
  · rfl
  · split <;> rfl
  · rfl

theorem erase_sdiff (s m : SignalSet) (sig : Signal) : (s \ m).erase sig = s.erase sig \ m := by
  show (⟨s.bits &&& ~~~m.bits &&& ~~~(SignalSet.single sig).bits⟩ : SignalSet) =
    ⟨s.bits &&& ~~~(SignalSet.single sig).bits &&& ~~~m.bits⟩
  rw [BitVec.and_assoc, BitVec.and_assoc, BitVec.and_comm (~~~m.bits)]

/-- The next signal to be gone through is the lowest. -/
theorem Leads.first? (h : t.Leads pid m (sig :: rest) total) :
    (t.pending \ m).first? = some sig ∧ (t.pending.erase sig \ m).toList = rest := by
  have hleft := h.left
  cases hf : (t.pending \ m).first? with
  | none =>
    rw [SignalSet.toList_eq_nil hf] at hleft
    cases hleft
  | some first =>
    rw [SignalSet.toList_of_first? hf] at hleft
    obtain ⟨rfl, hrest⟩ := List.cons.inj hleft
    exact ⟨rfl, by rw [← erase_sdiff, hrest]⟩

/-- One signal less to go. -/
theorem Leads.serve (h : t.Leads pid m (sig :: rest) total)
    (hn : (t.serve pid m sig).status = .normal) : (t.serve pid m sig).Leads pid m rest total where
  left := by rw [serve_pending, h.first?.2]
  plain := h.plain.serve
  total := by rw [← through_cons h.status, h.total]
  status := hn
  blockable := h.blockable

/-- Nothing is left to go through. -/
theorem Leads.done (h : t.Leads pid m [] total) :
    t = total ∧ (t.pending \ m).first? = none := by
  refine ⟨h.total, ?_⟩
  cases hf : (t.pending \ m).first? with
  | none => rfl
  | some first =>
    have hleft := h.left
    rw [SignalSet.toList_of_first? hf] at hleft
    cases hleft

/-- **A fatal signal is the last.** -/
theorem Leads.serve_eq (h : t.Leads pid m (sig :: rest) total)
    (he : (t.serve pid m sig).status.isExited = true) : t.serve pid m sig = total := by
  rw [← h.total, through_cons h.status, through_of_isExited he]

end Tally

namespace Process

variable {p q : Process} {pid : Pid} {now n : Nat} {fs : List Frame} {m mask : SignalSet}
  {t total : Tally} {sig : Signal} {rest : List Signal} {action : Action Installed}
  {noted events : List Event} {c : Control}

/-! ## The places of a round -/

/-- **A round of deliveries under way** over the frames `fs` and under the mask `m`, with the
number of steps that are left at most and with what was noted. -/
inductive Stage (pid : Pid) (fs : List Frame) (m : SignalSet) (total : Tally) :
    Nat → List Event → Process → Prop
  | looks {t : Tally} {rest : List Signal} {q : Process}
      (hx : q.context? = some ⟨fs, .loop (.check t.delivered), m⟩) (hn : q.status = .normal)
      (hs : q.Shows t) (hl : t.Leads pid m rest total) :
      Stage pid fs m total (4 * rest.length + 1) t.noted q
  /-- A stop was carried out. -/
  | stops {t : Tally} {rest : List Signal} {q : Process}
      (hx : q.context? = some ⟨fs, .loop (.check t.delivered), m⟩)
      (hst : q.status.isStopped = true) (hs : q.Shows t) (hl : t.Leads pid m rest total) :
      Stage pid fs m total (4 * rest.length + 3) t.noted q
  /-- A stop waits to be lifted, or has been. -/
  | waits {t : Tally} {rest : List Signal} {q : Process} {y : Listener}
      (hx : q.context? = some ⟨fs, .blocked (.check t.delivered) y, m⟩)
      (hy : y.occasion = .signal ∧ y.deadline = none)
      (hst : q.status.isStopped = true ∧ y.seen = q.signalNotices ∨
        q.status = .normal ∧ y.seen < q.signalNotices)
      (hs : q.Shows t) (hl : t.Leads pid m rest total) :
      Stage pid fs m total (4 * rest.length + 2) t.noted q
  /-- A handler was entered, and the tally has it that it has run. -/
  | runs {t : Tally} {rest : List Signal} {q : Process} {run : HandlerRun} {noted : List Event}
      {sig : Signal} {action : Action Installed} {mask : SignalSet}
      (hx : q.context? = some
        ⟨.body run false [] :: .delivery sig action m :: .round :: fs, .proceed, mask⟩)
      (hn : q.status = .normal) (hs : (q.afterwards sig action m).Shows t)
      (hl : t.Leads pid m rest total) (hd : t.delivered = true)
      (he : t.noted = .left run :: noted) :
      Stage pid fs m total (4 * rest.length + 4) noted q
  | returns {t : Tally} {rest : List Signal} {q : Process} {v : Value}
      {sig : Signal} {action : Action Installed} {mask : SignalSet}
      (hx : q.context? = some
        ⟨.delivery sig action m :: .round :: fs, .reply (.ok v), mask⟩)
      (hn : q.status = .normal) (hs : (q.afterwards sig action m).Shows t)
      (hl : t.Leads pid m rest total) (hd : t.delivered = true) :
      Stage pid fs m total (4 * rest.length + 3) t.noted q
  | resumes {t : Tally} {rest : List Signal} {q : Process} {v : Value}
      (hx : q.context? = some ⟨.round :: fs, .reply (.ok v), m⟩)
      (hn : q.status = .normal) (hs : q.Shows t) (hl : t.Leads pid m rest total)
      (hd : t.delivered = true) :
      Stage pid fs m total (4 * rest.length + 2) t.noted q
  /-- A fatal signal was served. -/
  | dies {q : Process} {b : Bool} (hx : q.context? = some ⟨fs, .loop (.check b), m⟩)
      (he : total.status.isExited = true) (hst : q.status = total.status) (hs : q.Shows total) :
      Stage pid fs m total 1 total.noted q

/-- **The round is over**, and has come to the total. -/
structure Completes (fs : List Frame) (m : SignalSet) (total : Tally) (noted : List Event)
    (q : Process) : Prop where
  context : q.context? = some ⟨fs, .reply total.reply, m⟩
  status : q.status = total.status
  shows : q.Shows total
  noted : noted = total.noted

/-- What comes of a step: a later stage, or the end. -/
def Advances (pid : Pid) (fs : List Frame) (m : SignalSet) (total : Tally) (n : Nat)
    (noted : List Event) (r : Process × List Event) : Prop :=
  (∃ k, k < n ∧ Stage pid fs m total k (spoken r.2 ++ noted) r.1) ∨
    Completes fs m total (spoken r.2 ++ noted) r.1

/-! ## A step of the round -/

/-- **A signal was served** without a handler: the check point looks again, the process was
stopped, or it has ended. -/
theorem advances_serve {r : Process × List Event} {b : Bool}
    (hl : t.Leads pid m (sig :: rest) total)
    (hx : r.1.context? = some ⟨fs, .loop (.check b), m⟩) (hs : r.1.Shows (t.serve pid m sig))
    (hnoted : spoken r.2 ++ t.noted = (t.serve pid m sig).noted)
    (hst : r.1.status = (t.serve pid m sig).status ∨
      r.1.status.isStopped = true ∧ (t.serve pid m sig).status = .normal)
    (hb : (t.serve pid m sig).status = .normal ∧ b = (t.serve pid m sig).delivered ∨
      (t.serve pid m sig).status.isExited = true) :
    Advances pid fs m total (4 * rest.length + 5) t.noted r := by
  rcases hb with ⟨hn, rfl⟩ | he
  · have hl' := hl.serve hn
    rcases hst with hst | ⟨hst, -⟩
    · refine .inl ⟨4 * rest.length + 1, by omega, ?_⟩
      rw [hnoted]
      exact .looks hx (hst.trans hn) hs hl'
    · refine .inl ⟨4 * rest.length + 3, by omega, ?_⟩
      rw [hnoted]
      exact .stops hx hst hs hl'
  · rcases hst with hst | ⟨-, hn⟩
    · refine .inl ⟨1, by omega, ?_⟩
      have hlast := hl.serve_eq he
      rw [hlast] at hs hst he hnoted
      rw [hnoted]
      exact .dies hx he hst hs
    · simp [hn, Status.isExited] at he

section Turn

variable (hx : p.context? = some ⟨fs, .loop (.check t.delivered), m⟩) (hn : p.status = .normal)
  (hs : p.Shows t) (hl : t.Leads pid m (sig :: rest) total)
include hx hn hs hl

/-- The signal is dropped. -/
theorem advances_ignore (hd : t.dispositions.get sig = .ignore) :
    Advances pid fs m total (4 * rest.length + 5) t.noted
      ((p.without sig).goto (.loop (.check t.delivered)), [.handling sig, .ignored sig]) := by
  have hserve : t.serve pid m sig =
      { t.take sig with noted := .ignored sig :: (t.take sig).noted } := by
    simp only [Tally.serve, hd]
  have hw := hs.without sig
  refine advances_serve (b := t.delivered) hl ?_ ?_ ?_ (.inl ?_) (.inl ?_)
  · rw [context?_goto, context?_without, hx]
    rfl
  · exact hserve ▸ ⟨hw.pending, hw.infos, hw.dispositions, hw.runs⟩
  · rw [hserve]
    rfl
  · rw [hserve]
    exact hn.trans hl.status.symm
  · rw [hserve]
    exact ⟨hl.status, rfl⟩

/-- **The default action is carried out.** -/
theorem advances_default (hd : t.dispositions.get sig = .default) :
    Advances pid fs m total (4 * rest.length + 5) t.noted
      (((p.without sig).act pid sig sig.defaultAction).1.goto
        (.loop (.check (t.delivered || !sig.defaultAction.isIdle))),
      .handling sig :: ((p.without sig).act pid sig sig.defaultAction).2) := by
  have hnw : (p.without sig).status = .normal := hn
  have hw := hs.without sig
  have hgoes : (((p.without sig).act pid sig sig.defaultAction).1.goto
      (.loop (.check (t.delivered || !sig.defaultAction.isIdle)))).context? =
      some ⟨fs, .loop (.check (t.delivered || !sig.defaultAction.isIdle)), m⟩ := by
    rw [context?_goto, context?_act, context?_without, hx]
    rfl
  cases hact : sig.defaultAction with
  | ignore | «continue» =>
    have hserve : t.serve pid m sig = t.take sig := by simp only [Tally.serve, hd, hact]
    rw [hact] at hgoes
    refine advances_serve hl hgoes ?_ ?_ (.inl ?_) (.inl ?_)
    · exact hserve ▸ ⟨hw.pending, hw.infos, hw.dispositions, hw.runs⟩
    · rw [hserve]
      rfl
    · rw [hserve]
      exact hn.trans hl.status.symm
    · rw [hserve]
      exact ⟨hl.status, Bool.or_false _⟩
  | stop =>
    have hserve : t.serve pid m sig = { t.take sig with
        delivered := true
        noted := .stopped pid sig :: (t.take sig).noted } := by
      simp only [Tally.serve, hd, hact]
    rw [hact] at hgoes
    rw [act_stop hnw] at hgoes ⊢
    refine advances_serve hl hgoes ?_ ?_ (.inr ?_) (.inl ?_)
    · exact hserve ▸ ⟨hw.pending, hw.infos, hw.dispositions, hw.runs⟩
    · rw [hserve]
      rfl
    · rw [hserve]
      exact ⟨rfl, hl.status⟩
    · rw [hserve]
      exact ⟨hl.status, Bool.or_true _⟩
  | terminate | coreDump =>
    have hserve : t.serve pid m sig = { t.take sig with
        status := .exited (.ofSignal sig)
        noted := .exited pid (.ofSignal sig) :: (t.take sig).noted } := by
      simp only [Tally.serve, hd, hact]
    have hlive : (p.without sig).status.isExited = false := hnw ▸ rfl
    simp only [hact, act_terminate hlive, act_coreDump hlive] at hgoes ⊢
    refine advances_serve hl hgoes ?_ ?_ (.inl ?_) (.inr ?_)
    · exact hserve ▸ ⟨hw.pending, hw.infos, hw.dispositions, hw.runs⟩
    · rw [hserve]
      rfl
    · rw [hserve]
      rfl
    · rw [hserve]
      rfl

/-- **A handler is entered**, which comes back at once. -/
theorem advances_handler (hd : t.dispositions.get sig = .handler action) :
    Advances pid fs m total (4 * rest.length + 5) t.noted
      ((((p.without sig).enter .round .proceed).deliver sig action).1,
        .handling sig :: (((p.without sig).enter .round .proceed).deliver sig action).2) := by
  have hserve : t.serve pid m sig = (t.take sig).run m sig action := by
    simp only [Tally.serve, hd]
  have hl' := hl.serve (by rw [hserve]; exact hl.status)
  rw [hserve] at hl'
  have hw := hs.without sig
  have hplain := hl.plain sig List.mem_cons_self action hd
  obtain ⟨root, ht, hm⟩ := context?_eq_some.1 hx
  dsimp only at ht hm
  let count := (p.runs.lookup action.handler.id).getD 0 + 1
  let run : HandlerRun := ⟨sig, action.handler.handler.tag, count⟩
  let q := (((p.without sig).enter .round .proceed).deliver sig action).1
  have hqx : q.context? = some ⟨.body run false [] :: .delivery sig action m :: .round :: fs,
      .proceed, (m ∪ action.blockedDuring sig) \ .uncatchable⟩ := by
    rw [← hs.runs] at hplain
    subst hm
    simp only [q, deliver, context?, enter, countRun, without, ht, Option.map_some, hplain]
    rfl
  have hqs : (q.afterwards sig action m).Shows ((t.take sig).run m sig action) := by
    refine ⟨?_, ?_, ?_, ?_⟩
    · rw [afterwards_pending]
      exact hw.pending
    · rw [afterwards_infos]
      exact hw.infos
    · rw [afterwards_dispositions]
      exact congrArg (fun d => if action.flags.resetHand then DispositionTable.reset d sig else d)
        hs.dispositions
    · rw [afterwards_runs]
      exact congrArg (fun r => (action.handler.id, (r.lookup action.handler.id).getD 0 + 1) ::
        r.filter (·.1 != action.handler.id)) hs.runs
  refine .inl ⟨4 * rest.length + 4, by omega, ?_⟩
  refine .runs hqx hn hqs hl' rfl ?_
  simp only [Tally.run, Tally.take, ← hs.runs, ← hs.pending, ← hm]
  rfl

end Turn

/-- **A turn of the check point** with a signal to deliver. -/
theorem advances_check (hx : p.context? = some ⟨fs, .loop (.check t.delivered), m⟩)
    (hn : p.status = .normal) (hs : p.Shows t) (hl : t.Leads pid m (sig :: rest) total)
    (hbox : p.inbox.Sound) :
    Advances pid fs m total (4 * rest.length + 5) t.noted (p.check pid t.delivered) := by
  have hm : p.inbox.blocked = m := blocked_of_context? hx
  have htake : p.inbox.takeDeliverable = (some (p.inbox.take sig).1, (p.inbox.take sig).2) := by
    unfold Inbox.takeDeliverable Inbox.takeFirst Inbox.deliverable
    rw [hm, hs.pending, hl.first?.1]
  have hlive : p.status.isExited = false ∧ p.status.isStopped = false := by
    rw [hn]
    exact ⟨rfl, rfl⟩
  unfold check
  rw [if_neg (by simp [hlive.1]), if_neg (by simp [hlive.2]), htake]
  simp only [hbox.take_signal]
  cases hd : p.dispositions.get sig with
  | ignore => exact advances_ignore hx hn hs hl (hs.dispositions ▸ hd)
  | default => exact advances_default hx hn hs hl (hs.dispositions ▸ hd)
  | handler action => exact advances_handler hx hn hs hl (hs.dispositions ▸ hd)

/-- Nothing is left to deliver. -/
theorem completes_check (hx : p.context? = some ⟨fs, .loop (.check t.delivered), m⟩)
    (hn : p.status = .normal) (hs : p.Shows t) (hl : t.Leads pid m [] total) :
    Completes fs m total (spoken (p.check pid t.delivered).2 ++ t.noted)
      (p.check pid t.delivered).1 := by
  obtain ⟨rfl, hnone⟩ := hl.done
  have hm : p.inbox.blocked = m := blocked_of_context? hx
  have htake : p.inbox.takeDeliverable = (none, p.inbox) := by
    unfold Inbox.takeDeliverable Inbox.takeFirst Inbox.deliverable
    rw [hm, hs.pending, hnone]
  have hcheck : p.check pid t.delivered = (p.answer (.ok (.delivered t.delivered)), []) := by
    simp only [check, hn, Status.isExited, Status.isStopped, htake, Bool.false_eq_true, if_false]
  rw [hcheck]
  refine ⟨?_, hn.trans hl.status.symm, hs.congr rfl rfl rfl rfl, rfl⟩
  rw [context?_answer, hx, Tally.reply, hl.status]
  rfl

/-- **A step of the round.** -/
theorem Stage.step {root : Bool} {frames : List Frame}
    (h : Stage pid fs m total n noted p) (ht : p.task = some ⟨frames, c, root⟩)
    (hbox : p.inbox.Sound) (hrun : p.isRunnable now = true) :
    Advances pid fs m total n noted (p.step now pid ⟨frames, c, root⟩) := by
  have hx : p.context? = some ⟨frames, c, p.inbox.blocked⟩ := context?_eq_some.2 ⟨root, ht, rfl⟩
  cases h with
  | @looks t rest _ hx' hn hs hl =>
    obtain ⟨rfl, rfl, hm⟩ := Context.mk.inj (Option.some.inj (hx.symm.trans hx'))
    cases rest with
    | cons sig rest => exact advances_check hx' hn hs hl hbox
    | nil => exact .inr (completes_check hx' hn hs hl)
  | @stops t rest _ hx' hst hs hl =>
    obtain ⟨rfl, rfl, hm⟩ := Context.mk.inj (Option.some.inj (hx.symm.trans hx'))
    have hlive : p.status.isExited = false := by
      cases hp : p.status <;> simp [hp, Status.isStopped, Status.isExited] at hst ⊢
    have hcheck : p.step now pid ⟨frames, .loop (.check t.delivered), root⟩ =
        (p.goto (.blocked (.check t.delivered) (p.listen .signal none)), [.awaitsContinue]) := by
      simp only [Process.step, check, hlive, hst, Bool.false_eq_true, if_false, if_true]
    rw [hcheck]
    refine .inl ⟨_, Nat.lt_succ_self _, ?_⟩
    refine .waits (y := p.listen .signal none) ?_ ⟨rfl, rfl⟩ (.inl ⟨hst, rfl⟩)
      (hs.congr rfl rfl rfl rfl) hl
    rw [context?_goto, hx']
    rfl
  | @waits t rest _ y hx' hy hst hs hl =>
    obtain ⟨rfl, rfl, hm⟩ := Context.mk.inj (Option.some.inj (hx.symm.trans hx'))
    have hnotified : p.notified y = true := by
      simpa [isRunnable, ht, hy.2, expired] using hrun
    rcases hst with ⟨-, hseen⟩ | ⟨hn, -⟩
    · simp [notified, notices, hy.1, hseen] at hnotified
    · have hgoes : p.step now pid ⟨frames, .blocked (.check t.delivered) y, root⟩ =
          (p.goto (.loop (.check t.delivered)), []) := by
        simp only [Process.step, awaken, hnotified, if_true]
      rw [hgoes]
      refine .inl ⟨_, Nat.lt_succ_self _, ?_⟩
      refine .looks ?_ hn (hs.congr rfl rfl rfl rfl) hl
      rw [context?_goto, hx']
      rfl
  | @runs t rest _ run _ sig action mask hx' hn hs hl hd he =>
    obtain ⟨rfl, rfl, hm⟩ := Context.mk.inj (Option.some.inj (hx.symm.trans hx'))
    refine .inl ⟨_, Nat.lt_succ_self _, ?_⟩
    show Stage pid fs m total _ (.left run :: noted) (p.pop.answer (.ok .done))
    rw [← he]
    have hback : (p.pop.answer (.ok .done)).context? =
        some ⟨.delivery sig action m :: .round :: fs, .reply (.ok .done), mask⟩ := by
      rw [context?_answer, context?_pop, hx']
      rfl
    exact .returns hback hn (shows_afterwards hs rfl rfl rfl rfl) hl hd
  | @returns t rest _ v sig action mask hx' hn hs hl hd =>
    obtain ⟨rfl, rfl, hm⟩ := Context.mk.inj (Option.some.inj (hx.symm.trans hx'))
    refine .inl ⟨_, Nat.lt_succ_self _, ?_⟩
    have hback : (p.pop.afterwards sig action m).Shows t := shows_afterwards hs rfl rfl rfl rfl
    have hm' : m \ .uncatchable = m := hl.blockable
    refine .resumes (v := .done) ?_ ?_ (hback.congr rfl rfl rfl rfl) hl hd
    · show Process.context? ((p.pop.afterwards sig action m).answer (.ok .done)) = _
      rw [context?_answer, context?_afterwards, context?_pop, hx']
      simp only [Option.map_some, hm', List.tail_cons]
    · exact afterwards_status.trans hn
  | resumes hx' hn hs hl hd =>
    obtain ⟨rfl, rfl, hm⟩ := Context.mk.inj (Option.some.inj (hx.symm.trans hx'))
    refine .inl ⟨_, Nat.lt_succ_self _, ?_⟩
    refine .looks ?_ hn (hs.congr rfl rfl rfl rfl) hl
    rw [hd]
    show Process.context? (p.pop.goto (.loop (.check true))) = _
    rw [context?_goto, context?_pop, hx']
    rfl
  | @dies _ b hx' he hst hs =>
    obtain ⟨rfl, rfl, hm⟩ := Context.mk.inj (Option.some.inj (hx.symm.trans hx'))
    have hcheck : p.step now pid ⟨frames, .loop (.check b), root⟩ =
        (p.answer (.error .mustExit), []) := by
      simp only [Process.step, check, hst, he, if_true]
    rw [hcheck]
    refine .inr ⟨?_, hst, hs.congr rfl rfl rfl rfl, rfl⟩
    rw [context?_answer, hx', Tally.reply, if_pos he]
    rfl

/-! ## What others do -/

/-- **What others may do during the round**: nothing that is told to who waits for signals,
or the lifting of a stop. -/
inductive Lets (p q : Process) : Prop
  | alone (h : q.signalNotices = p.signalNotices)
  | lifts (hp : p.status.isStopped = true) (hq : q.status = .normal) (hi : q.inbox = p.inbox)

/-- **A `cont` that is discarded lifts the stop**, and does nothing else. -/
theorem lets_generate {info : SignalInfo} (hc : info.signal = .cont)
    (hst : p.status.isStopped = true)
    (hd : (p.inbox.receive info (p.dispositions.get info.signal)) = (.discarded, p.inbox)) :
    p.Lets (p.generate pid info).1 := by
  have hg := p.generation pid info
  generalize p.generate pid info = c at hg ⊢
  cases hg with
  | dropped hex =>
    cases hp : p.status <;> simp [hp, Status.isStopped, Status.isExited] at hst hex
  | lifted _ _ ha =>
    cases ha with
    | noted hr =>
      obtain ⟨rfl, rfl⟩ := Prod.mk.inj (hr.receive_eq.symm.trans hd)
      exact .lifts hst rfl rfl
    | acted hr => cases hr.receive_eq.symm.trans hd
  | accepted _ hn => simp [hn hc, Status.isStopped] at hst

/-- A process that runs is not stopped. -/
theorem Lets.notices_of_normal (h : p.Lets q) (hn : p.status = .normal) :
    q.signalNotices = p.signalNotices := by
  cases h with
  | alone h => exact h
  | lifts hp => simp [hn, Status.isStopped] at hp

theorem Shows.sent (h : p.Shows t) (hd : p.Disturbed q) (hi : q.inbox = p.inbox) : q.Shows t :=
  h.congr (by rw [hi]) (by rw [hi]) hd.dispositions hd.runs

/-- **What others do leaves the round where it is**, or lifts a stop. -/
theorem Stage.lets (h : Stage pid fs m total n noted p) (hd : p.Disturbed q) (ha : p.Announced q)
    (hl : p.Lets q) : ∃ k, k ≤ n ∧ Stage pid fs m total k noted q := by
  have hx : q.context? = p.context? := context?_congr hd.task hd.blocked
  have hgrow := ha.signals
  cases h with
  | looks hx' hn hs hleads =>
    obtain ⟨hst, hi, -⟩ := ha.unchanged (hl.notices_of_normal hn)
    exact ⟨_, Nat.le_refl _, .looks (hx.trans hx') (hst.trans hn) (hs.sent hd hi) hleads⟩
  | stops hx' hstopped hs hleads =>
    cases hl with
    | alone h =>
      obtain ⟨hst, hi, -⟩ := ha.unchanged h
      exact ⟨_, Nat.le_refl _, .stops (hx.trans hx') (hst ▸ hstopped) (hs.sent hd hi) hleads⟩
    | lifts _ hq hi => exact ⟨_, by omega, .looks (hx.trans hx') hq (hs.sent hd hi) hleads⟩
  | @waits t rest _ y hx' hy hst hs hleads =>
    have hkeeps : q.signalNotices = p.signalNotices →
        ∃ k, k ≤ 4 * rest.length + 2 ∧ Stage pid fs m total k t.noted q := fun h => by
      obtain ⟨hstatus, hi, -⟩ := ha.unchanged h
      exact ⟨_, Nat.le_refl _,
        .waits (hx.trans hx') hy (by rwa [hstatus, h]) (hs.sent hd hi) hleads⟩
    cases hl with
    | alone h => exact hkeeps h
    | lifts hp hq hi =>
      rcases hst with ⟨-, hseen⟩ | ⟨hn, -⟩
      · -- the lifting of a stop is announced
        have hne : q.signalNotices ≠ p.signalNotices := fun h => by
          obtain ⟨hstatus, -, -⟩ := ha.unchanged h
          rw [← hstatus, hq] at hp
          cases hp
        exact ⟨_, Nat.le_refl _,
          .waits (hx.trans hx') hy (.inr ⟨hq, by omega⟩) (hs.sent hd hi) hleads⟩
      · simp [hn, Status.isStopped] at hp
  | runs hx' hn hs hleads hdelivered he =>
    obtain ⟨hst, hi, -⟩ := ha.unchanged (hl.notices_of_normal hn)
    exact ⟨_, Nat.le_refl _, .runs (hx.trans hx') (hst.trans hn)
      (shows_afterwards hs (by rw [hi]) (by rw [hi]) hd.dispositions hd.runs) hleads hdelivered he⟩
  | returns hx' hn hs hleads hdelivered =>
    obtain ⟨hst, hi, -⟩ := ha.unchanged (hl.notices_of_normal hn)
    exact ⟨_, Nat.le_refl _, .returns (hx.trans hx') (hst.trans hn)
      (shows_afterwards hs (by rw [hi]) (by rw [hi]) hd.dispositions hd.runs) hleads hdelivered⟩
  | resumes hx' hn hs hleads hdelivered =>
    obtain ⟨hst, hi, -⟩ := ha.unchanged (hl.notices_of_normal hn)
    exact ⟨_, Nat.le_refl _,
      .resumes (hx.trans hx') (hst.trans hn) (hs.sent hd hi) hleads hdelivered⟩
  | dies hx' he hst hs =>
    have hnotices : q.signalNotices = p.signalNotices := by
      cases hl with
      | alone h => exact h
      | lifts hp =>
        rw [hst] at hp
        cases ht : total.status <;> simp [ht, Status.isStopped, Status.isExited] at hp he
    obtain ⟨hstatus, hi, -⟩ := ha.unchanged hnotices
    exact ⟨_, Nat.le_refl _, .dies (hx.trans hx') he (hstatus.trans hst) (hs.sent hd hi)⟩

/-- **In a round the process can go on, or it is stopped.** -/
theorem Stage.isRunnable_or (h : Stage pid fs m total n noted p) :
    p.isRunnable now = true ∨ p.status.isStopped = true := by
  cases h with
  | looks hx | stops hx | runs hx | returns hx | resumes hx | dies hx =>
    exact .inl (isRunnable_of_context? hx rfl)
  | waits hx hy hst =>
    rcases hst with ⟨hst, -⟩ | ⟨-, hseen⟩
    · exact .inr hst
    · obtain ⟨root, ht, -⟩ := context?_eq_some.1 hx
      have hne : p.signalNotices ≠ Listener.seen _ := Nat.ne_of_gt hseen
      exact .inl (by simp [isRunnable, ht, notified, notices, hy.1, hne])

/-- In a round the process is busy with its own affairs. -/
theorem Stage.busy (h : Stage pid fs m total n noted p) :
    0 < n ∧ ∃ x, p.context? = some x ∧ x.control.isShared = false ∧ x.control ≠ .idle := by
  cases h with
  | looks hx | stops hx | waits hx | runs hx | returns hx | resumes hx | dies hx =>
    exact ⟨Nat.succ_pos _, _, hx, rfl, by simp⟩

end Process

end PosixSignals
