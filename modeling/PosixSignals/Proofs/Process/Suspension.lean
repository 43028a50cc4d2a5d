import PosixSignals.Proofs.Process.Interruption

/-!
# Suspensions

A suspension looks at what there is to deliver, and blocks if that was
nothing. Until a handler is entered it is in one of the places that
`Dormant` lists, and what matters there is whether a delivery or a continue
has come: the check point says so of the one, the process of the other.
Where neither can come, because all that is pending is blocked or will be
discarded, the suspension stays in fewer places still, those of `Asleep`.
-/

namespace PosixSignals

namespace Process

variable {p q : Process} {pid : Pid} {now n : Nat} {fs gs frames : List Frame} {c : Control}
  {m mask : SignalSet} {b : Bool} {sig : Signal}

/-! ## A turn of a check point -/

/-- **A change that rouses nobody**: no handler starts, nothing is continued, and nothing
becomes pending. -/
structure Subdued (pid : Pid) (p : Process) (r : Process × List Event) : Prop where
  continued : r.1.continued = p.continued
  dispositions : r.1.dispositions = p.dispositions
  pending : ∀ sig ∈ r.1.inbox.pending, sig ∈ p.inbox.pending
  events : ∀ e ∈ r.2, e.isEntry = false ∧ e ≠ .continued pid

/-- **What a turn of a check point comes to** over the frames `fs` and under the mask `m`. -/
inductive Look (pid : Pid) (b : Bool) (p : Process) (fs : List Frame) (m : SignalSet)
    (r : Process × List Event) : Prop
  | ends (he : p.status.isExited = true)
      (hx : r.1.context? = some ⟨fs, .reply (.error .mustExit), m⟩) (hs : r.1.status = p.status)
      (hq : p.Subdued pid r)
  | pauses {y : Listener} (hst : p.status.isStopped = true)
      (hx : r.1.context? = some ⟨fs, .blocked (.check b) y, m⟩) (hs : r.1.status = p.status)
      (hq : p.Subdued pid r)
  | passes (hn : p.status = .normal)
      (hx : r.1.context? = some ⟨fs, .reply (.ok (.delivered b)), m⟩)
      (hs : r.1.status = p.status) (hq : p.Subdued pid r)
  | drops (hn : p.status = .normal) (hx : r.1.context? = some ⟨fs, .loop (.check b), m⟩)
      (hs : r.1.status = p.status) (hq : p.Subdued pid r)
  /-- A default action stops the process or ends it. -/
  | acts {sig : Signal} (hp : sig ∈ p.inbox.pending) (hb : sig ∉ p.inbox.blocked)
      (heff : p.Effective sig) (hx : r.1.context? = some ⟨fs, .loop (.check true), m⟩)
      (hs : r.1.status ≠ .normal) (hq : p.Subdued pid r)
  | enters {sig : Signal} {action : Action Installed} {run : HandlerRun}
      {rest : List (Instruction Handler)} {mask : SignalSet} (hp : sig ∈ p.inbox.pending)
      (hb : sig ∉ p.inbox.blocked) (heff : p.Effective sig)
      (hx : r.1.context? = some
        ⟨.body run false rest :: .delivery sig action m :: .round :: fs, .proceed, mask⟩)
      (he : ∃ e ∈ r.2, e.isEntry = true)

theorem subdued_of_eq {events : List Event} (hc : q.continued = p.continued)
    (hd : q.dispositions = p.dispositions)
    (hp : ∀ sig ∈ q.inbox.pending, sig ∈ p.inbox.pending)
    (he : ∀ e ∈ events, e.isEntry = false ∧ e ≠ .continued pid) : p.Subdued pid (q, events) :=
  ⟨hc, hd, hp, he⟩

/-- The signal is taken, and its default action carried out. -/
theorem look_act (hn : p.status = .normal) (hd : p.dispositions.get sig = .default)
    (hp : sig ∈ p.inbox.pending) (hb : sig ∉ p.inbox.blocked)
    (hx : p.context? = some ⟨fs, .loop (.check b), m⟩) :
    p.Look pid b fs m (((p.without sig).act pid sig sig.defaultAction).1.goto
        (.loop (.check (b || !sig.defaultAction.isIdle))),
      .handling sig :: ((p.without sig).act pid sig sig.defaultAction).2) := by
  have hnw : (p.without sig).status = .normal := hn
  have hpending : ∀ other ∈ (p.without sig).inbox.pending, other ∈ p.inbox.pending :=
    fun other ho => (SignalSet.mem_sdiff.1 ho).1
  have hgoes : ∀ d : Bool, (((p.without sig).act pid sig sig.defaultAction).1.goto
      (.loop (.check d))).context? = some ⟨fs, .loop (.check d), m⟩ := fun d => by
    rw [context?_goto, context?_act, context?_without, hx]
    rfl
  have heff : sig.defaultAction.isIdle = false → p.Effective sig := fun h => by
    simpa [Effective, hd, Disposition.discards] using h
  cases hact : sig.defaultAction with
  | ignore | «continue» =>
    have hgoes' := hgoes b
    rw [hact] at hgoes'
    refine .drops hn ?_ rfl (subdued_of_eq rfl rfl hpending ?_)
    · simpa [DefaultAction.isIdle] using hgoes'
    · simp [act, Event.isEntry]
  | stop =>
    have hgoes' := hgoes true
    rw [hact, act_stop hnw] at hgoes'
    rw [act_stop hnw]
    refine .acts hp hb (heff (by rw [hact]; rfl)) ?_ (by simp [goto, wake])
      (subdued_of_eq rfl rfl hpending (by simp [Event.isEntry]))
    simpa [DefaultAction.isIdle] using hgoes'
  | terminate | coreDump =>
    have hlive : (p.without sig).status.isExited = false := hnw ▸ rfl
    have hgoes' := hgoes true
    simp only [hact, act_terminate hlive, act_coreDump hlive] at hgoes' ⊢
    refine .acts hp hb (heff (by rw [hact]; rfl)) ?_ (by simp [goto, wake])
      (subdued_of_eq rfl rfl hpending (by simp [Event.isEntry]))
    simpa [DefaultAction.isIdle] using hgoes'

/-- **A turn of a check point.** -/
theorem look_check (pid : Pid) (hbox : p.inbox.Sound)
    (hx : p.context? = some ⟨fs, .loop (.check b), m⟩) : p.Look pid b fs m (p.check pid b) := by
  have hsame : ∀ c : Control, ∀ events : List Event, (∀ e ∈ events, e.isEntry = false ∧
      e ≠ .continued pid) → p.Subdued pid (p.goto c, events) := fun c events he =>
    subdued_of_eq rfl rfl (fun _ h => h) he
  have hchecked := p.checked pid b
  generalize p.check pid b = r at hchecked ⊢
  cases hchecked with
  | ended he => exact .ends he (by simp [hx]) rfl (hsame _ _ (by simp))
  | stopped hst =>
    exact .pauses (y := p.listen .signal none) hst (by simp [hx]) rfl
      (hsame _ _ (by simp [Event.isEntry]))
  | passed hn => exact .passes hn (by simp [hx]) rfl (hsame _ _ (by simp))
  | @took sig _ hn hs h =>
    obtain ⟨hp, hb⟩ := SignalSet.mem_sdiff.1 hs
    rw [hbox.take_signal] at h
    cases h with
    | ignored =>
      have hgoes : ((p.without sig).goto (.loop (.check b))).context? =
          some ⟨fs, .loop (.check b), m⟩ := by
        rw [context?_goto, context?_without, hx]
        rfl
      exact .drops hn hgoes rfl (subdued_of_eq rfl rfl
        (fun other ho => (SignalSet.mem_sdiff.1 ho).1) (by simp [Event.isEntry]))
    | default hd => exact look_act hn hd hp hb hx
    | @entered action hd =>
      have hround : ((p.without sig).enter .round .proceed).context? =
          some ⟨.round :: fs, .proceed, m⟩ := by
        rw [context?_enter, context?_without, hx]
        rfl
      obtain ⟨run, rest, mask, pending, -, hevents, hgoes, -, -⟩ := deliver_spec sig action hround
      rw [dispositions_without] at hd
      refine .enters hp hb (by rw [Effective, hd]; rfl) hgoes ⟨.entered run mask pending, ?_, rfl⟩
      exact List.mem_cons_of_mem _ (hevents ▸ List.mem_cons_self)

/-! ## The places of a suspension -/

/-- **A suspension over the frames `gs`, with the mask `m` to put back, that has not entered a
handler yet.** Its check point has delivered something only if the process was continued
since, or has not been yet. -/
inductive Dormant (gs : List Frame) (m : SignalSet) (p : Process) : List Frame → Control → Prop
  | waits {c : Control} (hc : c.loop? = some (.suspend m)) : Dormant gs m p gs c
  | looks {n : Nat} {b : Bool} {c : Control} (hc : c.loop? = some (.check b))
      (hb : b = true → p.continued = true ∨ p.status ≠ .normal) :
      Dormant gs m p (.suspended m n :: gs) c
  | looked {n : Nat} {b : Bool} (hb : b = true → p.continued = true) :
      Dormant gs m p (.suspended m n :: gs) (.reply (.ok (.delivered b)))
  | ended {n : Nat} (he : p.status.isExited = true) :
      Dormant gs m p (.suspended m n :: gs) (.reply (.error .mustExit))

/-- **A suspension that nothing rouses.** -/
inductive Asleep (gs : List Frame) (m : SignalSet) : List Frame → Control → Prop
  | waits {c : Control} (hc : c.loop? = some (.suspend m)) : Asleep gs m gs c
  | looks {n : Nat} {c : Control} (hc : c.loop? = some (.check false)) :
      Asleep gs m (.suspended m n :: gs) c
  | looked {n : Nat} : Asleep gs m (.suspended m n :: gs) (.reply (.ok (.delivered false)))

/-- Nothing is there that would rouse a process. -/
structure Lulled (p : Process) : Prop where
  live : p.status.isExited = false
  continued : p.continued = false
  discarded : ∀ sig ∈ p.inbox.pending, sig ∈ p.inbox.blocked ∨ ¬ p.Effective sig

/-- **What comes of a step of a suspension** that has not entered a handler. -/
inductive Stirs (gs : List Frame) (m mask : SignalSet) (pid : Pid) (p : Process)
    (r : Process × List Event) : Prop
  | dormant {frames : List Frame} {c : Control} (hx : r.1.context? = some ⟨frames, c, mask⟩)
      (h : Dormant gs m r.1 frames c) (hq : p.Subdued pid r)
  | enters {run : HandlerRun} {rest : List (Instruction Handler)} {sig : Signal}
      {action : Action Installed} {n : Nat} {mask' : SignalSet}
      (hx : r.1.context? = some ⟨.body run false rest :: .delivery sig action mask :: .round ::
        .suspended m n :: gs, .proceed, mask'⟩) (he : ∃ e ∈ r.2, e.isEntry = true)
  | comes {reply : Reply} (hx : r.1.context? = some ⟨gs, .reply reply, m \ .uncatchable⟩)
      (hr : reply = .ok .done ∧ p.continued = true ∨
        reply = .error .mustExit ∧ p.status.isExited = true) (hs : r.1.status = p.status)
      (he : r.2 = [])

theorem subdued_goto (c : Control) : p.Subdued pid (p.goto c, []) :=
  subdued_of_eq rfl rfl (fun _ h => h) (by simp)

/-- What is blocked may look again, or stays blocked. -/
theorem awaken_cases (now : Nat) (l : Loop) (y : Listener) (h : p.timeOut l = p.goto (.loop l)) :
    p.awaken now l y = p.goto (.loop l) ∨ p.awaken now l y = p := by
  have hawoken := p.awoken now l y
  generalize p.awaken now l y = q at hawoken ⊢
  cases hawoken with
  | looks => exact .inl rfl
  | rests => exact .inr rfl
  | left | slept => exact .inl h

/-- **A step of a suspension** that has not entered a handler. -/
theorem Dormant.step {root : Bool} (h : Dormant gs m p frames c)
    (ht : p.task = some ⟨frames, c, root⟩) (hbox : p.inbox.Sound) :
    Stirs gs m p.inbox.blocked pid p (p.step now pid ⟨frames, c, root⟩) := by
  have hx : p.context? = some ⟨frames, c, p.inbox.blocked⟩ := context?_eq_some.2 ⟨root, ht, rfl⟩
  have hgoes : ∀ c : Control, (p.goto c).context? = some ⟨frames, c, p.inbox.blocked⟩ :=
    fun c => by rw [context?_goto, hx]; rfl
  have hstays : p.Subdued pid (p, []) := subdued_of_eq rfl rfl (fun _ h => h) (by simp)
  cases h with
  | waits hc =>
    obtain rfl | ⟨y, rfl⟩ := Control.loop?_eq_some hc
    · have hx' : (p.enter (.suspended m p.signalNotices) (.loop (.check false))).context? =
          some ⟨.suspended m p.signalNotices :: gs, .loop (.check false), p.inbox.blocked⟩ := by
        rw [context?_enter, hx]
        rfl
      exact .dormant hx' (.looks rfl fun h => by cases h)
        (subdued_of_eq rfl rfl (fun _ h => h) (by simp))
    · show Stirs gs m p.inbox.blocked pid p (p.awaken now (.suspend m) y, [])
      rcases awaken_cases now (.suspend m) y rfl with he | he <;> rw [he]
      · exact .dormant (hgoes _) (.waits rfl) (subdued_goto _)
      · exact .dormant hx (.waits rfl) hstays
  | @looks n b _ hc hb =>
    obtain rfl | ⟨y, rfl⟩ := Control.loop?_eq_some hc
    · show Stirs gs m p.inbox.blocked pid p (p.check pid b)
      cases look_check pid hbox hx with
      | ends he hx' hs hq => exact .dormant hx' (.ended (hs ▸ he)) hq
      | pauses hst hx' hs hq =>
        exact .dormant hx' (.looks rfl fun h => (hb h).imp (hq.continued ▸ ·) (hs ▸ ·)) hq
      | passes hn hx' hs hq =>
        exact .dormant hx' (.looked fun h => hq.continued ▸ (hb h).resolve_right (· hn)) hq
      | drops hn hx' hs hq =>
        exact .dormant hx' (.looks rfl fun h => (hb h).imp (hq.continued ▸ ·) (hs ▸ ·)) hq
      | acts _ _ _ hx' hs hq => exact .dormant hx' (.looks rfl fun _ => .inr hs) hq
      | enters _ _ _ hx' he => exact .enters hx' he
    · show Stirs gs m p.inbox.blocked pid p (p.awaken now (.check b) y, [])
      rcases awaken_cases now (.check b) y rfl with he | he <;> rw [he]
      · exact .dormant (hgoes _) (.looks rfl hb) (subdued_goto _)
      · exact .dormant hx (.looks rfl hb) hstays
  | @looked n b hb =>
    have hpop : p.pop.context? =
        some ⟨gs, .reply (.ok (.delivered b)), p.inbox.blocked⟩ := by
      rw [context?_pop, hx]
      rfl
    show Stirs gs m p.inbox.blocked pid p (p.pop.finishSuspend m n (.ok (.delivered b)), [])
    cases b with
    | true => exact .comes (context?_answer_restore hpop _ _) (.inl ⟨rfl, hb rfl⟩) rfl rfl
    | false =>
      by_cases hcont : p.continued = true
      · have he : p.pop.finishSuspend m n (.ok (.delivered false)) =
            ({ p.pop with continued := false }.restore m).answer (.ok .done) := if_pos hcont
        have hx' :=
          context?_answer_restore (p := { p.pop with continued := false }) hpop m (.ok .done)
        rw [he]
        exact .comes hx' (.inl ⟨rfl, hcont⟩) rfl rfl
      · have he : p.pop.finishSuspend m n (.ok (.delivered false)) =
            p.pop.goto (.blocked (.suspend m) ⟨.signal, n, none⟩) := if_neg hcont
        have hx' : (p.pop.goto (.blocked (.suspend m) ⟨.signal, n, none⟩)).context? =
            some ⟨gs, .blocked (.suspend m) ⟨.signal, n, none⟩, p.inbox.blocked⟩ := by
          rw [context?_goto, hpop]
          rfl
        rw [he]
        exact .dormant hx' (.waits rfl) (subdued_of_eq rfl rfl (fun _ h => h) (by simp))
  | @ended n he =>
    have hpop : p.pop.context? = some ⟨gs, .reply (.error .mustExit), p.inbox.blocked⟩ := by
      rw [context?_pop, hx]
      rfl
    exact .comes (context?_answer_restore hpop m _) (.inr ⟨rfl, he⟩) rfl rfl

/-! ## What nothing rouses -/

theorem Lulled.subdued {r : Process × List Event} (h : p.Lulled) (hq : p.Subdued pid r)
    (hs : r.1.status = p.status) (hb : r.1.inbox.blocked = p.inbox.blocked) : r.1.Lulled where
  live := hs ▸ h.live
  continued := hq.continued.trans h.continued
  discarded sig hp := by
    rw [hb, Effective, hq.dispositions]
    exact h.discarded sig (hq.pending sig hp)

/-- **A step of a suspension that nothing rouses.** -/
theorem Asleep.step {root : Bool} (h : Asleep gs m frames c) (now : Nat) (pid : Pid) (hl : p.Lulled)
    (ht : p.task = some ⟨frames, c, root⟩) (hbox : p.inbox.Sound) :
    ∃ frames' c', (p.step now pid ⟨frames, c, root⟩).1.context? =
        some ⟨frames', c', p.inbox.blocked⟩ ∧ Asleep gs m frames' c' ∧
      (p.step now pid ⟨frames, c, root⟩).1.Lulled ∧
      p.Subdued pid (p.step now pid ⟨frames, c, root⟩) := by
  have hx : p.context? = some ⟨frames, c, p.inbox.blocked⟩ := context?_eq_some.2 ⟨root, ht, rfl⟩
  have hgoes : ∀ c : Control, (p.goto c).context? = some ⟨frames, c, p.inbox.blocked⟩ :=
    fun c => by rw [context?_goto, hx]; rfl
  have hlull : ∀ c : Control, (p.goto c).Lulled := fun c =>
    hl.subdued (show p.Subdued pid (p.goto c, []) from subdued_goto c) rfl rfl
  have hstays : p.Subdued pid (p, []) := subdued_of_eq rfl rfl (fun _ h => h) (by simp)
  have hcome : ∀ {r : Process × List Event} {frames' : List Frame} {c' : Control},
      r.1.context? = some ⟨frames', c', p.inbox.blocked⟩ → r.1.status = p.status →
      p.Subdued pid r → r.1.Lulled := fun hx' hs hq => hl.subdued hq hs (blocked_of_context? hx')
  cases h with
  | waits hc =>
    obtain rfl | ⟨y, rfl⟩ := Control.loop?_eq_some hc
    · have hx' : (p.enter (.suspended m p.signalNotices) (.loop (.check false))).context? =
          some ⟨.suspended m p.signalNotices :: gs, .loop (.check false), p.inbox.blocked⟩ := by
        rw [context?_enter, hx]
        rfl
      have hq : p.Subdued pid
          (p.enter (.suspended m p.signalNotices) (.loop (.check false)), []) :=
        subdued_of_eq rfl rfl (fun _ h => h) (by simp)
      exact ⟨_, _, hx', .looks rfl, hcome hx' rfl hq, hq⟩
    · simp only [Process.step]
      rcases awaken_cases now (.suspend m) y rfl with he | he <;> rw [he]
      · exact ⟨_, _, hgoes _, .waits rfl, hlull _, subdued_goto _⟩
      · exact ⟨_, _, hx, .waits rfl, hl, hstays⟩
  | @looks n _ hc =>
    obtain rfl | ⟨y, rfl⟩ := Control.loop?_eq_some hc
    · simp only [Process.step]
      have hnone : ∀ {sig : Signal}, sig ∈ p.inbox.pending → sig ∉ p.inbox.blocked →
          ¬ p.Effective sig := fun hp hb => (hl.discarded _ hp).resolve_left hb
      cases look_check pid hbox hx with
      | ends he => simp [hl.live] at he
      | pauses hst hx' hs hq => exact ⟨_, _, hx', .looks rfl, hcome hx' hs hq, hq⟩
      | passes hn hx' hs hq => exact ⟨_, _, hx', .looked, hcome hx' hs hq, hq⟩
      | drops hn hx' hs hq => exact ⟨_, _, hx', .looks rfl, hcome hx' hs hq, hq⟩
      | acts hp hb heff | enters hp hb heff => exact absurd heff (hnone hp hb)
    · simp only [Process.step]
      rcases awaken_cases now (.check false) y rfl with he | he <;> rw [he]
      · exact ⟨_, _, hgoes _, .looks rfl, hlull _, subdued_goto _⟩
      · exact ⟨_, _, hx, .looks rfl, hl, hstays⟩
  | @looked n =>
    have he : p.pop.finishSuspend m n (.ok (.delivered false)) =
        p.pop.goto (.blocked (.suspend m) ⟨.signal, n, none⟩) :=
      if_neg (by simp [pop, hl.continued])
    have hx' : (p.pop.goto (.blocked (.suspend m) ⟨.signal, n, none⟩)).context? =
        some ⟨gs, .blocked (.suspend m) ⟨.signal, n, none⟩, p.inbox.blocked⟩ := by
      rw [context?_goto, context?_pop, hx]
      rfl
    have hq : p.Subdued pid (p.pop.goto (.blocked (.suspend m) ⟨.signal, n, none⟩), []) :=
      subdued_of_eq rfl rfl (fun _ h => h) (by simp)
    show ∃ frames' c', (p.pop.finishSuspend m n (.ok (.delivered false))).context? = _ ∧ _ ∧
      (p.pop.finishSuspend m n (.ok (.delivered false))).Lulled ∧
      p.Subdued pid (p.pop.finishSuspend m n (.ok (.delivered false)), [])
    rw [he]
    exact ⟨_, _, hx', .waits rfl, hcome hx' rfl hq, hq⟩

end Process

end PosixSignals
