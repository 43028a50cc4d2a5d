import PosixSignals.Proofs.Scenario.Interruption

/-!
# What is on record about others' doing

Whatever others do to a process in the midst of something is noted, and in
somebody else's name. So it can be read off the history since a moment
whether the process was continued or ended meanwhile and which signals have
become pending for it. `Told` says so of the events that one change notes, is
closed under composition, and does not depend on events that concern others.
-/

namespace PosixSignals

/-- Whether an event tells of something that was done to a process. -/
def Event.concerns (pid : Pid) : Event → Bool
  | .dropped _ target | .generated _ target _ | .stopped target _ | .continued target
  | .exited target _ => target == pid
  | _ => false

namespace Process

variable {p q r : Process} {pid pid' : Pid} {events others : List Event} {info : SignalInfo}
  {sig : Signal}

/-! ## Whom events concern -/

/-- **All that is done to a process concerns it**, and nobody else. -/
theorem Shift.concerns {c : Process × List Event} (h : p.Shift pid' c) :
    ∀ e ∈ c.2, e.concerns pid = (pid' == pid) := by
  cases h <;> simp [Event.concerns]

theorem carried_concerns (pid : Pid) :
    Carried pid' info fun _ c => ∀ e ∈ c.2, e.concerns pid = (pid' == pid) where
  append h h' e he := (List.mem_append.1 he).elim (h e) (h' e)
  shift := Shift.concerns
  receive _ := by simp [Event.concerns]
  wake _ := by simp
  dropped _ := by simp [Event.concerns]

theorem concerns_generate (pid : Pid) :
    ∀ e ∈ (p.generate pid' info).2, e.concerns pid = (pid' == pid) :=
  (carried_concerns pid).generate p

section Others

variable (hne : pid' ≠ pid)
include hne

theorem concerns_eq_false {c : Process × List Event}
    (h : ∀ e ∈ c.2, e.concerns pid = (pid' == pid)) :
    ∀ e ∈ c.2, e.concerns pid = false := fun e he =>
  (h e he).trans (by simpa using hne)

theorem concerns_mild {c : Process × List Event} (h : p.Mild pid' c) :
    ∀ e ∈ c.2, e.concerns pid = false := by
  cases h with
  | plain _ he =>
    intro e hmem
    have hplain := he e hmem
    cases e <;> simp [Event.isPlain] at hplain <;> rfl
  | ended => exact concerns_eq_false hne shift_exit.concerns

theorem concerns_conduct {c : Process × List Event} (h : p.Conduct pid' c) :
    ∀ e ∈ c.2, e.concerns pid = false := by
  cases h with
  | mild h => exact concerns_mild hne h
  | concluded | outright | took => simp [Event.concerns]
  | handled _ _ h =>
    refine List.forall_mem_cons.2 ⟨rfl, ?_⟩
    cases h with
    | ignored | entered => simp [Event.concerns]
    | default => exact concerns_eq_false hne (shift_act _ _).concerns

end Others

/-! ## What is told -/

/-- **What is done to a process is told**: whether it is continued or ended, what becomes pending,
and whose default action is carried out at once, which is no signal that it blocks. -/
structure Told (pid : Pid) (p q : Process) (events : List Event) : Prop where
  sent : p.Sent q
  continued : q.continued = true ↔ p.continued = true ∨ .continued pid ∈ events
  lifted : q.status = .normal → p.status = .normal ∨ q.continued = true
  pending : ∀ sig ∈ q.inbox.pending, sig ∈ p.inbox.pending ∨
    ∃ info, info.signal = sig ∧
      (.generated info pid .queued ∈ events ∨ .generated info pid .handlerReady ∈ events)
  ended : q.status.isExited = true →
    p.status.isExited = true ∨ ∃ w, .exited pid w ∈ events
  unblocked : ∀ info action, .generated info pid (.defaultAction action) ∈ events →
    info.signal ∈ p.inbox.blocked → info.signal.isUncatchable = true

theorem Told.refl (p : Process) : p.Told pid p [] :=
  ⟨.refl p, by simp, .inl, fun _ h => .inl h, .inl, by simp⟩

/-- Only what concerns the process matters. -/
theorem Told.of_mem (h : p.Told pid q events)
    (hmem : ∀ e : Event, e.concerns pid = true → (e ∈ events ↔ e ∈ others)) :
    p.Told pid q others where
  sent := h.sent
  continued := h.continued.trans (or_congr_right (hmem _ (by simp [Event.concerns])))
  lifted := h.lifted
  pending sig hs := by
    have hgenerated : ∀ info outcome,
        .generated info pid outcome ∈ events → .generated info pid outcome ∈ others :=
      fun info outcome => (hmem (.generated info pid outcome) (by simp [Event.concerns])).1
    exact (h.pending sig hs).imp_right fun ⟨info, hi, hg⟩ =>
      ⟨info, hi, hg.imp (hgenerated info _) (hgenerated info _)⟩
  ended he := (h.ended he).imp_right fun ⟨w, hw⟩ =>
    ⟨w, (hmem (.exited pid w) (by simp [Event.concerns])).1 hw⟩
  unblocked info action hg :=
    h.unblocked info action ((hmem _ (by simp [Event.concerns])).2 hg)

theorem Told.trans (h : p.Told pid q events) (h' : q.Told pid r others) :
    p.Told pid r (events ++ others) where
  sent := h.sent.trans h'.sent
  continued := by rw [h'.continued, h.continued, List.mem_append, or_assoc]
  lifted hn := (h'.lifted hn).elim
    (fun hq => (h.lifted hq).imp_right fun hc => h'.continued.2 (.inl hc)) .inr
  pending sig hs := by
    rcases h'.pending sig hs with hs | ⟨info, hi, hg⟩
    · exact (h.pending sig hs).imp_right fun ⟨info, hi, hg⟩ =>
        ⟨info, hi, hg.imp (List.mem_append_left _) (List.mem_append_left _)⟩
    · exact .inr ⟨info, hi, hg.imp (List.mem_append_right _) (List.mem_append_right _)⟩
  ended he := by
    rcases h'.ended he with he | ⟨w, hw⟩
    · exact (h.ended he).imp_right fun ⟨w, hw⟩ => ⟨w, List.mem_append_left _ hw⟩
    · exact .inr ⟨w, List.mem_append_right _ hw⟩
  unblocked info action hg hb := by
    rcases List.mem_append.1 hg with hg | hg
    · exact h.unblocked info action hg hb
    · exact h'.unblocked info action hg (h.sent.blocked ▸ hb)

/-- A change of anything else. -/
theorem told_of_eq (hs : p.Sent q) (hc : q.continued = p.continued) (hi : q.inbox = p.inbox)
    (hst : q.status = p.status) (he : ∀ e ∈ events, e.concerns pid = false) :
    p.Told pid q events := by
  have hnone : ∀ e : Event, e.concerns pid = true → e ∉ events := fun e hc hmem => by
    simp [he e hmem] at hc
  refine ⟨hs, ?_, fun h => .inl (hst ▸ h), fun sig h => .inl (hi ▸ h), fun h => .inl (hst ▸ h),
    fun info action hg => ?_⟩
  · rw [hc]
    exact (or_iff_left (hnone _ (by simp [Event.concerns]))).symm
  · exact absurd hg (hnone _ (by simp [Event.concerns]))

/-- A change of status is told by what it notes. -/
theorem Shift.told {c : Process × List Event} (h : p.Shift pid c) : p.Told pid c.1 c.2 := by
  have hsent := h.sent
  cases h with
  | none => exact .refl p
  | exited h =>
    exact ⟨hsent, by simp [wake], by simp [wake], fun _ hs => .inl hs,
      fun _ => .inr ⟨_, List.mem_cons_self⟩, by simp⟩
  | stopped h =>
    exact ⟨hsent, by simp [wake], by simp [wake], fun _ hs => .inl hs,
      by simp [wake, Status.isExited], by simp⟩
  | continued h =>
    exact ⟨hsent, by simp [wake], fun _ => .inr rfl, fun _ hs => .inl hs,
      by simp [wake, Status.isExited], by simp⟩

/-- **What the inbox decides is told**: only what it keeps becomes pending, and only a signal that
is not blocked has its default action carried out, `kill` and `stop` apart. -/
theorem told_receive {outcome : Generated} {inbox : Inbox}
    (hr : p.inbox.Reception info (p.dispositions.get info.signal) (outcome, inbox)) :
    p.Told pid { p with inbox } [.generated info pid outcome] where
  sent := sent_receive hr
  continued := by simp
  lifted := .inl
  pending sig hs := by
    rcases hr.mem_pending hs with hold | rfl
    · exact .inl hold
    cases hr with
    | atOnce | ignored | idle | acted => exact .inl hs
    | queued => exact .inr ⟨info, rfl, .inl (List.mem_singleton.2 rfl)⟩
    | ready => exact .inr ⟨info, rfl, .inr (List.mem_singleton.2 rfl)⟩
  ended := .inl
  unblocked info' action hg hb := by
    obtain ⟨rfl, -, rfl⟩ := Event.generated.inj (List.mem_singleton.1 hg)
    cases hr with
    | atOnce hu => exact hu
    | acted _ _ hnot => exact absurd hb hnot

theorem carried_told : Carried pid info fun p c => p.Told pid c.1 c.2 where
  append := .trans
  shift := Shift.told
  receive := told_receive
  wake p := told_of_eq (sent_of_inbox (disturbed_wake p) rfl) rfl rfl rfl (by simp)
  dropped p := ⟨.refl p, by simp, .inl, fun _ h => .inl h, .inl, by simp⟩

/-- **What becomes of a signal generated against a process is told.** -/
theorem told_generate (info : SignalInfo) :
    p.Told pid (p.generate pid info).1 (p.generate pid info).2 :=
  carried_told.generate p

end Process

namespace System

variable {s s' s₀ : System} {actor : Option Pid} {kin mortal : Bool} {pid pid' : Pid}
  {p q r : Process} {new later : List Record} {m : Move} {x : Context}

/-! ## Deeds -/

theorem concerns_of_deed {c : Process × List Event} (h : Deed actor kin mortal pid' p c)
    (hne : pid' ≠ pid) : ∀ e ∈ c.2, e.concerns pid = false := by
  cases h with
  | generate info => exact Process.concerns_eq_false hne (Process.concerns_generate _)
  | exit w => exact Process.concerns_eq_false hne Process.shift_exit.concerns
  | stop sig => exact Process.concerns_eq_false hne Process.shift_stop.concerns
  | resume => exact Process.concerns_eq_false hne Process.shift_resume.concerns
  | noticeChild | limits | placed | released => simp
  | buried => simp [Event.concerns]
  | mild _ h => exact Process.concerns_mild hne h

/-- **What others do to a process is told.** -/
theorem told_of_deed {c : Process × List Event} (h : Deed actor kin mortal pid p c)
    (hne : actor ≠ some pid) : p.Told pid c.1 c.2 := by
  have hsent := sent_of_deed h hne
  cases h with
  | generate info => exact Process.told_generate info
  | exit w => exact Process.shift_exit.told
  | stop sig => exact Process.shift_stop.told
  | resume => exact Process.shift_resume.told
  | noticeChild | limits | placed => exact Process.told_of_eq hsent rfl rfl rfl (by simp)
  | mild ha | buried _ ha | released _ ha => exact absurd ha hne

/-! ## What a process hears of others -/

/-- **What others do to a process is on record**, in somebody else's name, and told to whoever
waits for signals. -/
structure Heard (pid : Pid) (p q : Process) (s s' : System) (new : List Record) : Prop where
  process : s'.process? pid = some q
  history : s'.history = new ++ s.history
  source : ∀ r ∈ new, r.source.pid ≠ some pid
  told : p.Told pid q (new.map (·.event))
  announced : p.Announced q

theorem Heard.refl (hp : s.process? pid = some p) : Heard pid p p s s [] :=
  ⟨hp, rfl, by simp, .refl p, .refl p⟩

theorem Heard.trans (h : Heard pid p q s₀ s new) (h' : Heard pid q r s s' later) :
    Heard pid p r s₀ s' (later ++ new) where
  process := h'.process
  history := by rw [h'.history, h.history, List.append_assoc]
  source _ hr := (List.mem_append.1 hr).elim (h'.source _) (h.source _)
  told := (h.told.trans h'.told).of_mem fun e _ => by
    rw [List.map_append, List.mem_append, List.mem_append, or_comm]
  announced := h.announced.trans h'.announced

/-- One change of the system, which is not the process's own. -/
theorem Happens.heard (h : Happens actor true true s s') (ho : s.Ordered)
    (hne : actor ≠ some pid) (hp : s.process? pid = some p) (ht : p.task ≠ none) :
    ∃ q new, q.task ≠ none ∧ Heard pid p q s s' new := by
  have hsource : ∀ {src : Source} {e : Event}, src.pid = actor →
      ∀ r ∈ [(⟨src, e⟩ : Record)], r.source.pid ≠ some pid := fun hsrc r hr => by
    rw [List.mem_singleton.1 hr, hsrc]
    exact hne
  have hstays : ∀ {events : List Event}, (∀ e ∈ events, e.concerns pid = false) →
      p.Told pid p events := Process.told_of_eq (.refl p) rfl rfl rfl
  cases h with
  | @remark src e hsrc he =>
    have hother : e.concerns pid = false := by
      cases e <;> simp [Event.isRemark] at he <;> rfl
    exact ⟨p, [⟨src, e⟩], ht, hp, rfl, hsource hsrc, hstays (by simpa using hother), .refl p⟩
  | @deed src pid' f hsrc hf =>
    cases hp' : s.process? pid' with
    | none =>
      rw [act_of_none hp']
      exact ⟨p, [], ht, .refl hp⟩
    | some p' =>
      have hd := hf p' hp'
      have hnew : ∀ r ∈ ((f p').2.map fun e => (⟨src, e⟩ : Record)).reverse,
          r.source.pid ≠ some pid := by
        intro r hr
        obtain ⟨e, he, rfl⟩ := List.mem_map.1 (List.mem_reverse.1 hr)
        rcases hsrc with hsrc | hnone
        · exact hsrc ▸ hne
        · simp [hnone p'] at he
      have hevents : ∀ e : Event, e ∈ (f p').2 ↔
          e ∈ ((f p').2.map fun e => (⟨src, e⟩ : Record)).reverse.map (·.event) := by simp
      by_cases he : pid' = pid
      · subst he
        obtain rfl := Option.some.inj (hp.symm.trans hp')
        have ha := announced_of_deed hd hne
        exact ⟨(f p).1, _, ha.task ▸ ht, process?_act_self hp, act_history hp, hnew,
          (told_of_deed hd hne).of_mem fun e _ => hevents e, ha⟩
      · exact ⟨p, _, ht, by rw [process?_act, if_neg fun h => he h.symm, hp], act_history hp', hnew,
          hstays fun e hmem => concerns_of_deed hd he e ((hevents e).2 hmem), .refl p⟩
  | @root src pid' pids name task hk hsrc ha =>
    have hne' : pid ≠ pid' := by
      rintro rfl
      simp [ho.fresh ha] at hp
    exact ⟨p, [_], ht, by rw [process?_bear, if_neg hne', hp], rfl, hsource hsrc,
      hstays (by simp [Event.concerns]), .refl p⟩
  | @child src pid' parent pids _ task hk hsrc ha =>
    have hne' : pid ≠ pid' := by
      rintro rfl
      simp [ho.fresh ha] at hp
    exact ⟨p, [_], ht, by rw [process?_bear, if_neg hne', hp], rfl, hsource hsrc,
      hstays (by simp [Event.concerns]), .refl p⟩
  | @forget pid' _ hu =>
    have hne' : pid ≠ pid' := by
      rintro rfl
      have hnone := hu p hp
      simp [isReferenced, Option.isSome_iff_ne_none.2 ht] at hnone
    have hq : (s.drop pid').process? pid =
        some (if p.parent = some pid' then { p with parent := none } else p) := by
      rw [process?_drop, if_neg hne', hp]
      rfl
    refine ⟨_, [], ?_, hq, rfl, by simp, ?_, ?_⟩
    · split <;> exact ht
    · split
      · exact Process.told_of_eq (Process.sent_of_inbox
          (Process.disturbed_of_eq rfl rfl rfl rfl rfl rfl rfl) rfl) rfl rfl rfl (by simp)
      · exact .refl p
    · split
      · exact Process.announced_of_eq rfl rfl rfl rfl rfl rfl
      · exact .refl p
  | wait => exact ⟨p, [], ht, hp, rfl, by simp, .refl p, .refl p⟩

theorem Evolves.heard (h : Evolves actor true true s s') (ho : s.Ordered)
    (hne : actor ≠ some pid) (hp : s.process? pid = some p) (ht : p.task ≠ none) :
    ∃ q new, q.task ≠ none ∧ Heard pid p q s s' new := by
  induction h with
  | refl => exact ⟨p, [], ht, .refl hp⟩
  | tail h h' ih =>
    obtain ⟨q, new, htq, hq⟩ := ih
    obtain ⟨r, later, htr, hr⟩ := h'.heard (Evolves.ordered h ho) hne hq.process htq
    exact ⟨r, later ++ new, htr, hq.trans hr⟩

/-- **What a process in the midst of something hears of the moves of others.** -/
theorem heard_of_others (hs : s.Sound) (hp : s.process? pid = some p) (hx : p.context? = some x)
    (hi : x.control ≠ .idle) (hm : m ≠ .process pid) :
    ∃ q new, Heard pid p q s (s.move m) new := by
  have ht : p.task ≠ none := fun ht => by simp [Process.context?, ht] at hx
  by_cases ha : m.actor = some pid
  · exact ⟨p, [], (move_of_midst hp hx hi hm ha).symm ▸ .refl hp⟩
  · rcases alone_or_affairs hs m with ⟨pid', rfl, p', t, hp', -, -, he, hc⟩ | h
    · have hne : pid ≠ pid' := fun he => ha (congrArg some he.symm)
      have hmove : s.move (.process pid') = s.act ⟨some pid', t.openCalls⟩ pid'
        (·.step s.now pid' t) := he
      rw [hmove]
      refine ⟨p, _, by rw [process?_act, if_neg hne, hp], act_history hp', fun r hr => ?_,
        Process.told_of_eq (.refl p) rfl rfl rfl fun e hmem => ?_, .refl p⟩
      · obtain ⟨e, -, rfl⟩ := List.mem_map.1 (List.mem_reverse.1 hr)
        exact fun h => hne (Option.some.inj h).symm
      · refine Process.concerns_conduct (Ne.symm hne) hc e ?_
        simpa using hmem
    · obtain ⟨q, new, -, hheard⟩ := (h.evolves hs.ordered).heard hs.ordered ha hp ht
      exact ⟨q, new, hheard⟩

end System

end PosixSignals
