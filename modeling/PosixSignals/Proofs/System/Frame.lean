import PosixSignals.Proofs.System.Change

/-!
# What a change leaves alone

The consequences of `Changed`, each by one induction: the process table
stays in order and its numbers in use, inboxes stay sound, nothing but
quiet records is added to the history, and a process other than the one
that acts keeps its context for as long as it has one.
-/

namespace PosixSignals

namespace System

variable {s s' s'' : System} {own : Option Pid} {pid : Pid}

/-! ## Order -/

/-- The entries are in order, and every number among them is in use. -/
structure Ordered (s : System) : Prop where
  ascending : s.processes.Ascending
  used : ∀ pid, (s.process? pid).isSome → pid ∈ s.pids.used

/-- At first the table is empty. -/
theorem ordered_initial : initial.Ordered where
  ascending := Registry.ascending_empty
  used _ h := by simp [initial, process?, Registry.get?] at h

/-- What changes nothing and notes nothing leaves everything as it was. -/
theorem Ordered.act_of_eq (h : s.Ordered) {p : Process} {src : Source}
    {f : Process → Process × List Event} (hp : s.process? pid = some p) (hf : f p = (p, [])) :
    s.act src pid f = s := by
  rw [act_of_some hp, hf]
  show { s with processes := s.processes.insert pid p } = s
  rw [h.ascending.insert_of_get? hp]

/-- To change a process keeps the table in order. -/
theorem Ordered.act (h : s.Ordered) {src : Source} {f : Process → Process × List Event} :
    (s.act src pid f).Ordered where
  ascending := by
    cases hp : s.process? pid with
    | none =>
      rw [act_of_none hp]
      exact h.ascending
    | some p =>
      rw [act_of_some hp, noteAll_processes]
      exact h.ascending.insert _ _
  used pid' hp := by
    rw [act_pids]
    refine h.used pid' ?_
    rw [process?_act] at hp
    split at hp
    · next he => simpa [he] using hp
    · exact hp

/-- An update keeps the table in order. -/
theorem ordered_update {g : Process → Process} (ho : s.Ordered) : (s.update pid g).Ordered := ho.act

/-- **The numbers handed out are new.** -/
theorem Ordered.fresh (h : s.Ordered) {pids : IdPool} (ha : s.pids.alloc = (some pid, pids)) :
    s.process? pid = none := by
  have hn := (IdPool.not_mem_of_alloc ha).1
  cases hp : s.process? pid with
  | none => rfl
  | some p => exact absurd (h.used pid (by simp [hp])) hn

/-- The parent of a process is not part of what it is in the midst of. -/
theorem process?_drop {pid' : Pid} :
    (s.drop pid).process? pid' =
      if pid' = pid then none else (s.process? pid').map fun p =>
        if p.parent = some pid then { p with parent := none } else p := by
  simp only [drop, process?, Registry.get?_map, Registry.get?_erase]
  split <;> rfl

/-- Whoever is left was there, and may have lost the parent. -/
theorem exists_of_process?_drop {pid' : Pid} {q : Process}
    (h : (s.drop pid).process? pid' = some q) :
    pid' ≠ pid ∧ ∃ p, s.process? pid' = some p ∧ (p = q ∨ { p with parent := none } = q) := by
  rw [process?_drop] at h
  split at h
  · simp at h
  next hne =>
  obtain ⟨p, hp, rfl⟩ := Option.map_eq_some_iff.1 h
  refine ⟨hne, p, hp, ?_⟩
  split
  · exact .inr rfl
  · exact .inl rfl

/-- Whoever is forgotten leaves a table in order. -/
theorem Ordered.drop (h : s.Ordered) : (s.drop pid).Ordered where
  ascending := (h.ascending.erase pid).map _
  used pid' hp := by
    obtain ⟨q, hq⟩ := Option.isSome_iff_exists.1 hp
    obtain ⟨hne, p, hp, -⟩ := exists_of_process?_drop hq
    exact (List.mem_erase_of_ne hne).2 (h.used pid' (by simp [hp]))

/-- **Changes keep the table in order.** -/
theorem Changed.ordered (h : Changed own s s') (ho : s.Ordered) : s'.Ordered := by
  induction h with
  | refl => exact ho
  | note _ _ ih => exact ⟨ih.ascending, ih.used⟩
  | act _ _ ih => exact ih.act
  | @birth s' pid pids p _ ha _ ih =>
    refine ⟨ih.ascending.insert _ _, fun pid' hp => ?_⟩
    rw [show pids.used = pid :: s'.pids.used from (IdPool.not_mem_of_alloc ha).2]
    simp only [process?, Registry.get?_insert] at hp
    split at hp
    · next he => exact he ▸ List.mem_cons_self
    · exact List.mem_cons_of_mem _ (ih.used pid' hp)
  | drop _ _ ih => exact ih.drop
  | wait _ ih => exact ⟨ih.ascending, ih.used⟩

/-! ## Other processes -/

/-- In the midst of nothing: the main routine waits, if there is one. -/
def Blank (p : Process) : Prop := ∀ c, p.context? = some c → c.frames = [] ∧ c.control = .idle

/-- **What a change leaves of a process that takes no part in it.** A process
with a context stays and keeps it; a process that was not there before is
in the midst of nothing. -/
structure Spares (pid : Pid) (s s' : System) : Prop where
  kept : ∀ p, s.process? pid = some p → p.task ≠ none →
    ∃ q, s'.process? pid = some q ∧ p.Disturbed q
  known : ∀ q, s'.process? pid = some q →
    (∃ p, s.process? pid = some p ∧ p.Disturbed q) ∨ Blank q

/-- Nothing happens to anybody. -/
theorem Spares.refl (pid : Pid) (s : System) : Spares pid s s :=
  ⟨fun p hp _ => ⟨p, hp, .refl p⟩, fun q hq => .inl ⟨q, hq, .refl q⟩⟩

/-- Whoever is idle and disturbed is idle. -/
theorem Blank.disturbed {p q : Process} (h : Blank p) (hd : p.Disturbed q) : Blank q := by
  intro c hc
  exact h c ((Process.context?_congr hd.task hd.blocked).symm.trans hc)

/-- Whoever is spared twice is spared. -/
theorem Spares.trans (h : Spares pid s s') (h' : Spares pid s' s'') : Spares pid s s'' where
  kept p hp ht := by
    obtain ⟨q, hq, hd⟩ := h.kept p hp ht
    obtain ⟨r, hr, hd'⟩ := h'.kept q hq (hd.task ▸ ht)
    exact ⟨r, hr, hd.trans hd'⟩
  known r hr := by
    rcases h'.known r hr with ⟨q, hq, hd'⟩ | hb
    · rcases h.known q hq with ⟨p, hp, hd⟩ | hb
      · exact .inl ⟨p, hp, hd.trans hd'⟩
      · exact .inr (hb.disturbed hd')
    · exact .inr hb

/-- A change that shows in a process at most as a disturbance. -/
theorem spares_of_process? (h : s'.process? pid = s.process? pid ∨
    ∃ f, s'.process? pid = (s.process? pid).map f ∧
      ∀ p, s.process? pid = some p → p.Disturbed (f p)) : Spares pid s s' := by
  obtain ⟨f, hf, hd⟩ : ∃ f, s'.process? pid = (s.process? pid).map f ∧
      ∀ p, s.process? pid = some p → p.Disturbed (f p) := by
    rcases h with h | h
    · exact ⟨id, by rw [h, Option.map_id]; rfl, fun p _ => .refl p⟩
    · exact h
  refine ⟨fun p hp _ => ⟨f p, by rw [hf, hp]; rfl, hd p hp⟩, fun q hq => ?_⟩
  obtain ⟨p, hp, rfl⟩ := Option.map_eq_some_iff.1 (hf.symm.trans hq)
  exact .inl ⟨p, hp, hd p hp⟩

/-- To lose a parent is a disturbance at most. -/
theorem disturbed_unparent (p : Process) (parent : Pid) :
    p.Disturbed (if p.parent = some parent then { p with parent := none } else p) := by
  split
  · exact Process.disturbed_of_eq rfl rfl rfl rfl rfl rfl rfl
  · exact .refl p

/-- **Whoever does not act is spared.** -/
theorem Changed.spares (h : Changed own s s') (ho : s.Ordered) (hne : own ≠ some pid) :
    Spares pid s s' := by
  induction h with
  | refl => exact .refl pid s
  | note _ _ ih => exact ih.trans (spares_of_process? (.inl rfl))
  | @act s' src pid' f _ hf ih =>
    refine ih.trans (spares_of_process? ?_)
    rw [process?_act]
    split
    · next he =>
      subst he
      exact .inr ⟨_, rfl, fun p hp => (hf p hp).disturbed hne⟩
    · exact .inl rfl
  | @birth s' pid' pids p hs' ha hp ih =>
    have hfresh := (hs'.ordered ho).fresh ha
    refine ih.trans ?_
    by_cases he : pid = pid'
    · subst he
      -- its number was free, so the process was not there before
      refine ⟨fun p hp _ => by simp [hfresh] at hp, fun q hq => .inr ?_⟩
      obtain rfl : p = q := by simpa [process?] using hq
      exact hp.idle
    · exact spares_of_process? (.inl (Registry.get?_insert_of_ne _ _ he))
  | @drop s' pid' _ hp ih =>
    refine ih.trans ?_
    by_cases he : pid = pid'
    · subst he
      -- who is forgotten has no task to keep
      refine ⟨fun p hs ht => absurd (hp p hs) ht, fun q hq => ?_⟩
      simp [process?_drop] at hq
    · refine spares_of_process? (.inr ⟨_, by rw [process?_drop, if_neg he], fun p _ => ?_⟩)
      exact disturbed_unparent p pid'
  | wait _ ih => exact ih.trans (spares_of_process? (.inl rfl))

/-! ## Inboxes -/

/-- Every inbox is sound. -/
def InboxesSound (s : System) : Prop := ∀ pid p, s.process? pid = some p → p.inbox.Sound

/-- **Changes keep all inboxes sound.** -/
theorem Changed.inboxesSound (h : Changed own s s') (hs : s.InboxesSound) : s'.InboxesSound := by
  induction h with
  | refl => exact hs
  | note _ _ ih => exact ih
  | @act s' src pid f _ hf ih =>
    intro pid' q hq
    rcases process?_act_eq_some.1 hq with ⟨-, p, hp, rfl⟩ | ⟨-, hq⟩
    · exact (hf p hp).sound (ih pid p hp)
    · exact ih pid' q hq
  | birth _ _ hp ih =>
    intro pid' q hq
    simp only [process?, Registry.get?_insert] at hq
    split at hq
    · exact Option.some.inj hq ▸ hp.sound
    · exact ih pid' q hq
  | @drop s' pid _ _ ih =>
    intro pid' q hq
    obtain ⟨-, p, hp, rfl | rfl⟩ := exists_of_process?_drop hq <;> exact ih pid' p hp
  | wait _ ih => exact ih

/-! ## The history -/

/-- Whether a signal is pending for a process. -/
def Pends (s : System) (pid : Pid) (sig : Signal) : Prop :=
  ∃ p, s.process? pid = some p ∧ sig ∈ p.inbox.pending

/-- **What a change without a handler adds to the history**: records of which
none is the start of a handler, and one for every signal that has become
pending. -/
structure Records (s s' : System) (new : List Record) : Prop where
  history : s'.history = new ++ s.history
  quiet : ∀ r ∈ new, r.event.isEntry = false
  pending : ∀ pid sig, s'.Pends pid sig → s.Pends pid sig ∨
    ∃ r ∈ new, ∃ info outcome, r.event = .generated info pid outcome ∧ info.signal = sig

/-- What is noted is noted in order. -/
theorem Records.trans {new new' : List Record} (h : Records s s' new)
    (h' : Records s' s'' new') : Records s s'' (new' ++ new) where
  history := by rw [h'.history, h.history, List.append_assoc]
  quiet r hr := (List.mem_append.1 hr).elim (h'.quiet r) (h.quiet r)
  pending pid sig hp := by
    rcases h'.pending pid sig hp with hp | ⟨r, hr, hg⟩
    · rcases h.pending pid sig hp with hp | ⟨r, hr, hg⟩
      · exact .inl hp
      · exact .inr ⟨r, List.mem_append_right _ hr, hg⟩
    · exact .inr ⟨r, List.mem_append_left _ hr, hg⟩

/-- A remark is one record more. -/
theorem Records.note {new : List Record} {src : Source} {e : Event} (h : Records s s' new)
    (he : e.isEntry = false) : Records s (s'.note src e) (⟨src, e⟩ :: new) where
  history := congrArg (_ :: ·) h.history
  quiet := List.forall_mem_cons.2 ⟨he, h.quiet⟩
  pending pid sig hp := (h.pending pid sig hp).imp_right fun ⟨r, hr, hg⟩ =>
    ⟨r, List.mem_cons_of_mem _ hr, hg⟩

/-- A change that is not noted makes nothing pending. -/
theorem Records.unnoted {new : List Record} (h : Records s s' new)
    (hh : s''.history = s'.history) (hp : ∀ pid sig, s''.Pends pid sig → s'.Pends pid sig) :
    Records s s'' new where
  history := hh.trans h.history
  quiet := h.quiet
  pending pid sig hs := h.pending pid sig (hp pid sig hs)

/-- What a quiet change of one process notes starts no handler. -/
theorem records_act {src : Source} {f : Process → Process × List Event}
    (hf : ∀ p, s.process? pid = some p → p.Quiet pid (f p)) :
    ∃ new, Records s (s.act src pid f) new := by
  cases hp : s.process? pid with
  | none => exact ⟨[], by rw [act_of_none hp]; exact ⟨rfl, by simp, fun _ _ h => .inl h⟩⟩
  | some p =>
    have hq := hf p hp
    refine ⟨((f p).2.map (⟨src, ·⟩ : Event → Record)).reverse, ?_, ?_, ?_⟩
    · rw [act_of_some hp, noteAll_history]
    · simpa using hq.enters
    · rintro pid' sig ⟨q, hq', hs⟩
      rcases process?_act_eq_some.1 hq' with ⟨rfl, p', hp', rfl⟩ | ⟨-, hq'⟩
      · obtain rfl := Option.some.inj (hp.symm.trans hp')
        rcases hq.pending sig hs with hs | ⟨info, outcome, he, hi⟩
        · exact .inl ⟨p, hp, hs⟩
        · exact .inr ⟨⟨src, _⟩, by simpa using he, info, outcome, rfl, hi⟩
      · exact .inl ⟨q, hq', hs⟩

/-- **A change that starts no handler says so in the history.** -/
theorem Changed.records (h : Changed own s s') : ∃ new, Records s s' new := by
  induction h with
  | refl => exact ⟨[], rfl, by simp, fun _ _ h => .inl h⟩
  | note _ he ih =>
    obtain ⟨new, ih⟩ := ih
    exact ⟨_, ih.note he⟩
  | act _ hf ih =>
    obtain ⟨new, ih⟩ := ih
    obtain ⟨new', h'⟩ := records_act fun p hp => (hf p hp).quiet
    exact ⟨_, ih.trans h'⟩
  | birth _ _ hp ih =>
    obtain ⟨new, ih⟩ := ih
    refine ⟨_, ih.unnoted rfl ?_⟩
    rintro pid' sig ⟨q, hq, hs⟩
    simp only [process?, Registry.get?_insert] at hq
    split at hq
    · -- a child inherits the mask, but nothing that is pending
      exact absurd hs (Option.some.inj hq ▸ hp.pending sig)
    · exact ⟨q, hq, hs⟩
  | @drop s' pid _ _ ih =>
    obtain ⟨new, ih⟩ := ih
    refine ⟨_, ih.unnoted rfl ?_⟩
    rintro pid' sig ⟨q, hq, hs⟩
    obtain ⟨-, p, hp, rfl | rfl⟩ := exists_of_process?_drop hq <;> exact ⟨p, hp, hs⟩
  | wait _ ih =>
    obtain ⟨new, ih⟩ := ih
    exact ⟨_, ih.unnoted rfl fun _ _ => id⟩

end System

end PosixSignals
