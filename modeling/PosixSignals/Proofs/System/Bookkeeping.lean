import PosixSignals.Proofs.Process.Removal
import PosixSignals.Proofs.System.Evolution

/-!
# Bookkeeping

The changes of the system enter the accounts: an account that is right
stays right whatever evolves. What evolves notes only what its actor does,
tells of no dealing with signals, and hands no signal to a call.
-/

namespace PosixSignals

namespace System

variable {s s' : System} {actor : Option Pid} {kin mortal : Bool} {pid pid' : Pid}
  {sig : Signal} {p q : Process} {src : Source} {r : Process × List Event}
  {f : Process → Process × List Event}

/-! ## Deeds -/

/-- A deed is a generation, or it does not touch the books. -/
theorem books_of_deed (h : Deed actor kin mortal pid p r) :
    (∃ info, r = p.generate pid info) ∨ p.OffBooks r := by
  cases h with
  | generate info => exact .inl ⟨info, rfl⟩
  | exit w => exact .inr Process.shift_exit.offBooks
  | stop sig => exact .inr Process.shift_stop.offBooks
  | resume => exact .inr Process.shift_resume.offBooks
  | noticeChild | limits | placed | released => exact .inr ⟨rfl, rfl, by simp⟩
  | buried => exact .inr ⟨rfl, rfl, by simp [Event.isAccounted, Event.isDealing]⟩
  | mild _ h => exact .inr (Process.offBooks_mild h)

/-- What a deed notes tells of no dealing. -/
theorem not_isDealing_of_deed (h : Deed actor kin mortal pid p r) :
    ∀ e ∈ r.2, e.isDealing = false := by
  intro e he
  rcases books_of_deed h with ⟨info, rfl⟩ | h
  · rcases Process.mem_generate he with ⟨-, h⟩ | ⟨outcome, rfl⟩
    · exact h
    · rfl
  · exact (h.events e he).2

/-- What a deed hands to the call on top is nothing, or what was on its way. -/
theorem offered?_of_deed (h : Deed actor kin mortal pid p r) :
    r.1.offered? = none ∨ r.1.offered? = p.offered? := by
  have hsame : ∀ {q : Process}, p.Disturbed q → q.offered? = p.offered? := fun hd => by
    simp only [Process.offered?, hd.task]
  cases h with
  | generate info => exact .inr (hsame Process.disturbed_generate)
  | exit w => exact .inr (hsame Process.shift_exit.disturbed)
  | stop sig => exact .inr (hsame Process.shift_stop.disturbed)
  | resume => exact .inr (hsame Process.shift_resume.disturbed)
  | noticeChild | limits | placed | buried => exact .inr rfl
  | released => exact .inl rfl
  | mild _ h =>
    cases h with
    | plain hu | ended hu => exact .inl hu.offered

/-! ## Accounts -/

/-- **The account of a signal is right**, if the process is there. -/
def Agreed (s : System) (pid : Pid) (sig : Signal) : Prop :=
  ∀ p, s.process? pid = some p → p.inbox.Agrees sig (account pid sig s.history)

/-- A change of one process keeps an account right if what it notes is entered. -/
theorem Agreed.act (h : s.Agreed pid sig) (hp : s.process? pid' = some p)
    (hself : pid' = pid → ∀ a, p.inbox.Agrees sig a →
      (f p).1.inbox.Agrees sig (a.enterAll pid sig src (f p).2))
    (hother : pid' ≠ pid → ∀ a, Account.enterAll pid sig src a (f p).2 = a) :
    (s.act src pid' f).Agreed pid sig := by
  intro q hq
  rw [act_history hp, account_append_events]
  rw [process?_act, hp] at hq
  split at hq
  · next he =>
    obtain rfl : (f p).1 = q := Option.some.inj hq
    exact hself he.symm _ (h p (he ▸ hp))
  · next hne =>
    rw [hother fun he => hne he.symm]
    exact h q hq

/-- **A deed keeps the books in agreement.** -/
theorem Agreed.deed (h : s.Agreed pid sig) (hp : s.process? pid' = some p)
    (hd : Deed actor kin mortal pid' p (f p)) : (s.act src pid' f).Agreed pid sig := by
  refine h.act hp (fun he a ha => ?_) fun hne a => Account.enterAll_of_forall fun e he => ?_
  · subst he
    rcases books_of_deed hd with ⟨info, hf⟩ | hoff
    · exact hf ▸ Process.agrees_generate ha
    · exact hoff.agrees ha
  · rcases books_of_deed hd with ⟨info, hf⟩ | hoff
    · rcases Process.mem_generate (hf ▸ he) with ⟨h, -⟩ | ⟨outcome, rfl⟩
      · exact Account.enter_of_not_isAccounted h
      · exact Account.enter_generated_of_ne hne
    · exact Account.enter_of_not_isAccounted (hoff.events e he).1

/-- Whoever is born has clean books. -/
theorem Agreed.bear (h : s.Agreed pid sig) {pids : IdPool} (hp : p.inbox.Agrees sig {}) :
    (s.bear src pid' pids p).Agreed pid sig := by
  intro q hq
  show q.inbox.Agrees sig ((account pid sig s.history).enter pid sig _)
  rcases process?_bear_eq_some.1 hq with ⟨rfl, rfl⟩ | ⟨hne, hq⟩
  · rw [Account.enter_created_self]
    exact hp
  · rw [Account.enter_created_of_ne fun he => hne he.symm]
    exact h q hq

/-- **Every change enters the account.** -/
theorem Happens.agreed (h : Happens actor kin mortal s s') (ha : s.Agreed pid sig) :
    s'.Agreed pid sig := by
  cases h with
  | @remark src e _ he =>
    have hsame : (account pid sig s.history).enter pid sig ⟨src, e⟩ = account pid sig s.history :=
      Account.enter_of_not_isAccounted (by cases e <;> simp [Event.isRemark] at he <;> rfl)
    intro p hp
    show p.inbox.Agrees sig ((account pid sig s.history).enter pid sig ⟨src, e⟩)
    rw [hsame]
    exact ha p hp
  | @deed src pid' f _ hf =>
    cases hp : s.process? pid' with
    | none => rwa [act_of_none hp]
    | some p => exact ha.deed hp (hf p hp)
  | root => exact ha.bear (Inbox.agrees_empty sig)
  | child => exact ha.bear (Inbox.agrees_fork _ sig)
  | @forget pid' =>
    intro q hq
    obtain ⟨-, p, hp, rfl | rfl⟩ := exists_of_process?_drop hq <;> exact ha p hp
  | wait => exact ha

/-! ## The history -/

/-- **What a change notes**: records in the actor's name, of no dealing. -/
structure Noted (actor : Option Pid) (s s' : System) (new : List Record) : Prop where
  history : s'.history = new ++ s.history
  source : ∀ r ∈ new, r.source.pid = actor
  undealt : ∀ r ∈ new, r.event.isDealing = false

/-- Where the history is the same, nothing has been noted. -/
theorem noted_nil (h : s'.history = s.history) : Noted actor s s' [] :=
  ⟨h, by simp, by simp⟩

/-- One event is noted, in the name of its actor. -/
theorem noted_singleton {e : Event} (h : s'.history = ⟨src, e⟩ :: s.history)
    (hsrc : src.pid = actor) (he : e.isDealing = false) : Noted actor s s' [⟨src, e⟩] :=
  ⟨h, by simpa using hsrc, by simpa using he⟩

/-- What a change notes is in the name of its actor, and no dealing. -/
theorem Happens.noted (h : Happens actor kin mortal s s') : ∃ new, Noted actor s s' new := by
  cases h with
  | @remark src e hsrc he =>
    exact ⟨_, noted_singleton rfl hsrc (by cases e <;> simp [Event.isRemark] at he <;> rfl)⟩
  | @deed src pid' f hsrc hf =>
    cases hp : s.process? pid' with
    | none => exact ⟨[], noted_nil (by rw [act_of_none hp])⟩
    | some p =>
      refine ⟨_, act_history hp, fun r hr => ?_, fun r hr => ?_⟩
      · obtain ⟨e, he, rfl⟩ := List.mem_map.1 (List.mem_reverse.1 hr)
        rcases hsrc with hsrc | hnone
        · exact hsrc
        · simp [hnone p] at he
      · obtain ⟨e, he, rfl⟩ := List.mem_map.1 (List.mem_reverse.1 hr)
        exact not_isDealing_of_deed (hf p hp) e he
  | root _ hsrc | child _ hsrc => exact ⟨_, noted_singleton rfl hsrc rfl⟩
  | forget | wait => exact ⟨[], noted_nil rfl⟩

/-- **Books stay in agreement.** -/
theorem Evolves.agreed (h : Evolves actor kin mortal s s') (ha : s.Agreed pid sig) :
    s'.Agreed pid sig := by
  induction h with
  | refl => exact ha
  | tail _ h ih => exact h.agreed ih

/-- What changes note is in the name of their actor, and no dealing. -/
theorem Evolves.noted (h : Evolves actor kin mortal s s') : ∃ new, Noted actor s s' new := by
  induction h with
  | refl => exact ⟨[], noted_nil rfl⟩
  | tail _ h ih =>
    obtain ⟨new, hn⟩ := ih
    obtain ⟨new', hn'⟩ := h.noted
    refine ⟨new' ++ new, by rw [hn'.history, hn.history, List.append_assoc], fun r hr => ?_,
      fun r hr => ?_⟩
    · exact (List.mem_append.1 hr).elim (hn'.source r) (hn.source r)
    · exact (List.mem_append.1 hr).elim (hn'.undealt r) (hn.undealt r)

/-! ## What is on its way -/

/-- Only who was offered a signal is. -/
theorem Happens.offered (h : Happens actor kin mortal s s') {info : SignalInfo}
    (hq : s'.process? pid = some q) (ho : q.offered? = some info) :
    ∃ p, s.process? pid = some p ∧ p.offered? = some info := by
  cases h with
  | remark | wait => exact ⟨q, hq, ho⟩
  | @deed src pid' f _ hf =>
    rcases process?_act_eq_some.1 hq with ⟨rfl, p, hp, rfl⟩ | ⟨-, hq⟩
    · refine ⟨p, hp, ?_⟩
      rcases offered?_of_deed (hf p hp) with hnone | hsame
      · simp [hnone] at ho
      · exact hsame ▸ ho
    · exact ⟨q, hq, ho⟩
  | root _ _ _ ht | child _ _ _ _ ht =>
    rcases process?_bear_eq_some.1 hq with ⟨-, rfl⟩ | ⟨-, hq⟩
    · -- who has just been born has nothing on the stack
      obtain ⟨t, htask, ht'⟩ := Option.bind_eq_some_iff.1 ho
      simp [(ht t htask).1] at ht'
    · exact ⟨q, hq, ho⟩
  | forget =>
    obtain ⟨-, p, hp, rfl | rfl⟩ := exists_of_process?_drop hq <;> exact ⟨p, hp, ho⟩

/-- What a call is offered it was offered before: others hand it nothing. -/
theorem Evolves.offered (h : Evolves actor kin mortal s s') {info : SignalInfo}
    (hq : s'.process? pid = some q) (ho : q.offered? = some info) :
    ∃ p, s.process? pid = some p ∧ p.offered? = some info := by
  induction h generalizing q with
  | refl => exact ⟨q, hq, ho⟩
  | tail _ h ih =>
    obtain ⟨p, hp, hop⟩ := h.offered hq ho
    exact ih hp hop

end System

end PosixSignals
