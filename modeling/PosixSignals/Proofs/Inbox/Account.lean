import PosixSignals.Process.Event
import PosixSignals.Proofs.Inbox.Growth

/-!
# Accounts of signals

The history tells how often an occurrence of a signal was accepted for a
process and how often the process took one out of its pending set.
`account` reads both off, and which occurrence is outstanding; it looks at
no inbox. What changes an inbox enters the account, so the two agree after
every change of the system: a signal is outstanding by the account just if
it is pending, with the information that the inbox has of it.
-/

namespace PosixSignals

/-- Whether a generated signal is left to the process, in its pending set. -/
def Generated.pends : Generated → Bool
  | .queued | .handlerReady => true
  | .discarded | .defaultAction _ => false

namespace Record

/-- Whether a record tells that a process came into being under a number. -/
def creates (pid : Pid) (r : Record) : Bool :=
  match r.event with
  | .created q _ => q == pid
  | _ => false

/-- The occurrence of a signal that a record tells was left to a process. -/
def leaves? (pid : Pid) (sig : Signal) (r : Record) : Option SignalInfo :=
  match r.event with
  | .generated info q outcome =>
    if q = pid ∧ info.signal = sig ∧ outcome.pends = true then some info else none
  | _ => none

/-- Whether a record tells that a process took a signal out of its pending set. -/
def removes (pid : Pid) (sig : Signal) (r : Record) : Bool :=
  r.source.pid == some pid &&
    match r.event with
    | .handling sig' => sig' == sig
    | .took info => info.signal == sig
    | _ => false

end Record

/-- An account of a signal for a process. -/
structure Account where
  /-- How many occurrences found the signal not pending, and made it so. -/
  accepted : Nat := 0
  /-- How often the signal was taken out. -/
  consumed : Nat := 0
  /-- The occurrence that was accepted and not taken out yet. -/
  outstanding : Option SignalInfo := none

namespace Account

/-- Enters a record. A process that comes into being has an account of its own. -/
def enter (pid : Pid) (sig : Signal) (r : Record) (a : Account) : Account :=
  if r.creates pid then {}
  else if r.removes pid sig then { a with consumed := a.consumed + 1, outstanding := none }
  else match r.leaves? pid sig, a.outstanding with
    | some info, none => { a with accepted := a.accepted + 1, outstanding := some info }
    | _, _ => a

/-- Enters the events of one source, in the order in which they happened. -/
def enterAll (pid : Pid) (sig : Signal) (src : Source) (a : Account) (events : List Event) :
    Account :=
  events.foldl (fun a e => a.enter pid sig ⟨src, e⟩) a

end Account

/-- **The account of a signal for a process**, by the history. -/
def account (pid : Pid) (sig : Signal) (history : List Record) : Account :=
  history.foldr (Account.enter pid sig) {}

/-- Whether an account can depend on an event. -/
def Event.isAccounted : Event → Bool
  | .created .. | .generated .. | .handling _ | .took _ => true
  | _ => false

/-- Whether an event tells how a process deals with signals and calls; nobody else
can make it happen. -/
def Event.isDealing : Event → Bool
  | .handling _ | .took _ | .entered .. | .concluded .. => true
  | _ => false

variable {pid q : Pid} {sig : Signal} {r : Record} {a : Account} {src : Source}
  {events : List Event} {history : List Record} {info : SignalInfo}

/-! ## What a record tells -/

theorem event_of_removes (h : r.removes pid sig = true) : r.source.pid = some pid ∧
    (r.event = .handling sig ∨ ∃ info, r.event = .took info ∧ info.signal = sig) := by
  obtain ⟨src, e⟩ := r
  obtain ⟨hsrc, he⟩ := Bool.and_eq_true_iff.1 h
  refine ⟨by simpa using hsrc, ?_⟩
  cases e with
  | handling other => exact .inl (by simpa using he)
  | took info => exact .inr ⟨info, rfl, by simpa using he⟩
  | _ => simp at he

/-- What others take out is not taken out of this pending set. -/
theorem removes_of_source_ne (h : r.source.pid ≠ some pid) :
    r.removes pid sig = false := by
  simp [Record.removes, h]

theorem removes_took (hsrc : src.pid = some pid) :
    (⟨src, .took info⟩ : Record).removes pid sig = (info.signal == sig) := by
  simp [Record.removes, hsrc]

theorem removes_handling {other : Signal} (hsrc : src.pid = some pid) :
    (⟨src, .handling other⟩ : Record).removes pid sig = (other == sig) := by
  simp [Record.removes, hsrc]

/-! ## Entering records -/

namespace Account

theorem enter_of_not_isAccounted (h : r.event.isAccounted = false) : a.enter pid sig r = a := by
  obtain ⟨src, e⟩ := r
  cases e <;> simp [Event.isAccounted] at h <;>
    simp [enter, Record.creates, Record.removes, Record.leaves?]

/-- What is generated against others does not concern the account. -/
theorem enter_generated_of_ne {outcome : Generated} (h : q ≠ pid) :
    a.enter pid sig ⟨src, .generated info q outcome⟩ = a := by
  simp [enter, Record.creates, Record.removes, Record.leaves?, h]

theorem enter_created_of_ne {parent : Option Pid} (h : q ≠ pid) :
    a.enter pid sig ⟨src, .created q parent⟩ = a := by
  simp [enter, Record.creates, Record.removes, Record.leaves?, h]

theorem enter_created_self {parent : Option Pid} :
    a.enter pid sig ⟨src, .created pid parent⟩ = {} := by
  simp [enter, Record.creates]

theorem enter_of_removes (hc : r.creates pid = false) (hr : r.removes pid sig = true) :
    a.enter pid sig r = { a with consumed := a.consumed + 1, outstanding := none } := by
  simp [enter, hc, hr]

/-- What others take out does not concern the account. -/
theorem enter_of_not_removes (hc : r.creates pid = false) (hr : r.removes pid sig = false)
    (hl : r.leaves? pid sig = none) : a.enter pid sig r = a := by
  simp [enter, hc, hr, hl]

theorem enterAll_of_forall (h : ∀ e ∈ events, a.enter pid sig ⟨src, e⟩ = a) :
    a.enterAll pid sig src events = a := by
  unfold enterAll
  induction events with
  | nil => rfl
  | cons e events ih =>
    rw [List.foldl_cons, h e List.mem_cons_self]
    exact ih fun e' he' => h e' (List.mem_cons_of_mem _ he')

theorem enterAll_append (events' : List Event) :
    a.enterAll pid sig src (events ++ events') =
      (a.enterAll pid sig src events).enterAll pid sig src events' :=
  List.foldl_append

end Account

theorem account_cons : account pid sig (r :: history) = (account pid sig history).enter pid sig r :=
  rfl

/-- The events of a source are entered in the order in which they happened. -/
theorem account_append_events :
    account pid sig ((events.map fun e => (⟨src, e⟩ : Record)).reverse ++ history) =
      (account pid sig history).enterAll pid sig src events := by
  simp only [account, List.foldr_append, List.foldr_reverse, List.foldl_map]
  rfl

/-- Entering a dealing with another signal changes nothing. -/
theorem enter_of_other {e : Event} (he : e.isDealing = true)
    (hr : (⟨src, e⟩ : Record).removes pid sig = false) : a.enter pid sig ⟨src, e⟩ = a := by
  refine Account.enter_of_not_removes ?_ hr ?_ <;>
    cases e <;> simp [Event.isDealing] at he <;> rfl

/-- What is outstanding stays so until it is taken out. -/
theorem outstanding_append {new : List Record}
    (h : (account pid sig history).outstanding = some info)
    (hnew : ∀ r ∈ new, r.creates pid = false ∧ r.removes pid sig = false) :
    (account pid sig (new ++ history)).outstanding = some info := by
  induction new with
  | nil => exact h
  | cons r new ih =>
    have ih := ih fun r' hr' => hnew r' (List.mem_cons_of_mem _ hr')
    obtain ⟨hc, hr⟩ := hnew r List.mem_cons_self
    rw [List.cons_append, account_cons]
    simp only [Account.enter, hc, hr, Bool.false_eq_true, if_false, ih]
    split
    · next hnone => simp at hnone
    · exact ih

/-- **An outstanding occurrence was generated**, found the signal not outstanding, and
nothing was taken out since. -/
theorem exists_of_outstanding (h : (account pid sig history).outstanding = some info) :
    ∃ between g before outcome, history = between ++ g :: before ∧
      g.event = .generated info pid outcome ∧ info.signal = sig ∧ outcome.pends = true ∧
      (account pid sig before).outstanding = none ∧
      ∀ r ∈ between, r.creates pid = false ∧ r.removes pid sig = false := by
  induction history with
  | nil => simp [account] at h
  | cons r history ih =>
    rw [account_cons, Account.enter] at h
    split at h
    · simp at h
    next hc =>
    split at h
    · simp at h
    next hr =>
    split at h
    · next accepted hl hnone =>
      obtain rfl := Option.some.inj h
      unfold Record.leaves? at hl
      split at hl
      · next outcome he =>
        split at hl
        · next hi =>
          obtain ⟨rfl, hsig, hp⟩ := hi
          obtain rfl := Option.some.inj hl
          exact ⟨[], r, history, outcome, rfl, he, hsig, hp, hnone, by simp⟩
        · simp at hl
      · simp at hl
    · obtain ⟨between, g, before, outcome, rfl, he, hsig, hp, hnone, hb⟩ := ih h
      refine ⟨r :: between, g, before, outcome, rfl, he, hsig, hp, hnone, ?_⟩
      exact List.forall_mem_cons.2 ⟨⟨by simpa using hc, by simpa using hr⟩, hb⟩

/-! ## Agreement with an inbox -/

/-- **The account is right about the inbox.** -/
structure Inbox.Agrees (box : Inbox) (sig : Signal) (a : Account) : Prop where
  balanced : a.accepted = a.consumed + if sig ∈ box.pending then 1 else 0
  outstanding : a.outstanding = box.info? sig
  pending : sig ∈ box.pending ↔ (box.info? sig).isSome = true

namespace Inbox

variable {box box' : Inbox}

theorem agrees_empty (sig : Signal) : Inbox.empty.Agrees sig {} where
  balanced := by simp [empty]
  outstanding := by simp [empty, info?]
  pending := by simp [empty, info?]

/-- A forked child starts with nothing pending. -/
theorem agrees_fork (box : Inbox) (sig : Signal) : box.fork.Agrees sig {} :=
  let h := agrees_empty sig
  ⟨h.balanced, h.outstanding, h.pending⟩

theorem Agrees.congr (h : box.Agrees sig a) (hp : box'.pending = box.pending)
    (hi : box'.infos = box.infos) : box'.Agrees sig a where
  balanced := by rw [hp, h.balanced]
  outstanding := by simpa only [info?, hi] using h.outstanding
  pending := by simpa only [info?, hi, hp] using h.pending

/-- **What is left to a process enters the account.** -/
theorem Agrees.push (h : box.Agrees sig a) {outcome : Generated} (ho : outcome.pends = true) :
    (box.push info).Agrees sig (a.enter pid sig ⟨src, .generated info pid outcome⟩) := by
  by_cases hsig : info.signal = sig
  · subst hsig
    by_cases hs : info.signal ∈ box.pending
    · -- it merges into the occurrence that is pending
      obtain ⟨i, hi⟩ := Option.isSome_iff_exists.1 (h.pending.1 hs)
      have hsame : a.enter pid info.signal ⟨src, .generated info pid outcome⟩ = a := by
        simp [Account.enter, Record.creates, Record.removes, Record.leaves?, ho, h.outstanding, hi]
      rw [hsame, Inbox.push, if_pos hs]
      exact h
    · have hnone : box.info? info.signal = none := by
        simpa using mt h.pending.2 hs
      have hentered : a.enter pid info.signal ⟨src, .generated info pid outcome⟩ =
          { a with accepted := a.accepted + 1, outstanding := some info } := by
        simp [Account.enter, Record.creates, Record.removes, Record.leaves?, ho, h.outstanding,
          hnone]
      have hbal := h.balanced
      rw [if_neg hs] at hbal
      rw [hentered]
      refine ⟨?_, ?_, ?_⟩
      · rw [if_pos (mem_push_pending.2 (.inr rfl))]
        simpa using hbal
      · simp [Inbox.push, hs, info?_set]
      · simp [Inbox.push, hs, info?_set]
  · have hsame : a.enter pid sig ⟨src, .generated info pid outcome⟩ = a := by
      simp [Account.enter, Record.creates, Record.removes, Record.leaves?, hsig]
    have hpending : sig ∈ (box.push info).pending ↔ sig ∈ box.pending :=
      mem_push_pending.trans (or_iff_left (Ne.symm hsig))
    have hinfo : (box.push info).info? sig = box.info? sig := by
      unfold Inbox.push
      split
      · rfl
      · rw [info?_set, if_neg hsig]
    rw [hsame]
    exact ⟨by simp only [hpending, h.balanced], by rw [hinfo, h.outstanding],
      by rw [hpending, hinfo, h.pending]⟩

/-- **Where an occurrence goes enters the account**: one that is not left to the process leaves
the account as it is, like the inbox. -/
theorem Agrees.receive {H : Type} {d : Disposition H} {outcome : Generated}
    (h : box.Agrees sig a) (hr : box.Reception info d (outcome, box')) :
    box'.Agrees sig (a.enter pid sig ⟨src, .generated info pid outcome⟩) := by
  have hsame : outcome.pends = false → a.enter pid sig ⟨src, .generated info pid outcome⟩ = a :=
    fun ho => by simp [Account.enter, Record.creates, Record.removes, Record.leaves?, ho]
  cases hr with
  | queued | ready => exact h.push rfl
  | atOnce | ignored | idle | acted =>
    rw [hsame rfl]
    exact h

/-- **Taking a pending signal out enters the account.** -/
theorem Agrees.take (h : box.Agrees sig a) (hs : sig ∈ box.pending)
    (hc : r.creates pid = false) (hr : r.removes pid sig = true) :
    (box.take sig).2.Agrees sig (a.enter pid sig r) := by
  have hbal := h.balanced
  have hgone : sig ∉ (box.take sig).2.pending := fun hm =>
    (SignalSet.mem_sdiff.1 hm).2 (SignalSet.mem_single.2 rfl)
  have hnone : (box.take sig).2.info? sig = none := by simp [Inbox.take, info?_set]
  rw [if_pos hs] at hbal
  rw [Account.enter_of_removes hc hr]
  exact ⟨by simpa [if_neg hgone] using hbal, hnone.symm, by simp [hgone, hnone]⟩

/-- Taking another signal out does not concern the account. -/
theorem Agrees.take_of_ne {other : Signal} (h : box.Agrees sig a) (hne : other ≠ sig) :
    (box.take other).2.Agrees sig a := by
  have hpending : sig ∈ (box.take other).2.pending ↔ sig ∈ box.pending := by
    show sig ∈ box.pending \ .single other ↔ _
    simp [Ne.symm hne]
  have hinfo : (box.take other).2.info? sig = box.info? sig := by
    simp [Inbox.take, info?_set, hne]
  exact ⟨by simp only [hpending, h.balanced], by rw [hinfo, h.outstanding],
    by rw [hpending, hinfo, h.pending]⟩

/-- What is taken is the occurrence that is outstanding. -/
theorem Agrees.take_eq (h : box.Agrees sig a) (hs : sig ∈ box.pending) :
    box.info? sig = some (box.take sig).1 ∧ a.outstanding = some (box.take sig).1 := by
  obtain ⟨i, hi⟩ := Option.isSome_iff_exists.1 (h.pending.1 hs)
  have hinfo : box.info? sig = some (box.take sig).1 := by simp [Inbox.take, hi]
  exact ⟨hinfo, h.outstanding.trans hinfo⟩

end Inbox

end PosixSignals
