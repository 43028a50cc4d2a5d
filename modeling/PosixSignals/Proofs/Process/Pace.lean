import PosixSignals.Proofs.Process.SignalWait

/-!
# How far a call is from its return

Above the frames of a routine that has made a call, and outside of the
handlers that are run meanwhile, a process is in one of a few places: a
frame takes a reply, a construct looks or is blocked. Each place has a
number, and each step of the process that takes no signal to deliver it
leads to a place with a smaller one. A suspension or a sleep that was
notified during its check looks again, so its frame counts for more then;
and a wait starts a check only if there is something to deliver, so the
check counts for less until it has taken that.
-/

namespace PosixSignals

/-- Whether signals alone concern what goes on: no body of a call starts, no child is waited for and
main is not over. -/
def Control.isLone : Control → Bool
  | .execute _ | .loop (.wait4 ..) | .blocked (.wait4 ..) _ | .finish _ => false
  | _ => true

/-- A construct that signals concern. -/
theorem Control.isLone_of_loop? {c : Control} {l : Loop} (hc : c.loop? = some l)
    (hl : l.occasion = .signal) : c.isLone = true := by
  obtain rfl | ⟨y, rfl⟩ := loop?_eq_some hc <;> cases l <;> first | rfl | cases hl

/-- How far a reply on a frame is from the frame below, in a process that has been notified `n`
times. -/
def Frame.due (n : Nat) : Frame → Nat
  | .main _ | .body .. => 0
  | .callExit _ | .delivery .. => 1
  | .round => 2
  | .callBody _ => 3
  | .waiting _ => 4
  | .suspended _ seen | .asleep _ seen => if seen = n then 2 else 6

/-- How far a reply is from the frames below all of these. -/
def way (n : Nat) : List Frame → Nat
  | [] => 0
  | f :: fs => f.due n + way n fs

/-- How much farther it is for a construct that looks. -/
def Loop.span : Loop → Nat
  | .check _ | .wait4 .. => 1
  | .waitAny _ => 2
  | .suspend _ | .sleep _ => 4

/-- And for one that is blocked and was not notified. -/
def Loop.rest : Loop → Nat
  | .check _ | .wait4 .. => 0
  | .waitAny _ | .suspend _ | .sleep _ => 1

@[simp] theorem way_nil (n : Nat) : way n [] = 0 := rfl

@[simp] theorem way_cons (n : Nat) (f : Frame) (fs : List Frame) :
    way n (f :: fs) = f.due n + way n fs := rfl

/-- A suspension or a sleep that was notified during its check is farther away. -/
theorem due_listener (n seen k : Nat) :
    k + 2 ≤ (if seen = n then 2 else 6) + k ∧
      (seen ≠ n → k + 6 ≤ (if seen = n then 2 else 6) + k) := by
  split <;> omega

/-! ## The places -/

/-- The most that the frames from this one down to a routine's count for. -/
def Frame.cap : Frame → Nat
  | .main _ | .body .. => 0
  | .callExit _ | .callBody _ => 3
  | .waiting _ | .suspended .. | .asleep .. => 9
  | .round => 11
  | .delivery .. => 12

/-- It is at least what the frame itself counts for. -/
theorem Frame.due_le_cap (f : Frame) (n : Nat) : f.due n ≤ f.cap := by
  cases f <;> simp only [due, cap] <;> first | omega | (split <;> omega)

/-- **What stands on a frame adds to it.** -/
theorem Frame.due_add_cap_le {f g : Frame} {fs : List Frame} (n : Nat) (h : f.StandsOn (g :: fs))
    (hf : f.isRoutine = false) (hg : g.isRoutine = false) : f.due n + g.cap ≤ f.cap := by
  have hhosts : (g.hostsDelivery = true → g.cap ≤ 11) ∧ (g.hostsCheck = true → g.cap ≤ 9) ∧
      (g.hostsWait = true → g.cap ≤ 3) := by
    cases g <;> simp [hostsDelivery, hostsCheck, hostsWait, isRoutine, cap] at hg ⊢
  obtain ⟨hdelivery, hcheck, hwait⟩ := hhosts
  cases f with
  | main | body => cases hf
  | delivery => exact Nat.add_le_add (Nat.le_refl 1) (hdelivery (topIs_cons.1 h))
  | round => exact Nat.add_le_add (Nat.le_refl 2) (hcheck (topIs_cons.1 h))
  | callBody | callExit => exact absurd (topIs_cons.1 h) (by simp [hg])
  | waiting =>
    exact Nat.le_trans (Nat.add_le_add_left (hwait (topIs_cons.1 h)) 4) (Nat.le_add_right 7 2)
  | suspended _ seen | asleep _ seen =>
    have hdue : (if seen = n then 2 else 6) ≤ 6 := by split <;> omega
    exact Nat.add_le_add hdue (hwait (topIs_cons.1 h))

section Stack

variable {f : Frame} {above base : List Frame} {n : Nat}

/-- Among some frames there is no handler, or there is a lowest one. -/
theorem outside_or_lowest (above : List Frame) : (∀ f ∈ above, f.isBody = false) ∨
    ∃ top body out, above = top ++ body :: out ∧ body.isBody = true ∧
      ∀ f ∈ out, f.isBody = false := by
  induction above with
  | nil => exact .inl (by simp)
  | cons f above ih =>
    rcases ih with hout | ⟨top, body, out, rfl, hbody, hout⟩
    · cases hf : f.isBody with
      | true => exact .inr ⟨[], f, above, rfl, hf, hout⟩
      | false => exact .inl (List.forall_mem_cons.2 ⟨hf, hout⟩)
    · exact .inr ⟨f :: top, body, out, rfl, hbody, hout⟩

/-- Outside of handlers there is no routine above another one. -/
theorem not_isRoutine_of_stacked (hs : Stacked (above ++ base)) (hb : base ≠ [])
    (hout : ∀ g ∈ above, g.isBody = false) : ∀ g ∈ above, g.isRoutine = false := by
  intro g hg
  cases g with
  | main keep =>
    -- main is at the bottom of everything
    obtain ⟨upper, lower, rfl⟩ := List.append_of_mem hg
    rw [List.append_assoc] at hs
    have hbottom : lower ++ base = [] := (stacked_of_append hs).1
    exact absurd (List.append_eq_nil_iff.1 hbottom).2 hb
  | body run keep rest => exact absurd (hout _ hg) (by simp [Frame.isBody])
  | _ => rfl

/-- **The frames outside of handlers** count for no more than the topmost one allows. -/
theorem way_le_cap (hs : Stacked (f :: above ++ base)) (hb : base ≠ [])
    (hout : ∀ g ∈ f :: above, g.isBody = false) : way n (f :: above) ≤ f.cap := by
  induction above generalizing f with
  | nil => simpa using f.due_le_cap n
  | cons g above ih =>
    have hrest := ih hs.2 (List.forall_mem_cons.1 hout).2
    obtain ⟨hf, habove⟩ := List.forall_mem_cons.1 (not_isRoutine_of_stacked hs hb hout)
    have hg := habove g List.mem_cons_self
    rw [way_cons]
    exact Nat.le_trans (Nat.add_le_add_left hrest _) (Frame.due_add_cap_le n hs.1 hf hg)

/-- And so for twelve at most. -/
theorem way_le (hs : Stacked (above ++ base)) (hb : base ≠ [])
    (hout : ∀ g ∈ above, g.isBody = false) : way n above ≤ 12 := by
  cases above with
  | nil => simp
  | cons f above =>
    refine Nat.le_trans (way_le_cap hs hb hout) ?_
    cases f <;> simp [Frame.cap]

end Stack

/-- **A step in a handler** stays in it, or comes back from it with a reply or a panic. -/
theorem Context.Step.of_handler {p q : Process} {top fs : List Frame} {body : Frame} {c : Control}
    {m : SignalSet} {y : Context} (h : Context.Step p q ⟨top ++ body :: fs, c, m⟩ y)
    (hbody : body.isBody = true) :
    (∃ top' body', y.frames = top' ++ body' :: fs ∧ body'.isBody = true) ∨
      y.frames = fs ∧ y.control.isBack = true := by
  cases top with
  | cons g top =>
    obtain ⟨top', hfs, -⟩ := h.within (show _ = g :: top ++ body :: fs from rfl)
    exact .inl ⟨top', body, hfs, hbody⟩
  | nil =>
    cases h with
    | failBody | leave | bodyUnwind | unwind => exact .inr ⟨rfl, rfl⟩
    | call | waitServe | suspendCheck | sleepCheck => exact .inl ⟨[_], _, rfl, hbody⟩
    | deliver => exact .inl ⟨[_, _], _, rfl, hbody⟩
    | checkEnter => exact .inl ⟨[_, _, _], _, rfl, hbody⟩
    | stay | panic | answer | changeMask | beginSuspend | beginWait | beginSleep | beginWait4
    | beginCheck | checkExited | checkDone | checkNext | waitOver | sleepOver | wait4Over | block
    | wake | next | bodyNext => exact .inl ⟨[], _, rfl, hbody⟩
    | _ => cases hbody

namespace Process

variable {p q : Process} {pid : Pid} {now n k : Nat} {above base : List Frame} {c : Control}
  {m : SignalSet} {l : Loop} {y : Listener} {f : Frame} {r : Reply} {w : AnyWait} {b : Bool}

/-- The next check point that looks takes a signal. -/
def Eager (p : Process) : Prop :=
  p.status = .normal ∧ ∃ sig ∈ p.inbox.pending, sig ∉ p.inbox.blocked

/-- **A place outside of handlers**, `n` steps from the end at most as long as no signal is taken
and no notification comes. -/
inductive Paced (p : Process) : Nat → List Frame → Control → Prop
  | back {fs : List Frame} {c : Control} (hc : c.isBack = true) :
      Paced p (way p.signalNotices fs) fs c
  | looks {fs : List Frame} {l : Loop} (hl : l.occasion = .signal) :
      Paced p (way p.signalNotices fs + l.span) fs (.loop l)
  /-- A wait has found something to deliver. -/
  | serves {fs : List Frame} {w : AnyWait} {b : Bool} (he : p.Eager) :
      Paced p (way p.signalNotices fs + 1) (.waiting w :: fs) (.loop (.check b))
  /-- A notification has come since. -/
  | rung {fs : List Frame} {l : Loop} {y : Listener} (hl : l.occasion = .signal)
      (hy : y.occasion = .signal) (hn : y.seen ≠ p.signalNotices) :
      Paced p (way p.signalNotices fs + l.span + 1) fs (.blocked l y)
  | rests {fs : List Frame} {l : Loop} {y : Listener} (hl : l.occasion = .signal)
      (hy : y.occasion = .signal) (hn : y.seen = p.signalNotices) :
      Paced p (way p.signalNotices fs + l.rest) fs (.blocked l y)

/-- **What becomes of it by a step**: a check point takes a signal, or the process comes nearer. -/
inductive Hastens (base : List Frame) (n : Nat) (r : Process × List Event) : Prop
  | takes {sig : Signal} (h : .handling sig ∈ r.2)
  | nearer {above : List Frame} {c : Control} {m : SignalSet} {k : Nat}
      (hx : r.1.context? = some ⟨above ++ base, c, m⟩) (hout : ∀ f ∈ above, f.isBody = false)
      (h : Paced r.1 k above c) (hk : k < n)

/-- Such a place is the business of the process alone. -/
theorem Paced.isShared (h : p.Paced n above c) : c.isShared = false := by
  cases h with
  | back hc => cases c <;> first | rfl | cases hc
  | @looks _ l hl => cases l <;> first | rfl | cases hl
  | serves | rung | rests => rfl

/-! ## A step outside of handlers -/

/-- A reply or a panic for the frames that are left. -/
theorem hastens_back {events : List Event} (hout : ∀ f ∈ above, f.isBody = false)
    (hx : q.context? = some ⟨above ++ base, c, m⟩) (hc : c.isBack = true)
    (hn : q.signalNotices = p.signalNotices) (hk : way p.signalNotices above < n) :
    Hastens base n (q, events) :=
  .nearer hx hout (.back hc) (hn.symm ▸ hk)

/-- A construct looks again. -/
theorem hastens_looks {events : List Event} (hl : l.occasion = .signal)
    (hout : ∀ f ∈ above, f.isBody = false)
    (hx : q.context? = some ⟨above ++ base, .loop l, m⟩)
    (hn : q.signalNotices = p.signalNotices) (hk : way p.signalNotices above + l.span < n) :
    Hastens base n (q, events) :=
  .nearer hx hout (.looks hl) (hn.symm ▸ hk)

section Step

variable (hout : ∀ f ∈ above, f.isBody = false)
include hout

/-- What blocks now has heard everything. -/
theorem hastens_block {events : List Event} {d : Option Nat} (hl : l.occasion = .signal)
    (hx : p.context? = some ⟨above ++ base, c, m⟩) (hk : way p.signalNotices above + l.rest < n) :
    Hastens base n (p.goto (.blocked l (p.listen .signal d)), events) :=
  .nearer (by rw [context?_goto, hx]; rfl) hout (.rests hl rfl rfl) hk

/-- A turn of a check point. -/
theorem hastens_check (h : Paced p n above (.loop (.check b)))
    (hx : p.context? = some ⟨above ++ base, .loop (.check b), m⟩) :
    Hastens base n (p.check pid b) := by
  have hanswer : ∀ r, (p.answer r).context? = some ⟨above ++ base, .reply r, m⟩ :=
    fun r => by rw [context?_answer, hx]; rfl
  have hchecked := p.checked pid b
  generalize p.check pid b = r at hchecked ⊢
  -- whoever is eager takes a signal
  have hlazy : ¬ p.Eager → way p.signalNotices above < n := fun he => by
    cases h with
    | back hc => cases hc
    | looks => exact Nat.lt_succ_self _
    | serves h => exact absurd h he
  cases hchecked with
  | ended he =>
    refine hastens_back hout (hanswer _) rfl rfl (hlazy fun h => ?_)
    simp [h.1, Status.isExited] at he
  | stopped hst =>
    refine hastens_block hout rfl hx (hlazy fun h => ?_)
    simp [h.1, Status.isStopped] at hst
  | passed _ hd =>
    refine hastens_back hout (hanswer _) rfl rfl (hlazy fun h => ?_)
    obtain ⟨sig, hs, hb⟩ := h.2
    exact hb (hd sig hs)
  | took _ _ h =>
    cases h with
    | ignored | default | entered => exact .takes List.mem_cons_self

/-- A turn of a wait for signals. -/
theorem hastens_waitAny (hk : p.inbox.pending.Known)
    (hx : p.context? = some ⟨above ++ base, .loop (.waitAny w), m⟩) :
    Hastens base (way p.signalNotices above + 2) (p.waitAny now w) := by
  have hleave : ∀ r, (p.leaveWait w r).context? =
      some ⟨above ++ base, .reply r, w.saved \ .uncatchable⟩ := fun r => by
    rw [context?_leaveWait, hx]
    rfl
  have hlt : way p.signalNotices above < way p.signalNotices above + 2 := by omega
  have hwaited := p.waited now w
  generalize p.waitAny now w = r at hwaited ⊢
  cases hwaited with
  | ended | interrupted | expired => exact hastens_back hout (hleave _) rfl rfl hlt
  | @took sig =>
    have hx' : ∀ r, ((p.without sig).leaveWait w r).context? =
        some ⟨above ++ base, .reply r, w.saved \ .uncatchable⟩ := fun r => by
      rw [context?_leaveWait, without, context?_inbox, hx]
      rfl
    exact hastens_back hout (hx' _) rfl rfl hlt
  | stopped | blocked => exact hastens_block hout rfl hx (Nat.lt_succ_self _)
  | serves hn _ hd =>
    have hx' : (p.enter (.waiting w) (.loop (.check false))).context? =
        some ⟨.waiting w :: above ++ base, .loop (.check false), m⟩ := by
      rw [context?_enter, hx]
      rfl
    exact .nearer hx' (List.forall_mem_cons.2 ⟨rfl, hout⟩)
      (.serves ⟨hn, Inbox.exists_of_hasDeliverable hk hd⟩) (Nat.lt_succ_self _)

/-- A suspension or a sleep registers its listener and checks. -/
theorem hastens_enter {f : Frame} (hf : f.isBody = false) (hdue : f.due p.signalNotices = 2)
    (hx : p.context? = some ⟨above ++ base, c, m⟩) :
    Hastens base (way p.signalNotices above + 4) (p.enter f (.loop (.check false)), []) := by
  have hx' : (p.enter f (.loop (.check false))).context? =
      some ⟨f :: above ++ base, .loop (.check false), m⟩ := by
    rw [context?_enter, hx]
    rfl
  refine hastens_looks (p := p) rfl (List.forall_mem_cons.2 ⟨hf, hout⟩) hx' rfl ?_
  simp only [way_cons, hdue, Loop.span]
  omega

/-- **What blocks goes on**, if it can. -/
theorem hastens_awaken (h : Paced p n above (.blocked l y)) (hrelies : p.Relies l y)
    (hx : p.context? = some ⟨above ++ base, .blocked l y, m⟩)
    (hrun : (p.notified y || expired now y.deadline) = true) :
    Hastens base n (p.awaken now l y, []) := by
  cases h with
  | back hc => cases hc
  | rung hl hy hn =>
    have hnotified : p.notified y = true := by simpa [notified, hy, notices] using hn.symm
    have hlook : p.awaken now l y = p.goto (.loop l) := by simp [awaken, hnotified]
    rw [hlook]
    exact hastens_looks (p := p) hl hout (by rw [context?_goto, hx]; rfl) rfl (Nat.lt_succ_self _)
  | rests _ hy hn =>
    have hnotified : p.notified y = false := by simp [notified, hy, notices, hn]
    have hlate : expired now y.deadline = true := by simpa [hnotified] using hrun
    have hleave : p.awaken now l y = p.timeOut l := by simp [awaken, hnotified, hlate]
    rw [hleave]
    cases l with
    | waitAny w =>
      exact hastens_back (p := p) hout (by rw [timeOut, context?_leaveWait, hx]; rfl) rfl rfl
        (Nat.lt_succ_self _)
    | sleep d =>
      exact hastens_back (p := p) hout (by rw [timeOut, context?_answer, hx]; rfl) rfl rfl
        (Nat.lt_succ_self _)
    | check | suspend | wait4 =>
      -- these have no deadline of their own
      have hnone : y.deadline = none := hrelies.deadline.elim id id
      simp [expired, hnone] at hlate

/-! ### Replies -/

section Reblock

variable {seen : Nat} {d : Option Nat} (hx : p.context? = some ⟨above ++ base, c, m⟩)
  (hlow : way p.signalNotices above + 2 ≤ n)
  (hhigh : seen ≠ p.signalNotices → way p.signalNotices above + 6 ≤ n)
include hx hlow hhigh

/-- A suspension or a sleep blocks again, and looks again if it was notified during its check. -/
theorem hastens_reblock (hl : l.occasion = .signal) (hspan : l.span = 4) (hrest : l.rest = 1) :
    Hastens base n (p.goto (.blocked l ⟨.signal, seen, d⟩), []) := by
  have hx' : (p.goto (.blocked l ⟨.signal, seen, d⟩)).context? =
      some ⟨above ++ base, .blocked l ⟨.signal, seen, d⟩, m⟩ := by
    rw [context?_goto, hx]
    rfl
  have hnotices : (p.goto (.blocked l ⟨.signal, seen, d⟩)).signalNotices = p.signalNotices := rfl
  by_cases hs : seen = p.signalNotices
  · refine .nearer hx' hout (.rests hl rfl hs) ?_
    rw [hnotices, hrest]
    omega
  · have hn := hhigh hs
    refine .nearer hx' hout (.rung hl rfl hs) ?_
    rw [hnotices, hspan]
    omega

/-- The check inside a suspension is over. -/
theorem hastens_finishSuspend (saved : SignalSet) :
    Hastens base n (p.finishSuspend saved seen r, []) := by
  have hlt : way p.signalNotices above < n := by omega
  unfold finishSuspend
  split
  · exact hastens_back hout (context?_answer_restore hx _ _) rfl rfl hlt
  · exact hastens_back hout (context?_answer_restore hx _ _) rfl rfl hlt
  · split
    · have hx' := context?_answer_restore (p := { p with continued := false }) hx saved (.ok .done)
      exact hastens_back hout hx' rfl rfl hlt
    · exact hastens_reblock hout hx hlow hhigh rfl rfl rfl

/-- The check inside a sleep is over. -/
theorem hastens_finishSleep : Hastens base n (p.finishSleep now d seen r, []) := by
  have hanswer : ∀ r, (p.answer r).context? = some ⟨above ++ base, .reply r, m⟩ := fun r => by
    rw [context?_answer, hx]
    rfl
  have hlt : way p.signalNotices above < n := by omega
  unfold finishSleep
  split
  · exact hastens_back hout (hanswer _) rfl rfl hlt
  · exact hastens_back hout (hanswer _) rfl rfl hlt
  · split
    · exact hastens_back hout (hanswer _) rfl rfl hlt
    · exact hastens_reblock hout hx hlow hhigh rfl rfl rfl

end Reblock

/-- **A frame takes a reply.** -/
theorem hastens_accommodate {f : Frame} (hf : f.isRoutine = false)
    (hx : p.context? = some ⟨f :: above ++ base, .reply r, m⟩) :
    Hastens base (way p.signalNotices (f :: above)) (p.pop.accommodate now f r) := by
  have hpop : p.pop.context? = some ⟨above ++ base, .reply r, m⟩ := by
    rw [context?_pop, hx]
    rfl
  have hanswer : ∀ r', (p.pop.answer r').context? = some ⟨above ++ base, .reply r', m⟩ :=
    fun r' => by rw [context?_answer, hpop]; rfl
  have hgoes : ∀ l, (p.pop.goto (.loop l)).context? = some ⟨above ++ base, .loop l, m⟩ :=
    fun l => by rw [context?_goto, hpop]; rfl
  rw [way_cons]
  cases f with
  | main | body => cases hf
  | delivery sig action saved =>
    have hback : (∃ r', (p.pop.finishDelivery sig action saved r).context? =
        some ⟨above ++ base, .reply r', saved \ .uncatchable⟩) ∧
        (p.pop.finishDelivery sig action saved r).signalNotices = p.signalNotices := by
      unfold finishDelivery
      split
      · exact ⟨⟨_, context?_answer_restore hpop saved _⟩, rfl⟩
      · split
        -- a reset of the disposition does not show
        · exact ⟨⟨.ok .done, context?_answer_restore hpop saved (.ok .done)⟩, rfl⟩
        · exact ⟨⟨_, context?_answer_restore hpop saved _⟩, rfl⟩
    obtain ⟨⟨r', hx'⟩, hn⟩ := hback
    exact hastens_back hout hx' rfl hn (Nat.lt_add_of_pos_left Nat.one_pos)
  | round =>
    cases r with
    | ok v =>
      exact hastens_looks (p := p) rfl hout (hgoes _) rfl
        (by simp only [Loop.span, Frame.due]; omega)
    | error e => exact hastens_back hout (hanswer _) rfl rfl (Nat.lt_add_of_pos_left Nat.two_pos)
  | callBody call =>
    have hx' : ∀ r', (p.pop.enter (.callExit r') (.loop (.check false))).context? =
        some ⟨.callExit r' :: above ++ base, .loop (.check false), m⟩ := fun r' => by
      rw [context?_enter, hpop]
      rfl
    refine hastens_looks (p := p) rfl (List.forall_mem_cons.2 ⟨rfl, hout⟩) (hx' _) rfl ?_
    simp only [way_cons, Loop.span, Frame.due]
    omega
  | callExit result =>
    cases r with
    | ok v | error e =>
      exact hastens_back hout (hanswer _) rfl rfl (Nat.lt_add_of_pos_left Nat.one_pos)
  | waiting w =>
    cases r with
    | ok v =>
      exact hastens_looks (p := p) rfl hout (hgoes _) rfl
        (by simp only [Loop.span, Frame.due]; omega)
    | error e =>
      have hx' : (p.pop.leaveWait w (.error e)).context? =
          some ⟨above ++ base, .reply (.error e), w.saved \ .uncatchable⟩ := by
        rw [context?_leaveWait, hpop]
        rfl
      exact hastens_back hout hx' rfl rfl (Nat.lt_add_of_pos_left (by simp [Frame.due]))
  | suspended saved seen =>
    obtain ⟨hlow, hhigh⟩ := due_listener p.signalNotices seen (way p.signalNotices above)
    exact hastens_finishSuspend (p := p.pop) hout hpop hlow hhigh saved
  | asleep d seen =>
    obtain ⟨hlow, hhigh⟩ := due_listener p.signalNotices seen (way p.signalNotices above)
    exact hastens_finishSleep (p := p.pop) hout hpop hlow hhigh

end Step

/-- A panic leaves a frame. -/
theorem hastens_unwind (hf : f.isRoutine = false) (hout : ∀ g ∈ above, g.isBody = false)
    (hx : p.context? = some ⟨f :: above ++ base, .panic, m⟩) :
    Hastens base (way p.signalNotices (f :: above)) (p.pop.unwind f, []) := by
  have hpop : p.pop.context? = some ⟨above ++ base, .panic, m⟩ := by
    rw [context?_pop, hx]
    rfl
  have hrestore : ∀ saved, (p.pop.restore saved).context? =
      some ⟨above ++ base, .panic, saved \ .uncatchable⟩ := fun saved => by
    rw [context?_restore, hpop]
    rfl
  have hpos : 0 < f.due p.signalNotices := by
    cases f <;> simp only [Frame.due] <;> first | omega | (split <;> omega) | cases hf
  have hlt : way p.signalNotices above < way p.signalNotices (f :: above) := by
    rw [way_cons]
    omega
  unfold unwind
  split
  · exact hastens_back hout (hrestore _) rfl rfl hlt
  · exact hastens_back hout (hrestore _) rfl rfl hlt
  · exact hastens_back hout (hrestore _) rfl rfl hlt
  · exact hastens_back hout hpop rfl rfl hlt

/-- **A step outside of handlers** of a process that can go on. -/
theorem hastens_step {root : Bool} (hb : base ≠ []) (hs : Stacked (above ++ base))
    (hout : ∀ f ∈ above, f.isBody = false) (hbusy : above = [] → c.isBack = false)
    (hk : p.inbox.pending.Known) (hrelies : ∀ l y, c = .blocked l y → p.Relies l y)
    (h : Paced p n above c) (ht : p.task = some ⟨above ++ base, c, root⟩)
    (hrun : p.isRunnable now = true) :
    Hastens base n (p.step now pid ⟨above ++ base, c, root⟩) := by
  have hx : p.context? = some ⟨above ++ base, c, p.inbox.blocked⟩ :=
    context?_eq_some.2 ⟨root, ht, rfl⟩
  have hroutine := not_isRoutine_of_stacked hs hb hout
  cases c with
  | loop l =>
    cases l with
    | check b => exact hastens_check hout h hx
    | waitAny w =>
      cases h with
      | back hc => cases hc
      | looks => exact hastens_waitAny hout hk hx
    | suspend saved =>
      cases h with
      | back hc => cases hc
      | looks => exact hastens_enter hout rfl (if_pos rfl) hx
    | sleep d =>
      cases h with
      | back hc => cases hc
      | looks => exact hastens_enter hout rfl (if_pos rfl) hx
    | wait4 =>
      cases h with
      | back hc => cases hc
      | looks hl => cases hl
  | blocked l y =>
    exact hastens_awaken hout h (hrelies l y rfl) hx (by simpa [isRunnable, ht] using hrun)
  | reply r =>
    obtain ⟨f, above, rfl⟩ := List.exists_cons_of_ne_nil fun he => by cases hbusy he
    obtain ⟨-, hout'⟩ := List.forall_mem_cons.1 hout
    cases h with
    | back => exact hastens_accommodate hout' (hroutine f List.mem_cons_self) hx
  | panic =>
    obtain ⟨f, above, rfl⟩ := List.exists_cons_of_ne_nil fun he => by cases hbusy he
    obtain ⟨-, hout'⟩ := List.forall_mem_cons.1 hout
    cases h with
    | back => exact hastens_unwind (hroutine f List.mem_cons_self) hout' hx
  | _ =>
    cases h with
    | back hc => cases hc

/-! ## Every place -/

/-- **A place seen from above some frames**: outside of handlers, or in one, which comes back as a
reply or a panic. -/
inductive Place (p : Process) : Nat → List Frame → Control → Prop
  | outside {n : Nat} {above : List Frame} {c : Control} (hout : ∀ f ∈ above, f.isBody = false)
      (h : Paced p n above c) : Place p n above c
  | handler {top out : List Frame} {body : Frame} {c : Control} (hbody : body.isBody = true)
      (hout : ∀ f ∈ out, f.isBody = false) :
      Place p (way p.signalNotices out) (top ++ body :: out) c

/-- Where a process stands depends on nothing that changes without a notification. -/
theorem Place.congr (h : p.Place n above c) (hn : q.signalNotices = p.signalNotices)
    (hs : q.status = p.status) (hi : q.inbox = p.inbox) : q.Place n above c := by
  cases h with
  | handler hbody hout => exact hn ▸ .handler hbody hout
  | outside hout h =>
    refine .outside hout ?_
    cases h with
    | back hc => exact hn ▸ .back hc
    | looks hl => exact hn ▸ .looks hl
    | serves he => exact hn ▸ .serves (by rwa [Eager, hs, hi])
    | rung hl hy hne => exact hn ▸ .rung hl hy (hn ▸ hne)
    | rests hl hy he => exact hn ▸ .rests hl hy (hn ▸ he)

section Exists

variable (hs : Stacked (above ++ base)) (hf : c.Fits (above ++ base)) (hb : base ≠ [])
  (hbusy : above = [] → c.loop?.isSome = true)
  (hlone : (∀ f ∈ above, f.isCallBody = true) → c.isLone = true)

/-- A construct that looks outside of handlers is not far away. -/
theorem way_add_span_lt (hs : Stacked (above ++ base)) (hf : TopIs l.host (above ++ base))
    (hb : base ≠ []) (hl : l.occasion = .signal) (hout : ∀ f ∈ above, f.isBody = false) :
    way n above + l.span < 12 := by
  cases above with
  | nil => cases l <;> simp [Loop.span]
  | cons f above =>
    obtain ⟨hroutine, -⟩ := List.forall_mem_cons.1 (not_isRoutine_of_stacked hs hb hout)
    have hfar : f.cap + l.span < 12 := by
      have hhost : l.host f = true := topIs_cons.1 hf
      cases l <;> cases f <;> simp [Loop.host, Frame.hostsCheck, Frame.hostsWait, Frame.isRoutine,
        Loop.occasion, Frame.cap, Loop.span] at hhost hroutine hl ⊢
    exact Nat.lt_of_le_of_lt (Nat.add_le_add_right (way_le_cap hs hb hout) _) hfar

include hs hf hb hbusy hlone

/-- Where only signals concern the call outside of its handlers, they do so throughout. -/
theorem isLone_of_fits (hout : ∀ f ∈ above, f.isBody = false) : c.isLone = true := by
  have hroutine := not_isRoutine_of_stacked hs hb hout
  refine Decidable.byContradiction fun hnot => hnot (hlone ?_)
  -- what is left runs on the body of a call, which stands on a routine
  have htop : above ≠ [] → TopIs Frame.isCallBody (above ++ base) := fun hne => by
    cases c with
    | execute call =>
      obtain ⟨fs, he⟩ := List.head?_eq_some_iff.1 hf
      rw [he]
      rfl
    | loop l | blocked l =>
      cases l with
      | wait4 => exact hf
      | _ => exact absurd rfl hnot
    | finish => exact absurd (List.append_eq_nil_iff.1 hf).1 hne
    | _ => exact absurd rfl hnot
  cases above with
  | nil => simp
  | cons f above =>
    refine List.forall_mem_cons.2 ⟨topIs_cons.1 (htop (by simp)), ?_⟩
    cases above with
    | nil => simp
    | cons g above =>
      have hstands : f.StandsOn (g :: above ++ base) := hs.1
      have hbody : f.isCallBody = true := topIs_cons.1 (htop (by simp))
      have hg := hroutine g (by simp)
      cases f <;> simp [Frame.isCallBody] at hbody
      exact absurd (topIs_cons.1 hstands) (by simp [hg])

/-- **Every place outside of handlers has a number.** -/
theorem exists_paced (hout : ∀ f ∈ above, f.isBody = false)
    (hocc : ∀ l y, c = .blocked l y → y.occasion = l.occasion) :
    ∃ n, n ≤ 12 ∧ Paced p n above c := by
  have hl := isLone_of_fits hs hf hb hbusy hlone hout
  have hroutine := not_isRoutine_of_stacked hs hb hout
  have hsignal : ∀ l, c.loop? = some l → l.occasion = .signal := fun l hc => by
    obtain rfl | ⟨y, rfl⟩ := Control.loop?_eq_some hc <;> cases l <;> first | rfl | cases hl
  -- outside of handlers and above the routine nothing but a construct starts
  have hstarts : ∀ kind : Frame → Bool, (∀ f, f.isRoutine = false → kind f = false) →
      c.loop? = none → ¬ TopIs kind (above ++ base) := fun kind hkind hc htop => by
    cases above with
    | nil => simp [hc] at hbusy
    | cons f above => simpa [hkind f (hroutine f (by simp))] using topIs_cons.1 htop
  cases c with
  | reply | panic => exact ⟨_, way_le hs hb hout, .back rfl⟩
  | loop l =>
    have hspan := way_add_span_lt (n := p.signalNotices) hs hf hb (hsignal l rfl) hout
    exact ⟨_, Nat.le_of_lt hspan, .looks (hsignal l rfl)⟩
  | blocked l y =>
    have hspan := way_add_span_lt (n := p.signalNotices) hs hf hb (hsignal l rfl) hout
    have hy := (hocc l y rfl).trans (hsignal l rfl)
    by_cases hseen : y.seen = p.signalNotices
    · refine ⟨_, ?_, .rests (hsignal l rfl) hy hseen⟩
      cases l <;> simp only [Loop.rest, Loop.span] at hspan ⊢ <;> omega
    · exact ⟨_, hspan, .rung (hsignal l rfl) hy hseen⟩
  | perform => exact absurd hf (hstarts _ (fun _ => id) rfl)
  | proceed =>
    exact absurd hf (hstarts _ (fun f hf => by cases f <;> first | rfl | cases hf) rfl)
  | idle => exact absurd (List.append_eq_nil_iff.1 hf).2 hb
  | execute | finish => cases hl

/-- **And so has every place.** -/
theorem exists_place (hocc : ∀ l y, c = .blocked l y → y.occasion = l.occasion) :
    ∃ n, n ≤ 12 ∧ p.Place n above c := by
  rcases outside_or_lowest above with hout | ⟨top, body, out, rfl, hbody, hout⟩
  · obtain ⟨n, hn, h⟩ := exists_paced (p := p) hs hf hb hbusy hlone hout hocc
    exact ⟨n, hn, .outside hout h⟩
  · rw [List.append_assoc] at hs
    have hrest : Stacked (out ++ base) := (stacked_of_append hs).2
    exact ⟨_, way_le hrest hb hout, .handler hbody hout⟩

end Exists

end Process

end PosixSignals
