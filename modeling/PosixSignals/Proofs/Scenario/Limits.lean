import PosixSignals.Proofs.Scenario.LimitsKept

/-!
# Limits only shrink

Anybody can set the limits of anybody, by number, and a child starts with the
limits of its parent. But a hard limit is never raised and a soft limit stays
within it, so over all processes and all generations no hard limit is above
the one that a process without parent starts with. To ask for a limit reads
what is stored and replaces at most that one limit of that one process; a
request that is refused replaces nothing, and nothing else ever does.
-/

namespace PosixSignals

namespace Limits

variable {l l' : Limits} {r : Resource} {new : Option Limit} {old : Limit} {e : Errno}

/-- Every soft limit is within its hard limit. -/
def Ordered (l : Limits) : Prop := ∀ r, (l.get r).soft ≤ (l.get r).hard

/-- No hard limit is above the one of `l'`. -/
def Within (l l' : Limits) : Prop := ∀ r, (l.get r).hard ≤ (l'.get r).hard

theorem Within.trans {l'' : Limits} (h : l.Within l') (h' : l'.Within l'') : l.Within l'' :=
  fun r => Nat.le_trans (h r) (h' r)

theorem ordered_default : default.Ordered := by
  rintro ⟨i⟩
  revert i
  decide

/-- **Why a new limit is refused**: its soft limit is above its hard limit, or else its hard
limit is above the one that is stored. -/
inductive Refuses (l : Limits) (r : Resource) (new : Option Limit) : Errno → Prop
  | disordered {n : Limit} (hn : new = some n) (h : n.hard < n.soft) : Refuses l r new .inval
  | raised {n : Limit} (hn : new = some n) (h : n.soft ≤ n.hard) (hr : (l.get r).hard < n.hard) :
      Refuses l r new .perm

/-- **What it is to grant a request**: the new limit, if there is one, is in order and raises
nothing, and it alone takes the place of the one that was stored. -/
structure Grants (l : Limits) (r : Resource) (new : Option Limit) (l' : Limits) : Prop where
  ordered : ∀ n, new = some n → n.soft ≤ n.hard
  lowered : ∀ n, new = some n → n.hard ≤ (l.get r).hard
  stored : l'.get r = new.getD (l.get r)
  others : ∀ r', r' ≠ r → l'.get r' = l.get r'

/-- A request is refused, or it is granted and reads what was stored. -/
theorem change_cases (l : Limits) (r : Resource) (new : Option Limit) :
    (∃ e, l.change r new = .error e ∧ l.Refuses r new e) ∨
      ∃ l', l.change r new = .ok (l.get r, l') ∧ l.Grants r new l' := by
  cases new with
  | none => exact .inr ⟨l, rfl, by simp, by simp, rfl, fun _ _ => rfl⟩
  | some n =>
    simp only [change]
    split
    · next h => exact .inl ⟨_, rfl, .disordered rfl h⟩
    next hord =>
    split
    · next h => exact .inl ⟨_, rfl, .raised rfl (Nat.not_lt.1 hord) h⟩
    · next hle =>
      refine .inr ⟨_, rfl, ?_, ?_, get_set_self l r n, fun r' hr => get_set_of_ne l n (Ne.symm hr)⟩
      · rintro n ⟨⟩
        exact Nat.not_lt.1 hord
      · rintro n ⟨⟩
        exact Nat.not_lt.1 hle

/-- What is granted keeps limits in order. -/
theorem Grants.keeps_ordered (h : l.Grants r new l') (hl : l.Ordered) : l'.Ordered := by
  intro r'
  by_cases hr : r' = r
  · subst hr
    rw [h.stored]
    cases new with
    | none => exact hl r'
    | some n => exact h.ordered n rfl
  · rw [h.others r' hr]
    exact hl r'

/-- **What is granted raises no hard limit.** -/
theorem Grants.within (h : l.Grants r new l') : l'.Within l := by
  intro r'
  by_cases hr : r' = r
  · subst hr
    rw [h.stored]
    cases new with
    | none => exact Nat.le_refl _
    | some n => exact h.lowered n rfl
  · exact Nat.le_of_eq (by rw [h.others r' hr])

/-- Limits are what can be read of them. -/
theorem eq_of_get (h : ∀ r, l.get r = l'.get r) : l = l' := by
  obtain ⟨entries⟩ := l
  obtain ⟨entries'⟩ := l'
  congr 1
  exact Vector.ext fun i hi => h ⟨⟨i, hi⟩⟩

/-- To read changes nothing. -/
theorem Grants.eq_of_none (h : l.Grants r none l') : l' = l := by
  refine eq_of_get fun r' => ?_
  by_cases hr : r' = r
  · rw [hr]
    exact h.stored
  · exact h.others r' hr

end Limits

namespace System

variable {s s' s'' : System} {pid caller target : Pid} {number : Nat} {new : Option Limit}
  {p q : Process} {src : Source} {m : Move} {e : Errno}

/-! ## Requests -/

/-- **Whose limits a request is about**: the caller's for number `0`, and else those of
the process that the table has under the number. -/
def holder? (s : System) (caller target : Pid) : Option (Pid × Process) :=
  if target = 0 then (s.process? caller).map (caller, ·)
  else (s.listed? target).map (target, ·)

/-- **Why a request is refused**: there is no such resource, or no such process, or the new
limit is refused. -/
inductive Refuses (s : System) (caller target : Pid) (number : Nat) (new : Option Limit) :
    Errno → Prop
  | resource (h : Resource.ofNumber? number = none) : Refuses s caller target number new .inval
  | process {r : Resource} (hr : Resource.ofNumber? number = some r)
      (h : s.holder? caller target = none) : Refuses s caller target number new .srch
  | limit {r : Resource} {pid : Pid} {q : Process} {e : Errno}
      (hr : Resource.ofNumber? number = some r) (hq : s.holder? caller target = some (pid, q))
      (h : q.limits.Refuses r new e) : Refuses s caller target number new e

/-- The state is the same but for the processes and for records of limits being looked at. -/
structure Undisturbed (s s' : System) : Prop where
  pids : s'.pids = s.pids
  now : s'.now = s.now
  history : ∃ new, s'.history = new ++ s.history ∧
    ∀ rec ∈ new, ∃ r pid, rec.event = .limitAccessed r pid

/-- **What comes of a request.** -/
inductive Served (s : System) (caller target : Pid) (number : Nat) (new : Option Limit)
    (s' : System) : Prop
  /-- It is refused: the caller gets the error, and nothing else changes. -/
  | refused {e : Errno} (h : s.Refuses caller target number new e) (hs : Undisturbed s s')
      (hp : ∀ x, s'.process? x = (s.process? x).map fun p =>
        if x = caller then p.answer (.error e) else p)
  /-- It is granted: the caller gets what was stored, one limit of one process changes, and
  nothing else. -/
  | granted {r : Resource} {pid : Pid} {q : Process} {l : Limits}
      (hr : Resource.ofNumber? number = some r) (hq : s.holder? caller target = some (pid, q))
      (h : q.limits.Grants r new l) (hs : Undisturbed s s')
      (hp : ∀ x, s'.process? x = (s.process? x).map fun p =>
        let p := if x = pid then { p with limits := l } else p
        if x = caller then p.answer (.ok (.limit (q.limits.get r))) else p)

theorem Undisturbed.trans (h : Undisturbed s s') (h' : Undisturbed s' s'') :
    Undisturbed s s'' where
  pids := h'.pids.trans h.pids
  now := h'.now.trans h.now
  history := by
    obtain ⟨new, hs, hnew⟩ := h.history
    obtain ⟨new', hs', hnew'⟩ := h'.history
    refine ⟨new' ++ new, by rw [hs', hs, List.append_assoc], fun rec hrec => ?_⟩
    exact (List.mem_append.1 hrec).elim (hnew' rec) (hnew rec)

theorem undisturbed_update (g : Process → Process) : Undisturbed s (s.update pid g) :=
  ⟨act_pids, act_now, [], update_history, by simp⟩

/-- **A request is served** as it should be. -/
theorem served_prlimit :
    s.Served caller target number new (s.prlimit src caller target number new) := by
  unfold prlimit
  cases hr : Resource.ofNumber? number with
  | none => exact .refused (.resource hr) (undisturbed_update _) process?_update
  | some r =>
    dsimp only
    cases hq : s.holder? caller target with
    | none =>
      rw [holder?] at hq
      rw [hq]
      exact .refused (.process hr hq) (undisturbed_update _) process?_update
    | some holder =>
      obtain ⟨pid, q⟩ := holder
      have hq' := hq
      rw [holder?] at hq'
      rw [hq']
      dsimp only
      have hlook : Undisturbed s (s.note src (.limitAccessed r pid)) :=
        ⟨rfl, rfl, [_], rfl, by simp⟩
      rcases q.limits.change_cases r new with ⟨e, he, href⟩ | ⟨l, he, hgr⟩
      · rw [he]
        exact .refused (.limit hr hq href) (hlook.trans (undisturbed_update _)) process?_update
      · rw [he]
        refine .granted hr hq hgr
          ((hlook.trans (undisturbed_update _)).trans (undisturbed_update _)) fun x =>
          (process?_update x).trans ?_
        rw [process?_update, Option.map_map]
        rfl

/-- Who is about to ask is served by his next step. -/
theorem Requests.served (h : s.Requests caller target number new) :
    s.Served caller target number new (s.step caller) := by
  obtain ⟨p, t, hp, ht, hc⟩ := h
  rw [step_of_execute hp ht hc]
  exact served_prlimit

theorem process?_of_holder? (h : s.holder? caller target = some (pid, q)) :
    s.process? pid = some q := by
  unfold holder? at h
  split at h
  · obtain ⟨p, hp, he⟩ := Option.map_eq_some_iff.1 h
    cases he
    exact hp
  · obtain ⟨p, hp, he⟩ := Option.map_eq_some_iff.1 h
    cases he
    exact (listed?_eq_some.1 hp).1

/-- **What a request does to the limits of a process**: nothing, or it is granted and about
that process. -/
theorem Served.limits (h : s.Served caller target number new s') (hp : s.process? pid = some p)
    (hq : s'.process? pid = some q) : q.limits = p.limits ∨ ∃ r,
      Resource.ofNumber? number = some r ∧ s.holder? caller target = some (pid, p) ∧
        p.limits.Grants r new q.limits := by
  have hanswer : ∀ (u : Process) (r : Reply),
      (if pid = caller then u.answer r else u).limits = u.limits := by
    intro u r
    split <;> rfl
  cases h with
  | refused _ _ hs =>
    rw [hs, hp] at hq
    exact .inl (Option.some.inj hq ▸ hanswer p _)
  | @granted r pid' q' l hr hholder hgr _ hs =>
    rw [hs, hp] at hq
    obtain rfl := Option.some.inj hq
    by_cases hx : pid = pid'
    · subst hx
      obtain rfl := Option.some.inj (hp.symm.trans (process?_of_holder? hholder))
      refine .inr ⟨r, hr, hholder, ?_⟩
      simpa only [if_true, hanswer] using hgr
    · left
      simp only [hx, if_false, hanswer]

/-! ## Shrinking -/

/-- **What time does to the limits of a process**: no hard limit becomes higher, and what is
in order stays so. -/
def Shrinks (p q : Process) : Prop :=
  q.limits.Within p.limits ∧ (p.limits.Ordered → q.limits.Ordered)

theorem shrinks_of_eq (h : q.limits = p.limits) : Shrinks p q := by
  unfold Shrinks
  rw [h]
  exact ⟨fun _ => Nat.le_refl _, id⟩

theorem durable_shrinks : Durable fun _ => Shrinks where
  refl _ _ := shrinks_of_eq rfl
  trans _ _ _ _ h h' := ⟨h'.1.trans h.1, h'.2 ∘ h.2⟩
  unparent _ _ := shrinks_of_eq rfl

theorem Served.shrinks (h : s.Served caller target number new s') :
    Continues (fun _ => Shrinks) s s' := by
  have hs : Undisturbed s s' := by cases h <;> assumption
  obtain ⟨records, hhistory, -⟩ := hs.history
  refine ⟨⟨records, hhistory⟩, fun pid q hq _ => ?_⟩
  have hknown : ∃ p, s.process? pid = some p := by
    cases h with
    | refused _ _ hp | granted _ _ _ _ hp =>
      obtain ⟨p, hp, -⟩ := Option.map_eq_some_iff.1 ((hp pid).symm.trans hq)
      exact ⟨p, hp⟩
  obtain ⟨p, hp⟩ := hknown
  refine ⟨p, hp, ?_⟩
  rcases h.limits hp hq with he | ⟨r, -, -, hgr⟩
  · exact shrinks_of_eq he
  · exact ⟨hgr.within, hgr.keeps_ordered⟩

/-- **By no move does a hard limit become higher.** -/
theorem shrinks_move (hs : s.Sound) (m : Move) : Continues (fun _ => Shrinks) s (s.move m) := by
  rcases keepsLimits_move hs m with h | ⟨caller, target, number, new, rfl, hr⟩
  · exact h.mono fun _ _ _ => shrinks_of_eq
  · exact hr.served.shrinks

/-- **The limits of every process are in order**, and nowhere above those that a process without
parent starts with, whoever it descends from. -/
theorem Reachable.bounded (h : Reachable s) (hp : s.process? pid = some p) :
    p.limits.Ordered ∧ p.limits.Within .default := by
  induction h generalizing pid p with
  | initial => simp [System.initial, process?, Registry.get?] at hp
  | @move s hs m ih =>
    cases hold : s.process? pid with
    | some p₀ =>
      obtain ⟨hord, hwithin⟩ := ih hold
      have hshrinks := (shrinks_move hs.sound m).move hs.sound hold hp
      exact ⟨hshrinks.2 hord, hshrinks.1.trans hwithin⟩
    | none =>
      cases newcomer_of_move hs.sound hold hp with
      | root => exact ⟨Limits.ordered_default, fun _ => Nat.le_refl _⟩
      | @child parent p₀ hparent =>
        have hinherited : p₀.limits.Ordered ∧ p₀.limits.Within .default := ih hparent
        exact hinherited

/-- **Limits only shrink**, from a state on. -/
structure LimitsShrink (s : System) : Prop where
  /-- Soft limits are within hard limits, and these within the default. -/
  bounded : ∀ pid p, s.process? pid = some p → p.limits.Ordered ∧ p.limits.Within .default
  /-- As long as a number is not handed out again, no hard limit of its process becomes
  higher. -/
  shrinks : ∀ moves pid p q, s.process? pid = some p → (s.run moves).process? pid = some q →
    births pid (s.run moves).history = births pid s.history → q.limits.Within p.limits
  /-- Whoever comes into being has the default limits and no parent, or the limits that its
  parent has at that moment. -/
  inherits : ∀ m pid q, s.process? pid = none → (s.move m).process? pid = some q →
    (q.parent = none ∧ q.limits = .default) ∨
      ∃ parent p, q.parent = some parent ∧ s.process? parent = some p ∧ q.limits = p.limits
  /-- A request is refused and changes nothing, or it answers what was stored and changes that
  limit of that process. -/
  served : ∀ caller target number new, s.Requests caller target number new →
    s.Served caller target number new (s.move (.process caller))
  /-- Nothing else changes the limits of anybody. -/
  unseen : ∀ m pid p q, s.process? pid = some p → (s.move m).process? pid = some q →
    q.limits ≠ p.limits → ∃ caller target number n r, m = .process caller ∧
      s.Requests caller target number (some n) ∧ Resource.ofNumber? number = some r ∧
        s.holder? caller target = some (pid, p) ∧ p.limits.Grants r (some n) q.limits

/-- Whose limits a move changes had a new limit set, by a request that was granted. -/
theorem granted_of_ne (hs : s.Sound) (hp : s.process? pid = some p)
    (hq : (s.move m).process? pid = some q) (hne : q.limits ≠ p.limits) :
    ∃ caller target number n r, m = .process caller ∧
      s.Requests caller target number (some n) ∧ Resource.ofNumber? number = some r ∧
        s.holder? caller target = some (pid, p) ∧ p.limits.Grants r (some n) q.limits := by
  rcases keepsLimits_move hs m with h | ⟨caller, target, number, new, rfl, hreq⟩
  · exact absurd (h.move hs hp hq) hne
  rcases hreq.served.limits hp hq with he | ⟨r, hr, hholder, hgr⟩
  · exact absurd he hne
  cases new with
  | none => exact absurd hgr.eq_of_none hne
  | some n => exact ⟨caller, target, number, n, r, rfl, hreq, hr, hholder, hgr⟩

/-- **No run ever raises a limit**: of no process, whoever sets it and whoever is born. -/
theorem limits_shrink (moves : List Move) : (initial.run moves).LimitsShrink := by
  have hs : Reachable (initial.run moves) := Reachable.initial.run moves
  refine ⟨fun pid p => hs.bounded, fun later pid p q hp hq hb => ?_, fun m pid q hnone hq => ?_,
    fun _ _ _ _ h => h.served, fun m pid p q => granted_of_ne hs.sound⟩
  · have hrun : Continues (fun _ => Shrinks) (initial.run moves) ((initial.run moves).run later) :=
      continues_run durable_shrinks hs fun s m hs _ => shrinks_move hs.sound m
    obtain ⟨p', hp', hshrinks⟩ := hrun.same pid q hq hb
    obtain rfl := Option.some.inj (hp.symm.trans hp')
    exact hshrinks.1
  · cases newcomer_of_move hs.sound hnone hq with
    | root => exact .inl ⟨rfl, rfl⟩
    | child hparent => exact .inr ⟨_, _, rfl, hparent, rfl⟩

/-- A root forks a child and lowers its limit on open files. -/
def lowering : List Move :=
  [Move.host (.root "parent"), .host (.command 1 (.perform { request := .system .fork }))] ++
  List.replicate 6 (Move.process 1) ++
  [Move.host (.command 1 (.perform { request := .system (.prlimit 2 7 (some ⟨16, 64⟩)) }))] ++
  List.replicate 6 (Move.process 1)

-- the child has the new limit, and the parent what it had
example : ((initial.run lowering).process? 2).map (·.limits.get .noFile) = some ⟨16, 64⟩ ∧
    ((initial.run lowering).process? 1).map (·.limits.get .noFile) = some ⟨1024, 4096⟩ := by
  constructor <;> cbv

end System

end PosixSignals
