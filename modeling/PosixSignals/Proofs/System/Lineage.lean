import PosixSignals.Proofs.System.Affair
import PosixSignals.Proofs.System.Bookkeeping

/-!
# Lineage

Which tree a process belongs to is read off the history: going back from
its birth to that of its parent, and on to that of a process without one.
Numbers are handed out again, so a tree is told by when it was founded and
not only by the number of its root. What is not a birth leaves the lineage
of everybody as it is, and nobody ever changes his group; so the group of a
process is the number of the root of its tree, always.
-/

namespace PosixSignals

/-- The parent with which a process came into being under a number, if a record tells
of that. -/
def Record.born? (pid : Pid) (r : Record) : Option (Option Pid) :=
  match r.event with
  | .created q parent => if q = pid then some parent else none
  | _ => none

/-- The birth of a process without parent: its number, and how much was on record. -/
structure Founder where
  number : Pid
  moment : Nat
deriving DecidableEq

/-- **The founder of the tree to which a process belongs**: the root from which it
descends. -/
def founder? : List Record → Pid → Option Founder
  | [], _ => none
  | r :: earlier, pid =>
    match r.born? pid with
    | some none => some ⟨pid, earlier.length⟩
    | some (some parent) => founder? earlier parent
    | none => founder? earlier pid

/-- Whether the process that has this number was started as a root. -/
def rooted (pid : Pid) (history : List Record) : Bool :=
  history.findSome? (·.born? pid) == some none

/-- How often a number was handed out. -/
def births (pid : Pid) (history : List Record) : Nat := history.countP (·.creates pid)

def Event.isBirth : Event → Bool
  | .created .. => true
  | _ => false

variable {pid q g : Pid} {r : Record} {src : Source} {e : Event} {parent : Option Pid}
  {history new : List Record} {f : Founder}

/-- Only the record of a birth tells of one. -/
theorem born?_of_not_isBirth (h : r.event.isBirth = false) : r.born? pid = none := by
  obtain ⟨src, e⟩ := r
  cases e <;> first | rfl | simp [Event.isBirth] at h

/-- Only the record of a birth hands out a number. -/
theorem creates_of_not_isBirth (h : r.event.isBirth = false) : r.creates pid = false := by
  obtain ⟨src, e⟩ := r
  cases e <;> first | rfl | simp [Event.isBirth] at h

/-- The record of a birth tells of the one number that it hands out. -/
theorem born?_created :
    (⟨src, .created q parent⟩ : Record).born? pid = if q = pid then some parent else none := rfl

/-- A birth is no entry in the accounts of signals, and no dealing of a process. -/
theorem not_isBirth (h : e.isAccounted = false ∨ e.isDealing = true) : e.isBirth = false := by
  cases e <;> first | rfl | simp [Event.isAccounted, Event.isDealing] at h

/-! ## Records of no birth -/

section NoBirth

variable (h : ∀ r ∈ new, r.event.isBirth = false)
include h

/-- What is no birth leaves everybody's founder. -/
theorem founder?_append : founder? (new ++ history) pid = founder? history pid := by
  induction new with
  | nil => rfl
  | cons r new ih =>
    obtain ⟨hr, hnew⟩ := List.forall_mem_cons.1 h
    rw [List.cons_append, founder?, born?_of_not_isBirth hr]
    exact ih hnew

/-- What is no birth makes nobody a root. -/
theorem rooted_append : rooted pid (new ++ history) = rooted pid history := by
  have hnone : new.findSome? (·.born? pid) = none :=
    List.findSome?_eq_none_iff.2 fun r hr => born?_of_not_isBirth (h r hr)
  rw [rooted, List.findSome?_append, hnone]
  rfl

/-- What is no birth hands out no number. -/
theorem births_append : births pid (new ++ history) = births pid history := by
  have hnone : new.countP (·.creates pid) = 0 := List.countP_eq_zero.2 fun r hr => by
    simp [creates_of_not_isBirth (h r hr)]
  rw [births, List.countP_append, hnone, Nat.zero_add]
  rfl

end NoBirth

/-- A birth hands out one number, once more. -/
theorem births_created : births g (⟨src, .created pid parent⟩ :: history) =
    births g history + if pid = g then 1 else 0 := by
  simp [births, List.countP_cons, Record.creates]

/-- A founder was born before what is on record. -/
theorem moment_lt (h : founder? history pid = some f) : f.moment < history.length := by
  induction history generalizing pid with
  | nil => simp [founder?] at h
  | cons r earlier ih =>
    rw [founder?] at h
    have hstep : ∀ {q}, founder? earlier q = some f → f.moment < (r :: earlier).length :=
      fun hq => Nat.lt_succ_of_lt (ih hq)
    split at h
    · exact Option.some.inj h ▸ Nat.lt_succ_self _
    · exact hstep h
    · exact hstep h

namespace System

variable {s s' s'' : System} {actor : Option Pid} {p : Process} {k : Kin} {pids : IdPool}

/-! ## Ageing -/

/-- **Nobody comes into being, and nobody changes his group.** -/
structure Aged (s s' : System) : Prop where
  history : ∃ new, s'.history = new ++ s.history ∧ ∀ r ∈ new, r.event.isBirth = false
  known : ∀ pid k', s'.kin? pid = some k' → ∃ k, s.kin? pid = some k ∧ k.pgid = k'.pgid

/-- If nothing happens, everybody ages. -/
theorem Aged.refl (s : System) : Aged s s := ⟨⟨[], rfl, by simp⟩, fun _ k' h => ⟨k', h, rfl⟩⟩

/-- To age twice is to age. -/
theorem Aged.trans (h : Aged s s') (h' : Aged s' s'') : Aged s s'' where
  history := by
    obtain ⟨new, hs, hnew⟩ := h.history
    obtain ⟨new', hs', hnew'⟩ := h'.history
    refine ⟨new' ++ new, by rw [hs', hs, List.append_assoc], fun r hr => ?_⟩
    exact (List.mem_append.1 hr).elim (hnew' r) (hnew r)
  known pid k'' hk'' := by
    obtain ⟨k', hk', he'⟩ := h'.known pid k'' hk''
    obtain ⟨k, hk, he⟩ := h.known pid k' hk'
    exact ⟨k, hk, he.trans he'⟩

/-- A remark that is no birth changes nobody. -/
theorem aged_note (he : e.isBirth = false) : Aged s (s.note src e) :=
  ⟨⟨[⟨src, e⟩], rfl, by simpa using he⟩, fun _ k' h => ⟨k', h, rfl⟩⟩

/-- A change of one process ages it, if it keeps its group and notes no birth. -/
theorem aged_act {f : Process → Process × List Event}
    (hg : ∀ p, s.process? pid = some p → (f p).1.pgid = p.pgid)
    (he : ∀ p, s.process? pid = some p → ∀ e ∈ (f p).2, e.isBirth = false) :
    Aged s (s.act src pid f) := by
  cases hp : s.process? pid with
  | none =>
    rw [act_of_none hp]
    exact .refl s
  | some p =>
    refine ⟨⟨_, act_history hp, fun r hr => ?_⟩, fun q k' hk' => ?_⟩
    · obtain ⟨e, hmem, rfl⟩ := List.mem_map.1 (List.mem_reverse.1 hr)
      exact he p hp e hmem
    · rw [kin?_act] at hk'
      split at hk'
      · next hq =>
        rw [hp] at hk'
        obtain rfl := Option.some.inj hk'
        exact ⟨p.kin, hq ▸ kin?_of_process? hp, (hg p hp).symm⟩
      · exact ⟨k', hk', rfl⟩

/-- An update that keeps groups ages everybody. -/
theorem aged_update {f : Process → Process} (hg : ∀ p, (f p).pgid = p.pgid) :
    Aged s (s.update pid f) :=
  aged_act (fun p _ => hg p) fun _ _ _ he => by simp at he

/-- Whoever is forgotten takes nobody's group with it. -/
theorem aged_drop : Aged s (s.drop pid) where
  history := ⟨[], rfl, by simp⟩
  known q k' hk' := by
    obtain ⟨-, k, hk, rfl⟩ := kin?_drop_eq_some.1 hk'
    exact ⟨k, hk, by simp⟩

/-- A sweep only forgets, and takes nobody's group with it. -/
theorem aged_sweep (ho : s.Ordered) : Aged s s.sweep :=
  sweep_induct (motive := Aged s) ho (.refl s) fun _ _ _ _ h _ _ => h.trans aged_drop

/-- Every change that concerns no kin is ageing. -/
theorem aged_of_happens (h : Happens actor false false s s') : Aged s s' := by
  cases h with
  | remark hsrc he =>
    exact aged_note (by rename_i e; cases e <;> simp [Event.isRemark] at he <;> rfl)
  | deed hsrc hf =>
    refine aged_act (fun p hp => congrArg Kin.pgid (kin_of_deed (hf p hp))) fun p hp e he => ?_
    rcases books_of_deed (hf p hp) with ⟨info, hr⟩ | hoff
    · rcases Process.mem_generate (hr ▸ he) with ⟨h, -⟩ | ⟨outcome, rfl⟩
      · exact not_isBirth (.inl h)
      · rfl
    · exact not_isBirth (.inl (hoff.events e he).1)
  | root hk | child hk | forget hk => simp at hk
  | wait t => exact ⟨⟨[], rfl, by simp⟩, fun _ k' h => ⟨k', h, rfl⟩⟩

/-- **What leaves kin alone is ageing.** -/
theorem Evolves.aged (h : Evolves actor false false s s') : Aged s s' := by
  induction h with
  | refl => exact .refl s
  | tail _ h ih => exact ih.trans (aged_of_happens h)

/-- To be taken out of the table is no change of group. -/
theorem aged_unlist : Aged s (s.unlist pid) := aged_update fun _ => rfl

/-- To be taken off a list is no change of group. -/
theorem aged_disown {child : Pid} : Aged s (s.disown pid child) := aged_update fun _ => rfl

/-- To be orphaned is no change of group. -/
theorem aged_orphans (children : List Pid) : Aged s (children.foldl orphan s) := by
  induction children generalizing s with
  | nil => exact .refl s
  | cons c children ih =>
    have horphan : Aged s (s.orphan c) := aged_update fun _ => rfl
    exact horphan.trans ih

/-- Whoever is reaped keeps his group, and so do all others. -/
theorem aged_reap {child : Pid} : Aged s (s.reap src pid child) :=
  (aged_disown.trans aged_unlist).trans (aged_note rfl)

/-- The news of a death is a signal for the parent, and changes no group. -/
theorem aged_tell (parent : Option Pid) : Aged s (s.tell src pid parent) := by
  cases parent with
  | none => exact aged_unlist
  | some parent =>
    have hgenerate : Evolves src.pid false false s
        (s.act src parent (·.generate parent (.kernel .chld))) := evolves_generate rfl
    exact hgenerate.aged.trans (aged_update fun _ => rfl)

/-- **An end is ageing.** -/
theorem aged_lay : Aged s (s.lay src pid p) := by
  have hentomb : ∀ s : System, Aged s (s.entomb src pid) := fun s =>
    aged_act (fun _ _ => rfl) fun _ _ e he => List.mem_singleton.1 he ▸ rfl
  have htell : ∀ s : System, Aged s (s.tell src pid p.parent) := fun s => aged_tell p.parent
  rw [lay_eq]
  exact (aged_orphans p.children).trans ((hentomb _).trans ((htell _).trans
    (aged_update fun _ => rfl)))

/-! ## Births -/

/-- **Who comes into being**: a root founds a group of its own, a child joins the one of
its parent. -/
inductive Comes (s : System) (pid : Pid) (p : Process) : Prop
  | root (hparent : p.parent = none) (hg : p.pgid = pid)
  | child {parent : Pid} {k : Kin} (hparent : p.parent = some parent)
      (hk : s.kin? parent = some k) (hg : p.pgid = k.pgid)

/-- **At most one birth**, and ageing. -/
inductive Passes (s s' : System) : Prop
  | aged (h : Aged s s')
  | birth {src : Source} {pid : Pid} {pids : IdPool} {p : Process}
      (ha : s.pids.alloc = (some pid, pids)) (hc : s.Comes pid p)
      (h : Aged (s.bear src pid pids p) s')

/-- After a birth there is only ageing. -/
theorem Passes.trans (h : Passes s s') (h' : Aged s' s'') : Passes s s'' := by
  cases h with
  | aged h => exact .aged (h.trans h')
  | birth ha hc h => exact .birth ha hc (h.trans h')

/-- **The group of a process is the number of the root of its tree.** -/
def Lineal (s : System) : Prop :=
  ∀ pid k, s.kin? pid = some k → ∃ moment, founder? s.history pid = some ⟨k.pgid, moment⟩

/-- Nobody belongs to a group. -/
def Deserted (s : System) (g : Pid) : Prop := ∀ pid k, s.kin? pid = some k → k.pgid ≠ g

/-- **A group is one tree, led by its root.** -/
structure United (s : System) (g : Pid) : Prop where
  together : ∃ f, ∀ pid k, s.kin? pid = some k → k.pgid = g → founder? s.history pid = some f
  led : ∀ k, s.kin? g = some k → k.pgid = g → rooted g s.history = true

/-- Ageing keeps groups the numbers of roots. -/
theorem Aged.lineal (h : Aged s s') (hl : s.Lineal) : s'.Lineal := by
  obtain ⟨new, hs, hnew⟩ := h.history
  intro pid k' hk'
  obtain ⟨k, hk, he⟩ := h.known pid k' hk'
  rw [hs, founder?_append hnew, ← he]
  exact hl pid k hk

/-- Ageing keeps a group one tree. -/
theorem Aged.united (h : Aged s s') (hu : s.United g) : s'.United g := by
  obtain ⟨new, hs, hnew⟩ := h.history
  obtain ⟨f, hf⟩ := hu.together
  refine ⟨⟨f, fun pid k' hk' hg => ?_⟩, fun k' hk' hg => ?_⟩
  · obtain ⟨k, hk, he⟩ := h.known pid k' hk'
    rw [hs, founder?_append hnew]
    exact hf pid k hk (he.trans hg)
  · obtain ⟨k, hk, he⟩ := h.known g k' hk'
    rw [hs, rooted_append hnew]
    exact hu.led k hk (he.trans hg)

/-- Ageing hands out no number. -/
theorem Aged.births_eq (h : Aged s s') : births g s'.history = births g s.history := by
  obtain ⟨new, hs, hnew⟩ := h.history
  rw [hs, births_append hnew]

/-- A root is its own founder, and a child has the one of its parent. -/
theorem founder?_bear : founder? (s.bear src pid pids p).history q =
    if pid = q then p.parent.elim (some ⟨pid, s.history.length⟩) (founder? s.history)
    else founder? s.history q := by
  show founder? (⟨src, .created pid p.parent⟩ :: s.history) q = _
  rw [founder?, born?_created]
  by_cases hq : pid = q
  · subst hq
    cases p.parent <;> simp
  · simp [hq]

/-- **A birth keeps groups the numbers of roots**: a root founds the group of its own number, a
child joins the group and the tree of its parent. -/
theorem Lineal.bear (hl : s.Lineal) (hc : s.Comes pid p) : (s.bear src pid pids p).Lineal := by
  intro q k' hk'
  rw [founder?_bear]
  rcases kin?_bear_eq_some.1 hk' with ⟨rfl, rfl⟩ | ⟨hq, hk'⟩
  · rw [if_pos rfl]
    cases hc with
    | root hparent hg => exact ⟨_, by rw [hparent, show p.kin.pgid = q from hg]; rfl⟩
    | child hparent hk hg =>
      rw [hparent, show p.kin.pgid = _ from hg]
      exact hl _ _ hk
  · rw [if_neg (Ne.symm hq)]
    exact hl q k' hk'

/-- Whoever is born without a parent is a root. -/
theorem rooted_bear : rooted q (s.bear src pid pids p).history =
    if pid = q then p.parent.isNone else rooted q s.history := by
  show rooted q (⟨src, .created pid p.parent⟩ :: s.history) = _
  rw [rooted, List.findSome?_cons, born?_created]
  by_cases hq : pid = q
  · subst hq
    cases p.parent <;> simp
  · simp [hq, rooted]

/-- A birth hands out the number of the newborn. -/
theorem births_bear : births g (s.bear src pid pids p).history =
    births g s.history + if pid = g then 1 else 0 := births_created

/-- **A group stays one tree through a birth**, unless its number is handed out while it
has members. -/
theorem United.bear (hu : s.United g) (hc : s.Comes pid p) (hd : pid = g → s.Deserted g) :
    (s.bear src pid pids p).United g := by
  obtain ⟨f, hf⟩ := hu.together
  -- everybody but the newborn is who he was
  have hold : ∀ {q k'}, q ≠ pid → (s.bear src pid pids p).kin? q = some k' →
      s.kin? q = some k' := fun {q k'} hq hk' => by rwa [kin?_bear, if_neg hq] at hk'
  have hnew : ∀ {k'}, (s.bear src pid pids p).kin? pid = some k' → k'.pgid = p.pgid :=
    fun {k'} hk' => by
      rw [kin?_bear, if_pos rfl] at hk'
      exact congrArg Kin.pgid (Option.some.inj hk').symm
  refine ⟨?_, fun k' hk' hg => ?_⟩
  · cases hc with
    | root hparent hpg =>
      by_cases hpid : pid = g
      · -- the number is the root's own, and nobody else's
        refine ⟨⟨pid, s.history.length⟩, fun q k' hk' hg => ?_⟩
        by_cases hq : q = pid
        · rw [founder?_bear, if_pos hq.symm, hparent]
          rfl
        · exact absurd hg (hd hpid q k' (hold hq hk'))
      · refine ⟨f, fun q k' hk' hg => ?_⟩
        have hq : q ≠ pid := by
          rintro rfl
          exact hpid (hpg.symm.trans ((hnew hk').symm.trans hg))
        rw [founder?_bear, if_neg (Ne.symm hq)]
        exact hf q k' (hold hq hk') hg
    | @child parent k hparent hk hpg =>
      refine ⟨f, fun q k' hk' hg => ?_⟩
      rw [founder?_bear]
      split
      · next hq =>
        subst hq
        rw [hparent]
        exact hf parent k hk (hpg.symm.trans ((hnew hk').symm.trans hg))
      · next hq => exact hf q k' (hold (Ne.symm hq) hk') hg
  · rw [rooted_bear]
    split
    · next hpid =>
      subst hpid
      cases hc with
      | root hparent hpg => rw [hparent]; rfl
      | @child parent k hparent hk hpg =>
        exact absurd (hpg.symm.trans ((hnew hk').symm.trans hg)) (hd rfl parent k hk)
    · next hpid => exact hu.led k' (hold (Ne.symm hpid) hk') hg

/-- A group that nobody belongs to stays so, until its number is handed out. -/
theorem Deserted.bear (hd : s.Deserted g) (hc : s.Comes pid p) (hne : pid ≠ g) :
    (s.bear src pid pids p).Deserted g := by
  intro q k' hk'
  rcases kin?_bear_eq_some.1 hk' with ⟨-, rfl⟩ | ⟨-, hk'⟩
  · cases hc with
    | root hparent hg => exact fun he => hne (hg.symm.trans he)
    | child hparent hk hg => exact fun he => hd _ _ hk (hg.symm.trans he)
  · exact hd q k' hk'

/-! ## What passes -/

/-- **Groups stay the numbers of roots**, whatever passes. -/
theorem Passes.lineal (h : Passes s s') (hl : s.Lineal) : s'.Lineal := by
  cases h with
  | aged h => exact h.lineal hl
  | birth ha hc h => exact h.lineal (hl.bear hc)

/-- **A group stays one tree**, as long as its number is handed out to nobody while somebody is left
in it. -/
theorem Passes.united (h : Passes s s') (hu : s.United g)
    (hd : births g s'.history ≠ births g s.history → s.Deserted g) : s'.United g := by
  cases h with
  | aged h => exact h.united hu
  | birth ha hc h =>
    refine h.united (hu.bear hc fun he => hd ?_)
    rw [h.births_eq, births_bear, if_pos he]
    omega

end System

end PosixSignals
