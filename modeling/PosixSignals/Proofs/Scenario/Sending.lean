import Mathlib.Data.List.Basic
import PosixSignals.Proofs.Process.Removal
import PosixSignals.Proofs.Scenario.Entries
import PosixSignals.Proofs.Scenario.Groups

/-!
# Sending a signal

A process sends a signal by number to whom another number means: one process,
its own group, its group but for the founder, or another group. The signal's
number is checked first, then whether there is anybody. After that the signal
is generated against one target after the other, and each generation changes
its target alone. So it does not matter in which order they come, or that the
sender may be one of them and be stopped or ended in the middle: every target
undergoes what it would have undergone on its own.
-/

namespace PosixSignals

namespace System

variable {s s' : System} {pid q c : Pid} {p r : Process} {t : Task} {n : Int} {src : Source}
  {info : SignalInfo} {sig : Signal} {targets : List Pid} {recipient : Recipient} {number : Nat}

/-! ## The targets of a number -/

/-- **Whom a number means to a caller.** -/
inductive Targets (s : System) (p : Process) : Int → Pid → Prop
  /-- A positive number means the process of that entry, be it a zombie. -/
  | process {q : Pid} {r : Process} (hq : 0 < q) (hr : s.listed? q = some r) : Targets s p q q
  /-- Zero means the caller's group. -/
  | group {q : Pid} {r : Process} (hr : s.listed? q = some r) (hz : r.status.isZombie = false)
      (hg : r.pgid = p.pgid) : Targets s p 0 q
  /-- Minus one means that group as well, without whoever has its number. -/
  | followers {q : Pid} {r : Process} (hr : s.listed? q = some r)
      (hz : r.status.isZombie = false) (hg : r.pgid = p.pgid) (hne : q ≠ r.pgid) :
      Targets s p (-1) q
  /-- Any other negative number means the group of its absolute value. -/
  | groupOf {n : Int} {q : Pid} {r : Process} (hn : n < -1) (hr : s.listed? q = some r)
      (hz : r.status.isZombie = false) (hg : (r.pgid : Int) = -n) : Targets s p n q

theorem mem_addressed (ho : s.Ordered) : q ∈ s.addressed p n ↔ s.Targets p n q := by
  constructor
  · intro h
    unfold addressed at h
    split at h
    · next hn =>
      split at h
      · next hr =>
        obtain rfl := List.mem_singleton.1 h
        obtain ⟨r, hr⟩ := Option.isSome_iff_exists.1 hr
        have hcast : ((n.toNat : Nat) : Int) = n := Int.toNat_of_nonneg (Int.le_of_lt hn)
        exact hcast ▸ Targets.process (Int.lt_toNat.2 hn) hr
      · simp at h
    split at h
    · next h0 =>
      obtain ⟨r, hr, hg, hz⟩ := (mem_group ho).1 h
      exact h0 ▸ .group hr hz hg
    split at h
    · next h1 =>
      obtain ⟨h, hne⟩ := List.mem_filter.1 h
      obtain ⟨r, hr, hg, hz⟩ := (mem_group ho).1 h
      exact h1 ▸ .followers hr hz hg (hg ▸ by simpa using hne)
    · obtain ⟨r, hr, hg, hz⟩ := (mem_group ho).1 h
      exact .groupOf (by omega) hr hz (by rw [hg]; exact Int.ofNat_natAbs_of_nonpos (by omega))
  · intro h
    cases h with
    | process hq hr => simp [addressed, hq, hr]
    | group hr hz hg => simpa [addressed] using (mem_group ho).2 ⟨_, hr, hg, hz⟩
    | followers hr hz hg hne =>
      simpa [addressed, ← hg, hne] using (mem_group ho).2 ⟨_, hr, rfl, hz⟩
    | groupOf hn hr hz hg =>
      rw [addressed, if_neg (by omega), if_neg (by omega), if_neg (by omega)]
      exact (mem_group ho).2 ⟨_, hr, Int.ofNat_inj.1 (by rw [hg]; omega), hz⟩

theorem nodup_group (ho : s.Ordered) (g : Pid) : (s.group g).Nodup := by
  have hentries : (s.processes.entries.map (·.1)).Nodup :=
    (List.pairwise_map.2 ho.ascending).imp Nat.ne_of_lt
  exact hentries.sublist ((List.filter_sublist.trans List.filter_sublist).map _)

/-- Nobody is addressed twice. -/
theorem nodup_addressed (ho : s.Ordered) : (s.addressed p n).Nodup := by
  unfold addressed
  split
  · split <;> simp
  split
  · exact nodup_group ho _
  split
  · exact (nodup_group ho _).sublist List.filter_sublist
  · exact nodup_group ho _

/-! ## One generation -/

theorem generate_of_isExited (h : r.status.isExited = true) :
    r.generate q info = (r, [.dropped info.signal q]) := by
  rw [Process.generate, if_pos h]

theorem countP_offBooks {f : Process × List Event} (h : r.OffBooks f) :
    (f.2.map fun e => (⟨src, e⟩ : Record)).countP (isGenerationOf q sig) = 0 := by
  refine List.countP_eq_zero.2 fun record hrecord => ?_
  obtain ⟨e, he, rfl⟩ := List.mem_map.1 hrecord
  have hoff := (h.events e he).1
  cases e <;> simp [Event.isAccounted, isGenerationOf] at hoff ⊢

theorem countP_acceptance {f : Process × List Event} (h : r.Acceptance c info f) :
    (f.2.map fun e => (⟨src, e⟩ : Record)).countP (isGenerationOf q info.signal) =
      if c = q then 1 else 0 := by
  cases h with
  | noted => simp [isGenerationOf]
  | acted =>
    rw [List.map_cons, List.countP_cons, countP_offBooks (Process.shift_act _ _).offBooks]
    simp [isGenerationOf]

/-- **A generation against a live process notes itself once.** -/
theorem countP_generate (h : r.status.isExited = false) :
    ((r.generate c info).2.map fun e => (⟨src, e⟩ : Record)).countP
      (isGenerationOf q info.signal) = if c = q then 1 else 0 := by
  have hg := r.generation c info
  generalize r.generate c info = f at hg
  cases hg with
  | dropped hex => simp [h] at hex
  | lifted _ _ ha =>
    rw [List.map_cons, List.countP_cons, countP_acceptance ha]
    simp [isGenerationOf]
  | accepted _ _ ha =>
    dsimp only
    exact countP_acceptance ha

theorem generations_act (hr : s.process? c = some r) (h : r.status.isExited = false) :
    (s.act src c (·.generate c info)).generations q info.signal =
      s.generations q info.signal + if c = q then 1 else 0 := by
  rw [generations, act_history hr, List.countP_append, List.countP_reverse, countP_generate h,
    Nat.add_comm]
  rfl

/-- Against a process that has ended a signal does nothing. -/
theorem generations_act_of_isExited (h : ∀ r, s.process? c = some r → r.status.isExited = true) :
    (s.act src c (·.generate c info)).process? c = s.process? c ∧
      (s.act src c (·.generate c info)).generations q info.signal =
        s.generations q info.signal := by
  cases hr : s.process? c with
  | none => rw [act_of_none hr]; exact ⟨hr, rfl⟩
  | some r =>
    have hgen : r.generate c info = (r, [.dropped info.signal c]) := generate_of_isExited (h r hr)
    refine ⟨by rw [process?_act_self hr, hgen], ?_⟩
    rw [generations, act_history hr, hgen]
    simp [generations, isGenerationOf]

/-! ## One generation after the other -/

/-- What a generation against a process notes. -/
def heard (s : System) (info : SignalInfo) (q : Pid) : List Event :=
  (s.process? q).elim [] fun r => (r.generate q info).2

/-- **A signal was generated once against every target**, as each of them stood, and nothing else
was done. -/
structure Sent (s s' : System) (src : Source) (info : SignalInfo) (target : Pid → Prop) :
    Prop where
  reached : ∀ q r, target q → s.process? q = some r → r.status.isExited = false →
    s'.process? q = some (r.generate q info).1 ∧
      s'.generations q info.signal = s.generations q info.signal + 1
  spared : ∀ q, (target q → ∀ r, s.process? q = some r → r.status.isExited = true) →
    s'.process? q = s.process? q ∧ s'.generations q info.signal = s.generations q info.signal
  pids : s'.pids = s.pids
  now : s'.now = s.now
  noted : ∃ targets : List Pid, targets.Nodup ∧ (∀ q, q ∈ targets ↔ target q) ∧
    s'.history =
      ((targets.flatMap (s.heard info)).map fun e => (⟨src, e⟩ : Record)).reverse ++ s.history

/-- **Sending goes target by target**, and none of them depends on those before it. -/
theorem sent_sendAll (h : targets.Nodup) :
    s.Sent (s.sendAll src info targets) src info (· ∈ targets) := by
  unfold sendAll
  induction targets generalizing s with
  | nil =>
    exact ⟨by simp, fun _ _ => ⟨rfl, rfl⟩, rfl, rfl, [], .nil, fun _ => Iff.rfl, rfl⟩
  | cons c targets ih =>
    obtain ⟨hc, hnodup⟩ := List.nodup_cons.1 h
    have hrest := ih (s := s.act src c (·.generate c info)) hnodup
    have hother : ∀ {q}, q ≠ c → (s.act src c (·.generate c info)).process? q = s.process? q :=
      fun hne => by rw [process?_act, if_neg hne]
    have hcount : ∀ {q}, q ≠ c → (s.act src c (·.generate c info)).generations q info.signal =
        s.generations q info.signal := fun {q} hne => by
      cases hr : s.process? c with
      | none => rw [act_of_none hr]
      | some r =>
        cases he : r.status.isExited with
        | false => rw [generations_act hr he, if_neg (Ne.symm hne), Nat.add_zero]
        | true =>
          exact (generations_act_of_isExited fun r' hr' => by
            rw [Option.some.inj (hr'.symm.trans hr), he]).2
    rw [List.foldl_cons]
    refine ⟨fun q r hq hr hl => ?_, fun q hq => ?_, ?_, ?_, ?_⟩
    · by_cases hqc : q = c
      · -- those after it leave the first target alone
        subst hqc
        obtain ⟨hp, hg⟩ := hrest.spared q fun hmem => absurd hmem hc
        rw [hp, hg, generations_act hr hl, if_pos rfl]
        exact ⟨process?_act_self hr, rfl⟩
      · have hmem : q ∈ targets := (List.mem_cons.1 hq).resolve_left hqc
        rw [← hcount hqc]
        exact hrest.reached q r hmem ((hother hqc).trans hr) hl
    · by_cases hqc : q = c
      · subst hqc
        obtain ⟨hp, hg⟩ := hrest.spared q fun hmem => absurd hmem hc
        rw [hp, hg]
        exact generations_act_of_isExited (hq List.mem_cons_self)
      · rw [← hcount hqc, ← hother hqc]
        exact hrest.spared q fun hmem r hr =>
          hq (List.mem_cons_of_mem c hmem) r ((hother hqc).symm.trans hr)
    · rw [hrest.pids, act_pids]
    · rw [hrest.now, act_now]
    · obtain ⟨order, horder, hmem, hhistory⟩ := hrest.noted
      have hlater : ∀ q ∈ order, q ≠ c := fun q hq he => hc (he ▸ (hmem q).1 hq)
      have hheard : order.flatMap ((s.act src c (·.generate c info)).heard info) =
          order.flatMap (s.heard info) :=
        List.flatMap_congr fun q hq => by rw [heard, hother (hlater q hq), heard]
      have hfirst : (s.act src c (·.generate c info)).history =
          ((s.heard info c).map fun e => (⟨src, e⟩ : Record)).reverse ++ s.history := by
        cases hr : s.process? c with
        | none => rw [act_of_none hr, heard, hr]; rfl
        | some r => rw [act_history hr, heard, hr]; rfl
      refine ⟨c :: order, List.nodup_cons.2 ⟨fun hco => hlater c hco rfl, horder⟩,
        fun q => by rw [List.mem_cons, List.mem_cons, hmem], ?_⟩
      rw [hhistory, hheard, hfirst, List.flatMap_cons, List.map_append, List.reverse_append,
        List.append_assoc]

/-! ## The call -/

theorem Sent.congr {target target' : Pid → Prop} (h : s.Sent s' src info target)
    (ht : ∀ q, target q ↔ target' q) : s.Sent s' src info target' := by
  obtain rfl : target = target' := funext fun q => propext (ht q)
  exact h

theorem answer_of_some (hp : s.process? pid = some p) (result : Reply) :
    (s.answer pid result).process? pid = some (p.answer result) :=
  process?_act_self hp

/-- A process that has its reply goes on alone. -/
theorem process?_step_answer {result : Reply} (hne : q ≠ pid) :
    ((s.answer pid result).step pid).process? q = (s.answer pid result).process? q := by
  cases hp : s.process? pid with
  | none =>
    have hgone : (s.answer pid result).process? pid = none := by
      rw [answer, update, act_of_none hp, hp]
    rw [step_of_none hgone]
  | some p =>
    have hp' := answer_of_some hp result
    cases ht : p.task with
    | none => rw [step_of_task_eq_none hp' (by simp [Process.answer, Process.goto, ht])]
    | some t =>
      have ht' : (p.answer result).task = some { t with control := .reply result } := by
        simp [Process.answer, Process.goto, ht]
      rw [step_of_not_isShared hp' ht' rfl, process?_act, if_neg hne]

section Kill

variable (hp : s.process? pid = some p) (ht : p.task = some t)
  (hc : t.control = .execute (.kill recipient number))
include hp ht hc

theorem step_of_kill : s.step pid = s.kill ⟨some pid, t.openCalls⟩ pid p recipient number :=
  step_of_execute hp ht hc

/-- **The call reaches exactly its targets.** The number of the signal is checked before anybody
is looked for, and the call fails if nobody is meant. Signal `0` does no more. Any other
signal is generated once, with the caller as its sender, against every target that has
not ended, whatever that does to the caller, and everybody else stays as they are. With that
the body of the call is over: the step to its check point changes nobody but the caller. -/
theorem kill_reaches (h : Reachable s) :
    let n := recipientNumber pid p recipient
    let src : Source := ⟨some pid, t.openCalls⟩
    (31 < number → s.step pid = s.answer pid (.error .inval)) ∧
    (number ≤ 31 → (∀ q, ¬ s.Targets p n q) → s.step pid = s.answer pid (.error .srch)) ∧
    ((∃ q, s.Targets p n q) →
      (number = 0 → s.step pid = s.answer pid (.ok .done)) ∧
      ∀ sig : Signal, number = sig.number →
        ∃ s', s.step pid = s'.answer pid (.ok .done) ∧
          s.Sent s' src (.user sig pid) (s.Targets p n)) ∧
    ∀ q, q ≠ pid → ((s.step pid).step pid).process? q = (s.step pid).process? q := by
  have ho : s.Ordered := h.sound.ordered
  have hempty : ∀ n, (s.addressed p n).isEmpty = true ↔ ∀ q, ¬ s.Targets p n q := fun n => by
    rw [List.isEmpty_iff, List.eq_nil_iff_forall_not_mem]
    exact forall_congr' fun q => not_congr (mem_addressed ho)
  intro n src
  rw [step_of_kill hp ht hc]
  unfold kill
  refine ⟨fun hlarge => ?_, fun hle hnone => ?_,
    fun ⟨q₀, hq₀⟩ => ⟨fun hzero => ?_, fun sig hsig => ?_⟩, fun q hne => ?_⟩
  · rw [if_neg (by omega), Signal.ofNumber?_eq_none_iff.2 (.inr hlarge)]
  · rw [if_pos ((hempty n).2 hnone)]
    split
    · rfl
    · next hne =>
      cases hsig : Signal.ofNumber? number with
      | none => exact absurd (Signal.ofNumber?_eq_none_iff.1 hsig) (by omega)
      | some sig => exact if_pos ((hempty n).2 hnone)
  · rw [if_pos hzero, if_neg fun he => (hempty n).1 he q₀ hq₀]
  · have hne : number ≠ 0 := by rw [hsig]; exact Nat.succ_ne_zero _
    rw [if_neg hne, hsig, Signal.ofNumber?_number]
    dsimp only
    rw [if_neg fun he => (hempty n).1 he q₀ hq₀]
    exact ⟨_, rfl, (sent_sendAll (nodup_addressed ho)).congr fun q => mem_addressed ho⟩
  · split
    · split <;> exact process?_step_answer hne
    split
    · exact process?_step_answer hne
    dsimp only
    split <;> exact process?_step_answer hne

end Kill

/-- The root that has forked a child, with a neighbour beside it, is about to send `term` to its
own group. -/
def shouting : List Move :=
  neighbouring ++
    [Move.host (.command 1 (.perform { request := .system (.kill (.number 0) 15) })), .process 1]

/-- Parent and child are of one group, and the neighbour is not. -/
theorem shouting_state :
    let s := initial.run shouting
    s.context? 1 =
        some ⟨[.callBody (.kill (.number 0) 15), .main false], .execute (.kill (.number 0) 15), ∅⟩ ∧
      (s.listed? 1).map (fun q => (q.pgid, q.status.isZombie)) = some (1, false) ∧
      (s.listed? 2).map (fun q => (q.pgid, q.status.isZombie)) = some (1, false) ∧
      (s.listed? 3).map (·.pgid) = some 3 :=
  ⟨by cbv, by cbv, by cbv, by cbv⟩

/-- **The child gets the signal of its parent**, which is itself the first target and does not
survive it. The neighbour is spared. -/
theorem kill_reaches_of_shouting :
    let s := initial.run shouting
    Reachable s ∧ ∃ p t, s.process? 1 = some p ∧ p.task = some t ∧
      t.control = .execute (.kill (.number 0) 15) ∧
      ∃ s', s.step 1 = s'.answer 1 (.ok .done) ∧
        s.Sent s' ⟨some 1, t.openCalls⟩ (.user .term 1) (s.Targets p 0) ∧
        s.Targets p 0 1 ∧ s.Targets p 0 2 ∧ ¬ s.Targets p 0 3 := by
  intro s
  have h : Reachable s := Reachable.initial.run shouting
  obtain ⟨hcontext, hone, htwo, hthree⟩ := shouting_state
  obtain ⟨p, hp, hx⟩ := context?_eq_some.1 hcontext
  obtain ⟨root, ht, -⟩ := Process.context?_eq_some.1 hx
  obtain ⟨p', hp', hone⟩ := Option.map_eq_some_iff.1 hone
  obtain ⟨q, hq, htwo⟩ := Option.map_eq_some_iff.1 htwo
  obtain ⟨hone, hpz⟩ := Prod.mk.inj hone
  obtain ⟨htwo, hqz⟩ := Prod.mk.inj htwo
  obtain rfl : p = p' := Option.some.inj (hp.symm.trans (Option.filter_eq_some_iff.1 hp').1)
  have hfirst : s.Targets p 0 1 := .group hp' hpz rfl
  obtain ⟨s', hs', hsent⟩ := ((kill_reaches hp ht rfl h).2.2.1 ⟨1, hfirst⟩).2 .term rfl
  refine ⟨h, p, _, hp, ht, rfl, s', hs', hsent, hfirst, .group hq hqz (htwo.trans hone.symm),
    fun hspared => ?_⟩
  cases hspared with
  | group hr hz hg =>
    rw [hr, Option.map_some, hg, hone] at hthree
    simp at hthree
  | groupOf hn => simp at hn

end System

end PosixSignals
