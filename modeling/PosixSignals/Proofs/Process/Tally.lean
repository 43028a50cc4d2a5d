import PosixSignals.Proofs.Process.Interruption
import PosixSignals.Proofs.Signal.Walk

/-!
# Going through the deliverable signals

What a round of deliveries comes to, computed from the state at its beginning
by going once through the deliverable signals from the lowest up. A tally
holds what has come of the signals so far: which are still pending, the
dispositions, the runs of handlers, what was noted, whether anything was
delivered, and the status. A signal whose default action is fatal ends the
round, and the signals above it are left as they are.
-/

namespace PosixSignals

/-! ## Tallies -/

/-- **What has come of the signals that were gone through.** -/
structure Tally where
  pending : SignalSet
  infos : Vector (Option SignalInfo) 31
  dispositions : DispositionTable Installed
  runs : List (Nat × Nat)
  status : Status
  /-- Whether a handler ran or a stop was carried out. -/
  delivered : Bool
  /-- What the process has noted, the last first. -/
  noted : List Event

namespace Tally

variable {pid : Pid} {mask : SignalSet} {t : Tally} {sig : Signal} {rest : List Signal}
  {action : Action Installed}

/-- The signal is taken out. -/
def take (t : Tally) (sig : Signal) : Tally :=
  { t with
    pending := t.pending.erase sig
    infos := t.infos.set sig.index none sig.index_lt
    noted := .handling sig :: t.noted }

/-- **The signal's handler runs once**, with its signals blocked besides those of the mask, and
goes back to default if it is to. -/
def run (mask : SignalSet) (sig : Signal) (action : Action Installed) (t : Tally) : Tally :=
  let id := action.handler.id
  let count := (t.runs.lookup id).getD 0 + 1
  let run : HandlerRun := ⟨sig, action.handler.handler.tag, count⟩
  { t with
    dispositions :=
      if action.flags.resetHand then t.dispositions.reset sig else t.dispositions
    runs := (id, count) :: t.runs.filter (·.1 != id)
    delivered := true
    noted := .left run ::
      .entered run ((mask ∪ action.blockedDuring sig) \ .uncatchable) t.pending :: t.noted }

/-- **What comes of one signal**, by its disposition. -/
def serve (pid : Pid) (mask : SignalSet) (t : Tally) (sig : Signal) : Tally :=
  match t.dispositions.get sig with
  | .ignore => { t.take sig with noted := .ignored sig :: (t.take sig).noted }
  | .default =>
    match sig.defaultAction with
    | .ignore | .continue => t.take sig
    | .stop =>
      { t.take sig with delivered := true, noted := .stopped pid sig :: (t.take sig).noted }
    | .terminate | .coreDump =>
      { t.take sig with
        status := .exited (.ofSignal sig)
        noted := .exited pid (.ofSignal sig) :: (t.take sig).noted }
  | .handler action => (t.take sig).run mask sig action

/-- The next signal is served, unless one before it was fatal. -/
def next (pid : Pid) (mask : SignalSet) (t : Tally) (sig : Signal) : Tally :=
  if t.status.isExited then t else t.serve pid mask sig

/-- **Going through signals**, one after the other. -/
def through (pid : Pid) (mask : SignalSet) (t : Tally) (signals : List Signal) : Tally :=
  signals.foldl (next pid mask) t

/-- What a check point replies that comes to this tally. -/
def reply (t : Tally) : Reply :=
  if t.status.isExited then .error .mustExit else .ok (.delivered t.delivered)

theorem through_of_isExited (h : t.status.isExited = true) (signals : List Signal) :
    t.through pid mask signals = t := by
  induction signals with
  | nil => rfl
  | cons sig rest ih =>
    rw [through, List.foldl_cons, next, if_pos h]
    exact ih

theorem through_cons (h : t.status = .normal) :
    t.through pid mask (sig :: rest) = (t.serve pid mask sig).through pid mask rest := by
  have hlive : t.status.isExited = false := h ▸ rfl
  rw [through, List.foldl_cons, next, if_neg (by simp [hlive])]
  rfl

/-! ## Handlers that make no calls -/

/-- **The handlers of these signals make no calls** when they run next, so they come back at once
and without an error. -/
def Plain (t : Tally) (signals : List Signal) : Prop :=
  ∀ sig ∈ signals, ∀ action, t.dispositions.get sig = .handler action →
    action.handler.handler.bodyOf ((t.runs.lookup action.handler.id).getD 0 + 1) = []

/-- Whether they make none, by looking. -/
def isPlain (t : Tally) (signals : List Signal) : Bool :=
  signals.all fun sig =>
    match t.dispositions.get sig with
    | .handler action => (action.handler.handler.bodyOf
        ((t.runs.lookup action.handler.id).getD 0 + 1)).isEmpty
    | .default | .ignore => true

theorem plain_of_isPlain {signals : List Signal} (h : t.isPlain signals = true) :
    t.Plain signals := by
  intro sig hs action ha
  have hsig := List.all_eq_true.1 h sig hs
  simpa [ha] using hsig

/-- A handler makes calls the first few times it runs, and none later. -/
theorem bodyOf_eq_nil {h : Handler} {n k : Nat} (hn : h.bodyOf n = []) (hk : n ≤ k) :
    h.bodyOf k = [] := by
  unfold Handler.bodyOf at hn ⊢
  by_cases hle : k ≤ h.times
  · rw [if_pos (Nat.le_trans hk hle)] at hn
    rw [if_pos hle, hn]
  · rw [if_neg hle]

/-- The runs of other installations are still there. -/
theorem lookup_filter {runs : List (Nat × Nat)} {id other : Nat} (hne : other ≠ id) :
    (runs.filter (·.1 != id)).lookup other = runs.lookup other := by
  induction runs with
  | nil => rfl
  | cons r runs ih =>
    obtain ⟨i, k⟩ := r
    by_cases hi : i = id
    · have hother : (other == i) = false := beq_false_of_ne (hi ▸ hne)
      rw [List.filter_cons_of_neg (by simp [hi]), ih, List.lookup_cons, hother]
    · rw [List.filter_cons_of_pos (by simp [hi]), List.lookup_cons, List.lookup_cons, ih]

/-- Another run is counted for one installation. -/
theorem lookup_countRun {runs : List (Nat × Nat)} {id other n : Nat} :
    ((id, n) :: runs.filter (·.1 != id)).lookup other =
      if other = id then some n else runs.lookup other := by
  by_cases he : other = id
  · rw [he, if_pos rfl, List.lookup_cons_self]
  · rw [if_neg he, List.lookup_cons, beq_false_of_ne he]
    exact lookup_filter he

theorem get_reset (table : DispositionTable Installed) (sig other : Signal) :
    (table.reset sig).get other = if sig = other then .default else table.get other := by
  by_cases he : sig = other
  · subst he
    rw [if_pos rfl]
    exact table.get_put_self sig _
  · rw [if_neg he]
    exact table.get_put_of_ne _ he

/-- **What is plain stays plain**: serving a signal takes handlers away and counts runs. -/
theorem Plain.serve (h : t.Plain (sig :: rest)) : (t.serve pid mask sig).Plain rest := by
  have hrest : t.Plain rest := fun other ho => h other (List.mem_cons_of_mem sig ho)
  unfold Tally.serve
  cases hd : t.dispositions.get sig with
  | ignore => exact hrest
  | default =>
    dsimp only
    split <;> exact hrest
  | handler action =>
    intro other ho action' hget
    have hold : t.dispositions.get other = .handler action' := by
      simp only [run, take] at hget
      split at hget
      · rw [get_reset] at hget
        split at hget
        · cases hget
        · exact hget
      · exact hget
    refine bodyOf_eq_nil (hrest other ho action' hold) ?_
    simp only [run, take, lookup_countRun]
    split
    · next he => simp [he]
    · exact Nat.le_refl _

end Tally

end PosixSignals
