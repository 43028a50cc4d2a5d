import PosixSignals.Proofs.System.Lineage

/-!
# The chronicle

The history tells the status of every process at every moment: each change of
a status is on record, and reading the records up to some point gives the
status at that point. Two things are kept by every change of the system. The
status on record is the one that the process has, and no record is out of
place: only a normal process is stopped, only a stopped one continued, and an
end is marked only once. So what is on record about a process that has ended
can change no more, unless its number is handed out again.
-/

namespace PosixSignals

/-- Whether an event is a change of status. -/
def Event.isChange : Event → Bool
  | .stopped .. | .continued _ | .exited .. | .becameZombie _ => true
  | _ => false

/-- What an event makes of the status of a process. -/
def Event.changed (pid : Pid) (status : Option Status) : Event → Option Status
  | .created q _ => if q = pid then some .normal else status
  | .stopped q sig => if q = pid then some (.stopped sig) else status
  | .continued q => if q = pid then some .normal else status
  | .exited q w => if q = pid then some (.exited w) else status
  | .becameZombie q => if q = pid then status.map .toZombie else status
  | _ => status

/-- **The status on record** of the process that last had this number. -/
def recorded? (pid : Pid) : List Record → Option Status
  | [] => none
  | r :: earlier => r.event.changed pid (recorded? pid earlier)

/-- Whether an event can happen while the processes have these statuses. -/
def Event.Befits (status : Pid → Option Status) : Event → Prop
  | .stopped pid _ => status pid = some .normal
  | .continued pid => ∃ sig, status pid = some (.stopped sig)
  | .exited pid _ => ∃ st, status pid = some st ∧ st.isExited = false
  | .becameZombie pid => ∃ st, status pid = some st
  | _ => True

/-- **Every record is in its place.** -/
def Lawful : List Record → Prop
  | [] => True
  | r :: earlier => r.event.Befits (recorded? · earlier) ∧ Lawful earlier

variable {pid q : Pid} {st st' : Status} {e : Event} {events : List Event} {src : Source}
  {r : Record} {new later earlier history : List Record}

/-- What changes no status leaves the one on record. -/
theorem changed_of_not_isChange (he : e.isChange = false) (hb : e.isBirth = false)
    (status : Option Status) : e.changed pid status = status := by
  cases e <;> first | rfl | simp [Event.isChange, Event.isBirth] at he hb

/-- What changes no status befits whatever is on record. -/
theorem befits_of_not_isChange (he : e.isChange = false) (status : Pid → Option Status) :
    e.Befits status := by
  cases e <;> trivial

/-- Every record of a lawful history befitted what was on record before it. -/
theorem Lawful.befits (h : Lawful (later ++ r :: earlier)) :
    r.event.Befits (recorded? · earlier) := by
  induction later with
  | nil => exact h.1
  | cons r' later ih => exact ih h.2

/-! ## The end is final -/

/-- What comes of a status that is the last: it stays, or it becomes that of a zombie. -/
theorem changed_of_isExited {status : Pid → Option Status} (hst : st.isExited = true)
    (hb : e.Befits status) (hs : status pid = some st)
    (hc : (⟨src, e⟩ : Record).creates pid = false) :
    e.changed pid (some st) = some st ∨ e.changed pid (some st) = some (.zombie st.waitStatus) := by
  cases e with
  | created q parent => exact .inl (if_neg (by simpa [Record.creates] using hc))
  | stopped q sig =>
    refine .inl (if_neg ?_)
    rintro rfl
    obtain rfl := Option.some.inj (hs.symm.trans hb)
    simp [Status.isExited] at hst
  | continued q =>
    refine .inl (if_neg ?_)
    rintro rfl
    obtain ⟨sig, hb⟩ := hb
    obtain rfl := Option.some.inj (hs.symm.trans hb)
    simp [Status.isExited] at hst
  | exited q w =>
    refine .inl (if_neg ?_)
    rintro rfl
    obtain ⟨st', hb, hne⟩ := hb
    obtain rfl := Option.some.inj (hs.symm.trans hb)
    simp [hst] at hne
  | becameZombie q =>
    by_cases hq : q = pid
    · exact .inr (if_pos hq)
    · exact .inl (if_neg hq)
  | _ => exact .inl rfl

/-- **Once the end of a process is on record** nothing is put on record about it any
more but that it becomes a zombie, with the same wait status. -/
theorem recorded?_of_isExited (hl : Lawful (new ++ history))
    (hc : ∀ r ∈ new, r.creates pid = false) (h : recorded? pid history = some st)
    (hst : st.isExited = true) : recorded? pid (new ++ history) = some st ∨
      recorded? pid (new ++ history) = some (.zombie st.waitStatus) := by
  induction new with
  | nil => exact .inl h
  | cons r new ih =>
    obtain ⟨hr, hnew⟩ := List.forall_mem_cons.1 hc
    have hb := hl.1
    show r.event.changed pid (recorded? pid (new ++ history)) = _ ∨
      r.event.changed pid (recorded? pid (new ++ history)) = _
    rcases ih hl.2 hnew with he | he <;> rw [he]
    · exact changed_of_isExited hst hb he hr
    · exact .inr ((changed_of_isExited rfl hb he hr).elim id id)

/-- **A process that is stopped stays stopped by the same signal**, whatever other signal is to
stop it, until it is continued or ends. -/
theorem recorded?_of_stopped {sig : Signal} (hl : Lawful (new ++ history))
    (hc : ∀ r ∈ new, r.creates pid = false) (hn : ∀ r ∈ new, r.event ≠ .continued pid)
    (h : recorded? pid history = some (.stopped sig)) :
    recorded? pid (new ++ history) = some (.stopped sig) ∨
      ∃ st, recorded? pid (new ++ history) = some st ∧ st.isExited = true := by
  induction new with
  | nil => exact .inl h
  | cons r new ih =>
    obtain ⟨hr, hnew⟩ := List.forall_mem_cons.1 hc
    obtain ⟨hnr, hnnew⟩ := List.forall_mem_cons.1 hn
    obtain ⟨src, e⟩ := r
    have hb : e.Befits (recorded? · (new ++ history)) := hl.1
    show e.changed pid (recorded? pid (new ++ history)) = _ ∨
      ∃ st, e.changed pid (recorded? pid (new ++ history)) = some st ∧ _
    rcases ih hl.2 hnew hnnew with he | ⟨st, he, hst⟩
    · rw [he]
      cases e with
      | created q parent => exact .inl (if_neg (by simpa [Record.creates] using hr))
      | stopped q sig' =>
        refine .inl (if_neg ?_)
        rintro rfl
        cases he.symm.trans hb
      | continued q => exact .inl (if_neg fun hq => hnr (by rw [hq]))
      | exited q w =>
        by_cases hq : q = pid
        · exact .inr ⟨_, if_pos hq, rfl⟩
        · exact .inl (if_neg hq)
      | becameZombie q =>
        by_cases hq : q = pid
        · exact .inr ⟨_, if_pos hq, rfl⟩
        · exact .inl (if_neg hq)
      | _ => exact .inl rfl
    · rw [he]
      rcases changed_of_isExited hst hb he hr with he' | he'
      · exact .inr ⟨st, he', hst⟩
      · exact .inr ⟨_, he', rfl⟩

/-! ## What a change of one process puts on record -/

/-- **How events move the status of a process**, each finding it in a status that it can
change. -/
inductive Status.Course (pid : Pid) : Status → List Event → Status → Prop
  | nil {st : Status} : Course pid st [] st
  | other {st st' : Status} {e : Event} {events : List Event} (he : e.isChange = false)
      (hb : e.isBirth = false) (h : Course pid st events st') : Course pid st (e :: events) st'
  | stopped {st' : Status} {sig : Signal} {events : List Event}
      (h : Course pid (.stopped sig) events st') :
      Course pid .normal (.stopped pid sig :: events) st'
  | continued {st' : Status} {sig : Signal} {events : List Event}
      (h : Course pid .normal events st') :
      Course pid (.stopped sig) (.continued pid :: events) st'
  | exited {st st' : Status} {w : WaitStatus} {events : List Event} (hst : st.isExited = false)
      (h : Course pid (.exited w) events st') : Course pid st (.exited pid w :: events) st'
  | buried {st st' : Status} {events : List Event} (h : Course pid st.toZombie events st') :
      Course pid st (.becameZombie pid :: events) st'

/-- One course goes on where another has ended. -/
theorem Status.Course.append {st'' : Status} {others : List Event} (h : st.Course pid events st')
    (h' : st'.Course pid others st'') : st.Course pid (events ++ others) st'' := by
  induction h with
  | nil => exact h'
  | other he hb _ ih => exact .other he hb (ih h')
  | stopped _ ih => exact .stopped (ih h')
  | continued _ ih => exact .continued (ih h')
  | exited hst _ ih => exact .exited hst (ih h')
  | buried _ ih => exact .buried (ih h')

/-- Events that change no status leave it as it is. -/
theorem Status.course_same (h : ∀ e ∈ events, e.isChange = false ∧ e.isBirth = false) :
    st.Course pid events st := by
  induction events with
  | nil => exact .nil
  | cons e events ih =>
    obtain ⟨⟨he, hb⟩, hrest⟩ := List.forall_mem_cons.1 h
    exact .other he hb (ih hrest)

/-- **What has been put on record** about one process since some moment: every record is in
its place, and nothing is told of others. -/
structure Recounted (pid : Pid) (st : Status) (earlier history : List Record) : Prop where
  lawful : Lawful history
  recorded : recorded? pid history = some st
  others : ∀ q, q ≠ pid → recorded? q history = recorded? q earlier

/-- A further event is recounted. -/
theorem Recounted.cons (h : Recounted pid st earlier history)
    (hb : e.Befits (recorded? · history)) (he : e.changed pid (some st) = some st')
    (hq : ∀ q status, q ≠ pid → e.changed q status = status) :
    Recounted pid st' earlier (⟨src, e⟩ :: history) where
  lawful := ⟨hb, h.lawful⟩
  recorded := (congrArg (e.changed pid) h.recorded).trans he
  others q hne := (hq q _ hne).trans (h.others q hne)

/-- **What happens in a course** is recounted event by event. -/
theorem Status.Course.recounted (h : st.Course pid events st')
    (hr : Recounted pid st earlier history) :
    Recounted pid st' earlier ((events.map (⟨src, ·⟩)).reverse ++ history) := by
  have hself : ∀ {a b : Option Status} {q : Pid}, q ≠ pid → (if pid = q then a else b) = b :=
    fun hne => if_neg (Ne.symm hne)
  induction h generalizing history with
  | nil => exact hr
  | other he hb _ ih =>
    simpa using ih (hr.cons (befits_of_not_isChange he _) (changed_of_not_isChange he hb _)
      fun _ status _ => changed_of_not_isChange he hb status)
  | stopped _ ih =>
    simpa using ih (hr.cons (e := .stopped pid _) hr.recorded (if_pos rfl) fun _ _ => hself)
  | continued _ ih =>
    simpa using ih (hr.cons (e := .continued pid) ⟨_, hr.recorded⟩ (if_pos rfl) fun _ _ => hself)
  | exited hst _ ih =>
    simpa using ih
      (hr.cons (e := .exited pid _) ⟨_, hr.recorded, hst⟩ (if_pos rfl) fun _ _ => hself)
  | buried _ ih =>
    simpa using ih (hr.cons (e := .becameZombie pid) ⟨_, hr.recorded⟩ (if_pos rfl) fun _ _ => hself)

namespace Process

variable {p : Process} {f : Process × List Event} {sig : Signal} {info : SignalInfo}

/-- What is done to a process moves its status by events of their course. -/
abbrev Courses (pid : Pid) (p : Process) (r : Process × List Event) : Prop :=
  p.status.Course pid r.2 r.1.status

/-- A change of status starts from one that it can change. -/
theorem Shift.courses (h : p.Shift pid f) : p.Courses pid f := by
  unfold Courses
  cases h with
  | none => exact .nil
  | exited h => exact .exited h .nil
  | stopped h => exact h ▸ .stopped .nil
  | continued h =>
    cases hp : p.status <;> simp [hp, Status.isStopped] at h
    exact .continued .nil

/-- All that a generation is made of is a course of the status. -/
theorem carried_courses : Carried pid info (Courses pid) where
  append := .append
  shift := Shift.courses
  receive _ := .other rfl rfl .nil
  wake _ := .nil
  dropped _ := .other rfl rfl .nil

/-- A generation is a course of the status. -/
theorem courses_generate : p.Courses pid (p.generate pid info) := carried_courses.generate p

/-- Conduct that does not show leaves the status as it is. -/
theorem courses_of_standing {q u : Process} {events : List Event}
    (h : p.Courses pid (u, events)) (hq : q.standing = u.standing) :
    p.Courses pid (q, events) := by
  have hstatus : q.status = u.status := congrArg Standing.status hq
  unfold Courses
  rw [hstatus]
  exact h

/-- What a process does mildly is a course of its status. -/
theorem courses_mild (h : p.Mild pid f) : p.Courses pid f := by
  cases h with
  | plain hu he =>
    refine courses_of_standing (u := p) (Status.course_same fun e hmem => ?_) hu.standing
    have hplain := he e hmem
    cases e <;> simp [Event.isPlain] at hplain <;> exact ⟨rfl, rfl⟩
  | ended hu => exact courses_of_standing shift_exit.courses hu.standing

/-- **All conduct is a course of the status.** -/
theorem courses_conduct (h : p.Conduct pid f) : p.Courses pid f := by
  have hsame : ∀ {e : Event}, e.isChange = false → e.isBirth = false → p.Courses pid (p, [e]) :=
    fun he hb => .other he hb .nil
  cases h with
  | mild h => exact courses_mild h
  | concluded hu | outright hu => exact courses_of_standing (hsame rfl rfl) hu.standing
  | took _ hq => exact courses_of_standing (u := p.without _) (.other rfl rfl .nil) hq
  | @handled q sig events _ _ hdealt =>
    -- to take the signal out is nothing that its status knows of
    have hdealt : (p.without sig).Courses pid (q, events) := by
      cases hdealt with
      | ignored _ hu | entered _ _ hu =>
        exact courses_of_standing (u := p.without sig) (.other rfl rfl .nil) hu.standing
      | default _ hu => exact courses_of_standing (shift_act _ _).courses hu.standing
    exact .other rfl rfl hdealt

end Process

/-! ## What the system keeps -/

namespace System

variable {s s' : System} {actor : Option Pid} {kin mortal : Bool} {p : Process}
  {f : Process → Process × List Event} {res : Process × List Event}

/-- **The chronicle is right**: every record is in its place, and the status on record is the
one that the process has. -/
structure Chronicled (s : System) : Prop where
  lawful : Lawful s.history
  recorded : ∀ pid p, s.process? pid = some p → recorded? pid s.history = some p.status

/-- At first nothing is on record. -/
theorem chronicled_initial : initial.Chronicled where
  lawful := trivial
  recorded pid p hp := by simp [initial, process?, Registry.get?] at hp

/-- Every deed is a course of the status of whom it is done to. -/
theorem courses_of_deed (h : Deed actor kin mortal pid p res) : p.Courses pid res := by
  cases h with
  | generate info => exact Process.courses_generate
  | exit w => exact Process.shift_exit.courses
  | stop sig => exact Process.shift_stop.courses
  | resume => exact Process.shift_resume.courses
  | noticeChild | limits | placed | released => exact .nil
  | mild _ h => exact Process.courses_mild h
  | buried => exact .buried .nil

/-- A change of one process that is a course of its status puts on record what it does. -/
theorem Chronicled.act (h : s.Chronicled)
    (hf : ∀ p, s.process? pid = some p → p.Courses pid (f p)) : (s.act src pid f).Chronicled := by
  cases hp : s.process? pid with
  | none => rwa [act_of_none hp]
  | some p =>
    have hr : Recounted pid (f p).1.status s.history (s.act src pid f).history := by
      rw [act_history hp]
      exact (hf p hp).recounted ⟨h.lawful, h.recorded pid p hp, fun _ _ => rfl⟩
    refine ⟨hr.lawful, fun q p' hq => ?_⟩
    rcases process?_act_eq_some.1 hq with ⟨rfl, p₀, hp₀, rfl⟩ | ⟨hne, hq⟩
    · obtain rfl := Option.some.inj (hp.symm.trans hp₀)
      exact hr.recorded
    · rw [hr.others q hne, h.recorded q p' hq]

/-- A remark leaves all on record as it is. -/
theorem Chronicled.note (h : s.Chronicled) (he : e.isChange = false) (hb : e.isBirth = false) :
    (s.note src e).Chronicled where
  lawful := ⟨befits_of_not_isChange he _, h.lawful⟩
  recorded q p hp := (changed_of_not_isChange he hb _).trans (h.recorded q p hp)

/-- Whoever is born runs, and that is on record. -/
theorem Chronicled.bear (h : s.Chronicled) {pids : IdPool} (hp : p.status = .normal) :
    (s.bear src pid pids p).Chronicled where
  lawful := ⟨trivial, h.lawful⟩
  recorded q p' hq := by
    show (if pid = q then some .normal else recorded? q s.history) = some p'.status
    rcases process?_bear_eq_some.1 hq with ⟨rfl, rfl⟩ | ⟨hne, hq⟩
    · rw [if_pos rfl, hp]
    · rw [if_neg (Ne.symm hne), h.recorded q p' hq]

/-- Whoever is forgotten stays on record. -/
theorem Chronicled.drop (h : s.Chronicled) : (s.drop pid).Chronicled where
  lawful := h.lawful
  recorded q p' hq := by
    obtain ⟨-, p, hp, rfl | rfl⟩ := exists_of_process?_drop hq <;> exact h.recorded q p hp

/-- **Every change keeps the chronicle right.** -/
theorem Happens.chronicled (h : Happens actor kin mortal s s') (hc : s.Chronicled) :
    s'.Chronicled := by
  cases h with
  | @remark src e _ he =>
    exact hc.note (by cases e <;> first | rfl | simp [Event.isRemark] at he)
      (by cases e <;> first | rfl | simp [Event.isRemark] at he)
  | deed _ hf => exact hc.act fun p hp => courses_of_deed (hf p hp)
  | root | child => exact hc.bear rfl
  | forget => exact hc.drop
  | wait => exact ⟨hc.lawful, hc.recorded⟩

/-- **The history tells everybody's status.** -/
theorem Evolves.chronicled (h : Evolves actor kin mortal s s') (hc : s.Chronicled) :
    s'.Chronicled := by
  induction h with
  | refl => exact hc
  | tail _ h ih => exact h.chronicled ih

end System

end PosixSignals
