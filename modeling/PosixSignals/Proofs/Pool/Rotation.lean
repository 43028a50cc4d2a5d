import PosixSignals.Proofs.Pool.Supply

/-!
# Ids come round

Every search for a free id goes on where the last one ended, so the place
where it stands goes round the range. From one time an id is handed out to
the next it has come by every other id of the range, and it comes by an id
only while that is in use or by handing it out. So whatever is released in
between, ahead of the search or behind it, nobody gets an id again while
another has been free all the time. What carries the induction over a run is
that the ids between the one handed out and the place of the search,
`Behind`, have all been in use since.
-/

namespace PosixSignals

namespace IdPool

/-- One operation on a pool. -/
inductive Operation where
  | alloc
  | release (id : Nat)
deriving DecidableEq

/-- Carries out an operation, and tells what it hands out. A release that is refused
changes nothing. -/
def perform (pool : IdPool) : Operation → Option Nat × IdPool
  | .alloc => pool.alloc
  | .release id =>
    match pool.release id with
    | .ok pool' => (none, pool')
    | .error _ => (none, pool)

/-- The pool after some operations. -/
def run (pool : IdPool) (ops : List Operation) : IdPool :=
  ops.foldl (fun pool op => (pool.perform op).2) pool

/-- What the operation at a place of a sequence hands out. -/
def handed? (pool : IdPool) (ops : List Operation) (place : Nat) : Option Nat :=
  ops[place]?.bind fun op => ((pool.run (ops.take place)).perform op).1

variable {pool pool' : IdPool} {op : Operation} {ops : List Operation} {id x y : Nat}
  {used : List Nat} {lo hi i j : Nat}

/-! ## One search -/

/-- A search comes by ids that are in use. -/
theorem mem_of_firstFree (h : firstFree used lo hi = some id) (hlo : lo ≤ y) (hy : y < id) :
    y ∈ used := by
  fun_induction firstFree used lo hi with
  | case1 lo _ hmem ih =>
    rcases Nat.eq_or_lt_of_le hlo with rfl | hlt
    · exact hmem
    · exact ih h hlt
  | case2 lo =>
    obtain rfl := Option.some.inj h
    omega
  | case3 => simp at h

/-- The ids from one place round to another, both included. -/
def Between (first last y : Nat) : Prop :=
  if first ≤ last then first ≤ y ∧ y ≤ last else first ≤ y ∨ y ≤ last

/-- **What a search comes by is in use when it has ended**, the id that it finds among them. -/
theorem mem_of_between (hc : pool.candidate? = some id) (hle : pool.lower ≤ y)
    (hlt : y < pool.limit) (hb : Between pool.next id y) : y ∈ (pool.occupy id).used := by
  have hused : (pool.occupy id).used = id :: pool.used := rfl
  rw [hused]
  rcases Nat.lt_trichotomy y id with hy | rfl | hy
  · refine List.mem_cons_of_mem id ?_
    rcases Option.or_eq_some_iff.1 hc with hfound | ⟨-, hfound⟩
    · obtain ⟨hnext, -⟩ := range_of_firstFree hfound
      rw [Between, if_pos hnext] at hb
      exact mem_of_firstFree hfound hb.1 hy
    · exact mem_of_firstFree hfound hle hy
  · exact List.mem_cons_self
  · -- above what it finds the search has been only if it went to the end first
    refine List.mem_cons_of_mem id ?_
    unfold Between at hb
    rcases Option.or_eq_some_iff.1 hc with hfound | ⟨hnone, -⟩
    · obtain ⟨hnext, -⟩ := range_of_firstFree hfound
      rw [if_pos hnext] at hb
      omega
    · refine firstFree_eq_none_iff.1 hnone y ?_ hlt
      split at hb <;> omega

/-! ## Where the search stands -/

/-- **Behind the search**: the ids that it has come by on its way from `x` to where it
stands, `x` itself left out. -/
def Behind (x next y : Nat) : Prop :=
  if x < next then x < y ∧ y < next else x < y ∨ y < next

/-- When an id is handed out, nothing lies between it and the search. -/
theorem not_behind_occupy (h : pool.Sound) (hc : pool.candidate? = some x)
    (hle : pool.lower ≤ y) (hlt : y < pool.limit) : ¬Behind x (pool.occupy x).next y := by
  obtain ⟨hxle, hxlt, -⟩ := h.of_candidate? hc
  simp only [Behind, occupy]
  split <;> split <;> omega

/-- **To hand out an id brings the search past no other id than those in use.** -/
theorem behind_occupy (h : pool.Sound) (hc : pool.candidate? = some id) (hle : pool.lower ≤ y)
    (hlt : y < pool.limit) (hb : Behind x (pool.occupy id).next y) :
    Behind x pool.next y ∨ y ∈ (pool.occupy id).used := by
  obtain ⟨hidle, hidlt, -⟩ := h.of_candidate? hc
  have hcursor := h.cursor
  by_cases hbetween : Between pool.next id y
  · exact .inr (mem_of_between hc hle hlt hbetween)
  · left
    simp only [Behind, Between, occupy] at hb hbetween ⊢
    split at hbetween <;> split at hb <;> split at hb <;> split <;> omega

/-- **By the time an id is handed out, the search has come by all the others.** -/
theorem behind_or_mem (hc : pool.candidate? = some x) (hle : pool.lower ≤ y)
    (hlt : y < pool.limit) : Behind x pool.next y ∨ y ∈ (pool.occupy x).used := by
  by_cases hbetween : Between pool.next x y
  · exact .inr (mem_of_between hc hle hlt hbetween)
  · left
    simp only [Behind, Between] at hbetween ⊢
    split at hbetween <;> split <;> omega

/-! ## One operation -/

/-- An operation leaves a pool as it is, hands out the next id, or takes one back. -/
theorem perform_cases (pool : IdPool) (op : Operation) :
    pool.perform op = (none, pool) ∨
      (∃ id, pool.candidate? = some id ∧ pool.perform op = (some id, pool.occupy id)) ∨
      ∃ id, pool.perform op = (none, pool.free id) := by
  cases op with
  | alloc =>
    unfold perform IdPool.alloc
    cases hc : pool.candidate? with
    | none => exact .inl rfl
    | some id => exact .inr (.inl ⟨id, rfl, rfl⟩)
  | release id =>
    by_cases hmem : id ∈ pool.used
    · exact .inr (.inr ⟨id, by simp only [perform, release_of_mem hmem]⟩)
    · exact .inl (by simp only [perform, release, if_neg hmem])

theorem Sound.perform (h : pool.Sound) (op : Operation) : (pool.perform op).2.Sound := by
  rcases pool.perform_cases op with he | ⟨id, hc, he⟩ | ⟨id, he⟩
  · rwa [he]
  · rw [he]
    exact h.occupy hc
  · rw [he]
    exact h.free id

@[simp] theorem perform_lower : (pool.perform op).2.lower = pool.lower := by
  rcases pool.perform_cases op with he | ⟨id, -, he⟩ | ⟨id, he⟩ <;> rw [he] <;> rfl

@[simp] theorem perform_limit : (pool.perform op).2.limit = pool.limit := by
  rcases pool.perform_cases op with he | ⟨id, -, he⟩ | ⟨id, he⟩ <;> rw [he] <;> rfl

/-- Who hands out an id has had it as the next one. -/
theorem occupy_of_perform (h : (pool.perform op).1 = some x) :
    pool.candidate? = some x ∧ (pool.perform op).2 = pool.occupy x := by
  rcases pool.perform_cases op with he | ⟨id, hc, he⟩ | ⟨id, he⟩
  · simp [he] at h
  · rw [he] at h ⊢
    obtain rfl := Option.some.inj h
    exact ⟨hc, rfl⟩
  · simp [he] at h

/-- **What one operation does to the ids behind the search**: they were behind it before,
or they are in use now. -/
theorem behind_perform (h : pool.Sound) (hle : pool.lower ≤ y) (hlt : y < pool.limit)
    (hb : Behind x (pool.perform op).2.next y) :
    Behind x pool.next y ∨ y ∈ (pool.perform op).2.used := by
  rcases pool.perform_cases op with he | ⟨id, hc, he⟩ | ⟨id, he⟩
  · exact .inl (by rwa [he] at hb)
  · rw [he] at hb ⊢
    exact behind_occupy h hc hle hlt hb
  · -- a release does not move the search
    exact .inl (by rwa [he] at hb)

/-! ## Runs -/

theorem run_take_succ (hi : ops[i]? = some op) :
    pool.run (ops.take (i + 1)) = ((pool.run (ops.take i)).perform op).2 := by
  rw [run, List.take_add_one, hi, List.foldl_append]
  rfl

/-- What is handed out at a place is what the operation there hands out. -/
theorem handed?_eq_some (h : pool.handed? ops i = some x) :
    (pool.run (ops.take i)).candidate? = some x ∧
      pool.run (ops.take (i + 1)) = (pool.run (ops.take i)).occupy x := by
  obtain ⟨op, hop, hx⟩ := Option.bind_eq_some_iff.1 h
  obtain ⟨hc, hpool⟩ := occupy_of_perform hx
  exact ⟨hc, (run_take_succ hop).trans hpool⟩

/-- A range keeps its bounds and stays sound. -/
theorem sound_run (h : pool.Sound) (ops : List Operation) :
    (pool.run ops).Sound ∧ (pool.run ops).lower = pool.lower ∧
      (pool.run ops).limit = pool.limit := by
  induction ops generalizing pool with
  | nil => exact ⟨h, rfl, rfl⟩
  | cons op ops ih =>
    obtain ⟨hs, hl, hu⟩ := ih (h.perform op)
    exact ⟨hs, hl.trans perform_lower, hu.trans perform_limit⟩

/-- An id is in use right after one of the operations from one place up to another. -/
def Busy (pool : IdPool) (ops : List Operation) (i j y : Nat) : Prop :=
  ∃ n, i ≤ n ∧ n < j ∧ y ∈ (pool.run (ops.take (n + 1))).used

theorem Busy.later (h : pool.Busy ops i j y) : pool.Busy ops i (j + 1) y := by
  obtain ⟨n, hin, hnj, hn⟩ := h
  exact ⟨n, hin, by omega, hn⟩

/-- **Since an id was handed out, the ids behind the search have all been in use.** -/
theorem busy_of_behind (h : pool.Sound) (hx : pool.handed? ops i = some x)
    (hle : pool.lower ≤ y) (hlt : y < pool.limit) (hij : i < j)
    (hb : Behind x (pool.run (ops.take j)).next y) : pool.Busy ops i j y := by
  induction j with
  | zero => exact absurd hij (Nat.not_lt_zero i)
  | succ j ih =>
    rcases Nat.eq_or_lt_of_le (Nat.le_of_lt_succ hij) with rfl | hij
    · -- the search stands right behind the id
      obtain ⟨hs, hl, hu⟩ := sound_run h (ops.take i)
      obtain ⟨hc, hpool⟩ := handed?_eq_some hx
      rw [hpool] at hb
      exact absurd hb (not_behind_occupy hs hc (hl ▸ hle) (hu ▸ hlt))
    · cases hop : ops[j]? with
      | none =>
        have hlen : ops.length ≤ j := List.getElem?_eq_none_iff.1 hop
        rw [List.take_of_length_le (by omega), ← List.take_of_length_le hlen] at hb
        exact (ih hij hb).later
      | some op =>
        obtain ⟨hs, hl, hu⟩ := sound_run h (ops.take j)
        rw [run_take_succ hop] at hb
        rcases behind_perform hs (hl ▸ hle) (hu ▸ hlt) hb with hb | hmem
        · exact (ih hij hb).later
        · exact ⟨j, by omega, by omega, by rwa [run_take_succ hop]⟩

/-- **An id comes round only after all the others.** Whatever is asked of a range, if two
operations hand out the same id, then every id of the range is in use right after
one of the operations from the first of them to the second. -/
theorem comes_round {lower limit : Nat} {ops : List Operation} {i j x y : Nat} (hij : i < j)
    (hi : (range lower limit).handed? ops i = some x)
    (hj : (range lower limit).handed? ops j = some x) (hle : lower ≤ y) (hlt : y < limit) :
    ∃ n, i ≤ n ∧ n ≤ j ∧ y ∈ ((range lower limit).run (ops.take (n + 1))).used := by
  have hsound := sound_range lower limit
  obtain ⟨-, hl, hu⟩ := sound_run hsound (ops.take j)
  obtain ⟨hc, hpool⟩ := handed?_eq_some hj
  rcases behind_or_mem hc (Nat.le_trans (Nat.le_of_eq hl) hle) (by rwa [hu]) with hb | hmem
  · obtain ⟨n, hin, hnj, hn⟩ := busy_of_behind hsound hi hle hlt hij hb
    exact ⟨n, hin, by omega, hn⟩
  · exact ⟨j, by omega, Nat.le_refl j, by rwa [hpool]⟩

/-- Three ids, of which the first is taken back at once and then once more, in vain. -/
def returning : List Operation :=
  [.alloc, .release 1, .alloc, .release 1, .release 2, .alloc, .release 3, .alloc]

/-- **The first id is handed out again when the third has been in use**, though the second
is free again by then. -/
theorem comes_round_of_returning :
    (range 1 4).handed? returning 0 = some 1 ∧ (range 1 4).handed? returning 7 = some 1 ∧
      ∃ n, 0 ≤ n ∧ n ≤ 7 ∧ 3 ∈ ((range 1 4).run (returning.take (n + 1))).used := by
  have hfirst : (range 1 4).handed? returning 0 = some 1 := by decide +kernel
  have hagain : (range 1 4).handed? returning 7 = some 1 := by decide +kernel
  exact ⟨hfirst, hagain, comes_round (by decide) hfirst hagain (by decide) (by decide)⟩

end IdPool

end PosixSignals
