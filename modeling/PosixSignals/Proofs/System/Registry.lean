import PosixSignals.System.Registry
import PosixSignals.IdPool

/-!
# Registries in order

A registry keeps its entries in ascending order of the numbers, and every
operation on it keeps that order. Only in an ordered registry does every
entry show when its number is looked up, which is what makes a search
through the entries and a look-up agree. The numbers a pool hands out are
new as long as every number that the registry knows is in use.
-/

namespace PosixSignals

namespace Registry

variable {α : Type} {r : Registry α} {k q : Nat} {a : α}

/-- The numbers of the entries ascend. -/
def Ascending (r : Registry α) : Prop := r.entries.Pairwise (·.1 < ·.1)

theorem ascending_empty : ({} : Registry α).Ascending := .nil

/-- An entry put in its place comes before what lay above it. -/
theorem insertEntry_head {l : List (Nat × α)} {n : Nat} (hk : n < k) (hl : ∀ e ∈ l, n < e.1) :
    ∀ e ∈ insertEntry k a l, n < e.1 := by
  induction l with
  | nil => simpa [insertEntry] using hk
  | cons e l ih =>
    obtain ⟨he, hl⟩ := List.forall_mem_cons.1 hl
    unfold insertEntry
    split
    · exact List.forall_mem_cons.2 ⟨hk, List.forall_mem_cons.2 ⟨he, hl⟩⟩
    split
    · exact List.forall_mem_cons.2 ⟨hk, hl⟩
    · exact List.forall_mem_cons.2 ⟨he, ih hl⟩

/-- Of two entries under one number the later one counts. -/
theorem insert_insert (r : Registry α) (k : Nat) (a b : α) :
    (r.insert k a).insert k b = r.insert k b := by
  obtain ⟨l⟩ := r
  refine congrArg Registry.mk ?_
  show insertEntry k b (insertEntry k a l) = insertEntry k b l
  induction l with
  | nil => simp [insertEntry]
  | cons e l ih =>
    obtain ⟨k', a'⟩ := e
    by_cases hlt : k < k'
    · simp [insertEntry, hlt]
    by_cases he : k = k'
    · simp [insertEntry, he]
    · simp [insertEntry, hlt, he, ih]

theorem Ascending.insert (h : r.Ascending) (k : Nat) (a : α) : (r.insert k a).Ascending := by
  obtain ⟨l⟩ := r
  show (insertEntry k a l).Pairwise (·.1 < ·.1)
  induction l with
  | nil => simp [insertEntry]
  | cons e l ih =>
    obtain ⟨he, hl⟩ := List.pairwise_cons.1 (show (e :: l).Pairwise (·.1 < ·.1) from h)
    unfold insertEntry
    split
    · next hk =>
      refine List.pairwise_cons.2 ⟨List.forall_mem_cons.2 ⟨hk, fun e' h' => ?_⟩, h⟩
      exact Nat.lt_trans hk (he e' h')
    split
    · next hk => exact List.pairwise_cons.2 ⟨hk ▸ he, hl⟩
    · exact List.pairwise_cons.2 ⟨insertEntry_head (by omega) he, ih hl⟩

theorem Ascending.erase (h : r.Ascending) (k : Nat) : (r.erase k).Ascending :=
  List.Pairwise.filter _ h

theorem Ascending.map (h : r.Ascending) (f : α → α) : (r.map f).Ascending :=
  List.pairwise_map.2 h

/-- **Every entry of an ordered registry is found by its number.** -/
theorem Ascending.get?_of_mem (h : r.Ascending) {e : Nat × α} (he : e ∈ r.entries) :
    r.get? e.1 = some e.2 := by
  obtain ⟨l⟩ := r
  show l.lookup e.1 = some e.2
  induction l with
  | nil => simp at he
  | cons e' l ih =>
    obtain ⟨he', hl⟩ := List.pairwise_cons.1 (show (e' :: l).Pairwise (·.1 < ·.1) from h)
    rcases List.mem_cons.1 he with rfl | hmem
    · exact List.lookup_cons_self
    · rw [List.lookup_cons, beq_false_of_ne (Nat.ne_of_gt (he' e hmem))]
      exact ih hl hmem

/-- What is found is an entry. -/
theorem mem_of_get? (h : r.get? k = some a) : (k, a) ∈ r.entries := by
  obtain ⟨l₁, l₂, he, -⟩ := List.lookup_eq_some_iff.1 h
  rw [he]
  simp

/-- What is there already is put in its place. -/
theorem Ascending.insert_of_get? (h : r.Ascending) (ha : r.get? k = some a) : r.insert k a = r := by
  obtain ⟨l⟩ := r
  refine congrArg Registry.mk ?_
  show insertEntry k a l = l
  replace ha : l.lookup k = some a := ha
  induction l with
  | nil => simp at ha
  | cons e l ih =>
    obtain ⟨k', a'⟩ := e
    obtain ⟨he, hl⟩ := List.pairwise_cons.1 (show ((k', a') :: l).Pairwise (·.1 < ·.1) from h)
    rw [List.lookup_cons] at ha
    by_cases hk : k = k'
    · subst hk
      simp only [beq_self_eq_true, Option.some.injEq] at ha
      simp [insertEntry, ha]
    · rw [beq_false_of_ne hk] at ha
      have hlt : k' < k := he (k, a) (mem_of_get? (r := ⟨l⟩) ha)
      simp only [insertEntry, if_neg (Nat.lt_asymm hlt), if_neg hk, ih hl ha]

@[simp] theorem get?_map (f : α → α) : (r.map f).get? k = (r.get? k).map f := by
  obtain ⟨l⟩ := r
  show (l.map fun e => (e.1, f e.2)).lookup k = (l.lookup k).map f
  induction l with
  | nil => rfl
  | cons e l ih =>
    obtain ⟨k', a'⟩ := e
    simp only [List.map_cons, List.lookup_cons, ih]
    cases k == k' <;> rfl

theorem get?_insert : (r.insert k a).get? q = if q = k then some a else r.get? q := by
  split
  · next h => rw [h, get?_insert_self]
  · next h => exact get?_insert_of_ne r a h

theorem get?_erase : (r.erase k).get? q = if q = k then none else r.get? q := by
  split
  · next h => rw [h, get?_erase_self]
  · next h => exact get?_erase_of_ne r h

end Registry

namespace IdPool

variable {pool pool' : IdPool} {id : Nat}

theorem firstFree_not_mem {used : List Nat} {lo hi : Nat} (h : firstFree used lo hi = some id) :
    id ∉ used := by
  fun_induction firstFree used lo hi with
  | case1 lo _ _ ih => exact ih h
  | case2 lo _ hfree => exact Option.some.inj h ▸ hfree
  | case3 => simp at h

/-- **A number is handed out only while nobody uses it.** -/
theorem not_mem_of_alloc (h : pool.alloc = (some id, pool')) :
    id ∉ pool.used ∧ pool'.used = id :: pool.used := by
  unfold alloc at h
  split at h
  · simp at h
  · next n hn =>
    obtain ⟨rfl, rfl⟩ := by simpa using h
    refine ⟨?_, rfl⟩
    rcases Option.or_eq_some_iff.1 hn with hn | ⟨-, hn⟩ <;> exact firstFree_not_mem hn

end IdPool

end PosixSignals
