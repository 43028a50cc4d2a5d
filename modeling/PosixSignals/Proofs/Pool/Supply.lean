import Mathlib.Data.List.Perm.Subperm
import PosixSignals.Proofs.System.Registry

/-!
# What a pool has to give

The search for a free id goes through the whole range, from where it stands
to the end and from the beginning to where it stands, so it fails only if
every id of the range is in use. As no id is in use twice and none outside
the range, that is a question of their number.
-/

namespace PosixSignals

namespace IdPool

variable {pool pool' : IdPool} {id : Nat} {used : List Nat} {lo hi : Nat}

/-! ## The search -/

theorem firstFree_eq_none_iff :
    firstFree used lo hi = none ↔ ∀ i, lo ≤ i → i < hi → i ∈ used := by
  fun_induction firstFree used lo hi with
  | case1 lo hlt hmem ih =>
    rw [ih]
    constructor
    · intro h i hle hi
      rcases Nat.lt_or_ge lo i with hlo | hge
      · exact h i hlo hi
      · exact Nat.le_antisymm hle hge ▸ hmem
    · exact fun h i hle hi => h i (by omega) hi
  | case2 lo hlt hfree =>
    simp only [reduceCtorEq, false_iff]
    exact fun h => hfree (h lo (Nat.le_refl lo) hlt)
  | case3 lo hge =>
    simp only [true_iff]
    intro i hle hi
    omega

theorem range_of_firstFree (h : firstFree used lo hi = some id) : lo ≤ id ∧ id < hi := by
  fun_induction firstFree used lo hi with
  | case1 lo _ _ ih =>
    obtain ⟨hle, hlt⟩ := ih h
    exact ⟨by omega, hlt⟩
  | case2 lo hlt => exact Option.some.inj h ▸ ⟨Nat.le_refl lo, hlt⟩
  | case3 => simp at h

/-! ## Pools -/

/-- **What every pool satisfies**: no id is in use twice, none outside the range, and
the search stands within the range, or at its beginning. -/
structure Sound (pool : IdPool) : Prop where
  nodup : pool.used.Nodup
  within : ∀ id ∈ pool.used, pool.lower ≤ id ∧ id < pool.limit
  cursor : pool.next = pool.lower ∨ pool.lower ≤ pool.next ∧ pool.next < pool.limit

theorem sound_range (lower limit : Nat) : (range lower limit).Sound where
  nodup := .nil
  within := by simp [range]
  cursor := .inl rfl

theorem alloc_eq_some (h : pool.alloc = (some id, pool')) :
    pool.candidate? = some id ∧ pool' = pool.occupy id := by
  unfold alloc at h
  split at h
  · simp at h
  · next n hn =>
    obtain ⟨hid, hpool⟩ := Prod.mk.inj h
    obtain rfl := Option.some.inj hid
    exact ⟨hn, hpool.symm⟩

/-- What comes next is an id of the range that is not in use. -/
theorem Sound.of_candidate? (h : pool.Sound) (hc : pool.candidate? = some id) :
    pool.lower ≤ id ∧ id < pool.limit ∧ id ∉ pool.used := by
  have hcursor := h.cursor
  rcases Option.or_eq_some_iff.1 hc with hc | ⟨-, hc⟩
  · obtain ⟨hle, hlt⟩ := range_of_firstFree hc
    exact ⟨by omega, hlt, firstFree_not_mem hc⟩
  · obtain ⟨hle, hlt⟩ := range_of_firstFree hc
    exact ⟨hle, by omega, firstFree_not_mem hc⟩

theorem Sound.occupy (h : pool.Sound) (hc : pool.candidate? = some id) :
    (pool.occupy id).Sound := by
  obtain ⟨hle, hlt, hfree⟩ := h.of_candidate? hc
  refine ⟨List.nodup_cons.2 ⟨hfree, h.nodup⟩, ?_, ?_⟩
  · exact List.forall_mem_cons.2 ⟨⟨hle, hlt⟩, h.within⟩
  · simp only [IdPool.occupy]
    split
    · exact .inl rfl
    · exact .inr ⟨by omega, by omega⟩

theorem Sound.free (h : pool.Sound) (id : Nat) : (pool.free id).Sound where
  nodup := h.nodup.erase id
  within := fun other ho => h.within other (List.mem_of_mem_erase ho)
  cursor := h.cursor

/-- An id that is in use can be released. -/
theorem release_of_mem (h : id ∈ pool.used) : pool.release id = .ok (pool.free id) := by
  rw [release, if_pos h, IdPool.free]

/-! ## Exhaustion -/

/-- **The search fails only if every id of the range is in use.** -/
theorem Sound.candidate?_eq_none_iff (h : pool.Sound) :
    pool.candidate? = none ↔ ∀ id, pool.lower ≤ id → id < pool.limit → id ∈ pool.used := by
  have hcursor := h.cursor
  rw [candidate?, Option.or_eq_none_iff, firstFree_eq_none_iff, firstFree_eq_none_iff]
  constructor
  · rintro ⟨habove, hbelow⟩ id hle hlt
    rcases Nat.lt_or_ge id pool.next with hid | hid
    · exact hbelow id hle hid
    · exact habove id hid hlt
  · exact fun hall => ⟨fun id hle hlt => hall id (by omega) hlt,
      fun id hle hlt => hall id hle (by omega)⟩

/-- All ids of the range are in use just if there are as many in use as the range has. -/
theorem Sound.length_eq_iff (h : pool.Sound) : pool.used.length = pool.limit - pool.lower ↔
    ∀ id, pool.lower ≤ id → id < pool.limit → id ∈ pool.used := by
  have hsub : pool.used ⊆ List.range' pool.lower (pool.limit - pool.lower) := by
    intro id hid
    obtain ⟨hle, hlt⟩ := h.within id hid
    exact List.mem_range'_1.2 ⟨hle, by omega⟩
  have hsubperm := List.subperm_of_subset h.nodup hsub
  have hlength : (List.range' pool.lower (pool.limit - pool.lower)).length =
      pool.limit - pool.lower := List.length_range'
  constructor
  · intro hlen id hle hlt
    have hperm := hsubperm.perm_of_length_le (by omega)
    exact hperm.mem_iff.2 (List.mem_range'_1.2 ⟨hle, by omega⟩)
  · intro hall
    have hsup : List.range' pool.lower (pool.limit - pool.lower) ⊆ pool.used := by
      intro id hid
      obtain ⟨hle, hlt⟩ := List.mem_range'_1.1 hid
      exact hall id hle (by omega)
    have hle := hsubperm.length_le
    have hge := (List.subperm_of_subset List.nodup_range' hsup).length_le
    omega

/-- **A pool has nothing left just if as many ids are in use as the range has.** -/
theorem Sound.alloc_eq_none_iff (h : pool.Sound) :
    pool.alloc.1 = none ↔ pool.used.length = pool.limit - pool.lower := by
  rw [h.length_eq_iff, ← h.candidate?_eq_none_iff]
  unfold IdPool.alloc
  split <;> next hc => simp [hc]

end IdPool

end PosixSignals
