import PosixSignals.Proofs.Pool.Rotation

/-!
# Where a search comes by

A search goes up from where it stands to the end of the range and then from
its beginning to where it started. `turn` counts the ids in that order, each
of them once, wherever the search stands and however close the range comes
to the largest word, and the id handed out is the first of them that is not
in use. All of it rests on the search never leaving the range, which every
sequence of operations keeps (`Sound`).
-/

namespace PosixSignals

namespace IdPool

variable {pool : IdPool} {id j k : Nat}

/-! ## The cyclic order -/

/-- The ids of a range in cyclic order, the one where the search stands first. -/
def turn (pool : IdPool) (k : Nat) : Nat :=
  pool.lower + (pool.next - pool.lower + k) % (pool.limit - pool.lower)

theorem turn_range (hk : k < pool.limit - pool.lower) :
    pool.lower ≤ pool.turn k ∧ pool.turn k < pool.limit := by
  have hmod := Nat.mod_lt (pool.next - pool.lower + k) (Nat.zero_lt_of_lt hk)
  unfold turn
  omega

/-- The order goes up to the limit, and on from the beginning. -/
theorem Sound.turn_eq (h : pool.Sound) (hk : k < pool.limit - pool.lower) :
    pool.turn k = if pool.next + k < pool.limit then pool.next + k
      else pool.next + k - pool.limit + pool.lower := by
  have hcursor := h.cursor
  unfold turn
  split
  · rw [Nat.mod_eq_of_lt (by omega)]
    omega
  · rw [Nat.mod_eq_sub_mod (by omega), Nat.mod_eq_of_lt (by omega)]
    omega

/-- **Each id of the range has its turn, once.** -/
theorem Sound.existsUnique_turn (h : pool.Sound) (hle : pool.lower ≤ id)
    (hlt : id < pool.limit) : ∃! k, k < pool.limit - pool.lower ∧ pool.turn k = id := by
  have hcursor := h.cursor
  refine ⟨if pool.next ≤ id then id - pool.next else id + pool.limit - pool.lower - pool.next,
    ⟨by split <;> omega, ?_⟩, ?_⟩
  · rw [h.turn_eq (by split <;> omega)]
    split <;> split <;> omega
  · rintro k ⟨hk, rfl⟩
    rw [h.turn_eq hk]
    split <;> split <;> omega

/-! ## What a search finds -/

/-- What comes next has its turn, and all before it are in use. -/
theorem Sound.turn_of_candidate? (h : pool.Sound) (hc : pool.candidate? = some id) :
    ∃ k, k < pool.limit - pool.lower ∧ pool.turn k = id ∧
      ∀ j, j < k → pool.turn j ∈ pool.used := by
  have hcursor := h.cursor
  rcases Option.or_eq_some_iff.1 hc with hfound | ⟨hnone, hfound⟩
  · obtain ⟨hle, hlt⟩ := range_of_firstFree hfound
    refine ⟨id - pool.next, by omega, ?_, fun j hj => ?_⟩
    · rw [h.turn_eq (by omega), if_pos (by omega)]
      omega
    · rw [h.turn_eq (by omega), if_pos (by omega)]
      exact mem_of_firstFree hfound (by omega) (by omega)
  · -- the search has been to the end of the range first
    obtain ⟨hle, hlt⟩ := range_of_firstFree hfound
    have hend := firstFree_eq_none_iff.1 hnone
    refine ⟨id + pool.limit - pool.lower - pool.next, by omega, ?_, fun j hj => ?_⟩
    · rw [h.turn_eq (by omega), if_neg (by omega)]
      omega
    · rw [h.turn_eq (by omega)]
      split
      · exact hend _ (by omega) (by omega)
      · exact mem_of_firstFree hfound (by omega) (by omega)

/-- **The id that comes next is the first one in cyclic order that is free.** -/
theorem Sound.candidate?_eq_some_iff (h : pool.Sound) : pool.candidate? = some id ↔
    ∃ k, k < pool.limit - pool.lower ∧ pool.turn k = id ∧ id ∉ pool.used ∧
      ∀ j, j < k → pool.turn j ∈ pool.used := by
  constructor
  · intro hc
    obtain ⟨k, hk, hid, hbefore⟩ := h.turn_of_candidate? hc
    exact ⟨k, hk, hid, (h.of_candidate? hc).2.2, hbefore⟩
  · rintro ⟨k, hk, rfl, hfree, hbefore⟩
    obtain ⟨hle, hlt⟩ := turn_range hk
    cases hc : pool.candidate? with
    | none =>
      exact absurd (h.candidate?_eq_none_iff.1 hc _ hle hlt) hfree
    | some other =>
      -- neither of two first free ids can come before the other
      obtain ⟨i, hi, rfl, hbefore'⟩ := h.turn_of_candidate? hc
      have hfree' := (h.of_candidate? hc).2.2
      rcases Nat.lt_trichotomy i k with hlt | rfl | hlt
      · exact absurd (hbefore i hlt) hfree'
      · rfl
      · exact absurd (hbefore' k hlt) hfree

theorem alloc_fst (pool : IdPool) : pool.alloc.1 = pool.candidate? := by
  unfold alloc
  split <;> next hc => exact hc.symm

theorem alloc_snd_of_some (h : pool.candidate? = some id) : pool.alloc.2 = pool.occupy id := by
  simp only [alloc, h]

theorem alloc_snd_of_none (h : pool.candidate? = none) : pool.alloc.2 = pool := by
  simp only [alloc, h]

/-! ## What a release does -/

theorem Sound.mem_free_iff (h : pool.Sound) :
    k ∈ (pool.free id).used ↔ k ∈ pool.used ∧ k ≠ id :=
  (h.nodup.mem_erase_iff).trans and_comm

theorem release_of_not_mem (h : id ∉ pool.used) : pool.release id = .error ⟨id⟩ := by
  rw [release, if_neg h]

/-! ## All operations, in every state -/

/-- **What a range of words does, whatever has been asked of it before.** The ids in use and
the place of the search lie in the range (in an empty range the search stands at its
beginning). What is handed out is the first id that is free in the cyclic order from there,
which comes by each id once; it can be counted up without leaving the words, it alone becomes used,
and the search goes on behind it. Nothing is handed out just if all ids of the range
are in use, and then nothing changes. A release takes back an id in use and no other, and
complains of any other id without a change. -/
theorem searches_in_turn (lower limit : BitVec 64) (ops : List Operation) :
    let pool := (range lower.toNat limit.toNat).run ops
    (∀ id ∈ pool.used, lower.toNat ≤ id ∧ id < limit.toNat) ∧
    (if lower.toNat < limit.toNat then lower.toNat ≤ pool.next ∧ pool.next < limit.toNat
      else pool.next = lower.toNat) ∧
    (∀ id, lower.toNat ≤ id → id < limit.toNat →
      ∃! k, k < limit.toNat - lower.toNat ∧ pool.turn k = id) ∧
    (∀ id, pool.alloc.1 = some id ↔ ∃ k, k < limit.toNat - lower.toNat ∧ pool.turn k = id ∧
      id ∉ pool.used ∧ ∀ j, j < k → pool.turn j ∈ pool.used) ∧
    (∀ id, pool.alloc.1 = some id → id + 1 < UInt64.size ∧
      pool.alloc.2 = { pool with
        used := id :: pool.used
        next := if limit.toNat ≤ id + 1 then lower.toNat else id + 1 }) ∧
    (pool.alloc.1 = none ↔ ∀ id, lower.toNat ≤ id → id < limit.toNat → id ∈ pool.used) ∧
    (pool.alloc.1 = none → pool.alloc.2 = pool) ∧
    (∀ id ∈ pool.used, ∃ used, pool.release id = .ok { pool with used := used } ∧
      ∀ other, other ∈ used ↔ other ∈ pool.used ∧ other ≠ id) ∧
    (∀ id, id ∉ pool.used → pool.perform (.release id) = (none, pool) ∧
      ∃ complaint, pool.release id = .error complaint ∧
        complaint.message = "id " ++ toString id ++ " has been deallocated!") := by
  intro pool
  obtain ⟨hsound, hlower, hlimit⟩ := sound_run (sound_range lower.toNat limit.toNat) ops
  change pool.Sound at hsound
  change pool.lower = lower.toNat at hlower
  change pool.limit = limit.toNat at hlimit
  rw [← hlower, ← hlimit]
  have hcursor := hsound.cursor
  refine ⟨hsound.within, ?_, fun id => hsound.existsUnique_turn, fun id => ?_,
    fun id hid => ?_, ?_, fun hnone => ?_, fun id hid => ?_, fun id hid => ?_⟩
  · split <;> omega
  · rw [alloc_fst]
    exact hsound.candidate?_eq_some_iff
  · rw [alloc_fst] at hid
    have hword : limit.toNat < UInt64.size := limit.isLt
    obtain ⟨-, hlt, -⟩ := hsound.of_candidate? hid
    refine ⟨by omega, ?_⟩
    rw [alloc_snd_of_some hid, occupy]
  · rw [alloc_fst]
    exact hsound.candidate?_eq_none_iff
  · exact alloc_snd_of_none (alloc_fst pool ▸ hnone)
  · exact ⟨_, release_of_mem hid, fun other => hsound.mem_free_iff⟩
  · exact ⟨by rw [perform, release_of_not_mem hid], _, release_of_not_mem hid, rfl⟩

/-- The ids of a range of four, from where the search stands when two have been handed out. -/
example : (List.range 4).map ((range 1 5).run [.alloc, .alloc]).turn = [3, 4, 1, 2] := by
  decide +kernel

end IdPool

end PosixSignals
