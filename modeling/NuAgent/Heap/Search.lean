import NuAgent.Heap.Run

/-!
# The search for a free block is complete

`OS_GetMem` starts its search at the roving search pointer, wherever that is, and gives up when it
is back there. `getMem_complete` says that it then has seen every block of the list: a request is
refused exactly when no free block has room for it.
-/

namespace NuAgent.Heap

/-- The size a request is adjusted to: a multiple of the word size and no less than the minimum. -/
def adjustedSize (minAllocation size : ℕ) : ℕ := max minAllocation ((size + 3) / 4 * 4)

/-- Below the sizes at which the sum wraps, `OS_GetMem` computes the adjusted size. -/
theorem adjustSize_eq {size : ℕ} (hsize : size ≤ 2 ^ 32 - 4) :
    adjustSize 16 size = adjustedSize 16 size := by
  unfold adjustSize adjustedSize
  split_ifs with hmin
  · omega
  · rw [CInt.u32_of_lt (by omega) (by omega)]
    omega

/-- Some free block of the list has a payload of at least `n` bytes. -/
def HasRoom (s : State) (n : ℕ) : Prop :=
  ∃ a, OnList s a ∧ isFree s.mem a ∧ n ≤ next s.mem a - a - dmOverhead

section
variable {s : State} {H : Finset ℕ} {n : ℕ}

/-- Room is a matter of the free payloads. -/
theorem Inv.hasRoom_iff (h : Inv s H) (hn : 0 < n) :
    HasRoom s n ↔ ∃ a ∈ H, n ≤ freeBytes s.mem a := by
  constructor
  · rintro ⟨a, hlist, hfree, hfit⟩
    refine ⟨a, (h.onList_iff a).mp hlist, ?_⟩
    rw [freeBytes, if_pos hfree]
    exact hfit
  · rintro ⟨a, ha, hfit⟩
    by_cases hfree : isFree s.mem a
    · rw [freeBytes, if_pos hfree] at hfit
      exact ⟨a, (h.onList_iff a).mpr ha, hfree, hfit⟩
    · rw [freeBytes, if_neg hfree] at hfit
      omega

theorem adjustedSize_pos {minAllocation : ℕ} (h : 0 < minAllocation) (size : ℕ) :
    0 < adjustedSize minAllocation size := Nat.lt_of_lt_of_le h (Nat.le_max_left _ _)

/-- In every reachable state and for every size up to `2 ^ 32 - 4` the search ends. The request is
refused, and the pool is as it was, iff no free block of the list has the adjusted size; else the
result is the payload of a block of the list that was free and has that size. -/
theorem getMem_complete {live : List Block} (h : Reachable (s, live)) {size : ℕ}
    (hsize : size ≤ 2 ^ 32 - 4) :
    ∃ err ptr s', osGetMem s size = some (err, ptr, s') ∧
      (err = .errMemFull ↔ ¬ HasRoom s (adjustedSize s.pool.minAllocation size)) ∧
      (err = .errMemFull → ptr = 0 ∧ s' = s) ∧
      (err ≠ .errMemFull → ∃ a, OnList s a ∧ isFree s.mem a ∧ ptr = a + dmOverhead ∧
        adjustedSize s.pool.minAllocation size ≤ next s.mem a - a - dmOverhead) := by
  obtain ⟨H, hgood⟩ := h.good
  have hinv := hgood.inv
  rw [hinv.geometry.min_allocation, hinv.hasRoom_iff (adjustedSize_pos (by decide) size),
    ← adjustSize_eq hsize]
  rcases osGetMem_spec hinv hgood.coalesced hsize with
    ⟨hfull, hsmall⟩ | ⟨a, s', H', hok, ha, hfree, hfit, -⟩
  · refine ⟨_, _, _, hfull, iff_of_true rfl ?_, fun _ => ⟨rfl, rfl⟩, fun hne => absurd rfl hne⟩
    rintro ⟨a, ha, hfit⟩
    exact absurd (hsmall a ha) (Nat.not_lt_of_le hfit)
  · have hne : OsErr.errNone ≠ .errMemFull := by decide
    refine ⟨_, _, _, hok, iff_of_false hne (not_not.mpr ⟨a, ha, hfit⟩), fun he => absurd he hne,
      fun _ => ⟨a, (hinv.onList_iff a).mpr ha, hfree, rfl, ?_⟩⟩
    rw [freeBytes, if_pos hfree] at hfit
    exact hfit

end

/-- The fresh pool has room for a request of 20448 bytes and none for one of 20449. -/
theorem getMem_complete_boot :
    HasRoom bootPool 20448 ∧ ∃ err ptr s', osGetMem bootPool 20449 = some (err, ptr, s') ∧
      (err = .errMemFull ↔ ¬ HasRoom bootPool 20452) := by
  obtain ⟨err, ptr, s', hcall, hiff, -, -⟩ :=
    getMem_complete bootPool_reachable (by decide : 20449 ≤ 2 ^ 32 - 4)
  exact ⟨⟨0x1000, ⟨0, rfl⟩, by decide, by decide⟩, err, ptr, s', hcall, hiff⟩

end NuAgent.Heap
