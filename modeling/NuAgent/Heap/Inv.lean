import Mathlib.Algebra.BigOperators.Ring.Finset
import Mathlib.Algebra.Order.BigOperators.Group.Finset
import NuAgent.Heap.Dmem
import NuAgent.Lib.Tiling

/-!
# The representation invariant of the pool

`Inv s H` says that the headers of the pool `s` are exactly the addresses in `H`: they tile the
pool, are linked both ways, belong to the pool's control block, and `dm_available` counts the free
ones' payloads. `Coalesced` says that no two neighbouring blocks are free; it fails while a block is
being freed, and so stands apart. The first section computes the fields of a header after an
assignment to another header; everything after it works with these equations alone.
-/

namespace NuAgent.Heap

open CInt

/-! ## Fields after an assignment -/

/-- Two headers that coincide or do not overlap. -/
def Sep (a b : ℕ) : Prop := a = b ∨ a + 16 ≤ b ∨ b + 16 ≤ a

theorem Sep.refl (a : ℕ) : Sep a a := .inl rfl

section
variable {m : Mem} {a b v : ℕ} {f : Bool}

/-- A field after an assignment to the same field of a header. -/
theorem update_same (i : ℕ) :
    Function.update m (a + i) v (b + i) = if b = a then v else m (b + i) := by
  rw [Function.update_apply]
  simp only [Nat.add_right_cancel_iff]

/-- A field after an assignment to another field of a header. -/
theorem update_other {i j : ℕ} (h : Sep a b) (hij : j ≠ i ∧ i < 16 ∧ j < 16) :
    Function.update m (a + i) v (b + j) = m (b + j) := by
  have hne : b + j ≠ a + i := by
    unfold Sep at h
    omega
  exact Function.update_of_ne hne v m

theorem next_setNext : next (setNext m a v) b = if b = a then v else next m b := update_same 0

theorem prev_setNext (h : Sep a b) : prev (setNext m a v) b = prev m b :=
  update_other (i := 0) h (by omega)

theorem isFree_setNext (h : Sep a b) : isFree (setNext m a v) b ↔ isFree m b := by
  change Function.update m (a + 0) v (b + 8) ≠ 0 ↔ m (b + 8) ≠ 0
  rw [update_other h (by omega)]

theorem poolOf_setNext (h : Sep a b) : poolOf (setNext m a v) b = poolOf m b :=
  update_other (i := 0) h (by omega)

theorem next_setPrev (h : Sep a b) : next (setPrev m a v) b = next m b :=
  update_other (j := 0) h (by omega)

theorem prev_setPrev : prev (setPrev m a v) b = if b = a then v else prev m b := update_same 4

theorem isFree_setPrev (h : Sep a b) : isFree (setPrev m a v) b ↔ isFree m b := by
  rw [isFree, isFree, setPrev, update_other h (by omega)]

theorem poolOf_setPrev (h : Sep a b) : poolOf (setPrev m a v) b = poolOf m b :=
  update_other h (by omega)

theorem next_setFree (h : Sep a b) : next (setFree m a f) b = next m b :=
  update_other (j := 0) h (by omega)

theorem prev_setFree (h : Sep a b) : prev (setFree m a f) b = prev m b :=
  update_other h (by omega)

theorem isFree_setFree : isFree (setFree m a f) b ↔ if b = a then f = true else isFree m b := by
  rw [isFree, setFree, update_same]
  split_ifs
  · cases f <;> simp
  · rfl

theorem poolOf_setFree (h : Sep a b) : poolOf (setFree m a f) b = poolOf m b :=
  update_other h (by omega)

theorem next_setPool (h : Sep a b) : next (setPool m a v) b = next m b :=
  update_other (j := 0) h (by omega)

theorem prev_setPool (h : Sep a b) : prev (setPool m a v) b = prev m b :=
  update_other h (by omega)

theorem isFree_setPool (h : Sep a b) : isFree (setPool m a v) b ↔ isFree m b := by
  rw [isFree, isFree, setPool, update_other h (by omega)]

theorem poolOf_setPool : poolOf (setPool m a v) b = if b = a then v else poolOf m b := update_same 12

end

/-! ## The invariant -/

/-- The address of the trailer, the last header of the pool. -/
def Pool.trailer (p : Pool) : ℕ := p.startAddress + p.poolSize - dmOverhead

/-- What `OS_Create_Memory_Pool` fixes for the life of the pool. -/
structure Geometry (p : Pool) : Prop where
  start_aligned : p.startAddress % 4 = 0
  size_aligned : p.poolSize % 4 = 0
  room : 48 ≤ p.poolSize
  size_lt : p.poolSize < 2 ^ 32
  in_memory : p.startAddress + p.poolSize ≤ 2 ^ 32
  min_allocation : p.minAllocation = 16
  memory_list : p.memoryList = p.startAddress

theorem Geometry.update {p : Pool} (h : Geometry p) (available searchPtr : ℕ) :
    Geometry { p with available, searchPtr } :=
  ⟨h.start_aligned, h.size_aligned, h.room, h.size_lt, h.in_memory, h.min_allocation,
    h.memory_list⟩

/-- The payload of the block at `a` when it is free. -/
def freeBytes (m : Mem) (a : ℕ) : ℕ := if isFree m a then next m a - a - 16 else 0

/-- The headers of the pool are the addresses in `H`. -/
structure Inv (s : State) (H : Finset ℕ) : Prop where
  geometry : Geometry s.pool
  tiling : Tiling (next s.mem) (prev s.mem) s.pool.startAddress s.pool.trailer 32 H
  aligned : ∀ a ∈ H, a % 4 = 0
  owner : ∀ a ∈ H, poolOf s.mem a = s.pool.pcb
  trailer_used : ¬ isFree s.mem s.pool.trailer
  search_mem : s.pool.searchPtr ∈ H
  available : s.pool.available = ∑ a ∈ H, freeBytes s.mem a

/-- No two neighbouring blocks are both free. -/
def Coalesced (m : Mem) (H : Finset ℕ) : Prop := ∀ a ∈ H, isFree m a → ¬ isFree m (next m a)

/-- Only the block at `x` and its next neighbour may both be free. -/
def CoalescedExcept (m : Mem) (H : Finset ℕ) (x : ℕ) : Prop :=
  ∀ a ∈ H, a ≠ x → isFree m a → ¬ isFree m (next m a)

section
variable {s : State} {H : Finset ℕ} {a b : ℕ}

/-- Headers do not overlap. -/
theorem Inv.sep (h : Inv s H) (ha : a ∈ H) (hb : b ∈ H) : Sep a b := by
  by_cases hab : a = b
  · exact .inl hab
  · have := h.tiling.apart ha hb hab
    unfold Sep
    omega

/-- A free block is not the trailer. -/
theorem Inv.ne_trailer (h : Inv s H) (hfree : isFree s.mem a) : a ≠ s.pool.trailer := by
  rintro rfl
  exact h.trailer_used hfree

/-- The trailer is in memory. -/
theorem Inv.trailer_le (h : Inv s H) : s.pool.trailer + 16 ≤ 2 ^ 32 := by
  have := h.geometry.in_memory
  have := h.geometry.room
  unfold Pool.trailer dmOverhead
  omega

/-- Free payloads add up to less than the pool. -/
theorem sum_freeBytes_le {m : Mem} {start trailer : ℕ}
    (ht : Tiling (next m) (prev m) start trailer 32 H) (hu : ¬ isFree m trailer) :
    ∑ a ∈ H, freeBytes m a ≤ trailer - start := by
  have hle : ∑ a ∈ H.erase trailer, (freeBytes m a : ℤ) ≤
      ∑ a ∈ H.erase trailer, ((next m a : ℤ) - a) := by
    refine Finset.sum_le_sum fun a ha => ?_
    have := ht.next_gap a (Finset.mem_of_mem_erase ha) (Finset.ne_of_mem_erase ha)
    unfold freeBytes
    split_ifs <;> omega
  rw [ht.sum_gaps, ← Nat.cast_sum] at hle
  rw [← Finset.add_sum_erase H _ ht.last_mem]
  have hlast : freeBytes m trailer = 0 := if_neg hu
  omega

/-- What `OS_GetMem` reads as the free size of a block is its free payload. -/
theorem Inv.freeSize_eq (h : Inv s H) (ha : a ∈ H) : freeSize s.mem a = freeBytes s.mem a := by
  unfold freeSize freeBytes dmOverhead
  by_cases hfree : isFree s.mem a
  · rw [if_pos hfree, if_pos hfree]
    have := h.tiling.next_gap a ha (h.ne_trailer hfree)
    have := (h.tiling.bounds _ (h.tiling.next_mem a ha)).2
    have := h.trailer_le
    rw [u32_of_lt (by omega) (by omega)]
    omega
  · rw [if_neg hfree, if_neg hfree]

/-- One block's free payload is part of what is available. -/
theorem Inv.freeBytes_le (h : Inv s H) (ha : a ∈ H) : freeBytes s.mem a ≤ s.pool.available := by
  rw [h.available]
  exact Finset.single_le_sum (f := freeBytes s.mem) (fun _ _ => Nat.zero_le _) ha

/-! ## The edits of the list -/

/-- Changing the free flag of a block other than the trailer, with its payload counted. -/
theorem Inv.setFree (h : Inv s H) (ha : a ∈ H) (hat : a ≠ s.pool.trailer) (f : Bool)
    (available : ℕ) {searchPtr : ℕ} (hs : searchPtr ∈ H)
    (havail : available + freeBytes s.mem a =
      s.pool.available + if f then next s.mem a - a - 16 else 0) :
    Inv { mem := setFree s.mem a f, pool := { s.pool with available, searchPtr } } H := by
  have hsep : ∀ b ∈ H, Sep a b := fun b hb => h.sep ha hb
  have htr := h.tiling.last_mem
  have hfree : ∀ b ∈ H, b ≠ a → freeBytes (Heap.setFree s.mem a f) b = freeBytes s.mem b := by
    intro b hb hba
    simp only [freeBytes, isFree_setFree, next_setFree (hsep b hb), if_neg hba]
  refine ⟨h.geometry.update _ _, ?_, h.aligned, ?_, ?_, hs, ?_⟩
  · exact h.tiling.congr (fun b hb => next_setFree (hsep b hb)) fun b hb => prev_setFree (hsep b hb)
  · intro b hb
    rw [poolOf_setFree (hsep b hb)]
    exact h.owner b hb
  · change ¬ isFree (Heap.setFree s.mem a f) s.pool.trailer
    rw [isFree_setFree, if_neg (Ne.symm hat)]
    exact h.trailer_used
  · have hold := h.available
    rw [← Finset.add_sum_erase H _ ha] at hold ⊢
    have hrest : ∑ b ∈ H.erase a, freeBytes (Heap.setFree s.mem a f) b =
        ∑ b ∈ H.erase a, freeBytes s.mem b :=
      Finset.sum_congr rfl fun b hb =>
        hfree b (Finset.mem_of_mem_erase hb) (Finset.ne_of_mem_erase hb)
    have hself : freeBytes (Heap.setFree s.mem a f) a =
        if f then next s.mem a - a - 16 else 0 := by
      simp only [freeBytes, isFree_setFree, next_setFree (hsep a ha), if_true]
    change available = _
    rw [hself, hrest]
    omega

/-- The memory after the block at `x` has taken in its next neighbour. -/
def joinNext (m : Mem) (x : ℕ) : Mem :=
  setPrev (setNext m x (next m (next m x))) (next m (next m x)) x

theorem Inv.next_joinNext (h : Inv s H) (ha : a ∈ H) (hb : b ∈ H) :
    next (joinNext s.mem a) b = if b = a then next s.mem (next s.mem a) else next s.mem b := by
  have hz := h.tiling.next_mem _ (h.tiling.next_mem a ha)
  rw [joinNext, next_setPrev (h.sep hz hb), next_setNext]

theorem Inv.prev_joinNext (h : Inv s H) (ha : a ∈ H) (hb : b ∈ H) :
    prev (joinNext s.mem a) b = if b = next s.mem (next s.mem a) then a else prev s.mem b := by
  have hz := h.tiling.next_mem _ (h.tiling.next_mem a ha)
  rw [joinNext, prev_setPrev, prev_setNext (h.sep ha hb)]

theorem Inv.isFree_joinNext (h : Inv s H) (ha : a ∈ H) (hb : b ∈ H) :
    isFree (joinNext s.mem a) b ↔ isFree s.mem b := by
  have hz := h.tiling.next_mem _ (h.tiling.next_mem a ha)
  rw [joinNext, isFree_setPrev (h.sep hz hb), isFree_setNext (h.sep ha hb)]

theorem Inv.poolOf_joinNext (h : Inv s H) (ha : a ∈ H) (hb : b ∈ H) :
    poolOf (joinNext s.mem a) b = poolOf s.mem b := by
  have hz := h.tiling.next_mem _ (h.tiling.next_mem a ha)
  rw [joinNext, poolOf_setPrev (h.sep hz hb), poolOf_setNext (h.sep ha hb)]

/-- Joining two free neighbours. -/
theorem Inv.join (h : Inv s H) (ha : a ∈ H) (hfree : isFree s.mem a)
    (hfree' : isFree s.mem (next s.mem a)) :
    Inv { mem := joinNext s.mem a
          pool := { s.pool with available := s.pool.available + 16, searchPtr := a } }
      (H.erase (next s.mem a)) := by
  have hat := h.ne_trailer hfree
  have hyt := h.ne_trailer hfree'
  have hy := h.tiling.next_mem a ha
  have hz := h.tiling.next_mem _ hy
  have hay := h.tiling.next_gap a ha hat
  have hyz := h.tiling.next_gap _ hy hyt
  have hain : a ∈ H.erase (next s.mem a) := Finset.mem_erase.mpr ⟨by omega, ha⟩
  refine ⟨h.geometry.update _ _, ?_, ?_, ?_, ?_, hain, ?_⟩
  · refine h.tiling.erase ha hat hyt ?_ ?_ ?_ ?_
    · rw [h.next_joinNext ha ha, if_pos rfl]
    · intro b hb hba _
      rw [h.next_joinNext ha hb, if_neg hba]
    · rw [h.prev_joinNext ha hz, if_pos rfl]
    · intro b hb hbz _
      rw [h.prev_joinNext ha hb, if_neg hbz]
  · intro b hb
    exact h.aligned b (Finset.mem_of_mem_erase hb)
  · intro b hb
    rw [h.poolOf_joinNext ha (Finset.mem_of_mem_erase hb)]
    exact h.owner b (Finset.mem_of_mem_erase hb)
  · intro hf
    exact h.trailer_used ((h.isFree_joinNext ha h.tiling.last_mem).mp hf)
  · -- the two payloads and the header between them become one payload
    have hold := h.available
    rw [← Finset.add_sum_erase H _ hy, ← Finset.add_sum_erase _ _ hain] at hold
    change s.pool.available + 16 = ∑ b ∈ H.erase (next s.mem a), freeBytes (joinNext s.mem a) b
    rw [← Finset.add_sum_erase _ _ hain]
    have hrest : ∑ b ∈ (H.erase (next s.mem a)).erase a, freeBytes (joinNext s.mem a) b =
        ∑ b ∈ (H.erase (next s.mem a)).erase a, freeBytes s.mem b := by
      refine Finset.sum_congr rfl fun b hb => ?_
      have hbH := Finset.mem_of_mem_erase (Finset.mem_of_mem_erase hb)
      simp only [freeBytes, h.isFree_joinNext ha hbH, h.next_joinNext ha hbH,
        if_neg (Finset.ne_of_mem_erase hb)]
    have hself : freeBytes (joinNext s.mem a) a = next s.mem (next s.mem a) - a - 16 := by
      rw [freeBytes, if_pos ((h.isFree_joinNext ha ha).mpr hfree), h.next_joinNext ha ha,
        if_pos rfl]
    have hfa : freeBytes s.mem a = next s.mem a - a - 16 := if_pos hfree
    have hfy : freeBytes s.mem (next s.mem a) =
        next s.mem (next s.mem a) - next s.mem a - 16 := if_pos hfree'
    omega

/-- The bounds under which a block of `size` bytes is split off the block at `a`. -/
structure Splits (s : State) (H : Finset ℕ) (a size : ℕ) : Prop where
  mem : a ∈ H
  free : isFree s.mem a
  min : 16 ≤ size
  aligned : size % 4 = 0
  room : a + size + 16 + 32 ≤ next s.mem a

variable {size : ℕ}

/-- The header that a split creates lies inside the block. -/
theorem Splits.newPtr_eq (h : Inv s H) (hs : Splits s H a size) :
    u32 ((a : ℤ) + size + dmOverhead) = a + size + 16 := by
  have := hs.room
  have := (h.tiling.bounds _ (h.tiling.next_mem a hs.mem)).2
  have := h.trailer_le
  unfold dmOverhead
  rw [u32_of_lt (by omega) (by omega)]
  omega

/-- No header overlaps the one that a split creates. -/
theorem Splits.sep (h : Inv s H) (hs : Splits s H a size) (hb : b ∈ H) :
    Sep (a + size + 16) b ∧ b ≠ a + size + 16 := by
  have hroom := hs.room
  have hmin := hs.min
  by_cases hba : b = a
  · unfold Sep
    omega
  rcases Nat.lt_or_gt_of_ne hba with hlt | hgt
  · have := h.tiling.apart hb hs.mem hba
    unfold Sep
    omega
  · have := h.tiling.next_least a hs.mem b hb hgt
    unfold Sep
    omega

/-- The fields of an old header after a split. -/
theorem Splits.fields (h : Inv s H) (hs : Splits s H a size) (hb : b ∈ H) :
    next (splitBlock s.mem s.pool.pcb a size) b =
        (if b = a then a + size + 16 else next s.mem b) ∧
      prev (splitBlock s.mem s.pool.pcb a size) b =
        (if b = next s.mem a then a + size + 16 else prev s.mem b) ∧
      (isFree (splitBlock s.mem s.pool.pcb a size) b ↔ isFree s.mem b) ∧
      poolOf (splitBlock s.mem s.pool.pcb a size) b = poolOf s.mem b := by
  obtain ⟨hnb, hne⟩ := hs.sep h hb
  obtain ⟨hna, hane⟩ := hs.sep h hs.mem
  have hab := h.sep hs.mem hb
  have hyb := h.sep (h.tiling.next_mem a hs.mem) hb
  have hnn := Sep.refl (a + size + 16)
  simp only [splitBlock, hs.newPtr_eq h]
  simp only [*, next_setNext, next_setPrev, next_setFree, next_setPool, prev_setNext, prev_setPrev,
    prev_setFree, prev_setPool, isFree_setNext, isFree_setPrev, isFree_setFree, isFree_setPool,
    poolOf_setNext, poolOf_setPrev, poolOf_setFree, poolOf_setPool, if_true, if_false]
  simp

/-- The fields of the new header after a split. -/
theorem Splits.new_fields (h : Inv s H) (hs : Splits s H a size) :
    next (splitBlock s.mem s.pool.pcb a size) (a + size + 16) = next s.mem a ∧
      prev (splitBlock s.mem s.pool.pcb a size) (a + size + 16) = a ∧
      isFree (splitBlock s.mem s.pool.pcb a size) (a + size + 16) ∧
      poolOf (splitBlock s.mem s.pool.pcb a size) (a + size + 16) = s.pool.pcb := by
  obtain ⟨hna, hane⟩ := hs.sep h hs.mem
  obtain ⟨hny, hyne⟩ := hs.sep h (h.tiling.next_mem a hs.mem)
  have han : Sep a (a + size + 16) := by
    unfold Sep
    omega
  have hyn : Sep (next s.mem a) (a + size + 16) := by
    have := hs.room
    unfold Sep
    omega
  have hnn := Sep.refl (a + size + 16)
  have hne' := Ne.symm hane
  have hyne' := Ne.symm hyne
  simp only [splitBlock, hs.newPtr_eq h]
  simp only [*, next_setNext, next_setPrev, next_setFree, next_setPool, prev_setNext, prev_setPrev,
    prev_setFree, prev_setPool, isFree_setNext, isFree_setPrev, isFree_setFree, isFree_setPool,
    poolOf_setNext, poolOf_setPrev, poolOf_setFree, poolOf_setPool, if_true, if_false]
  simp

/-- Splitting a free block; both parts are still free. -/
theorem Inv.split (h : Inv s H) (hs : Splits s H a size) :
    Inv { mem := splitBlock s.mem s.pool.pcb a size
          pool := { s.pool with available := s.pool.available - 16 } }
      (insert (a + size + 16) H) := by
  obtain ⟨hnext, hprev, hfree, hpool⟩ := hs.new_fields h
  have hat := h.ne_trailer hs.free
  have hnotin : a + size + 16 ∉ H := fun hin => (hs.sep h hin).2 rfl
  refine ⟨h.geometry.update _ _, ?_, ?_, ?_, ?_,
    Finset.mem_insert_of_mem h.search_mem, ?_⟩
  · refine h.tiling.insert hs.mem hat ?_ ?_ ?_ hnext ?_ hprev ?_ ?_
    · have := hs.min
      omega
    · exact hs.room
    · rw [(hs.fields h hs.mem).1, if_pos rfl]
    · intro b hb hba
      rw [(hs.fields h hb).1, if_neg hba]
    · rw [(hs.fields h (h.tiling.next_mem a hs.mem)).2.1, if_pos rfl]
    · intro b hb hby
      rw [(hs.fields h hb).2.1, if_neg hby]
  · intro b hb
    rcases Finset.mem_insert.mp hb with rfl | hb
    · have := h.aligned a hs.mem
      have := hs.aligned
      omega
    · exact h.aligned b hb
  · intro b hb
    rcases Finset.mem_insert.mp hb with rfl | hb
    · exact hpool
    · exact (hs.fields h hb).2.2.2.trans (h.owner b hb)
  · intro hf
    exact h.trailer_used ((hs.fields h h.tiling.last_mem).2.2.1.mp hf)
  · -- the new header is paid for by the payload of the block
    have hold := h.available
    rw [← Finset.add_sum_erase H _ hs.mem] at hold
    change s.pool.available - 16 =
      ∑ b ∈ insert (a + size + 16) H, freeBytes (splitBlock s.mem s.pool.pcb a size) b
    rw [Finset.sum_insert hnotin, ← Finset.add_sum_erase H _ hs.mem]
    have hrest : ∑ b ∈ H.erase a, freeBytes (splitBlock s.mem s.pool.pcb a size) b =
        ∑ b ∈ H.erase a, freeBytes s.mem b := by
      refine Finset.sum_congr rfl fun b hb => ?_
      obtain ⟨hn, -, hf, -⟩ := hs.fields h (Finset.mem_of_mem_erase hb)
      simp only [freeBytes, hf, hn, if_neg (Finset.ne_of_mem_erase hb)]
    have hnew : freeBytes (splitBlock s.mem s.pool.pcb a size) (a + size + 16) =
        next s.mem a - (a + size + 16) - 16 := by
      rw [freeBytes, if_pos hfree, hnext]
    have hself : freeBytes (splitBlock s.mem s.pool.pcb a size) a = a + size + 16 - a - 16 := by
      obtain ⟨hn, -, hf, -⟩ := hs.fields h hs.mem
      rw [freeBytes, if_pos (hf.mpr hs.free), hn, if_pos rfl]
    have hfa : freeBytes s.mem a = next s.mem a - a - 16 := if_pos hs.free
    have := hs.room
    omega

end

end NuAgent.Heap
