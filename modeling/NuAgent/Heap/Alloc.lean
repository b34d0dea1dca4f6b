import NuAgent.Heap.Inv

/-!
# Allocation and release

What `OSMMalloc` and `OSMFree` do to a pool that satisfies the invariant: allocation takes the front
of one free block, release joins the block to its free neighbours. Both keep the invariant, and both
leave every other used block where it is.
-/

namespace NuAgent.Heap

open CInt

section
variable {s : State} {H : Finset ℕ} {a size : ℕ}

/-! ## `OS_GetMem` -/

theorem isFree_of_freeBytes {m : Mem} (h : 16 ≤ freeBytes m a) : isFree m a := by
  by_contra hused
  rw [freeBytes, if_neg hused] at h
  omega

/-- The search ends at a header, and when it reports enough bytes they are that block's own. Every
turn brings the walk closer to the search pointer, so the pool's size is fuel enough. -/
theorem searchLoop_spec (h : Inv s H) (size fuel p : ℕ) (hp : p ∈ H)
    (hfuel : Tiling.rank s.pool.startAddress s.pool.trailer s.pool.searchPtr p ≤ fuel) :
    ∃ a free, searchLoop s.mem s.pool.searchPtr size fuel p = some (a, free) ∧
      (size ≤ free → a ∈ H ∧ free = freeBytes s.mem a) := by
  induction fuel generalizing p with
  | zero =>
    have := h.tiling.bounds p hp
    have := h.tiling.bounds _ h.search_mem
    unfold Tiling.rank at hfuel
    split_ifs at hfuel <;> omega
  | succ fuel ih =>
    rw [searchLoop]
    by_cases hsmall : freeSize s.mem p < size
    · rw [if_pos hsmall]
      by_cases hback : next s.mem p = s.pool.searchPtr
      · rw [if_neg (not_not.mpr hback)]
        refine ⟨_, _, rfl, fun hle => ?_⟩
        omega
      · rw [if_pos hback]
        have := h.tiling.rank_next_lt h.search_mem hp hback
        exact ih _ (h.tiling.next_mem p hp) (by omega)
    · rw [if_neg hsmall]
      exact ⟨_, _, rfl, fun _ => ⟨hp, h.freeSize_eq hp⟩⟩

/-- The search gives up only when it has seen every block: `p` is where the walk stands, and the
blocks behind it are too small. -/
theorem searchLoop_complete (h : Inv s H) {size fuel p a free : ℕ} (hp : p ∈ H)
    (hseen : ∀ c ∈ H,
      Tiling.rank s.pool.startAddress s.pool.trailer s.pool.searchPtr p <
        Tiling.rank s.pool.startAddress s.pool.trailer s.pool.searchPtr c →
      freeBytes s.mem c < size)
    (hloop : searchLoop s.mem s.pool.searchPtr size fuel p = some (a, free)) (hless : free < size) :
    ∀ c ∈ H, freeBytes s.mem c < size := by
  induction fuel generalizing p with
  | zero => cases hloop
  | succ fuel ih =>
    rw [searchLoop] at hloop
    by_cases hsmall : freeSize s.mem p < size
    · rw [if_pos hsmall] at hloop
      rw [h.freeSize_eq hp] at hsmall
      have hother : ∀ c ∈ H, c ≠ p → size ≤ freeBytes s.mem c →
          Tiling.rank s.pool.startAddress s.pool.trailer s.pool.searchPtr c <
            Tiling.rank s.pool.startAddress s.pool.trailer s.pool.searchPtr p := by
        intro c hc hcp hlarge
        by_contra hge
        rcases Nat.lt_or_eq_of_le (Nat.le_of_not_lt hge) with hlt | heq
        · have := hseen c hc hlt
          omega
        · exact hcp (h.tiling.rank_inj h.search_mem hp hc heq.symm)
      by_cases hback : next s.mem p = s.pool.searchPtr
      · intro c hc
        by_contra hlarge
        have hcp : c ≠ p := by
          rintro rfl
          exact hlarge hsmall
        exact (h.tiling.rank_le_next_of_lt h.search_mem hp hc
          (hother c hc hcp (by omega))).1 hback
      · rw [if_pos hback] at hloop
        refine ih (h.tiling.next_mem p hp) (fun c hc hrank => ?_) hloop
        by_contra hlarge
        have hcp : c ≠ p := by
          rintro rfl
          exact hlarge hsmall
        have := (h.tiling.rank_le_next_of_lt h.search_mem hp hc
          (hother c hc hcp (by omega))).2
        omega
    · rw [if_neg hsmall] at hloop
      cases hloop
      exact absurd hless hsmall

/-- A request becomes a multiple of the word size that is no smaller than the minimum. -/
theorem adjustSize_spec (hsize : size ≤ 2 ^ 32 - 4) :
    size ≤ adjustSize 16 size ∧ 16 ≤ adjustSize 16 size ∧ adjustSize 16 size % 4 = 0 := by
  unfold adjustSize
  by_cases hmin : size < 16
  · rw [if_pos hmin]
    omega
  · rw [if_neg hmin, u32_of_lt (by omega) (by omega)]
    omega

/-- What taking the block at `a` does: the block is used and has `size` bytes, and every other
header stays as it is. -/
structure TakeEffect (s : State) (H : Finset ℕ) (a size : ℕ) (s' : State) (H' : Finset ℕ) :
    Prop where
  inv : Inv s' H'
  coalesced : Coalesced s'.mem H'
  mem : a ∈ H'
  used : ¬ isFree s'.mem a
  large : a + 16 + size ≤ next s'.mem a
  keep : ∀ c ∈ H, c ≠ a → c ∈ H' ∧ (isFree s'.mem c ↔ isFree s.mem c) ∧
    next s'.mem c = next s.mem c

/-- Taking a block that is not worth splitting. -/
theorem takeWhole_effect (h : Inv s H) (hco : CoalescedExcept s.mem H a) (ha : a ∈ H)
    (hfree : isFree s.mem a) (hlarge : a + 16 + size ≤ next s.mem a) {searchPtr : ℕ}
    (hsearch : searchPtr ∈ H) :
    TakeEffect s H a size
      { mem := setFree s.mem a false
        pool := { s.pool with available := s.pool.available - freeBytes s.mem a, searchPtr } } H := by
  have havail := h.freeBytes_le ha
  have hflag : ∀ c ∈ H, (isFree (setFree s.mem a false) c ↔ c ≠ a ∧ isFree s.mem c) := by
    intro c hc
    rw [isFree_setFree]
    by_cases hca : c = a <;> simp [hca]
  have hnext : ∀ c ∈ H, next (setFree s.mem a false) c = next s.mem c :=
    fun c hc => next_setFree (h.sep ha hc)
  refine ⟨h.setFree ha (h.ne_trailer hfree) false _ hsearch (by simp; omega), ?_, ha, ?_, ?_, ?_⟩
  · intro c hc hcf hnf
    change isFree (setFree s.mem a false) c at hcf
    change isFree (setFree s.mem a false) (next (setFree s.mem a false) c) at hnf
    rw [hnext c hc] at hnf
    obtain ⟨hca, hcf⟩ := (hflag c hc).mp hcf
    exact hco c hc hca hcf ((hflag _ (h.tiling.next_mem c hc)).mp hnf).2
  · intro hf
    exact ((hflag a ha).mp hf).1 rfl
  · change a + 16 + size ≤ next (setFree s.mem a false) a
    rw [hnext a ha]
    exact hlarge
  · intro c hc hca
    refine ⟨hc, ?_, hnext c hc⟩
    change isFree (setFree s.mem a false) c ↔ _
    rw [hflag c hc]
    exact and_iff_right hca

/-- Taking the front of a block that is worth splitting; the rest becomes a free block. -/
theorem takeSplit_effect (h : Inv s H) (hco : Coalesced s.mem H) (hs : Splits s H a size)
    {searchPtr : ℕ} (hsearch : searchPtr ∈ insert (a + size + 16) H) :
    TakeEffect s H a size
      { mem := setFree (splitBlock s.mem s.pool.pcb a size) a false
        pool := { s.pool with available := s.pool.available - size - 16, searchPtr } }
      (insert (a + size + 16) H) ∧
    isFree (setFree (splitBlock s.mem s.pool.pcb a size) a false) (a + size + 16) := by
  have hinv := h.split hs
  have hain := Finset.mem_insert_of_mem (b := a + size + 16) hs.mem
  obtain ⟨hanext, -, hafree, -⟩ := hs.fields h hs.mem
  rw [if_pos rfl] at hanext
  have hco' : CoalescedExcept (splitBlock s.mem s.pool.pcb a size) (insert (a + size + 16) H) a := by
    intro c hc hca hcf hnf
    rcases Finset.mem_insert.mp hc with rfl | hc
    · rw [(hs.new_fields h).1] at hnf
      exact hco a hs.mem hs.free ((hs.fields h (h.tiling.next_mem a hs.mem)).2.2.1.mp hnf)
    · obtain ⟨hn, -, hf, -⟩ := hs.fields h hc
      rw [hn, if_neg hca] at hnf
      exact hco c hc (hf.mp hcf) ((hs.fields h (h.tiling.next_mem c hc)).2.2.1.mp hnf)
  have hlarge : a + 16 + size ≤ next (splitBlock s.mem s.pool.pcb a size) a := by
    rw [hanext]
    omega
  have heff := takeWhole_effect hinv hco' hain (hafree.mpr hs.free) hlarge hsearch
  have hbytes : freeBytes (splitBlock s.mem s.pool.pcb a size) a = size := by
    rw [freeBytes, if_pos (hafree.mpr hs.free), hanext]
    omega
  have havail : s.pool.available - 16 - freeBytes (splitBlock s.mem s.pool.pcb a size) a =
      s.pool.available - size - 16 := by
    omega
  refine ⟨⟨?_, heff.coalesced, heff.mem, heff.used, heff.large, ?_⟩, ?_⟩
  · rw [← havail]
    exact heff.inv
  · intro c hc hca
    obtain ⟨hmem, hflag, hnext⟩ := heff.keep c (Finset.mem_insert_of_mem hc) hca
    obtain ⟨hn, -, hf, -⟩ := hs.fields h hc
    rw [if_neg hca] at hn
    exact ⟨hmem, hflag.trans hf, hnext.trans hn⟩
  · rw [isFree_setFree, if_neg (by omega)]
    exact (hs.new_fields h).2.2.1

/-- `takeBlock` takes the front of a free block that is large enough; a header it creates is free. -/
theorem takeBlock_effect (h : Inv s H) (hco : Coalesced s.mem H) (ha : a ∈ H)
    (hmin : 16 ≤ size) (hal : size % 4 = 0) (hfit : size ≤ freeBytes s.mem a) :
    ∃ H', TakeEffect s H a size (takeBlock s a (freeBytes s.mem a) size) H' ∧
      ∀ c ∈ H', c ∉ H → isFree (takeBlock s a (freeBytes s.mem a) size).mem c := by
  have hfree : isFree s.mem a := isFree_of_freeBytes (by omega)
  have hbytes : freeBytes s.mem a = next s.mem a - a - 16 := if_pos hfree
  have hgap := h.tiling.next_gap a ha (h.ne_trailer hfree)
  have hyl := (h.tiling.bounds _ (h.tiling.next_mem a ha)).2
  have htl := h.trailer_le
  have havail := h.freeBytes_le ha
  have hbound := sum_freeBytes_le h.tiling h.trailer_used
  rw [← h.available] at hbound
  -- the block lies inside the pool, so the sum that the source compares does not wrap
  have hsize : size + 32 < 2 ^ 32 := by
    have := (h.tiling.bounds a ha).1
    have := h.geometry.size_lt
    unfold Pool.trailer dmOverhead at hyl
    omega
  have hneed : u32 ((size : ℤ) + dmOverhead + s.pool.minAllocation) = size + 32 := by
    rw [h.geometry.min_allocation]
    unfold dmOverhead
    rw [u32_of_lt (by omega) (by omega)]
    omega
  unfold takeBlock
  simp only [hneed]
  by_cases hsplit : size + 32 ≤ freeBytes s.mem a
  · have hs : Splits s H a size := ⟨ha, hfree, hmin, hal, by omega⟩
    have hpay : u32 ((s.pool.available : ℤ) - size - dmOverhead) = s.pool.available - size - 16 := by
      unfold dmOverhead
      rw [u32_of_lt (by omega) (by omega)]
      omega
    simp only [ge_iff_le, hsplit, if_true, hpay]
    have hsearch : (if s.pool.searchPtr = a then
          next (setFree (splitBlock s.mem s.pool.pcb a size) a false) a
        else s.pool.searchPtr) ∈ insert (a + size + 16) H := by
      split_ifs
      · have hinv := h.split hs
        rw [next_setFree (hinv.sep (Finset.mem_insert_of_mem ha) (Finset.mem_insert_of_mem ha))]
        exact hinv.tiling.next_mem a (Finset.mem_insert_of_mem ha)
      · exact Finset.mem_insert_of_mem h.search_mem
    obtain ⟨heff, hnew⟩ := takeSplit_effect h hco hs hsearch
    refine ⟨_, heff, fun c hc hcH => ?_⟩
    rw [(Finset.mem_insert.mp hc).resolve_right hcH]
    exact hnew
  · have hpay : u32 ((s.pool.available : ℤ) - freeBytes s.mem a) =
        s.pool.available - freeBytes s.mem a := by
      rw [u32_of_lt (by omega) (by omega)]
      omega
    simp only [ge_iff_le, hsplit, if_false, hpay]
    refine ⟨H, takeWhole_effect h (fun c hc _ => hco c hc) ha hfree (by omega) ?_,
      fun c hc hcH => absurd hc hcH⟩
    split_ifs
    · rw [next_setFree (h.sep ha ha)]
      exact h.tiling.next_mem a ha
    · exact h.search_mem

/-- `OS_GetMem` returns: with `OS_ERR_MEM_FULL` and the pool as it was when no free block has room,
else with the payload of a block that was free and has room. -/
theorem osGetMem_spec (h : Inv s H) (hco : Coalesced s.mem H) (hsize : size ≤ 2 ^ 32 - 4) :
    (osGetMem s size = some (.errMemFull, 0, s) ∧
        ∀ c ∈ H, freeBytes s.mem c < adjustSize 16 size) ∨
      ∃ a s' H', osGetMem s size = some (.errNone, a + 16, s') ∧ a ∈ H ∧ isFree s.mem a ∧
        adjustSize 16 size ≤ freeBytes s.mem a ∧
        TakeEffect s H a (adjustSize 16 size) s' H' ∧ ∀ c ∈ H', c ∉ H → isFree s'.mem c := by
  obtain ⟨-, hmin, hal⟩ := adjustSize_spec hsize
  have hfuel : Tiling.rank s.pool.startAddress s.pool.trailer s.pool.searchPtr s.pool.searchPtr ≤
      s.pool.poolSize := by
    have := h.geometry.room
    unfold Tiling.rank Pool.trailer dmOverhead
    split_ifs <;> omega
  obtain ⟨a, free, hloop, hfound⟩ :=
    searchLoop_spec h (adjustSize 16 size) _ _ h.search_mem hfuel
  unfold osGetMem
  simp only [h.geometry.min_allocation, hloop, Option.bind_eq_bind, Option.bind_some]
  by_cases hfit : adjustSize 16 size ≤ free
  · obtain ⟨ha, rfl⟩ := hfound hfit
    obtain ⟨H', heff, hfresh⟩ := takeBlock_effect h hco ha hmin hal hfit
    have hfree : isFree s.mem a := isFree_of_freeBytes (by omega)
    have hptr : u32 ((a : ℤ) + dmOverhead) = a + 16 := by
      have := h.tiling.next_gap a ha (h.ne_trailer hfree)
      have := (h.tiling.bounds _ (h.tiling.next_mem a ha)).2
      have := h.trailer_le
      unfold dmOverhead
      rw [u32_of_lt (by omega) (by omega)]
      omega
    refine .inr ⟨a, _, H', ?_, ha, hfree, hfit, heff, hfresh⟩
    simp [hfit, hptr]
  · refine .inl ⟨by simp [hfit], searchLoop_complete h h.search_mem ?_ hloop (by omega)⟩
    -- the walk starts with its whole way ahead of it
    intro c hc hrank
    have := h.tiling.bounds c hc
    have := h.tiling.bounds _ h.search_mem
    unfold Tiling.rank at hrank
    split_ifs at hrank <;> omega

theorem osmMalloc_of_full {p : ℕ} {s' : State} (h : osGetMem s size = some (.errMemFull, p, s')) :
    osmMalloc s size = some (0, s') := by
  rw [osmMalloc, h]
  rfl

theorem osmMalloc_of_none {p : ℕ} {s' : State} (h : osGetMem s size = some (.errNone, p, s')) :
    osmMalloc s size = some (p, s') := by
  rw [osmMalloc, h]
  rfl

/-- `OSMMalloc` returns: with `NULL` and the pool as it was, or with the payload of a block that was
free. -/
theorem osmMalloc_spec (h : Inv s H) (hco : Coalesced s.mem H) (hsize : size ≤ 2 ^ 32 - 4) :
    osmMalloc s size = some (0, s) ∨
      ∃ a s' H', osmMalloc s size = some (a + 16, s') ∧ a ∈ H ∧ isFree s.mem a ∧
        TakeEffect s H a (adjustSize 16 size) s' H' := by
  rcases osGetMem_spec h hco hsize with ⟨hfull, -⟩ | ⟨a, s', H', hok, ha, hfree, -, heff, -⟩
  · exact .inl (osmMalloc_of_full hfull)
  · exact .inr ⟨a, s', H', osmMalloc_of_none hok, ha, hfree, heff⟩

/-! ## `OS_FreeMem` -/

/-- `Keeps s H s' H'`: every used block of `s` is a used block of `s'` of the same extent. -/
def Keeps (s : State) (H : Finset ℕ) (s' : State) (H' : Finset ℕ) : Prop :=
  ∀ c ∈ H, ¬ isFree s.mem c → c ∈ H' ∧ ¬ isFree s'.mem c ∧ next s'.mem c = next s.mem c

theorem Keeps.refl (s : State) (H : Finset ℕ) : Keeps s H s H := fun _ hc hused => ⟨hc, hused, rfl⟩

theorem Keeps.trans {s s' s'' : State} {H H' H'' : Finset ℕ} (h : Keeps s H s' H')
    (h' : Keeps s' H' s'' H'') : Keeps s H s'' H'' := by
  intro c hc hused
  obtain ⟨hc', hused', hnext'⟩ := h c hc hused
  obtain ⟨hc'', hused'', hnext''⟩ := h' c hc' hused'
  exact ⟨hc'', hused'', hnext''.trans hnext'⟩

/-- The pool after the block at `x` has taken in its next neighbour. -/
def joined (s : State) (x : ℕ) : State where
  mem := joinNext s.mem x
  pool := { s.pool with available := s.pool.available + 16, searchPtr := x }

/-- Joining keeps the used blocks and makes no others, and it creates no new pair of free
neighbours. -/
theorem Inv.joined_keeps (h : Inv s H) (ha : a ∈ H) (hfree : isFree s.mem a)
    (hfree' : isFree s.mem (next s.mem a)) :
    Keeps s H (joined s a) (H.erase (next s.mem a)) ∧
      Keeps (joined s a) (H.erase (next s.mem a)) s H ∧
      ∀ c ∈ H.erase (next s.mem a), c ≠ a → isFree (joined s a).mem c →
        isFree (joined s a).mem (next (joined s a).mem c) →
        isFree s.mem c ∧ isFree s.mem (next s.mem c) := by
  refine ⟨?_, ?_, ?_⟩
  · intro c hc hused
    have hca : c ≠ a := fun hca => hused (hca ▸ hfree)
    have hcy : c ≠ next s.mem a := fun hcy => hused (hcy ▸ hfree')
    refine ⟨Finset.mem_erase.mpr ⟨hcy, hc⟩, ?_, ?_⟩
    · exact fun hf => hused ((h.isFree_joinNext ha hc).mp hf)
    · exact (h.next_joinNext ha hc).trans (if_neg hca)
  · intro c hc hused
    have hcH := Finset.mem_of_mem_erase hc
    have hused' : ¬ isFree s.mem c := fun hf => hused ((h.isFree_joinNext ha hcH).mpr hf)
    have hca : c ≠ a := fun hca => hused' (hca ▸ hfree)
    exact ⟨hcH, hused', ((h.next_joinNext ha hcH).trans (if_neg hca)).symm⟩
  · intro c hc hca hcf hnf
    have hcH := Finset.mem_of_mem_erase hc
    have hn : next (joined s a).mem c = next s.mem c :=
      (h.next_joinNext ha hcH).trans (if_neg hca)
    rw [hn] at hnf
    exact ⟨(h.isFree_joinNext ha hcH).mp hcf,
      (h.isFree_joinNext ha (h.tiling.next_mem c hcH)).mp hnf⟩

/-- The count of available bytes does not wrap when two blocks are joined. -/
theorem Inv.u32_joined (h : Inv (joined s a) H) :
    u32 ((s.pool.available : ℤ) + dmOverhead) = s.pool.available + 16 := by
  have hle := sum_freeBytes_le h.tiling h.trailer_used
  rw [← h.available] at hle
  have hav : (joined s a).pool.available = s.pool.available + 16 := rfl
  have := h.trailer_le
  unfold dmOverhead
  rw [u32_of_lt (by omega) (by omega)]
  omega

/-- `mergePrev` joins the block at `a` to its previous neighbour when that is free. -/
theorem mergePrev_eq (h : Inv s H) (ha : a ∈ H) (hfree : isFree s.mem a) :
    mergePrev s a =
      if isFree s.mem (prev s.mem a) then (joined s (prev s.mem a), prev s.mem a) else (s, a) := by
  obtain ⟨hx, hxa⟩ := h.tiling.prev_mem ha
  have hy := h.tiling.next_mem a ha
  unfold mergePrev
  by_cases hprev : isFree s.mem (prev s.mem a)
  · rw [if_pos hprev, if_pos hprev]
    have hgap := h.tiling.next_gap _ hx (h.ne_trailer hprev)
    have hgap' := h.tiling.next_gap _ ha (h.ne_trailer hfree)
    rw [hxa] at hgap
    have hne : a ≠ prev s.mem a := by omega
    have hne' : a ≠ next s.mem a := by omega
    have hinv := h.join hx hprev (by rw [hxa]; exact hfree)
    have hav := hinv.u32_joined
    simp only [next_setNext, prev_setNext (h.sep hx ha),
      prev_setPrev, if_neg hne, if_neg hne', hav, joined, joinNext, hxa]
  · rw [if_neg hprev, if_neg hprev]

/-- `mergeNext` joins the next neighbour to the block at `a` when it is free. -/
theorem mergeNext_eq (h : Inv s H) (ha : a ∈ H) (hfree : isFree s.mem a) :
    mergeNext s a = if isFree s.mem (next s.mem a) then joined s a else s := by
  have hy := h.tiling.next_mem a ha
  have hz := h.tiling.next_mem _ hy
  unfold mergeNext
  by_cases hnext : isFree s.mem (next s.mem a)
  · rw [if_pos hnext, if_pos hnext]
    have hav := (h.join ha hfree hnext).u32_joined
    -- the source writes the two links in the other order
    have hcomm : a ≠ next s.mem (next s.mem a) + 4 := by
      have := h.sep ha hz
      unfold Sep at this
      omega
    simp only [next_setPrev (h.sep hz hy), hav, joined, joinNext]
    simp only [setNext, setPrev]
    rw [Function.update_comm hcomm.symm]
  · rw [if_neg hnext, if_neg hnext]

/-- Marking a used block free counts its payload; only it may now have a free neighbour. -/
theorem releaseBlock_spec (h : Inv s H) (hco : Coalesced s.mem H) (ha : a ∈ H)
    (hused : ¬ isFree s.mem a) (hat : a ≠ s.pool.trailer) :
    Inv (releaseBlock s a) H ∧ isFree (releaseBlock s a).mem a ∧
      (∀ c ∈ H, c ≠ a → next s.mem c ≠ a → isFree (releaseBlock s a).mem c →
        ¬ isFree (releaseBlock s a).mem (next s.mem c)) ∧
      (∀ c ∈ H, next (releaseBlock s a).mem c = next s.mem c) ∧
      ∀ c ∈ H, c ≠ a → (isFree (releaseBlock s a).mem c ↔ isFree s.mem c) := by
  have hgap := h.tiling.next_gap a ha hat
  have hbytes : freeBytes s.mem a = 0 := if_neg hused
  have hinv := h.setFree ha hat true (s.pool.available + (next s.mem a - a - 16)) h.search_mem
    (by simp [hbytes])
  have hle := sum_freeBytes_le hinv.tiling hinv.trailer_used
  rw [← hinv.available] at hle
  have htl := h.trailer_le
  have hav : u32 ((s.pool.available : ℤ) + ((next s.mem a : ℤ) - a) - dmOverhead) =
      s.pool.available + (next s.mem a - a - 16) := by
    change s.pool.available + (next s.mem a - a - 16) ≤ s.pool.trailer - s.pool.startAddress at hle
    unfold dmOverhead
    rw [u32_of_lt (by omega) (by omega)]
    omega
  have hflag : ∀ c ∈ H, c ≠ a → (isFree (releaseBlock s a).mem c ↔ isFree s.mem c) := by
    intro c hc hca
    exact (isFree_setFree).trans (by rw [if_neg hca])
  refine ⟨?_, ?_, ?_, fun c hc => next_setFree (h.sep ha hc), hflag⟩
  · unfold releaseBlock
    simp only [next_setFree (h.sep ha ha), hav]
    exact hinv
  · exact (isFree_setFree).mpr (by rw [if_pos rfl])
  · intro c hc hca hna hcf hnf
    rw [hflag c hc hca] at hcf
    rw [hflag _ (h.tiling.next_mem c hc) hna] at hnf
    exact hco c hc hcf hnf

/-- What freeing the block at `a` does: it leaves a coalesced pool, and every other used block as it
is. -/
structure FreeEffect (s : State) (H : Finset ℕ) (a : ℕ) (s' : State) (H' : Finset ℕ) : Prop where
  inv : Inv s' H'
  coalesced : Coalesced s'.mem H'
  keep : ∀ c ∈ H, c ≠ a → ¬ isFree s.mem c →
    c ∈ H' ∧ ¬ isFree s'.mem c ∧ next s'.mem c = next s.mem c

/-- The first merge of `OS_FreeMem`. Afterwards only the resulting block may have a free next
neighbour. -/
theorem mergePrev_spec (h : Inv s H) (ha : a ∈ H) (hfree : isFree s.mem a)
    (hco : ∀ c ∈ H, c ≠ a → next s.mem c ≠ a → isFree s.mem c → ¬ isFree s.mem (next s.mem c)) :
    ∃ H', Inv (mergePrev s a).1 H' ∧ (mergePrev s a).2 ∈ H' ∧
      isFree (mergePrev s a).1.mem (mergePrev s a).2 ∧
      CoalescedExcept (mergePrev s a).1.mem H' (mergePrev s a).2 ∧ Keeps s H (mergePrev s a).1 H' ∧
      Keeps (mergePrev s a).1 H' s H := by
  obtain ⟨hp, hpa⟩ := h.tiling.prev_mem ha
  rw [mergePrev_eq h ha hfree]
  by_cases hprev : isFree s.mem (prev s.mem a)
  · have hfree' : isFree s.mem (next s.mem (prev s.mem a)) := by rw [hpa]; exact hfree
    have hinv := h.join hp hprev hfree'
    obtain ⟨hkeep, hback, hpairs⟩ := h.joined_keeps hp hprev hfree'
    rw [if_pos hprev]
    refine ⟨_, hinv, hinv.search_mem, (h.isFree_joinNext hp hp).mpr hprev, ?_, hkeep, hback⟩
    intro c hc hcp hcf hnf
    obtain ⟨hca, hcH⟩ := Finset.mem_erase.mp hc
    rw [hpa] at hca
    obtain ⟨hcf', hnf'⟩ := hpairs c hc hcp hcf hnf
    exact hco c hcH hca (fun hn => hcp (h.tiling.next_inj hcH hp (hn.trans hpa.symm))) hcf' hnf'
  · rw [if_neg hprev]
    refine ⟨H, h, ha, hfree, ?_, .refl s H, .refl s H⟩
    -- the only block linked to `a` is the previous one, which is used
    intro c hc hca hcf
    refine hco c hc hca (fun hn => hprev ?_) hcf
    rw [← hn, h.tiling.prev_next c hc]
    exact hcf

/-- The second merge of `OS_FreeMem`. Afterwards no two neighbours are free. -/
theorem mergeNext_spec (h : Inv s H) (ha : a ∈ H) (hfree : isFree s.mem a)
    (hco : CoalescedExcept s.mem H a) :
    ∃ H', Inv (mergeNext s a) H' ∧ Coalesced (mergeNext s a).mem H' ∧
      Keeps s H (mergeNext s a) H' ∧ Keeps (mergeNext s a) H' s H := by
  rw [mergeNext_eq h ha hfree]
  by_cases hnext : isFree s.mem (next s.mem a)
  · obtain ⟨hkeep, hback, hpairs⟩ := h.joined_keeps ha hfree hnext
    rw [if_pos hnext]
    refine ⟨_, h.join ha hfree hnext, ?_, hkeep, hback⟩
    intro c hc hcf hnf
    by_cases hca : c = a
    · -- the block that was joined was free, so the one behind it is not
      subst hca
      have hy := h.tiling.next_mem c ha
      have hne : next s.mem c ≠ c := by
        have := h.tiling.next_gap c ha (h.ne_trailer hfree)
        omega
      have hn : next (joined s c).mem c = next s.mem (next s.mem c) :=
        (h.next_joinNext ha ha).trans (if_pos rfl)
      rw [hn] at hnf
      exact hco _ hy hne hnext ((h.isFree_joinNext ha (h.tiling.next_mem _ hy)).mp hnf)
    · obtain ⟨hcf', hnf'⟩ := hpairs c hc hca hcf hnf
      exact hco c (Finset.mem_of_mem_erase hc) hca hcf' hnf'
  · rw [if_neg hnext]
    refine ⟨H, h, ?_, .refl s H, .refl s H⟩
    intro c hc hcf
    by_cases hca : c = a
    · rw [hca]
      exact hnext
    · exact hco c hc hca hcf

/-- `OSMFree` of a used block returns, and no other block becomes free or used. -/
theorem osmFree_spec (h : Inv s H) (hco : Coalesced s.mem H) (ha : a ∈ H)
    (hused : ¬ isFree s.mem a) (hat : a ≠ s.pool.trailer) :
    ∃ s' H', osmFree s (a + 16) = some s' ∧ FreeEffect s H a s' H' ∧
      ∀ c ∈ H', ¬ isFree s'.mem c → c ∈ H ∧ ¬ isFree s.mem c ∧ c ≠ a := by
  obtain ⟨hinv, hfree, hpairs, hnext, hflag⟩ := releaseBlock_spec h hco ha hused hat
  obtain ⟨H₁, hinv₁, hmem₁, hfree₁, hco₁, hkeep₁, hback₁⟩ := mergePrev_spec hinv ha hfree (by
    intro c hc hca hna
    rw [hnext c hc] at hna ⊢
    exact hpairs c hc hca hna)
  obtain ⟨H', hinv', hco', hkeep₂, hback₂⟩ := mergeNext_spec hinv₁ hmem₁ hfree₁ hco₁
  have hkeep := hkeep₁.trans hkeep₂
  have hback := hback₂.trans hback₁
  have hptr : u32 (((a + 16 : ℕ) : ℤ) - dmOverhead) = a := by
    have := (h.tiling.bounds a ha).2
    have := h.trailer_le
    unfold dmOverhead
    rw [u32_of_lt (by omega) (by omega)]
    omega
  refine ⟨_, H', ?_, ⟨hinv', hco', ?_⟩, ?_⟩
  · unfold osmFree osFreeMem
    simp only [hptr, h.owner a ha, ne_eq, not_true_eq_false, if_false]
  · intro c hc hca hcu
    obtain ⟨hc', hcu', hn'⟩ := hkeep c hc (fun hf => hcu ((hflag c hc hca).mp hf))
    exact ⟨hc', hcu', hn'.trans (hnext c hc)⟩
  · intro c hc hcu
    obtain ⟨hcH, hcu', -⟩ := hback c hc hcu
    have hca : c ≠ a := fun hca => hcu' (hca ▸ hfree)
    exact ⟨hcH, fun hf => hcu' ((hflag c hcH hca).mpr hf), hca⟩

end

end NuAgent.Heap
