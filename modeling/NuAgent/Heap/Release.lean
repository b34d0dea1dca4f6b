import NuAgent.Heap.Run

/-!
# Freeing blocks in any order

A coalesced pool is determined by its used blocks: the free blocks are the gaps that these leave
(`Inv.sameBlocks`). Freeing a block takes it out of the used blocks and does nothing else to them,
so the pool after a sequence of calls of `OSMFree` does not depend on their order. When the client
frees everything it holds, only the trailer is used, and the rest is one free block.
-/

namespace NuAgent.Heap

open CInt

/-! ## The normal form -/

/-- The lists of two pools agree: the same headers in the same order, with the same links and free
flags, and as many bytes available. -/
structure SameBlocks (s s' : State) : Prop where
  order : ∀ k, (next s'.mem)^[k] s'.pool.memoryList = (next s.mem)^[k] s.pool.memoryList
  next_eq : ∀ a, OnList s a → next s'.mem a = next s.mem a
  prev_eq : ∀ a, OnList s a → prev s'.mem a = prev s.mem a
  isFree_iff : ∀ a, OnList s a → (isFree s'.mem a ↔ isFree s.mem a)
  available : s'.pool.available = s.pool.available

section
variable {s s' : State} {H H' : Finset ℕ} {a : ℕ}

/-- In front of a free block stands a used one. -/
theorem Inv.prev_used (h : Inv s H) (hco : Coalesced s.mem H) (ha : a ∈ H)
    (hfree : isFree s.mem a) :
    prev s.mem a ∈ H ∧ ¬ isFree s.mem (prev s.mem a) ∧ next s.mem (prev s.mem a) = a := by
  obtain ⟨hp, hpa⟩ := h.tiling.prev_mem ha
  refine ⟨hp, fun hf => ?_, hpa⟩
  exact hco _ hp hf (by rw [hpa]; exact hfree)

/-- Where the used blocks are kept, every header is kept: a free block starts where a used one
ends. -/
theorem Inv.headers_subset (h : Inv s H) (hco : Coalesced s.mem H) (h' : Inv s' H')
    (hkeep : Keeps s H s' H') : H ⊆ H' := by
  intro a ha
  by_cases hfree : isFree s.mem a
  · obtain ⟨hp, hused, hpa⟩ := h.prev_used hco ha hfree
    obtain ⟨hp', -, hnext⟩ := hkeep _ hp hused
    rw [← hpa, ← hnext]
    exact h'.tiling.next_mem _ hp'
  · exact (hkeep a ha hfree).1

/-- Of two pools with the same headers, the links agree. -/
theorem Inv.next_eq_of_keeps (h : Inv s H) (h' : Inv s' H) (hkeep : Keeps s H s' H)
    (hback : Keeps s' H s H) (ha : a ∈ H) : next s'.mem a = next s.mem a := by
  by_cases hfree : isFree s.mem a
  · have hfree' : isFree s'.mem a := by
      by_contra hused
      exact (hback a ha hused).2.1 hfree
    -- both lead to the least header above `a`
    have hgap := h.tiling.next_gap a ha (h.ne_trailer hfree)
    have hgap' := h'.tiling.next_gap a ha (h'.ne_trailer hfree')
    have hle := h.tiling.next_least a ha _ (h'.tiling.next_mem a ha) (by omega)
    have hle' := h'.tiling.next_least a ha _ (h.tiling.next_mem a ha) (by omega)
    omega
  · exact (hkeep a ha hfree).2.2

/-- Coalesced pools with the same used blocks have the same list. -/
theorem Inv.sameBlocks (h : Inv s H) (hco : Coalesced s.mem H) (h' : Inv s' H')
    (hco' : Coalesced s'.mem H') (hlist : s'.pool.memoryList = s.pool.memoryList)
    (hkeep : Keeps s H s' H') (hback : Keeps s' H' s H) : SameBlocks s s' := by
  obtain rfl : H = H' := Finset.Subset.antisymm (h.headers_subset hco h' hkeep)
    (h'.headers_subset hco' h hback)
  have hnext : ∀ a ∈ H, next s'.mem a = next s.mem a :=
    fun a ha => h.next_eq_of_keeps h' hkeep hback ha
  have hfree : ∀ a ∈ H, (isFree s'.mem a ↔ isFree s.mem a) := by
    intro a ha
    constructor
    · intro hf'
      by_contra hused
      exact (hkeep a ha hused).2.1 hf'
    · intro hf
      by_contra hused
      exact (hback a ha hused).2.1 hf
  refine ⟨?_, fun a ha => hnext a ((h.onList_iff a).mp ha), fun a ha => ?_,
    fun a ha => hfree a ((h.onList_iff a).mp ha), ?_⟩
  · intro k
    induction k with
    | zero => exact hlist
    | succ k ih =>
      rw [Function.iterate_succ_apply', Function.iterate_succ_apply', ih]
      exact hnext _ ((h.onList_iff _).mp ⟨k, rfl⟩)
  · -- `a` is the next header of the one in front of it, in both lists
    obtain ⟨hp, hpa⟩ := h.tiling.prev_mem ((h.onList_iff a).mp ha)
    have hback := h'.tiling.prev_next _ hp
    rwa [hnext _ hp, hpa] at hback
  · rw [h.available, h'.available]
    refine Finset.sum_congr rfl fun a ha => ?_
    simp only [freeBytes, hfree a ha, hnext a ha]

end

/-! ## Freeing at any header -/

/-- The links of the headers in `H` lead to headers in `H`. -/
structure Linked (m : Mem) (H : Finset ℕ) : Prop where
  sep : ∀ a ∈ H, ∀ b ∈ H, Sep a b
  next_mem : ∀ a ∈ H, next m a ∈ H
  prev_mem : ∀ a ∈ H, prev m a ∈ H

section
variable {m : Mem} {s s' : State} {H : Finset ℕ} {a v : ℕ}

theorem Inv.linked (h : Inv s H) : Linked s.mem H :=
  ⟨fun _ ha _ hb => h.sep ha hb, h.tiling.next_mem, fun _ ha => (h.tiling.prev_mem ha).1⟩

theorem Linked.setNext (h : Linked m H) (ha : a ∈ H) (hv : v ∈ H) : Linked (setNext m a v) H where
  sep := h.sep
  next_mem b hb := by
    rw [next_setNext]
    split_ifs
    · exact hv
    · exact h.next_mem b hb
  prev_mem b hb := by
    rw [prev_setNext (h.sep a ha b hb)]
    exact h.prev_mem b hb

theorem Linked.setPrev (h : Linked m H) (ha : a ∈ H) (hv : v ∈ H) : Linked (setPrev m a v) H where
  sep := h.sep
  next_mem b hb := by
    rw [next_setPrev (h.sep a ha b hb)]
    exact h.next_mem b hb
  prev_mem b hb := by
    rw [prev_setPrev]
    split_ifs
    · exact hv
    · exact h.prev_mem b hb

theorem Linked.setFree (h : Linked m H) (ha : a ∈ H) (f : Bool) : Linked (setFree m a f) H where
  sep := h.sep
  next_mem b hb := by
    rw [next_setFree (h.sep a ha b hb)]
    exact h.next_mem b hb
  prev_mem b hb := by
    rw [prev_setFree (h.sep a ha b hb)]
    exact h.prev_mem b hb

/-- The first merge changes links only. -/
theorem Linked.mergePrev (h : Linked s.mem H) (ha : a ∈ H) :
    Linked (mergePrev s a).1.mem H ∧ (mergePrev s a).2 ∈ H ∧
      ∀ b ∈ H, isFree (mergePrev s a).1.mem b ↔ isFree s.mem b := by
  unfold Heap.mergePrev
  split_ifs
  · have h₁ := h.setNext (h.prev_mem a ha) (h.next_mem a ha)
    have h₂ := h₁.setPrev (h₁.next_mem a ha) (h₁.prev_mem a ha)
    refine ⟨h₂, h₂.prev_mem a ha, fun b hb => ?_⟩
    dsimp only
    rw [isFree_setPrev (h.sep _ (h₁.next_mem a ha) b hb),
      isFree_setNext (h.sep _ (h.prev_mem a ha) b hb)]
  · exact ⟨h, ha, fun _ _ => Iff.rfl⟩

/-- And so does the second one. -/
theorem Linked.isFree_mergeNext (h : Linked s.mem H) (ha : a ∈ H) {b : ℕ} (hb : b ∈ H) :
    isFree (mergeNext s a).mem b ↔ isFree s.mem b := by
  unfold mergeNext
  split_ifs
  · dsimp only
    rw [isFree_setNext (h.sep a ha b hb),
      isFree_setPrev (h.sep _ (h.next_mem _ (h.next_mem a ha)) b hb)]
  · exact Iff.rfl

/-- `OSMFree` of the payload of any header, used or free, the trailer included, leaves the header
marked free. -/
theorem Linked.isFree_osmFree (h : Linked s.mem H) (ha : a ∈ H) (hlt : a + 16 ≤ 2 ^ 32)
    (hcall : osmFree s (a + 16) = some s') : isFree s'.mem a := by
  have hheader : u32 (((a + 16 : ℕ) : ℤ) - dmOverhead) = a := by
    unfold dmOverhead
    rw [u32_of_lt (by omega) (by omega)]
    omega
  have hrel : Linked (releaseBlock s a).mem H := h.setFree ha true
  obtain ⟨hlinked, hmem, hflags⟩ := hrel.mergePrev ha
  unfold osmFree osFreeMem at hcall
  rw [hheader] at hcall
  dsimp only at hcall
  split_ifs at hcall
  cases hcall
  rw [hlinked.isFree_mergeNext hmem ha, hflags a ha]
  exact isFree_setFree.mpr (by rw [if_pos rfl])

end

/-! ## Freeing a list of blocks -/

/-- `OSMFree` of each block of the list in turn. -/
def osmFreeAll : State → List Block → Option State
  | s, [] => some s
  | s, b :: bs => do osmFreeAll (← osmFree s b.ptr) bs

/-- `s'` is `s` with the blocks at the pointers in `ptrs` freed, as far as used blocks go. -/
structure Released (s : State) (H : Finset ℕ) (ptrs : List ℕ) (s' : State) (H' : Finset ℕ) :
    Prop where
  keep : ∀ c ∈ H, ¬ isFree s.mem c → c + 16 ∉ ptrs →
    c ∈ H' ∧ ¬ isFree s'.mem c ∧ next s'.mem c = next s.mem c
  back : ∀ c ∈ H', ¬ isFree s'.mem c → c ∈ H ∧ ¬ isFree s.mem c ∧ c + 16 ∉ ptrs

section
variable {s s' s'' : State} {H H' H'' : Finset ℕ} {ptrs : List ℕ}

/-- The same pointers in another order leave the same used blocks. -/
theorem Released.keeps {ptrs' : List ℕ} (h : Released s H ptrs s' H')
    (h' : Released s H ptrs' s'' H'') (hmem : ∀ p, p ∈ ptrs' → p ∈ ptrs) : Keeps s' H' s'' H'' := by
  intro c hc hused
  obtain ⟨hcH, hcu, hcp⟩ := h.back c hc hused
  obtain ⟨-, -, hnext⟩ := h.keep c hcH hcu hcp
  obtain ⟨hc'', hcu'', hnext''⟩ := h'.keep c hcH hcu fun hp => hcp (hmem _ hp)
  exact ⟨hc'', hcu'', hnext''.trans hnext.symm⟩

/-- `OSMFree` changes the count of available bytes and the search pointer of the control block. -/
theorem osmFree_pool {p : ℕ} (h : osmFree s p = some s') :
    ∃ available searchPtr, s'.pool = { s.pool with available, searchPtr } := by
  unfold osmFree osFreeMem at h
  simp only at h
  split_ifs at h
  cases h
  unfold mergeNext mergePrev releaseBlock
  split_ifs <;> exact ⟨_, _, rfl⟩

/-- Freeing blocks that the client holds, each once. -/
theorem Good.freeAll {live : List Block} (h : Good (s, live) H) {bs : List Block}
    (hnodup : bs.Nodup) (hbs : bs ⊆ live) :
    ∃ s' H' available searchPtr, osmFreeAll s bs = some s' ∧ Inv s' H' ∧ Coalesced s'.mem H' ∧
      Released s H (bs.map Block.ptr) s' H' ∧
      s'.pool = { s.pool with available, searchPtr } := by
  induction bs generalizing s H live with
  | nil =>
    refine ⟨s, H, s.pool.available, s.pool.searchPtr, rfl, h.inv, h.coalesced, ⟨?_, ?_⟩, rfl⟩
    · exact fun c hc hused _ => ⟨hc, hused, rfl⟩
    · exact fun c hc hused => ⟨hc, hused, List.not_mem_nil⟩
  | cons b bs ih =>
    obtain ⟨hbnot, hnodup'⟩ := List.nodup_cons.mp hnodup
    have hb : b ∈ live := hbs List.mem_cons_self
    obtain ⟨a, ha, hptr, hused, hfit⟩ := h.live.used b hb
    have hat : a ≠ s.pool.trailer := h.inv.ne_trailer_of_le ha (by rw [← hptr]; exact hfit)
    obtain ⟨s₁, H₁, hcall, heff, hback⟩ := osmFree_spec h.inv h.coalesced ha hused hat
    rw [← hptr] at hcall
    obtain ⟨av, sp, hpool⟩ := osmFree_pool hcall
    have hgood : Good (s₁, live.erase b) H₁ := by
      refine ⟨heff.inv, heff.coalesced, (h.live.erase b).frame (fun c hc hcp => ?_) heff.keep⟩
      exact h.live.ptr_ne_of_mem_erase hb hc (hcp.trans hptr.symm)
    have hbs' : bs ⊆ live.erase b := by
      intro c hc
      have hcb : c ≠ b := fun hcb => hbnot (hcb ▸ hc)
      exact (List.mem_erase_of_ne hcb).mpr (hbs (List.mem_cons_of_mem b hc))
    obtain ⟨s₂, H₂, av', sp', hrest, hinv₂, hco₂, hrel, hpool'⟩ := ih hgood hnodup' hbs'
    refine ⟨s₂, H₂, av', sp', ?_, hinv₂, hco₂, ⟨?_, ?_⟩, ?_⟩
    · rw [osmFreeAll, hcall]
      exact hrest
    · intro c hc hcu hcp
      rw [List.map_cons, List.mem_cons, not_or, hptr] at hcp
      obtain ⟨hc₁, hcu₁, hn₁⟩ := heff.keep c hc (by omega) hcu
      obtain ⟨hc₂, hcu₂, hn₂⟩ := hrel.keep c hc₁ hcu₁ hcp.2
      exact ⟨hc₂, hcu₂, hn₂.trans hn₁⟩
    · intro c hc hcu
      obtain ⟨hc₁, hcu₁, hcp⟩ := hrel.back c hc hcu
      obtain ⟨hcH, hcuH, hca⟩ := hback c hc₁ hcu₁
      refine ⟨hcH, hcuH, ?_⟩
      rw [List.map_cons, List.mem_cons, not_or, hptr]
      exact ⟨by omega, hcp⟩
    · rw [hpool', hpool]

/-- The order in which blocks are freed does not show in the list. -/
theorem Good.freeAll_perm {live : List Block} (h : Good (s, live) H) {bs bs' : List Block}
    (hnodup : bs.Nodup) (hbs : bs ⊆ live) (hperm : bs'.Perm bs) :
    ∃ s₁ s₂, osmFreeAll s bs = some s₁ ∧ osmFreeAll s bs' = some s₂ ∧ SameBlocks s₁ s₂ := by
  obtain ⟨s₁, H₁, _, _, hcall₁, hinv₁, hco₁, hrel₁, hpool₁⟩ := h.freeAll hnodup hbs
  obtain ⟨s₂, H₂, _, _, hcall₂, hinv₂, hco₂, hrel₂, hpool₂⟩ :=
    h.freeAll (hperm.nodup_iff.mpr hnodup) fun b hb => hbs (hperm.subset hb)
  have hptrs := hperm.map Block.ptr
  refine ⟨s₁, s₂, hcall₁, hcall₂, hinv₁.sameBlocks hco₁ hinv₂ hco₂ ?_
    (hrel₁.keeps hrel₂ fun p hp => hptrs.subset hp)
    (hrel₂.keeps hrel₁ fun p hp => hptrs.symm.subset hp)⟩
  rw [hpool₁, hpool₂]

end

/-! ## Nothing is lost -/

/-- Every used header but the trailer is the header of a block that the client holds. -/
def Accounted (c : State × List Block) (H : Finset ℕ) : Prop :=
  ∀ a ∈ H, ¬ isFree c.1.mem a → a ≠ c.1.pool.trailer → ∃ b ∈ c.2, b.ptr = a + 16

section
variable {s s' : State} {H : Finset ℕ} {live : List Block}

/-- `OSMMalloc` changes the count of available bytes and the search pointer of the control block. -/
theorem osmMalloc_pool {size p : ℕ} (h : osmMalloc s size = some (p, s')) :
    ∃ available searchPtr, s'.pool = { s.pool with available, searchPtr } := by
  unfold osmMalloc osGetMem at h
  simp only [Option.bind_eq_bind, Option.bind_eq_some_iff] at h
  obtain ⟨⟨err, ptr, s₁⟩, ⟨⟨a, free⟩, -, hcall⟩, hres⟩ := h
  cases hres
  dsimp only at hcall
  split_ifs at hcall <;> cases hcall <;> exact ⟨_, _, rfl⟩

/-- Every step keeps the account. -/
theorem Good.step_accounted {c c' : State × List Block} (h : Good c H) (hacc : Accounted c H)
    (hstep : Step c c') {H' : Finset ℕ} (h' : Good c' H') : Accounted c' H' := by
  cases hstep with
  | @malloc s s' live ptr size hsize hcall =>
    obtain ⟨_, _, hpool⟩ := osmMalloc_pool hcall
    rcases osGetMem_spec h.inv h.coalesced hsize with
      ⟨hfull, -⟩ | ⟨a, s₁, H₁, hok, ha, hfree, -, heff, hfresh⟩
    · rw [osmMalloc_of_full hfull] at hcall
      cases hcall
      rwa [h'.inv.unique h.inv]
    · rw [osmMalloc_of_none hok] at hcall
      cases hcall
      obtain rfl : H' = H₁ := h'.inv.unique heff.inv
      rw [if_neg (by omega)]
      intro c hc hused hct
      by_cases hca : c = a
      · exact ⟨_, List.mem_cons_self, by rw [hca]⟩
      · have hcH : c ∈ H := by
          by_contra hnew
          exact hused (hfresh c hc hnew)
        have hct' : c ≠ s.pool.trailer := by
          intro heq
          exact hct (by rw [heq, Pool.trailer, Pool.trailer, hpool])
        obtain ⟨b, hb, hptr⟩ := hacc c hcH
          (fun hf => hused ((heff.keep c hcH hca).2.1.mpr hf)) hct'
        exact ⟨b, List.mem_cons_of_mem _ hb, hptr⟩
  | @free s s' live b hb hcall =>
    obtain ⟨a, ha, hptr, hused, hfit⟩ := h.live.used b hb
    have hat : a ≠ s.pool.trailer := h.inv.ne_trailer_of_le ha (by rw [← hptr]; exact hfit)
    obtain ⟨s₁, H₁, hok, heff, hback⟩ := osmFree_spec h.inv h.coalesced ha hused hat
    obtain ⟨_, _, hpool⟩ := osmFree_pool hcall
    rw [hptr, hok] at hcall
    cases hcall
    obtain rfl : H' = H₁ := h'.inv.unique heff.inv
    intro c hc hcu hct
    obtain ⟨hcH, hcuH, hca⟩ := hback c hc hcu
    have hct' : c ≠ s.pool.trailer := by
      intro heq
      exact hct (by rw [heq, Pool.trailer, Pool.trailer, hpool])
    obtain ⟨d, hd, hdptr⟩ := hacc c hcH hcuH hct'
    have hdb : d ≠ b := by
      rintro rfl
      omega
    exact ⟨d, (List.mem_erase_of_ne hdb).mpr hd, hdptr⟩
  | @store s live b hb addr v hlo hhi =>
    have hflag : ∀ c ∈ H, (isFree (Function.update s.mem addr v) c ↔ isFree s.mem c) := by
      intro c hc
      have := h.store_outside hb hlo hhi hc
      unfold isFree
      rw [Function.update_of_ne (by omega)]
    have hsame : Inv { s with mem := Function.update s.mem addr v } H :=
      (h.congr fun c hc i hi => Function.update_of_ne
        (by have := h.store_outside hb hlo hhi hc; omega) _ _).inv
    obtain rfl : H' = H := h'.inv.unique hsame
    intro c hc hused hct
    exact hacc c hc (fun hf => hused ((hflag c hc).mpr hf)) hct

/-- In a reachable state the client holds every used block. -/
theorem Reachable.accounted {c : State × List Block} (h : Reachable c) :
    ∃ H, Good c H ∧ Accounted c H := by
  obtain ⟨m, pcb, start, halign, hfit, hrun⟩ := h
  induction hrun with
  | refl =>
    refine ⟨_, osDMemInit_good m pcb start halign hfit, ?_⟩
    intro a ha hused hat
    have hfields := osDMemInit_fields m pcb start hfit
    rw [Finset.mem_insert, Finset.mem_singleton] at ha
    rcases ha with rfl | rfl
    · exact absurd ((hfields a (.inl rfl)).2.2.1.mpr rfl) hused
    · refine absurd ?_ hat
      dsimp only
      rw [osDMemInit_pool, Pool.trailer, dmOverhead]
      dsimp only
      omega
  | tail _ hstep ih =>
    obtain ⟨H, hgood, hacc⟩ := ih
    obtain ⟨H', hgood'⟩ := hgood.step hstep
    exact ⟨H', hgood', hgood.step_accounted hacc hstep hgood'⟩

/-- The list of a pool with nothing allocated: one free block that has all of the memory, and the
trailer. -/
structure OneFreeBlock (s : State) : Prop where
  first : s.pool.memoryList = s.pool.startAddress
  next_start : next s.mem s.pool.startAddress = s.pool.trailer
  next_trailer : next s.mem s.pool.trailer = s.pool.startAddress
  prev_start : prev s.mem s.pool.startAddress = s.pool.trailer
  prev_trailer : prev s.mem s.pool.trailer = s.pool.startAddress
  free : isFree s.mem s.pool.startAddress
  used : ¬ isFree s.mem s.pool.trailer
  payload : next s.mem s.pool.startAddress - s.pool.startAddress - dmOverhead =
    s.pool.poolSize - 2 * dmOverhead
  available : s.pool.available = s.pool.poolSize - 2 * dmOverhead

/-- A coalesced pool in which only the trailer is used is one free block. -/
theorem Inv.oneFreeBlock (h : Inv s H) (hco : Coalesced s.mem H)
    (hall : ∀ a ∈ H, ¬ isFree s.mem a → a = s.pool.trailer) : OneFreeBlock s := by
  have hroom := h.geometry.room
  have hlast : s.pool.trailer = s.pool.startAddress + s.pool.poolSize - 16 := rfl
  have hne : s.pool.startAddress ≠ s.pool.trailer := by omega
  have hstart := h.tiling.start_mem
  have hfree : isFree s.mem s.pool.startAddress := by
    by_contra hused
    exact hne (hall _ hstart hused)
  have hnext : next s.mem s.pool.startAddress = s.pool.trailer :=
    hall _ (h.tiling.next_mem _ hstart) (hco _ hstart hfree)
  have hprev := h.tiling.prev_next _ hstart
  have hprev' := h.tiling.prev_next _ h.tiling.last_mem
  rw [hnext] at hprev
  rw [h.tiling.next_last] at hprev'
  have hgap : next s.mem s.pool.startAddress - s.pool.startAddress - dmOverhead =
      s.pool.poolSize - 2 * dmOverhead := by
    rw [hnext, hlast]
    unfold dmOverhead
    omega
  refine ⟨h.geometry.memory_list, hnext, h.tiling.next_last, hprev', hprev, hfree, h.trailer_used,
    hgap, ?_⟩
  -- no other header counts
  rw [h.available, Finset.sum_eq_single_of_mem _ hstart, freeBytes, if_pos hfree]
  · exact hgap
  · intro a ha has
    by_cases hused : isFree s.mem a
    · obtain ⟨hp, hpu, hpa⟩ := h.prev_used hco ha hused
      rw [hall _ hp hpu, h.tiling.next_last] at hpa
      exact absurd hpa.symm has
    · exact if_neg hused

/-- Freeing any of the live blocks of a reachable state leaves the same list whatever the order, and
freeing all of them leaves one free block that has all of the memory. -/
theorem free_any_order (h : Reachable (s, live)) :
    (∀ bs bs' : List Block, bs.Nodup → bs ⊆ live → bs'.Perm bs →
      ∃ s₁ s₂, osmFreeAll s bs = some s₁ ∧ osmFreeAll s bs' = some s₂ ∧ SameBlocks s₁ s₂) ∧
    ∀ bs : List Block, bs.Perm live → ∃ s', osmFreeAll s bs = some s' ∧ OneFreeBlock s' := by
  obtain ⟨H, hgood, hacc⟩ := h.accounted
  refine ⟨fun bs bs' hnodup hbs hperm => hgood.freeAll_perm hnodup hbs hperm, fun bs hperm => ?_⟩
  have hnodup : bs.Nodup := hperm.nodup_iff.mpr hgood.live.nodup.of_map
  obtain ⟨s', H', _, _, hcall, hinv, hco, hrel, hpool⟩ :=
    hgood.freeAll hnodup fun b hb => hperm.subset hb
  refine ⟨s', hcall, hinv.oneFreeBlock hco fun a ha hused => ?_⟩
  obtain ⟨haH, haused, hptr⟩ := hrel.back a ha hused
  by_contra hat
  have hat' : a ≠ s.pool.trailer := by
    intro heq
    exact hat (by rw [heq, Pool.trailer, Pool.trailer, hpool])
  obtain ⟨b, hb, hbptr⟩ := hacc a haH haused hat'
  exact hptr (hbptr ▸ List.mem_map_of_mem (hperm.symm.subset hb))

end

/-- Two blocks of the fresh pool, freed in either order. -/
theorem free_any_order_two : ∃ s, Reachable (s, [⟨0x1030, 20⟩, ⟨0x1010, 10⟩]) ∧
    ∃ s', osmFreeAll s [⟨0x1010, 10⟩, ⟨0x1030, 20⟩] = some s' ∧ OneFreeBlock s' := by
  have hfirst : osmMalloc bootPool 10 = some (0x1010, takeBlock bootPool 0x1000 20448 16) := rfl
  have hsecond : osmMalloc (takeBlock bootPool 0x1000 20448 16) 20 =
      some (0x1030, takeBlock (takeBlock bootPool 0x1000 20448 16) 0x1020 20416 20) := rfl
  have hreach := (bootPool_reachable.step (.malloc 10 (by decide) hfirst)).step
    (.malloc 20 (by decide) hsecond)
  exact ⟨_, hreach, (free_any_order hreach).2 _ (.swap _ _ _)⟩

end NuAgent.Heap
