import NuAgent.Heap.Search

/-!
# Sizes that wrap

`OSMMalloc` rounds its size up and `OSMCalloc` multiplies its arguments in 32 bits, without a test.
Above `2 ^ 32 - 4` the rounded size is zero, and a request for no bytes is satisfied by whatever
block the search pointer stands on, used or free, the trailer included. A product that wraps is a
request for too few bytes. `sizes_iff` says exactly which requests are answered rightly.
-/

namespace NuAgent.Heap

open CInt

/-! ## The property -/

/-- `ptr` and `s'` are a right answer to a request for `n` bytes in `s`: `NULL`, or the payload of a
block that was free in `s` and has room for `n` bytes in `s'`. -/
def Answers (s : State) (n ptr : ℕ) (s' : State) : Prop :=
  ptr ≠ 0 → ∃ a, OnList s a ∧ isFree s.mem a ∧ ptr = a + dmOverhead ∧ ptr + n ≤ next s'.mem a

/-- `OSMMalloc` answers rightly. -/
def MallocRight (s : State) (size : ℕ) : Prop :=
  ∃ ptr s', osmMalloc s size = some (ptr, s') ∧ Answers s size ptr s'

/-- `OSMCalloc` answers rightly, for the product as an unbounded number. -/
def CallocRight (s : State) (count size : ℕ) : Prop :=
  ∃ ptr s', osmCalloc s count size = some (ptr, s') ∧ Answers s (count * size) ptr s'

/-- The heap has nothing for a request of `n` bytes. A request whose rounded size is zero gets the
block at the search pointer, unless its payload starts at the end of memory, which is `NULL`. -/
def Refused (s : State) (n : ℕ) : Prop :=
  if n ≤ 2 ^ 32 - 4 then ¬ HasRoom s (adjustedSize s.pool.minAllocation n)
  else s.pool.searchPtr + dmOverhead = 2 ^ 32

/-! ## Requests that wrap -/

section
variable {s s' : State} {H : Finset ℕ} {live : List Block} {size n ptr : ℕ}

/-- The block that a request for no bytes takes ends where it begins, or where it ended before. -/
theorem next_takeBlock_zero (s : State) (a free : ℕ) :
    next (takeBlock s a free 0).mem a = u32 (a + (0 : ℕ) + dmOverhead) ∨
      next (takeBlock s a free 0).mem a = next s.mem a := by
  unfold takeBlock
  dsimp only
  rw [next_setFree (.refl a)]
  split_ifs
  · refine .inl ?_
    rw [splitBlock, next_setNext, if_pos rfl]
  · exact .inr rfl

/-- A request above `2 ^ 32 - 4` takes the block at the search pointer. -/
theorem osmMalloc_wraps (h : Inv s H) (hbig : 2 ^ 32 - 4 < size) (hlt : size < 2 ^ 32) :
    osmMalloc s size = some (u32 (s.pool.searchPtr + dmOverhead),
      takeBlock s s.pool.searchPtr (freeSize s.mem s.pool.searchPtr) 0) := by
  have hzero : adjustSize s.pool.minAllocation size = 0 := by
    rw [h.geometry.min_allocation]
    unfold adjustSize u32 unsigned
    rw [if_neg (by omega)]
    omega
  obtain ⟨fuel, hfuel⟩ : ∃ fuel, s.pool.poolSize = fuel + 1 :=
    ⟨s.pool.poolSize - 1, by have := h.geometry.room; omega⟩
  refine osmMalloc_of_none ?_
  unfold osGetMem
  simp only [hzero, hfuel, searchLoop, Nat.not_lt_zero, if_false, Option.bind_eq_bind,
    Option.bind_some, ge_iff_le, Nat.zero_le, if_true]

/-- Such an answer is wrong unless it is `NULL`; what the caller stores afterwards makes no
difference as long as it does not raise the link. -/
theorem answers_wraps_iff (h : Inv s H) (s' : State) (hbig : 2 ^ 32 - 4 < n)
    (hle : next s'.mem s.pool.searchPtr ≤
      next (takeBlock s s.pool.searchPtr (freeSize s.mem s.pool.searchPtr) 0).mem
        s.pool.searchPtr) :
    Answers s n (u32 (s.pool.searchPtr + dmOverhead)) s' ↔
      s.pool.searchPtr + dmOverhead = 2 ^ 32 := by
  have hsp := (h.tiling.bounds _ h.search_mem).2
  have htl := h.trailer_le
  have hnext := (h.tiling.bounds _ (h.tiling.next_mem _ h.search_mem)).2
  constructor
  · intro hans
    by_contra hend
    unfold dmOverhead at hend
    have hptr : u32 (s.pool.searchPtr + dmOverhead) = s.pool.searchPtr + 16 := by
      unfold dmOverhead
      rw [u32_of_lt (by omega) (by omega)]
      omega
    rw [hptr] at hans
    obtain ⟨a, -, hfree, ha, hroom⟩ := hans (by omega)
    obtain rfl : s.pool.searchPtr = a := by
      unfold dmOverhead at ha
      omega
    rcases next_takeBlock_zero s s.pool.searchPtr (freeSize s.mem s.pool.searchPtr) with hn | hn
    · have hnew : u32 ((s.pool.searchPtr : ℤ) + (0 : ℕ) + dmOverhead) = s.pool.searchPtr + 16 := by
        unfold dmOverhead
        rw [u32_of_lt (by omega) (by omega)]
        omega
      omega
    · omega
  · intro hend hne
    have hzero : u32 (s.pool.searchPtr + dmOverhead) = 0 := by
      unfold dmOverhead u32 unsigned at *
      omega
    exact absurd hzero hne

/-- A request up to `2 ^ 32 - 4` for the `w` low bits of `n` is a right answer for `n` bytes iff `n`
did not wrap or the request is refused. -/
theorem answers_iff (h : Inv s H) (hco : Coalesced s.mem H) (hsize : size ≤ 2 ^ 32 - 4)
    (hn : n % 2 ^ 32 = size) (hcall : osmMalloc s size = some (ptr, s')) (m' : Mem)
    (hkeep : ∀ a, a + 16 = ptr → next m' a = next s'.mem a) :
    Answers s n ptr { s' with mem := m' } ↔ n ≤ 2 ^ 32 - 4 ∨ Refused s size := by
  have hpos : 0 < adjustedSize s.pool.minAllocation size := by
    rw [h.geometry.min_allocation]
    exact adjustedSize_pos (by decide) size
  rw [Refused, if_pos hsize, h.hasRoom_iff hpos, h.geometry.min_allocation, ← adjustSize_eq hsize]
  rcases osGetMem_spec h hco hsize with ⟨hfull, hsmall⟩ | ⟨a, s₁, H₁, hok, ha, hfree, hfit, heff, -⟩
  · rw [osmMalloc_of_full hfull] at hcall
    cases hcall
    refine iff_of_true (fun hne => absurd rfl hne) (.inr ?_)
    rintro ⟨a, ha, hfit⟩
    exact absurd (hsmall a ha) (Nat.not_lt_of_le hfit)
  · rw [osmMalloc_of_none hok] at hcall
    cases hcall
    have hadj := (adjustSize_spec hsize).1
    have hlarge := heff.large
    have hend := (heff.inv.tiling.bounds _ (heff.inv.tiling.next_mem a heff.mem)).2
    have htl := heff.inv.trailer_le
    have hroom : ¬ ¬ ∃ a ∈ H, adjustSize 16 size ≤ freeBytes s.mem a := not_not.mpr ⟨a, ha, hfit⟩
    rw [or_iff_left hroom]
    constructor
    · intro hans
      obtain ⟨b, -, -, hb, hroom⟩ := hans (by omega)
      obtain rfl : a = b := by
        unfold dmOverhead at hb
        omega
      rw [hkeep a rfl] at hroom
      omega
    · intro hle _
      refine ⟨a, (h.onList_iff a).mpr ha, hfree, rfl, ?_⟩
      rw [hkeep a rfl]
      omega

/-! ## Clearing a block -/

/-- Clearing a block leaves a header in front of it as it is. -/
theorem next_memset {m : Mem} {a p : ℕ} (h : a < p) : next (memset m p n) a = next m a :=
  if_neg (by omega)

theorem next_memset_le (m : Mem) (a p n : ℕ) : next (memset m p n) a ≤ next m a := by
  unfold next memset
  split_ifs
  · exact Nat.zero_le _
  · exact Nat.le_refl _

theorem memset_succ (m : Mem) (p n : ℕ) :
    memset m p (n + 1) = Function.update (memset m p n) (p + n) 0 := by
  funext a
  by_cases ha : a = p + n
  · subst ha
    rw [Function.update_self, memset, if_pos (by omega)]
  · rw [Function.update_of_ne ha, memset, memset]
    by_cases hin : p ≤ a ∧ a < p + n
    · rw [if_pos hin, if_pos (by omega)]
    · rw [if_neg hin, if_neg (by omega)]

/-- A product up to `2 ^ 32 - 4` is a request that a run may make: `OSMCalloc` is then a call of
`OSMMalloc` and a row of stores into the block. -/
theorem Reachable.calloc (h : Reachable (s, live)) {count : ℕ} (hsize : count * size ≤ 2 ^ 32 - 4)
    (hcall : osmCalloc s count size = some (ptr, s')) :
    Reachable (s', if ptr = 0 then live else ⟨ptr, count * size⟩ :: live) := by
  have hmul : u32 ((count : ℤ) * size) = count * size := by
    rw [← Nat.cast_mul, u32_of_lt (by omega) (by omega)]
    omega
  unfold osmCalloc at hcall
  rw [hmul] at hcall
  simp only [Option.bind_eq_bind, Option.bind_eq_some_iff] at hcall
  obtain ⟨⟨p, s₁⟩, hmalloc, hres⟩ := hcall
  have hreach := h.step (.malloc _ hsize hmalloc)
  by_cases hp : p = 0
  · rw [if_neg (not_not.mpr hp)] at hres
    cases hres
    exact hreach
  · rw [if_pos hp] at hres
    cases hres
    rw [if_neg hp] at hreach ⊢
    -- the stores clear the block from its start on
    have hstores : ∀ k ≤ count * size, Reachable ({ s₁ with mem := memset s₁.mem p k },
        ⟨p, count * size⟩ :: live) := by
      intro k hk
      induction k with
      | zero =>
        have hnone : memset s₁.mem p 0 = s₁.mem := by
          funext a
          exact if_neg (by omega)
        rw [hnone]
        exact hreach
      | succ k ih =>
        rw [memset_succ]
        exact (ih (by omega)).step
          (.store ⟨p, count * size⟩ List.mem_cons_self (p + k) 0 (by dsimp only; omega)
            (by dsimp only; omega))
    exact hstores _ (Nat.le_refl _)

/-- Taking a used block for no bytes leaves the memory as it is. -/
theorem takeBlock_used (h : Inv s H) {a : ℕ} (hused : ¬ isFree s.mem a) :
    (takeBlock s a (freeSize s.mem a) 0).mem = s.mem := by
  have hzero : s.mem (a + 8) = 0 := not_not.mp hused
  have hfree : freeSize s.mem a = 0 := if_neg hused
  have hsplit : ¬ 0 ≥ u32 (((0 : ℕ) : ℤ) + dmOverhead + s.pool.minAllocation) := by
    rw [h.geometry.min_allocation]
    decide
  unfold takeBlock
  rw [hfree]
  simp only [if_neg hsplit]
  unfold setFree
  rw [Bool.toNat_false, ← hzero]
  exact Function.update_eq_self _ _

/-- Whatever the size, a pointer from `OSMMalloc` is the payload of a header: of one that was free,
or of one that is left as it was. -/
theorem osmMalloc_header (h : Inv s H) (hco : Coalesced s.mem H) (hlt : size < 2 ^ 32) :
    ∃ ptr s', osmMalloc s size = some (ptr, s') ∧
      (ptr ≠ 0 → ∃ a ∈ H, ptr = a + 16 ∧ a + 16 ≤ 2 ^ 32 ∧ (isFree s.mem a ∨ s'.mem = s.mem)) := by
  have hend : ∀ a ∈ H, a + 16 ≤ 2 ^ 32 := fun a ha => by
    have := (h.tiling.bounds a ha).2
    have := h.trailer_le
    omega
  rcases Nat.lt_or_ge (2 ^ 32 - 4) size with hbig | hsize
  · refine ⟨_, _, osmMalloc_wraps h hbig hlt, fun hne => ?_⟩
    have hle := hend _ h.search_mem
    have hptr : u32 (s.pool.searchPtr + dmOverhead) = s.pool.searchPtr + 16 := by
      unfold dmOverhead u32 unsigned at *
      omega
    refine ⟨_, h.search_mem, hptr, hle, ?_⟩
    by_cases hfree : isFree s.mem s.pool.searchPtr
    · exact .inl hfree
    · exact .inr (takeBlock_used h hfree)
  · rcases osmMalloc_spec h hco hsize with hfull | ⟨a, s', H', hok, ha, hfree, -⟩
    · exact ⟨_, _, hfull, fun hne => absurd rfl hne⟩
    · exact ⟨_, _, hok, fun _ => ⟨a, ha, rfl, hend a ha, .inl hfree⟩⟩

/-! ## Which requests are answered rightly -/

/-- In every reachable state and for all 32-bit arguments, `OSMMalloc` and `OSMCalloc` answer rightly
iff the number of bytes is at most `2 ^ 32 - 4` or the heap refuses the request that is left of it
in 32 bits. -/
theorem sizes_iff (h : Reachable (s, live)) :
    (∀ size < 2 ^ 32, MallocRight s size ↔ size ≤ 2 ^ 32 - 4 ∨ Refused s size) ∧
    ∀ count < 2 ^ 32, ∀ size < 2 ^ 32, CallocRight s count size ↔
      count * size ≤ 2 ^ 32 - 4 ∨ Refused s (count * size % 2 ^ 32) := by
  obtain ⟨H, hgood⟩ := h.good
  have hinv := hgood.inv
  refine ⟨fun size hlt => ?_, fun count hcount size hlt => ?_⟩
  · unfold MallocRight
    by_cases hsize : size ≤ 2 ^ 32 - 4
    · obtain ⟨⟨ptr, s'⟩, hcall⟩ := hgood.sound.malloc_returns size hsize
      have hiff := answers_iff hinv hgood.coalesced hsize (Nat.mod_eq_of_lt hlt) hcall s'.mem
        fun _ _ => rfl
      rw [← hiff, hcall]
      simp
    · rw [osmMalloc_wraps hinv (by omega) hlt, Refused, if_neg hsize, or_iff_right hsize,
        ← answers_wraps_iff hinv _ (n := size) (by omega) (Nat.le_refl _)]
      simp
  · have hmod : u32 ((count : ℤ) * size) = count * size % 2 ^ 32 := by
      rw [← Nat.cast_mul]
      exact unsigned_natCast 32 _
    have hwlt : count * size % 2 ^ 32 < 2 ^ 32 := Nat.mod_lt _ (by decide)
    unfold CallocRight osmCalloc
    rw [hmod]
    by_cases hsize : count * size % 2 ^ 32 ≤ 2 ^ 32 - 4
    · obtain ⟨⟨ptr, s'⟩, hcall⟩ := hgood.sound.malloc_returns _ hsize
      have hiff := answers_iff hinv hgood.coalesced hsize rfl hcall
        (memset s'.mem ptr (count * size % 2 ^ 32)) fun a ha => next_memset (by omega)
      rw [← hiff, hcall]
      by_cases hp : ptr = 0
      · subst hp
        simp [Answers]
      · simp [hp]
    · have hbig : 2 ^ 32 - 4 < count * size := by
        have := Nat.mod_le (count * size) (2 ^ 32)
        omega
      rw [osmMalloc_wraps hinv (by omega) hwlt, Refused, if_neg hsize, or_iff_right (by omega)]
      by_cases hp : u32 (s.pool.searchPtr + dmOverhead) = 0
      · rw [← answers_wraps_iff hinv _ hbig (Nat.le_refl _), hp]
        simp
      · rw [← answers_wraps_iff hinv
          { takeBlock s s.pool.searchPtr (freeSize s.mem s.pool.searchPtr) 0 with
            mem := memset _ (u32 (s.pool.searchPtr + dmOverhead)) (count * size % 2 ^ 32) }
          hbig (next_memset_le _ _ _ _)]
        simp [hp]

end

/-- On the fresh pool: 10 times 20 bytes are cleared and handed out, `2 ^ 32 - 1` bytes are not. -/
theorem sizes_iff_boot : CallocRight bootPool 10 20 ∧ ¬ MallocRight bootPool (2 ^ 32 - 1) := by
  have hiff := sizes_iff bootPool_reachable
  refine ⟨(hiff.2 10 (by decide) 20 (by decide)).mpr (.inl (by decide)), fun hright => ?_⟩
  rcases (hiff.1 (2 ^ 32 - 1) (by decide)).mp hright with hle | hrefused
  · exact absurd hle (by decide)
  · rw [Refused, if_neg (by decide)] at hrefused
    exact absurd hrefused (by decide)

/-- `OSMMalloc(0xFFFFFFFF)` on the fresh pool returns the payload of a block of no bytes. -/
theorem sizes_wrap : ¬ ∀ s live, Reachable (s, live) →
    (∀ size < 2 ^ 32, MallocRight s size) ∧
      ∀ count < 2 ^ 32, ∀ size < 2 ^ 32, CallocRight s count size := by
  intro hall
  obtain ⟨ptr, s', hcall, hans⟩ := (hall _ _ bootPool_reachable).1 (2 ^ 32 - 1) (by decide)
  have hval : osmMalloc bootPool (2 ^ 32 - 1) =
      some (0x1010, takeBlock bootPool 0x1000 20448 0) := rfl
  rw [hval] at hcall
  cases hcall
  obtain ⟨a, -, -, ha, hroom⟩ := hans (by decide)
  obtain rfl : a = 0x1000 := by
    unfold dmOverhead at ha
    omega
  have hend : next (takeBlock bootPool 0x1000 20448 0).mem 0x1000 = 0x1010 := rfl
  omega

end NuAgent.Heap
