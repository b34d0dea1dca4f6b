import Mathlib.Logic.Relation
import NuAgent.Heap.Alloc

/-!
# Runs of the pool

A client calls `OSMMalloc` and `OSMFree` in any order, frees what it holds and nothing else, and
stores into the blocks it holds. Every state it reaches satisfies the invariant of the pool, and its
blocks are the payloads of used headers.
-/

namespace NuAgent.Heap

open CInt

/-- A block that a client holds: the pointer it was given and the size it had asked for. -/
structure Block where
  ptr : ℕ
  size : ℕ
deriving DecidableEq, Repr

/-! ## Live blocks -/

/-- Every live block is the payload of a used header, and of no other live block's. -/
structure Live (m : Mem) (H : Finset ℕ) (live : List Block) : Prop where
  used : ∀ b ∈ live, ∃ a ∈ H, b.ptr = a + 16 ∧ ¬ isFree m a ∧ b.ptr + b.size ≤ next m a
  nodup : (live.map Block.ptr).Nodup

section
variable {m m' : Mem} {H H' : Finset ℕ} {live : List Block} {x : ℕ}

/-- Live blocks stay live when their headers stay as they are; `x` is a header that may change. -/
theorem Live.frame (h : Live m H live) (hx : ∀ b ∈ live, b.ptr ≠ x + 16)
    (keep : ∀ c ∈ H, c ≠ x → ¬ isFree m c → c ∈ H' ∧ ¬ isFree m' c ∧ next m' c = next m c) :
    Live m' H' live := by
  refine ⟨?_, h.nodup⟩
  intro b hb
  obtain ⟨a, ha, hptr, hused, hfit⟩ := h.used b hb
  have hax : a ≠ x := by
    rintro rfl
    exact hx b hb hptr
  obtain ⟨ha', hused', hnext⟩ := keep a ha hax hused
  exact ⟨a, ha', hptr, hused', by rw [hnext]; exact hfit⟩

/-- The blocks that stay after one is freed have other pointers. -/
theorem Live.ptr_ne_of_mem_erase (h : Live m H live) {b c : Block} (hb : b ∈ live)
    (hc : c ∈ live.erase b) : c.ptr ≠ b.ptr := by
  intro hptr
  have hperm := (List.perm_cons_erase hb).map Block.ptr
  have hnd := hperm.nodup_iff.mp h.nodup
  rw [List.map_cons, List.nodup_cons] at hnd
  exact hnd.1 (hptr ▸ List.mem_map_of_mem hc)

theorem Live.erase (h : Live m H live) (b : Block) : Live m H (live.erase b) :=
  ⟨fun c hc => h.used c (List.mem_of_mem_erase hc),
    h.nodup.sublist (List.erase_sublist.map Block.ptr)⟩

end

/-! ## Runs -/

/-- One step of a run: a call of the pool's interface or a client's store into a block it holds. -/
inductive Step : State × List Block → State × List Block → Prop
  | malloc {s s' live ptr} (size : ℕ) (hsize : size ≤ 2 ^ 32 - 4)
      (hcall : osmMalloc s size = some (ptr, s')) :
      Step (s, live) (s', if ptr = 0 then live else ⟨ptr, size⟩ :: live)
  | free {s s' live} (b : Block) (hb : b ∈ live) (hcall : osmFree s b.ptr = some s') :
      Step (s, live) (s', live.erase b)
  | store {s live} (b : Block) (hb : b ∈ live) (addr v : ℕ) (hlo : b.ptr ≤ addr)
      (hhi : addr < b.ptr + b.size) :
      Step (s, live) ({ s with mem := Function.update s.mem addr v }, live)

/-- The pool and the client's blocks agree. -/
structure Good (c : State × List Block) (H : Finset ℕ) : Prop where
  inv : Inv c.1 H
  coalesced : Coalesced c.1.mem H
  live : Live c.1.mem H c.2

section
variable {s : State} {H : Finset ℕ} {live : List Block}

/-- The header of a live block is not the trailer, which leads back to the start of the pool. -/
theorem Inv.ne_trailer_of_le (h : Inv s H) {a n : ℕ} (ha : a ∈ H)
    (hfit : a + 16 + n ≤ next s.mem a) : a ≠ s.pool.trailer := by
  rintro rfl
  rw [h.tiling.next_last] at hfit
  have := (h.tiling.bounds _ ha).1
  omega

/-- The payload of a live block and a header do not overlap. -/
theorem Good.off_headers (h : Good (s, live) H) {b : Block} (hb : b ∈ live) {a : ℕ} (ha : a ∈ H) :
    a + 16 ≤ b.ptr ∨ next s.mem (b.ptr - 16) ≤ a := by
  obtain ⟨x, hx, hptr, -, -⟩ := h.live.used b hb
  have hbx : b.ptr - 16 = x := by omega
  rw [hbx]
  rcases Nat.lt_or_ge x a with hlt | hge
  · exact .inr (h.inv.tiling.next_least x hx a ha hlt)
  · by_cases hax : a = x
    · omega
    · have := h.inv.tiling.apart ha hx hax
      omega

/-- A store into a live block touches no header. -/
theorem Good.store_outside (h : Good (s, live) H) {b : Block} (hb : b ∈ live) {addr : ℕ}
    (hlo : b.ptr ≤ addr) (hhi : addr < b.ptr + b.size) {c : ℕ} (hc : c ∈ H) :
    addr < c ∨ c + 16 ≤ addr := by
  obtain ⟨a, -, hptr, -, hfit⟩ := h.live.used b hb
  have hba : b.ptr - 16 = a := by omega
  have hoff := h.off_headers hb hc
  rw [hba] at hoff
  dsimp only at hfit
  omega

/-- The invariant reads the memory at the headers alone. -/
theorem Good.congr (h : Good (s, live) H) {m' : Mem}
    (hm : ∀ c ∈ H, ∀ i < 16, m' (c + i) = s.mem (c + i)) : Good ({ s with mem := m' }, live) H := by
  have hnext : ∀ c ∈ H, next m' c = next s.mem c := fun c hc => hm c hc 0 (by decide)
  have hprev : ∀ c ∈ H, prev m' c = prev s.mem c := fun c hc => hm c hc 4 (by decide)
  have hfree : ∀ c ∈ H, (isFree m' c ↔ isFree s.mem c) := by
    intro c hc
    unfold isFree
    rw [hm c hc 8 (by decide)]
  have hpool : ∀ c ∈ H, poolOf m' c = poolOf s.mem c := fun c hc => hm c hc 12 (by decide)
  refine ⟨⟨h.inv.geometry, h.inv.tiling.congr hnext hprev, h.inv.aligned, ?_, ?_,
    h.inv.search_mem, ?_⟩, ?_, ⟨?_, h.live.nodup⟩⟩
  · intro c hc
    exact (hpool c hc).trans (h.inv.owner c hc)
  · exact fun hf => h.inv.trailer_used ((hfree _ h.inv.tiling.last_mem).mp hf)
  · refine h.inv.available.trans (Finset.sum_congr rfl fun c hc => ?_)
    simp only [freeBytes, hfree c hc, hnext c hc]
  · intro c hc hcf hnf
    change isFree m' (next m' c) at hnf
    rw [hnext c hc] at hnf
    exact h.coalesced c hc ((hfree c hc).mp hcf) ((hfree _ (h.inv.tiling.next_mem c hc)).mp hnf)
  · intro b hb
    obtain ⟨a, ha, hptr, hused, hfit⟩ := h.live.used b hb
    exact ⟨a, ha, hptr, fun hf => hused ((hfree a ha).mp hf), hfit.trans_eq (hnext a ha).symm⟩

/-- Every step keeps the pool and the client's blocks in agreement. -/
theorem Good.step {c c' : State × List Block} (h : Good c H) (hstep : Step c c') :
    ∃ H', Good c' H' := by
  cases hstep with
  | @malloc s s' live ptr size hsize hcall =>
    rcases osmMalloc_spec h.inv h.coalesced hsize with hfull | ⟨a, s₁, H', hok, ha, hfree, heff⟩
    · rw [hfull] at hcall
      cases hcall
      exact ⟨H, h⟩
    · rw [hok] at hcall
      cases hcall
      rw [if_neg (by omega)]
      -- the block was free, so no live block has its pointer
      have hnew : ∀ b ∈ live, b.ptr ≠ a + 16 := by
        intro b hb hptr
        obtain ⟨a', -, hptr', hused, -⟩ := h.live.used b hb
        have : a' = a := by omega
        exact hused (this ▸ hfree)
      have hlive : Live s'.mem H' live := by
        refine h.live.frame hnew fun c hc hca hused => ?_
        obtain ⟨hc', hflag, hnext⟩ := heff.keep c hc hca
        exact ⟨hc', fun hf => hused (hflag.mp hf), hnext⟩
      refine ⟨H', heff.inv, heff.coalesced, ?_, ?_⟩
      · intro b hb
        rcases List.mem_cons.mp hb with rfl | hb
        · have := (adjustSize_spec hsize).1
          have := heff.large
          exact ⟨a, heff.mem, rfl, heff.used, by dsimp only; omega⟩
        · exact hlive.used b hb
      · rw [List.map_cons, List.nodup_cons]
        refine ⟨fun hin => ?_, hlive.nodup⟩
        obtain ⟨b, hb, hptr⟩ := List.mem_map.mp hin
        exact hnew b hb hptr
  | @free s s' live b hb hcall =>
    obtain ⟨a, ha, hptr, hused, hfit⟩ := h.live.used b hb
    have hat : a ≠ s.pool.trailer := h.inv.ne_trailer_of_le ha (by rw [← hptr]; exact hfit)
    obtain ⟨s₁, H', hok, heff, -⟩ := osmFree_spec h.inv h.coalesced ha hused hat
    rw [hptr, hok] at hcall
    cases hcall
    refine ⟨H', heff.inv, heff.coalesced, (h.live.erase b).frame ?_ heff.keep⟩
    intro c hc hcp
    exact h.live.ptr_ne_of_mem_erase hb hc (hcp.trans hptr.symm)
  | @store s live b hb addr v hlo hhi =>
    refine ⟨H, h.congr fun c hc i hi => Function.update_of_ne ?_ _ _⟩
    have := h.store_outside hb hlo hhi hc
    omega

end

/-- The fields that `OS_DMemInit` gives to the two headers it builds. -/
theorem osDMemInit_fields (m : Mem) (pcb start : ℕ) (hfit : start + dmemPoolSize ≤ 2 ^ 32) :
    ∀ b, b = start ∨ b = start + 20464 →
      next (osDMemInit m pcb start).mem b = (if b = start then start + 20464 else start) ∧
      prev (osDMemInit m pcb start).mem b = (if b = start then start + 20464 else start) ∧
      (isFree (osDMemInit m pcb start).mem b ↔ b = start) ∧
      poolOf (osDMemInit m pcb start).mem b = pcb := by
  unfold dmemPoolSize at hfit
  have hav : u32 (((1024 * 20 / 4 * 4 : ℕ) : ℤ) - 2 * (16 : ℕ)) = 20448 := by decide
  have hend : u32 ((start : ℤ) + (20448 : ℕ) + (16 : ℕ)) = start + 20464 := by
    rw [u32_of_lt (by omega) (by omega)]
    omega
  have hss := Sep.refl start
  have htt := Sep.refl (start + 20464)
  have hst : Sep start (start + 20464) := .inr (.inl (by omega))
  have hts : Sep (start + 20464) start := .inr (.inr (by omega))
  have hne : start + 20464 ≠ start := by omega
  unfold osDMemInit osCreateMemoryPool dmemPoolSize dmOverhead
  rintro b (rfl | rfl)
  all_goals
    simp only [hav, hend, hss, htt, hst, hts, next_setNext, next_setPrev, next_setFree, next_setPool,
      prev_setNext, prev_setPrev, prev_setFree, prev_setPool, isFree_setNext, isFree_setPrev,
      isFree_setFree, isFree_setPool, poolOf_setNext, poolOf_setPrev, poolOf_setFree, poolOf_setPool,
      if_true, if_neg hne, if_neg hne.symm]
    simp

/-- The control block that `OS_DMemInit` builds. -/
theorem osDMemInit_pool (m : Mem) (pcb start : ℕ) :
    (osDMemInit m pcb start).pool =
      { pcb, startAddress := start, poolSize := 20480, minAllocation := 16, available := 20448,
        memoryList := start, searchPtr := start } := rfl

/-- A fresh pool has one free block and the trailer. -/
theorem osDMemInit_good (m : Mem) (pcb start : ℕ) (halign : start % 4 = 0)
    (hfit : start + dmemPoolSize ≤ 2 ^ 32) :
    Good (osDMemInit m pcb start, []) {start, start + 20464} := by
  have hfields := osDMemInit_fields m pcb start hfit
  obtain ⟨hns, hps, hfs, hos⟩ := hfields start (.inl rfl)
  obtain ⟨hnt, hpt, hft, hot⟩ := hfields (start + 20464) (.inr rfl)
  have hne : start + 20464 ≠ start := by omega
  rw [if_pos rfl] at hns hps
  rw [if_neg hne] at hnt hpt
  unfold dmemPoolSize at hfit
  have htrailer : (osDMemInit m pcb start).pool.trailer = start + 20464 := by
    rw [osDMemInit_pool, Pool.trailer, dmOverhead]
    dsimp only
    omega
  have hmem : ∀ b, b ∈ ({start, start + 20464} : Finset ℕ) ↔ b = start ∨ b = start + 20464 := by
    intro b
    rw [Finset.mem_insert, Finset.mem_singleton]
  have hgeometry : Geometry (osDMemInit m pcb start).pool := by
    rw [osDMemInit_pool]
    constructor <;> dsimp only <;> omega
  refine ⟨⟨hgeometry, ?_, ?_, ?_, ?_, ?_, ?_⟩, ?_, ⟨by simp, List.nodup_nil⟩⟩
  · rw [htrailer]
    exact .pair (by decide) (by dsimp only [osDMemInit_pool]; omega) hns hnt hps hpt
  · intro a ha
    have := (hmem a).mp ha
    omega
  · intro a ha
    rcases (hmem a).mp ha with rfl | rfl
    · exact hos
    · exact hot
  · rw [htrailer, hft]
    exact hne
  · exact (hmem _).mpr (.inl rfl)
  · have hfree : freeBytes (osDMemInit m pcb start).mem start = start + 20464 - start - 16 := by
      rw [freeBytes, if_pos (hfs.mpr rfl), hns]
    have hused : freeBytes (osDMemInit m pcb start).mem (start + 20464) = 0 :=
      if_neg (fun hf => hne (hft.mp hf))
    rw [Finset.sum_pair hne.symm, hfree, hused]
    change 20448 = _
    omega
  · intro a ha hf hnf
    rcases (hmem a).mp ha with rfl | rfl
    · change isFree (osDMemInit m pcb a).mem (next (osDMemInit m pcb a).mem a) at hnf
      rw [hns] at hnf
      exact hne (hft.mp hnf)
    · exact hne (hft.mp hf)

/-- Every state of a run is in agreement with the client's blocks. -/
theorem run_good {c c' : State × List Block} {H : Finset ℕ} (h : Good c H)
    (hrun : Relation.ReflTransGen Step c c') : ∃ H', Good c' H' := by
  induction hrun with
  | refl => exact ⟨H, h⟩
  | tail _ hstep ih =>
    obtain ⟨H', h'⟩ := ih
    exact h'.step hstep

/-- A state that some run from `OS_DMemInit` reaches, with the blocks the client holds there. -/
def Reachable (c : State × List Block) : Prop :=
  ∃ m pcb start, start % 4 = 0 ∧ start + dmemPoolSize ≤ 2 ^ 32 ∧
    Relation.ReflTransGen Step (osDMemInit m pcb start, []) c

theorem Reachable.good {c : State × List Block} (h : Reachable c) : ∃ H, Good c H := by
  obtain ⟨m, pcb, start, halign, hfit, hrun⟩ := h
  exact run_good (osDMemInit_good m pcb start halign hfit) hrun

theorem Reachable.step {c c' : State × List Block} (h : Reachable c) (hstep : Step c c') :
    Reachable c' := by
  obtain ⟨m, pcb, start, halign, hfit, hrun⟩ := h
  exact ⟨m, pcb, start, halign, hfit, hrun.tail hstep⟩

/-- The pool of `OS_DMemInit` at address `0x1000`. -/
def bootPool : State := osDMemInit (fun _ => 0) 4 0x1000

theorem bootPool_reachable : Reachable (bootPool, []) :=
  ⟨fun _ => 0, 4, 0x1000, by decide, by decide, .refl⟩

/-- `a` is a header of the circular list that starts at `dm_memory_list`. -/
def OnList (s : State) (a : ℕ) : Prop := ∃ k, (next s.mem)^[k] s.pool.memoryList = a

theorem Inv.onList_iff {s : State} {H : Finset ℕ} (h : Inv s H) (a : ℕ) : OnList s a ↔ a ∈ H := by
  unfold OnList
  rw [h.geometry.memory_list]
  exact (h.tiling.mem_iff_iterate a).symm

/-- The memory determines the headers. -/
theorem Inv.unique {s : State} {H H' : Finset ℕ} (h : Inv s H) (h' : Inv s H') : H = H' := by
  ext a
  rw [← h.onList_iff, h'.onList_iff]

/-! ## What the pool promises -/

/-- The promise of the pool to its client: the list of headers `H` represents the pool, the client's
blocks are aligned, apart from each other and from every header, as large as requested, and the
calls return. The payload of a block ends at the header behind it. -/
structure Sound (s : State) (live : List Block) (H : Finset ℕ) : Prop where
  reachable : ∀ a, a ∈ H ↔ ∃ k, (next s.mem)^[k] s.pool.memoryList = a
  inv : Inv s H
  coalesced : Coalesced s.mem H
  header : ∀ b ∈ live, b.ptr - 16 ∈ H ∧ 16 ≤ b.ptr ∧ ¬ isFree s.mem (b.ptr - 16)
  aligned : ∀ b ∈ live, b.ptr % 4 = 0
  disjoint : live.Pairwise fun b c =>
    next s.mem (b.ptr - 16) ≤ c.ptr ∨ next s.mem (c.ptr - 16) ≤ b.ptr
  off_headers : ∀ b ∈ live, ∀ a ∈ H, a + 16 ≤ b.ptr ∨ next s.mem (b.ptr - 16) ≤ a
  large : ∀ b ∈ live, b.ptr + b.size ≤ next s.mem (b.ptr - 16)
  malloc_returns : ∀ size ≤ 2 ^ 32 - 4, ∃ r, osmMalloc s size = some r
  free_returns : ∀ b ∈ live, ∃ s', osmFree s b.ptr = some s'

section
variable {s : State} {H : Finset ℕ} {live : List Block}

/-- A pool in agreement with its client keeps its promise. -/
theorem Good.sound (h : Good (s, live) H) : Sound s live H := by
  have hheader : ∀ b ∈ live, ∃ a ∈ H, b.ptr = a + 16 ∧ b.ptr - 16 = a ∧ ¬ isFree s.mem a ∧
      b.ptr + b.size ≤ next s.mem a := by
    intro b hb
    obtain ⟨a, ha, hptr, hused, hfit⟩ := h.live.used b hb
    exact ⟨a, ha, hptr, by omega, hused, hfit⟩
  have hlist : s.pool.memoryList = s.pool.startAddress := h.inv.geometry.memory_list
  refine ⟨?_, h.inv, h.coalesced, ?_, ?_, ?_, fun b hb a ha => h.off_headers hb ha, ?_, ?_, ?_⟩
  · intro a
    rw [hlist]
    exact h.inv.tiling.mem_iff_iterate a
  · intro b hb
    obtain ⟨a, ha, hptr, hbx, hused, -⟩ := hheader b hb
    rw [hbx]
    exact ⟨ha, by omega, hused⟩
  · intro b hb
    obtain ⟨a, ha, hptr, -⟩ := hheader b hb
    have : a % 4 = 0 := h.inv.aligned a ha
    omega
  · have hnd : live.Pairwise fun b c => b.ptr ≠ c.ptr := List.pairwise_map.mp h.live.nodup
    apply hnd.imp_of_mem
    intro b c hb hc hne
    obtain ⟨x, hx, hptr, hbx, -⟩ := hheader b hb
    obtain ⟨y, hy, hptr', hcy, -⟩ := hheader c hc
    have hbc := h.off_headers hb hy
    have hcb := h.off_headers hc hx
    omega
  · intro b hb
    obtain ⟨a, -, -, hbx, -, hfit⟩ := hheader b hb
    rw [hbx]
    exact hfit
  · intro size hsize
    rcases osmMalloc_spec h.inv h.coalesced hsize with hfull | ⟨a, s', H', hok, -⟩
    · exact ⟨_, hfull⟩
    · exact ⟨_, hok⟩
  · intro b hb
    obtain ⟨a, ha, hptr, -, hused, hfit⟩ := hheader b hb
    have hat : a ≠ s.pool.trailer := h.inv.ne_trailer_of_le ha (by rw [← hptr]; exact hfit)
    obtain ⟨s', -, hok, -⟩ := osmFree_spec h.inv h.coalesced ha hused hat
    rw [hptr]
    exact ⟨s', hok⟩

end

/-- The pool of `OS_DMemInit` keeps its promise in every state of every run. -/
theorem heap_sound (m : Mem) (pcb start : ℕ) (halign : start % 4 = 0)
    (hfit : start + dmemPoolSize ≤ 2 ^ 32) {s : State} {live : List Block}
    (hrun : Relation.ReflTransGen Step (osDMemInit m pcb start, []) (s, live)) :
    ∃ H, Sound s live H := by
  obtain ⟨H, h⟩ := run_good (osDMemInit_good m pcb start halign hfit) hrun
  exact ⟨H, h.sound⟩

/-- The promise after a first request of 10 bytes from a pool at address `0x1000`. -/
theorem heap_sound_first_request :
    ∃ s, osmMalloc (osDMemInit (fun _ => 0) 4 0x1000) 10 = some (0x1010, s) ∧
      ∃ H, Sound s [⟨0x1010, 10⟩] H := by
  have hcall : osmMalloc (osDMemInit (fun _ => 0) 4 0x1000) 10 =
      some (0x1010, takeBlock (osDMemInit (fun _ => 0) 4 0x1000) 0x1000 20448 16) := rfl
  exact ⟨_, hcall, heap_sound (fun _ => 0) 4 0x1000 (by decide) (by decide)
    (.single (.malloc 10 (by decide) hcall))⟩

end NuAgent.Heap
