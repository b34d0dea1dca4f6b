import NuAgent.Heap.Release
import NuAgent.Heap.Sizes
import NuAgent.Ring.Fifo

/-!
# The storage of a ring buffer on the heap

Reference: `App/NuAgent/Lib/ring_buffer.c` and `Ports/Cortex-M3/os_dmem.c`.

`ring_buf_alloc` takes the storage from the heap, and the `ring_buffer_t` itself is its caller's.
`ring_buf_free` passes `OSMFree` the address of the `ring_buffer_t` in place of the storage's, and
`ring_buf_alloc` returns `0` whatever `OSMMalloc` returned. `not_balanced` says that no allocation
is balanced.
-/

namespace NuAgent.Ring

/-! ## Allocation and release -/

/-- A `ring_buffer_t` in memory: its address, the pointer in its field `buffer`, and the other
fields with the bytes behind the pointer. The heap reads neither the fields nor the bytes. -/
structure RingObject where
  addr : ℕ
  buffer : ℕ
  ring : RingBuffer

/-- The `n` bytes from `p` on. -/
def bytesAt (m : Heap.Mem) (p n : ℕ) : List UInt8 :=
  (List.range n).map fun i => UInt8.ofNat (m (p + i))

@[simp] theorem length_bytesAt (m : Heap.Mem) (p n : ℕ) : (bytesAt m p n).length = n := by
  rw [bytesAt, List.length_map, List.length_range]

/-- `ring_buf_alloc` for the `ring_buffer_t` at `addr`: its result, the object and the heap. -/
def ringBufAllocAt (s : Heap.State) (addr dataLen : ℕ) : Option (ℤ × RingObject × Heap.State) := do
  let (buffer, s) ← Heap.osmMalloc s dataLen
  let block := if buffer = 0 then none else some (bytesAt s.mem buffer dataLen)
  let (ret, ring) := ringBufAlloc block dataLen
  some (ret, { addr, buffer, ring }, s)

/-- Calls on the ring buffer. -/
def RingObject.run (obj : RingObject) (ops : List Op) : Option (RingObject × List Out) := do
  let (ring, outs) ← obj.ring.run ops
  some ({ obj with ring }, outs)

/-- `ring_buf_free`: the pointer that is passed to `OSMFree`, and the object and the heap behind it;
`none` when `OSMFree` finds no header of the pool in front of the pointer. -/
def ringBufFree (s : Heap.State) (obj : RingObject) : ℕ × Option (RingObject × Heap.State) :=
  let ptr := obj.addr
  (ptr, do
    let s ← Heap.osmFree s ptr
    some ({ obj with ring := ringBufClear obj.ring }, s))

/-! ## Balance -/

/-- Allocation, calls on the ring buffer and release are balanced. With a storage, `OSMFree` is
passed the pointer that `OSMMalloc` returned and the list of the heap and its available bytes are
what they were; without one, `ring_buf_alloc` reports it. -/
structure Balanced (s : Heap.State) (addr dataLen : ℕ) (ops : List Op) : Prop where
  freed : ∀ ret obj s₁ obj' outs, ringBufAllocAt s addr dataLen = some (ret, obj, s₁) →
    obj.buffer ≠ 0 → obj.run ops = some (obj', outs) →
    (ringBufFree s₁ obj').1 = obj.buffer ∧
      ∃ obj'' s₂, (ringBufFree s₁ obj').2 = some (obj'', s₂) ∧ Heap.SameBlocks s s₂
  reported : ∀ ret obj s₁, ringBufAllocAt s addr dataLen = some (ret, obj, s₁) →
    obj.buffer = 0 → ret ≠ 0

/-- Where a `ring_buffer_t` of 16 bytes can be: outside of the pool, as a static object, or in a
block that its owner holds. -/
inductive Placed (s : Heap.State) (live : List Heap.Block) (addr : ℕ) : Prop
  | outside (h : addr + 16 ≤ s.pool.startAddress ∨
      s.pool.startAddress + s.pool.poolSize ≤ addr)
  | held (b : Heap.Block) (hb : b ∈ live) (hlo : b.ptr ≤ addr) (hhi : addr + 16 ≤ b.ptr + b.size)

section
variable {s : Heap.State} {live : List Heap.Block} {H : Finset ℕ} {addr dataLen : ℕ} {ops : List Op}

/-- A `ring_buffer_t` is not the payload of a free block. -/
theorem Placed.ne_payload (hplace : Placed s live addr) (h : Heap.Good (s, live) H) {a : ℕ}
    (ha : a ∈ H) (hfree : Heap.isFree s.mem a) : addr ≠ a + 16 := by
  rintro rfl
  have hbounds := h.inv.tiling.bounds a ha
  have hne := h.inv.ne_trailer hfree
  have hroom := h.inv.geometry.room
  cases hplace with
  | outside hout =>
    have htrailer : s.pool.trailer = s.pool.startAddress + s.pool.poolSize - 16 := rfl
    have hgap := h.inv.tiling.next_gap a ha hne
    have hlast := (h.inv.tiling.bounds _ (h.inv.tiling.next_mem a ha)).2
    dsimp only at *
    omega
  | held b hb hlo hhi =>
    obtain ⟨x, hx, hptr, hused, hfit⟩ := h.live.used b hb
    have hax : a ≠ x := by
      rintro rfl
      exact hused hfree
    have hapart := h.inv.tiling.apart ha hx hax
    have hoff := h.off_headers hb ha
    have hbx : b.ptr - 16 = x := by omega
    rw [hbx] at hoff
    dsimp only at *
    omega

/-- The calls on a storage of `dataLen` bytes stay inside of it. -/
def Inside (dataLen : ℕ) (ops : List Op) : Prop :=
  ∀ block : List UInt8, block.length = dataLen →
    ∃ r, (ringBufAlloc (some block) dataLen).2.run ops = some r

theorem inside_of_legal (hpos : 1 ≤ dataLen) (hlt : dataLen < 2 ^ 31)
    (hops : ∀ op ∈ ops, op.Legal) : Inside dataLen ops := by
  intro block hblock
  obtain ⟨ring, mem, hrun, -⟩ := (Layout.alloc hblock hpos hlt).run ops hops
  exact ⟨_, hrun⟩

/-- `ring_buf_free` frees the block at the address of the `ring_buffer_t`. -/
theorem ringBufFree_eq_some {s' : Heap.State} {obj obj' : RingObject} :
    (ringBufFree s obj).2 = some (obj', s') ↔
      Heap.osmFree s obj.addr = some s' ∧ obj' = { obj with ring := ringBufClear obj.ring } := by
  unfold ringBufFree
  simp only [Option.bind_eq_bind, Option.bind_eq_some_iff, Option.some.injEq, Prod.mk.injEq]
  constructor
  · rintro ⟨s₁, hcall, rfl, rfl⟩
    exact ⟨hcall, rfl⟩
  · rintro ⟨hcall, rfl⟩
    exact ⟨s', hcall, rfl, rfl⟩

/-- `ring_buf_alloc` returns `0` whatever pointer it got. -/
theorem ringBufAllocAt_of_malloc (addr : ℕ) {s₁ : Heap.State} {buffer : ℕ}
    (hmalloc : Heap.osmMalloc s dataLen = some (buffer, s₁)) :
    ringBufAllocAt s addr dataLen = some (0,
      { addr, buffer
        ring := (ringBufAlloc (if buffer = 0 then none
          else some (bytesAt s₁.mem buffer dataLen)) dataLen).2 }, s₁) := by
  rw [ringBufAllocAt, hmalloc]
  rfl

/-- **No allocation is balanced.** In every reachable state of the heap, for every place of the
`ring_buffer_t`, every 32-bit length and all calls in between that stay inside the storage. -/
theorem not_balanced (h : Heap.Reachable (s, live)) (hplace : Placed s live addr)
    (hlt : dataLen < 2 ^ 32) (hinside : Inside dataLen ops) : ¬ Balanced s addr dataLen ops := by
  intro hbal
  obtain ⟨H, hgood⟩ := h.good
  obtain ⟨buffer, s₁, hmalloc, hheader⟩ := Heap.osmMalloc_header hgood.inv hgood.coalesced hlt
  have halloc := ringBufAllocAt_of_malloc addr hmalloc
  by_cases hnull : buffer = 0
  · -- no storage, and success is reported
    exact hbal.reported _ _ _ halloc hnull rfl
  · obtain ⟨⟨ring', outs⟩, hrun⟩ := hinside (bytesAt s₁.mem buffer dataLen) (length_bytesAt _ _ _)
    rw [if_neg hnull] at halloc
    have hcalls : RingObject.run ⟨addr, buffer, (ringBufAlloc (some (bytesAt s₁.mem buffer dataLen))
        dataLen).2⟩ ops = some (⟨addr, buffer, ring'⟩, outs) := by
      rw [RingObject.run, hrun]
      rfl
    obtain ⟨hptr, obj', s₂, hfree, hsame⟩ := hbal.freed _ _ _ _ _ halloc hnull hcalls
    obtain ⟨a, ha, hbuf, hend, hblock⟩ := hheader hnull
    have haddr : addr = a + 16 := hptr.trans hbuf
    by_cases hfreea : Heap.isFree s.mem a
    · exact hplace.ne_payload hgood ha hfreea haddr
    · -- a size that wraps was answered with a used block, the one that has the object
      have hlinked : Heap.Linked s₁.mem H := by
        rw [hblock.resolve_left hfreea]
        exact hgood.inv.linked
      have hcall : Heap.osmFree s₁ addr = some s₂ := (ringBufFree_eq_some.mp hfree).1
      rw [haddr] at hcall
      have hflag := hlinked.isFree_osmFree ha hend hcall
      exact hfreea ((hsame.isFree_iff a ((hgood.inv.onList_iff a).mpr ha)).mp hflag)

/-- A `ring_buffer_t` that is itself a block of the heap is freed, and its storage stays in use. -/
theorem storage_stays {b : Heap.Block} (h : Heap.Reachable (s, live)) (hb : b ∈ live)
    (hsize : dataLen ≤ 2 ^ 32 - 4) {ret : ℤ} {obj : RingObject} {s₁ : Heap.State}
    (halloc : ringBufAllocAt s b.ptr dataLen = some (ret, obj, s₁)) (hnull : obj.buffer ≠ 0) :
    ∃ obj' s₂ live', (ringBufFree s₁ obj).2 = some (obj', s₂) ∧ Heap.Reachable (s₂, live') ∧
      b ∉ live' ∧ ⟨obj.buffer, dataLen⟩ ∈ live' := by
  obtain ⟨H, hgood⟩ := h.good
  obtain ⟨⟨buffer, s'⟩, hmalloc⟩ := hgood.sound.malloc_returns _ hsize
  rw [ringBufAllocAt_of_malloc b.ptr hmalloc] at halloc
  cases halloc
  have hreach := h.step (.malloc dataLen hsize hmalloc)
  rw [if_neg hnull] at hreach
  obtain ⟨H', hgood'⟩ := hreach.good
  obtain ⟨s₂, hfree⟩ := hgood'.sound.free_returns b (List.mem_cons_of_mem _ hb)
  have hnodup := hgood'.live.nodup
  have hne : (⟨buffer, dataLen⟩ : Heap.Block) ≠ b := by
    rintro rfl
    rw [List.map_cons, List.nodup_cons] at hnodup
    exact hnodup.1 (List.mem_map_of_mem hb)
  exact ⟨_, s₂, _, ringBufFree_eq_some.mpr ⟨hfree, rfl⟩,
    hreach.step (.free b (List.mem_cons_of_mem _ hb) hfree), hnodup.of_map.not_mem_erase,
    (List.mem_erase_of_ne hne).mpr List.mem_cons_self⟩

end

/-- `not_balanced` for a static `ring_buffer_t` with 512 bytes of the fresh pool. -/
theorem not_balanced_static : ¬ Balanced Heap.bootPool 0x100 512 [.writeChar 1, .read 1] :=
  not_balanced Heap.bootPool_reachable (.outside (.inl (by decide))) (by decide)
    (inside_of_legal (by decide) (by decide) (by simp [Op.Legal]))

/-- `ring_buf_free` passes `0x100` to `OSMFree` in place of the storage at `0x1010`. -/
theorem free_passes_object : ¬ ∀ s live addr dataLen ops, Heap.Reachable (s, live) →
    Placed s live addr → dataLen < 2 ^ 32 → Inside dataLen ops → Balanced s addr dataLen ops := by
  intro hall
  have hbal := hall Heap.bootPool [] 0x100 512 [] Heap.bootPool_reachable
    (.outside (.inl (by decide))) (by decide) fun _ _ => ⟨_, rfl⟩
  have hmalloc : Heap.osmMalloc Heap.bootPool 512 =
      some (0x1010, Heap.takeBlock Heap.bootPool 0x1000 20448 512) := rfl
  have hptr := (hbal.freed _ _ _ _ _ (ringBufAllocAt_of_malloc 0x100 hmalloc) (by decide) rfl).1
  exact absurd hptr (by decide)

end NuAgent.Ring
