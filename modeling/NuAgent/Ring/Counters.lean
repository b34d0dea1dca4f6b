import Mathlib.Tactic.Common
import NuAgent.Ring.Fifo

/-!
# The two write paths and the counters of the ring buffer

Reference: `App/NuAgent/Lib/ring_buffer.c`.

`ring_buf_write` asks `ring_buf_space_to_end` for room and copies chunks, `ring_buf_write_char` asks
`ring_buf_full` and stores one byte. `bulk_eq_chars` says that the first is the second repeated, on
the ring buffer record itself. `Counters` collects what the helpers that count say about one state.
-/

namespace NuAgent.Ring

open CInt Circular

/-! ## One byte after the other -/

/-- Successive calls of `ring_buf_write_char`, and the number of bytes they accept. -/
def ringBufWriteChars : RingBuffer → List UInt8 → Option (RingBuffer × ℤ)
  | cb, [] => some (cb, 0)
  | cb, data :: buf => do
      let (cb', accepted) ← ringBufWriteChar cb data
      let (cb'', rest) ← ringBufWriteChars cb' buf
      some (cb'', accepted + rest)

/-- The ring buffer behind a chunk written at its tail. -/
def RingBuffer.stored (ring : RingBuffer) (mem data : List UInt8) : RingBuffer :=
  { ring with
    buffer := some (Block.splice mem ring.tail data)
    tail := advance ring.size ring.tail data.length }

theorem ringBufWriteChars_append {cb cb' : RingBuffer} {buf : List UInt8} {n : ℤ}
    (h : ringBufWriteChars cb buf = some (cb', n)) (buf' : List UInt8) :
    ringBufWriteChars cb (buf ++ buf') =
      (ringBufWriteChars cb' buf').map fun r => (r.1, n + r.2) := by
  induction buf generalizing cb n with
  | nil =>
    rw [ringBufWriteChars] at h
    cases h
    rw [List.nil_append]
    cases ringBufWriteChars cb' buf' <;> simp
  | cons data buf ih =>
    rw [List.cons_append]
    simp only [ringBufWriteChars, Option.bind_eq_bind, Option.bind_eq_some_iff,
      Option.some.injEq, Prod.mk.injEq, Prod.exists] at h ⊢
    obtain ⟨cb₁, accepted, hone, cb₂, rest, hrest, rfl, rfl⟩ := h
    rw [hone, Option.bind_some, ih hrest]
    cases ringBufWriteChars cb₂ buf' <;> simp [Int.add_assoc]

section
variable {ring : RingBuffer} {mem q : List UInt8}

/-- A full ring buffer accepts no byte. -/
theorem Layout.chars_full (h : Layout ring mem q) (hfull : q.length = ring.size - 1)
    (buf : List UInt8) : ringBufWriteChars ring buf = some (ring, 0) := by
  induction buf with
  | nil => rfl
  | cons data buf ih =>
    rw [ringBufWriteChars, ringBufWriteChar, if_pos (h.full_iff.mpr hfull)]
    simp only [Option.bind_eq_bind, Option.bind_some, ih, Int.add_zero]

/-- One byte that fits. -/
theorem Layout.char_stored (h : Layout ring mem q) (data : UInt8)
    (hroom : q.length + 1 < ring.size) :
    ringBufWriteChar ring data = some (ring.stored mem [data], 1) ∧
      Layout (ring.stored mem [data]) (Block.splice mem ring.tail [data]) (q ++ [data]) := by
  obtain ⟨hwrite, hnext⟩ := h.writeChunk [data] (c := 1) rfl hroom h.tail_lt
  have hfull : ¬ ringBufFull ring = true := fun hf => by
    have := h.full_iff.mp hf
    omega
  refine ⟨?_, hnext⟩
  rw [ringBufWriteChar, if_neg hfull]
  simp only [h.buffer_eq, hwrite, Option.bind_eq_bind, Option.bind_some]
  rfl

/-- The tail behind a chunk. -/
theorem Layout.stored_tail (h : Layout ring mem q) {data : List UInt8}
    (hfit : ring.tail + data.length ≤ ring.size) :
    (ring.stored mem data).tail = slot ring.size ring.tail data.length :=
  advance_eq_slot h.size_lt h.tail_lt (by omega) (by omega)

theorem Layout.stored_nil (h : Layout ring mem q) : ring.stored mem [] = ring := by
  have hfit : ring.tail + ([] : List UInt8).length ≤ ring.size := h.tail_lt.le
  have htail : (ring.stored mem []).tail = ring.tail := by
    rw [h.stored_tail hfit]
    exact if_pos h.tail_lt
  unfold RingBuffer.stored at htail ⊢
  dsimp only at htail
  rw [htail, Block.splice_nil, ← h.buffer_eq]

/-- A chunk can be stored from its first byte on, that byte and then the others. -/
theorem Layout.stored_cons (h : Layout ring mem q) {v : UInt8} {data : List UInt8}
    (hroom : q.length + (v :: data).length < ring.size)
    (hfit : ring.tail + (v :: data).length ≤ ring.size) :
    (ring.stored mem [v]).stored (Block.splice mem ring.tail [v]) data =
      ring.stored mem (v :: data) := by
  have hlen := h.length_eq
  have hfit' := hfit
  rw [List.length_cons] at hroom hfit'
  obtain ⟨-, hnext⟩ := h.char_stored v (by omega)
  have hone : (ring.stored mem [v]).tail = slot ring.size ring.tail 1 :=
    h.stored_tail (by simp; omega)
  cases data with
  | nil => exact hnext.stored_nil
  | cons w data =>
    rw [List.length_cons] at hroom hfit'
    -- the chunk goes on, so the first byte is not in the last cell
    have hstep : slot ring.size ring.tail 1 = ring.tail + 1 := if_pos (by omega)
    have hfit₁ : (ring.stored mem [v]).tail + (w :: data).length ≤ ring.size := by
      rw [hone, hstep, List.length_cons]
      omega
    have htail := hnext.stored_tail hfit₁
    have htails := h.stored_tail hfit
    unfold RingBuffer.stored at hone htail htails ⊢
    dsimp only at hone htail htails ⊢
    rw [htail, htails, hone, slot_slot h.tail_lt (by rw [List.length_cons]; omega), hstep,
      Block.splice_cons (by omega), Nat.add_comm 1]
    rfl

/-- A contiguous chunk is written by writing its bytes one after the other. -/
theorem Layout.chars_chunk (h : Layout ring mem q) (data : List UInt8)
    (hroom : q.length + data.length < ring.size) (hfit : ring.tail + data.length ≤ ring.size) :
    ringBufWriteChars ring data = some (ring.stored mem data, (data.length : ℤ)) := by
  induction data generalizing ring mem q with
  | nil =>
    rw [ringBufWriteChars, h.stored_nil, List.length_nil, Nat.cast_zero]
  | cons v data ih =>
    have hroom' := hroom
    have hfit' := hfit
    rw [List.length_cons] at hroom' hfit'
    obtain ⟨hone, hnext⟩ := h.char_stored v (by omega)
    have htail : (ring.stored mem [v]).tail + data.length ≤ ring.size := by
      rw [h.stored_tail (by simp; omega), List.length_singleton]
      unfold slot
      split_ifs <;> omega
    have hrest := ih hnext (by
      rw [List.length_append, List.length_singleton]
      exact (by omega : q.length + 1 + data.length < ring.size)) htail
    rw [ringBufWriteChars, hone]
    simp only [Option.bind_eq_bind, Option.bind_some, hrest, h.stored_cons hroom hfit,
      List.length_cons]
    congr 2
    push_cast
    omega

/-- **`ring_buf_write` is `ring_buf_write_char` repeated.** -/
theorem Layout.writeLoop_eq_chars (h : Layout ring mem q) (buf : List UInt8) (ret : ℤ) :
    ringBufWriteLoop ring buf buf.length ret =
      (ringBufWriteChars ring buf).map fun r => (r.1, ret + r.2) := by
  induction hm : buf.length using Nat.strongRecOn generalizing ring mem q buf ret with
  | _ m ih =>
  subst hm
  have hspace := h.spaceToEnd
  have htail := h.tail_lt
  have hroom := h.room
  rw [ringBufWriteLoop]
  split_ifs with hc
  · by_cases hbuf : buf = []
    · rw [hbuf, ringBufWriteChars, Option.map_some, Int.add_zero]
    · -- no room is left
      have hpos := List.length_pos_iff.mpr hbuf
      have hfull : q.length = ring.size - 1 := by
        have := chunk_nonpos hc
        omega
      rw [h.chars_full hfull, Option.map_some, Int.add_zero]
  · set c := chunk (ringBufSpaceToEnd ring) buf.length
    have hcount : c ≤ buf.length := chunk_le _ _
    have hcspace : c ≤ ringBufSpaceToEnd ring := chunk_le_toEnd _ _
    have hdata : (buf.take c.toNat).length = c.toNat := by
      rw [List.length_take]
      omega
    have hchars := h.chars_chunk (buf.take c.toNat) (by omega) (by omega)
    obtain ⟨hwrite, hnext⟩ := h.writeChunk (buf.take c.toNat) (c := (buf.take c.toNat).length)
      rfl (by omega) (by omega)
    have hread : Block.read buf 0 c.toNat = some (buf.take c.toNat) := by
      rw [Block.read_of_le (by omega), List.drop_zero]
    have hcnat : ((buf.take c.toNat).length : ℤ) = c := by omega
    have hrest : (buf.length : ℤ) - c = ((buf.drop c.toNat).length : ℕ) := by
      rw [List.length_drop]
      omega
    have hloop := ih (buf.drop c.toNat).length (by rw [List.length_drop]; omega) hnext
      (buf.drop c.toNat) (ret + c) rfl
    have hsplit := ringBufWriteChars_append hchars (buf.drop c.toNat)
    rw [List.take_append_drop] at hsplit
    rw [hsplit, hcnat]
    rw [hcnat] at hloop
    simp only [hread, h.buffer_eq, hwrite, Option.bind_eq_bind, Option.bind_some, hrest]
    rw [hloop]
    unfold RingBuffer.stored
    rw [hcnat, Option.map_map]
    congr 1
    funext r
    simp [Int.add_assoc]

/-! ## The counters of one state -/

/-- `ring_buf_space` is the number of bytes that still fit. -/
theorem Layout.space (h : Layout ring mem q) :
    ringBufSpace ring = (ring.size - 1 - q.length : ℕ) := by
  have hsize := h.size_lt
  have hhead := h.head_lt
  have hroom := h.room
  unfold ringBufSpace
  rcases h.tail_cases with ⟨h1, h2⟩ | ⟨h1, h2⟩
  · rw [if_neg (by omega), u32_of_lt (by omega) (by omega), i32_of_lt (by omega)]
    omega
  · rw [if_pos (by omega), u32_of_lt (by omega) (by omega), i32_of_lt (by omega)]
    omega

/-- What the helpers that count say about a ring buffer that stores `q`. The stored bytes are in the
`q.length` cells from `head` on; the cells that may be written are the ones from `tail` on, less the
one that stays free. -/
structure Counters (ring : RingBuffer) (q : List UInt8) : Prop where
  cnt : ringBufCnt ring = q.length
  total : ringBufCnt ring + ringBufSpace ring = (ring.size : ℤ) - 1
  empty_iff : ringBufEmpty ring = true ↔ ringBufCnt ring = 0
  full_iff : ringBufFull ring = true ↔ ringBufSpace ring = 0
  readable_run : IsGreatest
    {k : ℤ | ∀ i : ℕ, i < k → ring.head + i ∈ Span ring.size ring.head q.length}
    (ringBufCntToEnd ring)
  writable_run : IsGreatest
    {k : ℤ | ∀ i : ℕ, i < k →
      ring.tail + i ∈ Span ring.size ring.tail (ring.size - 1 - q.length)}
    (ringBufSpaceToEnd ring)

theorem Layout.counters (h : Layout ring mem q) : Counters ring q where
  cnt := h.cnt
  total := by
    have hroom := h.room
    rw [h.cnt, h.space]
    omega
  empty_iff := by
    rw [h.empty_iff, h.cnt, Nat.cast_eq_zero, List.length_eq_zero_iff]
  full_iff := by
    have hroom := h.room
    rw [h.full_iff, h.space]
    omega
  readable_run := by
    rw [h.cntToEnd]
    exact span_longest_run h.head_lt h.room
  writable_run := by
    have hhead := h.head_lt
    rw [h.spaceToEnd]
    exact span_longest_run h.tail_lt (by omega)

end

/-- In every state that calls reach after a successful allocation, `ring_buf_write` of any bytes is
`ring_buf_write_char` of each of them, and the counters agree. -/
theorem bulk_eq_chars (size : ℕ) (hpos : 1 ≤ size) (hsize : size < 2 ^ 31) (block : List UInt8)
    (hblock : block.length = size) (ops : List Op) (hops : ∀ op ∈ ops, op.Legal) :
    ∃ ring mem, (ringBufAlloc (some block) size).2.run ops
        = some (ring, (fifoRun (size - 1) [] ops).2) ∧
      ring.size = size ∧ Layout ring mem (fifoRun (size - 1) [] ops).1 ∧
      Counters ring (fifoRun (size - 1) [] ops).1 ∧
      ∀ buf : List UInt8, ∃ ring' accepted,
        ringBufWrite ring buf buf.length = some (ring', accepted) ∧
          ringBufWriteChars ring buf = some (ring', accepted) := by
  obtain ⟨ring, mem, hrun, hs, hlay⟩ := (Layout.alloc hblock hpos hsize).run ops hops
  have hs' : ring.size = size := hs
  refine ⟨ring, mem, hrun, hs', hlay, hlay.counters, fun buf => ?_⟩
  obtain ⟨ring', -, hwrite, -, -⟩ := hlay.writeLoop buf buf.length 0 le_rfl
  have heq := hlay.writeLoop_eq_chars buf 0
  have hid : (fun r : RingBuffer × ℤ => (r.1, 0 + r.2)) = id := by
    funext r
    rw [Int.zero_add, id]
  rw [hid, Option.map_id, id] at heq
  exact ⟨ring', _, hwrite, by rw [← heq, hwrite]⟩

/-- `bulk_eq_chars` at size four, behind a write that filled the storage and a read of it. -/
theorem bulk_eq_chars_wrap :
    ∃ ring, (ringBufAlloc (some [0, 0, 0, 0]) 4).2.run [.write [1, 2, 3] 3, .read 3]
        = some (ring, [(3, []), (3, [1, 2, 3])]) ∧
      ringBufCnt ring + ringBufSpace ring = 3 ∧
      ∃ ring' accepted, ringBufWrite ring [4, 5] 2 = some (ring', accepted) ∧
        ringBufWriteChars ring [4, 5] = some (ring', accepted) := by
  have hops : ∀ op ∈ [.write [1, 2, 3] 3, .read 3], Op.Legal op := by
    simp [Op.Legal]
  obtain ⟨ring, mem, hrun, hsize, hlay, hcounters, hsame⟩ :=
    bulk_eq_chars 4 (by decide) (by decide) [0, 0, 0, 0] rfl _ hops
  have htotal := hcounters.total
  rw [hsize] at htotal
  exact ⟨ring, hrun, htotal, hsame [4, 5]⟩

end NuAgent.Ring
