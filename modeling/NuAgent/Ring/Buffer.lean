import NuAgent.Lib.CInt
import NuAgent.Lib.Bytes

/-!
# The ring buffer

Reference: `App/NuAgent/Lib/ring_buffer.c` and `ring_buffer.h`.

Indices and the size are `unsigned int`; counts are `int`. A function that touches the storage
returns `none` when it would access a cell outside of it (or a storage that was never allocated), so
a result is also a proof that every access was inside.
-/

namespace NuAgent.Ring

open CInt

/-- `ring_buffer_t`; `buffer` is `none` when `OSMMalloc` returned `NULL`. -/
structure RingBuffer where
  size : ℕ
  head : ℕ
  tail : ℕ
  buffer : Option (List UInt8)
deriving DecidableEq, Repr

/-- `ring_buf_alloc`, with the block `OSMMalloc` returned; its result is always `0`. -/
def ringBufAlloc (block : Option (List UInt8)) (dataLen : ℕ) : ℤ × RingBuffer :=
  (0, { size := dataLen, head := 0, tail := 0, buffer := block })

/-- `ring_buf_clear`. -/
def ringBufClear (ring : RingBuffer) : RingBuffer := { ring with head := 0, tail := 0 }

/-- `ring_buf_empty`. -/
def ringBufEmpty (ring : RingBuffer) : Bool := ring.tail == ring.head

/-- `ring_buf_full`. -/
def ringBufFull (ring : RingBuffer) : Bool := u32 (ring.tail + 1) % ring.size == ring.head

/-- `ring_buf_cnt`. -/
def ringBufCnt (ring : RingBuffer) : ℤ :=
  if ring.tail ≥ ring.head then i32 (u32 (ring.tail - ring.head))
  else i32 (u32 (ring.size + ring.tail - ring.head))

/-- `ring_buf_space`. -/
def ringBufSpace (ring : RingBuffer) : ℤ :=
  if ring.head > ring.tail then i32 (u32 (ring.head - ring.tail - 1))
  else i32 (u32 (ring.size - 1 + ring.head - ring.tail))

/-- `ring_buf_cnt_to_end`. -/
def ringBufCntToEnd (ring : RingBuffer) : ℤ :=
  if ring.tail ≥ ring.head then i32 (u32 (ring.tail - ring.head))
  else i32 (u32 (ring.size - ring.head))

/-- `ring_buf_space_to_end`. -/
def ringBufSpaceToEnd (ring : RingBuffer) : ℤ :=
  if ring.head > ring.tail then i32 (u32 (ring.head - ring.tail - 1))
  else i32 (u32 (ring.size - 1 - ring.tail + if ring.head > 0 then 1 else 0))

/-- An index moved on by `c` cells: `x += c; if (x >= size) x -= size`. -/
def advance (size x : ℕ) (c : ℤ) : ℕ :=
  if u32 (x + c) ≥ size then u32 (u32 (x + c) - size) else u32 (x + c)

/-- `ring_buf_write_char`. -/
def ringBufWriteChar (cb : RingBuffer) (data : UInt8) : Option (RingBuffer × ℤ) :=
  if ringBufFull cb then some (cb, 0)
  else do
    let buffer ← Block.write (← cb.buffer) cb.tail [data]
    some ({ cb with buffer := some buffer, tail := advance cb.size cb.tail 1 }, 1)

/-- The number of bytes the next turn of a copying loop moves: `to_end`, or `count` when smaller. -/
def chunk (toEnd count : ℤ) : ℤ := if count < toEnd then count else toEnd

theorem chunk_le (toEnd count : ℤ) : chunk toEnd count ≤ count := by
  unfold chunk
  split <;> omega

theorem chunk_le_toEnd (toEnd count : ℤ) : chunk toEnd count ≤ toEnd := by
  unfold chunk
  split <;> omega

/-- The last turn of a copying loop: nothing is left to copy, or there is nothing to copy from or
to. -/
theorem chunk_nonpos {toEnd count : ℤ} (h : chunk toEnd count ≤ 0) : count ≤ 0 ∨ toEnd ≤ 0 := by
  unfold chunk at h
  split at h
  · exact .inl h
  · exact .inr h

/-- The loop of `ring_buf_write`. -/
def ringBufWriteLoop (cb : RingBuffer) (buf : List UInt8) (count ret : ℤ) :
    Option (RingBuffer × ℤ) :=
  let c := chunk (ringBufSpaceToEnd cb) count
  if c ≤ 0 then some (cb, ret)
  else do
    let data ← Block.read buf 0 c.toNat
    let buffer ← Block.write (← cb.buffer) cb.tail data
    ringBufWriteLoop { cb with buffer := some buffer, tail := advance cb.size cb.tail c }
      (buf.drop c.toNat) (count - c) (ret + c)
termination_by count.toNat
decreasing_by
  have := chunk_le (ringBufSpaceToEnd cb) count
  omega

/-- `ring_buf_write`: the buffer and the number of bytes written. -/
def ringBufWrite (cb : RingBuffer) (buf : List UInt8) (count : ℤ) : Option (RingBuffer × ℤ) :=
  ringBufWriteLoop cb buf count 0

/-- The loop of `ring_buf_read`; `out` are the bytes copied to the caller so far. -/
def ringBufReadLoop (cb : RingBuffer) (out : List UInt8) (count ret : ℤ) :
    Option (RingBuffer × List UInt8 × ℤ) :=
  let c := chunk (ringBufCntToEnd cb) count
  if c ≤ 0 then some (cb, out, ret)
  else do
    let data ← Block.read (← cb.buffer) cb.head c.toNat
    ringBufReadLoop { cb with head := advance cb.size cb.head c } (out ++ data) (count - c) (ret + c)
termination_by count.toNat
decreasing_by
  have := chunk_le (ringBufCntToEnd cb) count
  omega

/-- `ring_buf_read`: the buffer, the bytes copied to the caller and their number. -/
def ringBufRead (cb : RingBuffer) (count : ℤ) : Option (RingBuffer × List UInt8 × ℤ) :=
  ringBufReadLoop cb [] count 0

end NuAgent.Ring
