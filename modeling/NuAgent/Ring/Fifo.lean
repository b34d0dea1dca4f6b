import Mathlib.Tactic.Common
import NuAgent.Ring.Buffer
import NuAgent.Lib.Circular

/-!
# The ring buffer is a bounded queue

`Layout ring mem q` relates a ring buffer to the queue `q` it stores. Under it every helper of the
source has a closed form, each copying loop moves exactly the bytes a bounded queue would move, and
no access leaves the storage. `ring_refines_fifo` is the simulation over whole runs.
-/

namespace NuAgent.Ring

open CInt Circular

/-! ## The representation -/

/-- `ring` stores the queue `q` in the block `mem`. One cell always stays free. -/
structure Layout (ring : RingBuffer) (mem q : List UInt8) : Prop where
  buffer_eq : ring.buffer = some mem
  length_eq : mem.length = ring.size
  size_lt : ring.size < 2 ^ 31
  head_lt : ring.head < ring.size
  room : q.length < ring.size
  tail_eq : ring.tail = slot ring.size ring.head q.length
  holds : Holds mem ring.head q

section
variable {ring : RingBuffer} {mem q : List UInt8}

theorem Layout.tail_lt (h : Layout ring mem q) : ring.tail < ring.size := by
  rw [h.tail_eq]
  exact slot_lt h.head_lt h.room

/-- The tail in terms of the head and the number of stored bytes. -/
theorem Layout.tail_cases (h : Layout ring mem q) :
    (ring.head + q.length < ring.size ∧ ring.tail = ring.head + q.length) ∨
      (ring.size ≤ ring.head + q.length ∧ ring.tail + ring.size = ring.head + q.length) := by
  have ht := h.tail_eq
  unfold slot at ht
  split_ifs at ht with hlt
  · exact .inl ⟨hlt, ht⟩
  · exact .inr ⟨by omega, by omega⟩

/-- `ring_buf_cnt` is the number of stored bytes. -/
theorem Layout.cnt (h : Layout ring mem q) : ringBufCnt ring = q.length := by
  have hsize := h.size_lt
  have hhead := h.head_lt
  have hroom := h.room
  unfold ringBufCnt
  rcases h.tail_cases with ⟨h1, h2⟩ | ⟨h1, h2⟩
  · rw [if_pos (by omega), u32_of_lt (by omega) (by omega), i32_of_lt (by omega)]
    omega
  · rw [if_neg (by omega), u32_of_lt (by omega) (by omega), i32_of_lt (by omega)]
    omega

/-- `ring_buf_cnt_to_end` is the number of bytes stored without a wrap. -/
theorem Layout.cntToEnd (h : Layout ring mem q) :
    ringBufCntToEnd ring = min q.length (ring.size - ring.head) := by
  have hsize := h.size_lt
  have hhead := h.head_lt
  have hroom := h.room
  unfold ringBufCntToEnd
  rcases h.tail_cases with ⟨h1, h2⟩ | ⟨h1, h2⟩
  · rw [if_pos (by omega), u32_of_lt (by omega) (by omega), i32_of_lt (by omega)]
    omega
  · rw [if_neg (by omega), u32_of_lt (by omega) (by omega), i32_of_lt (by omega)]
    omega

/-- `ring_buf_space_to_end` is the free room that can be written without a wrap. -/
theorem Layout.spaceToEnd (h : Layout ring mem q) :
    ringBufSpaceToEnd ring = min (ring.size - 1 - q.length) (ring.size - ring.tail) := by
  have hsize := h.size_lt
  have hhead := h.head_lt
  have hroom := h.room
  have htail := h.tail_lt
  unfold ringBufSpaceToEnd
  rcases h.tail_cases with ⟨h1, h2⟩ | ⟨h1, h2⟩
  · rw [if_neg (by omega)]
    split_ifs with hpos
    · rw [u32_of_lt (by omega) (by omega), i32_of_lt (by omega)]
      omega
    · rw [u32_of_lt (by omega) (by omega), i32_of_lt (by omega)]
      omega
  · rw [if_pos (by omega), u32_of_lt (by omega) (by omega), i32_of_lt (by omega)]
    omega

/-- `ring_buf_empty` says that nothing is stored. -/
theorem Layout.empty_iff (h : Layout ring mem q) : ringBufEmpty ring = true ↔ q = [] := by
  have hroom := h.room
  have hhead := h.head_lt
  rw [ringBufEmpty, beq_iff_eq, ← List.length_eq_zero_iff]
  rcases h.tail_cases with ⟨h1, h2⟩ | ⟨h1, h2⟩ <;> omega

/-- `ring_buf_full` says that all but the one free cell are used. -/
theorem Layout.full_iff (h : Layout ring mem q) :
    ringBufFull ring = true ↔ q.length = ring.size - 1 := by
  have hsize := h.size_lt
  have hhead := h.head_lt
  have hroom := h.room
  have htail := h.tail_lt
  rw [ringBufFull, beq_iff_eq, u32_of_lt (by omega) (by omega)]
  have hnext : ((ring.tail : ℤ) + 1).toNat = ring.tail + 1 := by omega
  rw [hnext]
  rcases Nat.lt_or_ge (ring.tail + 1) ring.size with hlt | hge
  · rw [Nat.mod_eq_of_lt hlt]
    rcases h.tail_cases with ⟨h1, h2⟩ | ⟨h1, h2⟩ <;> omega
  · have heq : ring.tail + 1 = ring.size := by omega
    rw [heq, Nat.mod_self]
    rcases h.tail_cases with ⟨h1, h2⟩ | ⟨h1, h2⟩ <;> omega

end

/-- Moving an index on within one revolution. -/
theorem advance_eq_slot {size x : ℕ} {c : ℤ} (hsize : size < 2 ^ 31) (hx : x < size)
    (h0 : 0 ≤ c) (hc : x + c ≤ size) : advance size x c = slot size x c.toNat := by
  have hu : u32 (x + c) = x + c.toNat := by
    rw [u32_of_lt (by omega) (by omega)]
    omega
  rw [advance, hu, slot]
  split_ifs
  · omega
  · rw [u32_of_lt (by omega) (by omega)]
    omega
  · rfl
  · omega

/-! ## One chunk -/

section
variable {ring : RingBuffer} {mem q : List UInt8}

/-- Writing one contiguous chunk appends it to the queue. -/
theorem Layout.writeChunk (h : Layout ring mem q) (data : List UInt8) {c : ℤ}
    (hc : c = data.length) (hroom : q.length + data.length < ring.size)
    (hfit : ring.tail + data.length ≤ ring.size) :
    Block.write mem ring.tail data = some (Block.splice mem ring.tail data) ∧
      Layout { ring with
          buffer := some (Block.splice mem ring.tail data)
          tail := advance ring.size ring.tail c }
        (Block.splice mem ring.tail data) (q ++ data) := by
  have hlen := h.length_eq
  have hfit' : ring.tail + data.length ≤ mem.length := by omega
  have htail : ring.tail = slot mem.length ring.head q.length := by rw [hlen, h.tail_eq]
  refine ⟨Block.write_of_le hfit', rfl, ?_, h.size_lt, h.head_lt, ?_, ?_, ?_⟩
  · rw [Block.length_splice hfit', hlen]
  · rw [List.length_append]
    exact hroom
  · dsimp only
    rw [advance_eq_slot h.size_lt h.tail_lt (by omega) (by omega), h.tail_eq,
      slot_slot h.head_lt (by omega), List.length_append, hc, Int.toNat_natCast]
  · have happ := h.holds.append data
      (by rw [hlen]; exact hroom) (by rw [← htail]; exact hfit')
    rw [← htail] at happ
    exact happ

/-- Reading one contiguous chunk takes a prefix off the queue. -/
theorem Layout.readChunk (h : Layout ring mem q) {n : ℕ} {c : ℤ} (hc : c = n)
    (hn : n ≤ q.length) (hfit : ring.head + n ≤ ring.size) :
    Block.read mem ring.head n = some (q.take n) ∧
      Layout { ring with head := advance ring.size ring.head c } mem (q.drop n) := by
  have hlen := h.length_eq
  have hroom := h.room
  have hadv : advance ring.size ring.head c = slot ring.size ring.head n := by
    rw [advance_eq_slot h.size_lt h.head_lt (by omega) (by omega), hc, Int.toNat_natCast]
  refine ⟨?_, h.buffer_eq, hlen, h.size_lt, ?_, ?_, ?_, ?_⟩
  · rw [Block.read_of_le (by omega), h.holds.take hn (by omega)]
  · dsimp only
    rw [hadv]
    exact slot_lt h.head_lt (by omega)
  · rw [List.length_drop]
    dsimp only
    omega
  · dsimp only
    rw [hadv, List.length_drop, slot_slot h.head_lt (by omega), h.tail_eq]
    congr 1
    omega
  · dsimp only
    rw [hadv, ← hlen]
    exact h.holds.drop (by rw [hlen]; exact h.head_lt) hn (by omega)

/-! ## The copying loops -/

/-- A turn moves `c` bytes, and the later turns move the rest. -/
theorem min_turn {count c : ℤ} {room : ℕ} (hpos : 0 < c) (hcount : c ≤ count) (hroom : c ≤ room) :
    min count.toNat room = c.toNat + min (count - c).toNat (room - c.toNat) := by
  omega

/-- `ring_buf_write` appends the longest prefix of its input that fits. -/
theorem Layout.writeLoop (h : Layout ring mem q) (buf : List UInt8) (count ret : ℤ)
    (hcount : count ≤ buf.length) :
    ∃ ring' mem', ringBufWriteLoop ring buf count ret
        = some (ring', ret + min count.toNat (ring.size - 1 - q.length)) ∧
      ring'.size = ring.size ∧
      Layout ring' mem' (q ++ buf.take (min count.toNat (ring.size - 1 - q.length))) := by
  -- the loop's own measure: every turn that copies moves at least one byte
  induction hm : count.toNat using Nat.strongRecOn
    generalizing ring mem q buf count ret with
  | _ m ih =>
  subst hm
  have hspace := h.spaceToEnd
  have htail := h.tail_lt
  have hroom := h.room
  rw [ringBufWriteLoop]
  split_ifs with hc
  · -- nothing is left to copy, or no room is left
    have hzero : min count.toNat (ring.size - 1 - q.length) = 0 := by
      have := chunk_nonpos hc
      omega
    refine ⟨ring, mem, by simp [hzero], rfl, ?_⟩
    rw [hzero, List.take_zero, List.append_nil]
    exact h
  · set c := chunk (ringBufSpaceToEnd ring) count
    have hcount' : c ≤ count := chunk_le _ _
    have hcspace : c ≤ ringBufSpaceToEnd ring := chunk_le_toEnd _ _
    have hdata : (buf.take c.toNat).length = c.toNat := by
      rw [List.length_take]
      omega
    obtain ⟨hwrite, hnext⟩ := h.writeChunk (buf.take c.toNat) (c := c)
      (by omega) (by omega) (by omega)
    have hread : Block.read buf 0 c.toNat = some (buf.take c.toNat) := by
      rw [Block.read_of_le (by omega), List.drop_zero]
    obtain ⟨ring', mem', hloop, hsize, hlay⟩ := ih (count - c).toNat (by omega) hnext
      (buf.drop c.toNat) (count - c) (ret + c) (by rw [List.length_drop]; omega) rfl
    have hq : (q ++ buf.take c.toNat).length = q.length + c.toNat := by
      rw [List.length_append, hdata]
    have hn : min count.toNat (ring.size - 1 - q.length)
        = c.toNat + min (count - c).toNat (ring.size - 1 - (q.length + c.toNat)) := by
      rw [min_turn (by omega) hcount' (hcspace.trans (by omega)), Nat.sub_sub]
    refine ⟨ring', mem', ?_, hsize, ?_⟩
    · simp only [hread, h.buffer_eq, hwrite, Option.bind_eq_bind, Option.bind_some, hloop, hq, hn]
      congr 2
      push_cast
      omega
    · rw [hn, List.take_add, ← List.append_assoc]
      rw [hq] at hlay
      exact hlay

/-- `ring_buf_read` takes the first bytes off the queue, as many as are asked for and stored. -/
theorem Layout.readLoop (h : Layout ring mem q) (out : List UInt8) (count ret : ℤ) :
    ∃ ring', ringBufReadLoop ring out count ret
        = some (ring', out ++ q.take (min count.toNat q.length),
            ret + min count.toNat q.length) ∧
      ring'.size = ring.size ∧ Layout ring' mem (q.drop (min count.toNat q.length)) := by
  -- at most two turns copy something, but the count is all the induction needs
  induction hm : count.toNat using Nat.strongRecOn generalizing ring q out count ret with
  | _ m ih =>
  subst hm
  have hcnt := h.cntToEnd
  have hhead := h.head_lt
  rw [ringBufReadLoop]
  split_ifs with hc
  · -- nothing is left to copy, or nothing is stored
    have hzero : min count.toNat q.length = 0 := by
      have := chunk_nonpos hc
      omega
    refine ⟨ring, by simp [hzero], rfl, ?_⟩
    rw [hzero, List.drop_zero]
    exact h
  · set c := chunk (ringBufCntToEnd ring) count
    have hcount' : c ≤ count := chunk_le _ _
    have hcstored : c ≤ ringBufCntToEnd ring := chunk_le_toEnd _ _
    obtain ⟨hread, hnext⟩ := h.readChunk (n := c.toNat) (c := c) (by omega) (by omega) (by omega)
    obtain ⟨ring', hloop, hsize, hlay⟩ := ih (count - c).toNat (by omega) hnext
      (out ++ q.take c.toNat) (count - c) (ret + c) rfl
    have hn : min count.toNat q.length
        = c.toNat + min (count - c).toNat (q.drop c.toNat).length := by
      rw [List.length_drop]
      exact min_turn (by omega) hcount' (hcstored.trans (by omega))
    rw [h.buffer_eq] at hloop
    refine ⟨ring', ?_, hsize, ?_⟩
    · simp only [hread, h.buffer_eq, Option.bind_eq_bind, Option.bind_some, hloop, hn]
      rw [List.take_add, List.append_assoc]
      congr 3
      push_cast
      omega
    · rw [hn, ← List.drop_drop]
      exact hlay

/-- `ring_buf_write_char` appends its byte iff a cell besides the free one is left. -/
theorem Layout.writeChar (h : Layout ring mem q) (data : UInt8) :
    ∃ ring' mem', ringBufWriteChar ring data
        = some (ring', if q.length < ring.size - 1 then 1 else 0) ∧
      ring'.size = ring.size ∧
      Layout ring' mem' (if q.length < ring.size - 1 then q ++ [data] else q) := by
  have hroom := h.room
  have htail := h.tail_lt
  unfold ringBufWriteChar
  by_cases hfull : q.length = ring.size - 1
  · rw [if_pos (h.full_iff.mpr hfull), if_neg (by omega), if_neg (by omega)]
    exact ⟨ring, mem, rfl, rfl, h⟩
  · rw [if_neg fun hf => hfull (h.full_iff.mp hf), if_pos (by omega), if_pos (by omega)]
    have hone : [data].length = 1 := rfl
    obtain ⟨hwrite, hnext⟩ := h.writeChunk [data] (c := 1) rfl (by omega) (by omega)
    refine ⟨_, _, ?_, ?_, hnext⟩
    · simp only [h.buffer_eq, hwrite, Option.bind_eq_bind, Option.bind_some]
    · rfl

theorem Layout.clear (h : Layout ring mem q) : Layout (ringBufClear ring) mem [] where
  buffer_eq := h.buffer_eq
  length_eq := h.length_eq
  size_lt := h.size_lt
  head_lt := Nat.lt_of_le_of_lt (Nat.zero_le _) h.head_lt
  room := Nat.lt_of_le_of_lt (Nat.zero_le _) h.head_lt
  tail_eq := by
    have hpos : 0 < ring.size := Nat.lt_of_le_of_lt (Nat.zero_le _) h.head_lt
    simp [ringBufClear, slot, hpos]
  holds := Holds.nil mem 0

/-- A freshly allocated ring buffer is empty. -/
theorem Layout.alloc {size : ℕ} (hmem : mem.length = size) (hpos : 1 ≤ size)
    (hsize : size < 2 ^ 31) : Layout (ringBufAlloc (some mem) size).2 mem [] where
  buffer_eq := rfl
  length_eq := hmem
  size_lt := hsize
  head_lt := hpos
  room := hpos
  tail_eq := by
    have hpos' : 0 < size := hpos
    simp [ringBufAlloc, slot, hpos']
  holds := Holds.nil mem 0

end

/-! ## Runs -/

/-- A call of the ring buffer's interface. -/
inductive Op
  | writeChar (data : UInt8)
  | write (buf : List UInt8) (count : ℤ)
  | read (count : ℤ)
  | clear

/-- The caller of `ring_buf_write` owns the bytes it asks to write. -/
def Op.Legal : Op → Prop
  | .write buf count => count ≤ buf.length
  | _ => True

/-- What a call returns: a number and the bytes copied to the caller. -/
abbrev Out := ℤ × List UInt8

/-- A call on the ring buffer; `none` when it accesses a cell outside the storage. -/
def RingBuffer.step (ring : RingBuffer) : Op → Option (RingBuffer × Out)
  | .writeChar data => (ringBufWriteChar ring data).map fun r => (r.1, r.2, [])
  | .write buf count => (ringBufWrite ring buf count).map fun r => (r.1, r.2, [])
  | .read count => (ringBufRead ring count).map fun r => (r.1, r.2.2, r.2.1)
  | .clear => some (ringBufClear ring, 0, [])

/-- A sequence of calls on the ring buffer, with everything they return. -/
def RingBuffer.run (ring : RingBuffer) : List Op → Option (RingBuffer × List Out)
  | [] => some (ring, [])
  | op :: ops => do
      let (ring', out) ← ring.step op
      let (ring'', outs) ← ring'.run ops
      some (ring'', out :: outs)

/-- The same call on a queue of capacity `cap`: a write appends the longest prefix that fits and
returns its length, a read removes and returns the first `min count stored` bytes. -/
def fifoStep (cap : ℕ) (q : List UInt8) : Op → List UInt8 × Out
  | .writeChar data => if q.length < cap then (q ++ [data], 1, []) else (q, 0, [])
  | .write buf count =>
      let accepted := (buf.take count.toNat).take (cap - q.length)
      (q ++ accepted, accepted.length, [])
  | .read count =>
      let n := min count.toNat q.length
      (q.drop n, n, q.take n)
  | .clear => ([], 0, [])

/-- A sequence of calls on the queue. -/
def fifoRun (cap : ℕ) (q : List UInt8) : List Op → List UInt8 × List Out
  | [] => (q, [])
  | op :: ops =>
      let r := fifoStep cap q op
      let r' := fifoRun cap r.1 ops
      (r'.1, r.2 :: r'.2)

/-- One call on the ring buffer is one call on the queue it stores. -/
theorem Layout.step {ring : RingBuffer} {mem q : List UInt8} (h : Layout ring mem q) (op : Op)
    (hop : op.Legal) :
    ∃ ring' mem', ring.step op = some (ring', (fifoStep (ring.size - 1) q op).2) ∧
      ring'.size = ring.size ∧ Layout ring' mem' (fifoStep (ring.size - 1) q op).1 := by
  cases op with
  | writeChar data =>
    obtain ⟨ring', mem', hw, hsize, hlay⟩ := h.writeChar data
    refine ⟨ring', mem', ?_, hsize, ?_⟩
    · simp only [RingBuffer.step, hw, Option.map_some, fifoStep]
      split_ifs <;> rfl
    · simp only [fifoStep]
      split_ifs at hlay ⊢ <;> exact hlay
  | write buf count =>
    have hcount : count ≤ buf.length := hop
    obtain ⟨ring', mem', hw, hsize, hlay⟩ := h.writeLoop _ _ 0 hcount
    have htake : (buf.take count.toNat).take (ring.size - 1 - q.length)
        = buf.take (min count.toNat (ring.size - 1 - q.length)) := by
      rw [List.take_take, Nat.min_comm]
    have hlen : (buf.take (min count.toNat (ring.size - 1 - q.length))).length
        = min count.toNat (ring.size - 1 - q.length) := by
      rw [List.length_take]
      omega
    refine ⟨ring', mem', ?_, hsize, ?_⟩
    · simp only [RingBuffer.step, ringBufWrite, hw, Option.map_some, fifoStep, htake, hlen]
      simp
    · simp only [fifoStep, htake]
      exact hlay
  | read count =>
    obtain ⟨ring', hr, hsize, hlay⟩ := h.readLoop [] count 0
    refine ⟨ring', mem, ?_, hsize, hlay⟩
    simp only [RingBuffer.step, ringBufRead, hr, Option.map_some, fifoStep, List.nil_append]
    simp
  | clear => exact ⟨ringBufClear ring, mem, rfl, rfl, h.clear⟩

/-- A run of the ring buffer is the run of the queue it stores. -/
theorem Layout.run {ring : RingBuffer} {mem q : List UInt8} (h : Layout ring mem q)
    (ops : List Op) (hops : ∀ op ∈ ops, op.Legal) :
    ∃ ring' mem', ring.run ops = some (ring', (fifoRun (ring.size - 1) q ops).2) ∧
      ring'.size = ring.size ∧ Layout ring' mem' (fifoRun (ring.size - 1) q ops).1 := by
  induction ops generalizing ring mem q with
  | nil => exact ⟨ring, mem, rfl, rfl, h⟩
  | cons op ops ih =>
    obtain ⟨ring₁, mem₁, hstep, hsize₁, hlay₁⟩ := h.step op (hops op List.mem_cons_self)
    obtain ⟨ring₂, mem₂, hrun, hsize₂, hlay₂⟩ :=
      ih hlay₁ fun op' hop' => hops op' (List.mem_cons_of_mem op hop')
    rw [hsize₁] at hrun hlay₂
    refine ⟨ring₂, mem₂, ?_, hsize₂.trans hsize₁, hlay₂⟩
    simp only [RingBuffer.run, hstep, hrun, Option.bind_eq_bind, Option.bind_some, fifoRun]

/-- **The ring buffer refines a bounded queue.** For every size below `2 ^ 31` and every sequence of
calls after a successful allocation, the run ends without an access outside the storage, every call
returns what it returns on a queue of capacity `size - 1`, both indices stay below the size and
`ring_buf_cnt` is the number of stored bytes. -/
theorem ring_refines_fifo (size : ℕ) (hpos : 1 ≤ size) (hsize : size < 2 ^ 31)
    (block : List UInt8) (hblock : block.length = size) (ops : List Op)
    (hops : ∀ op ∈ ops, op.Legal) :
    ∃ ring mem, (ringBufAlloc (some block) size).2.run ops
        = some (ring, (fifoRun (size - 1) [] ops).2) ∧
      Layout ring mem (fifoRun (size - 1) [] ops).1 ∧
      ring.size = size ∧ ring.head < size ∧ ring.tail < size ∧
      ringBufCnt ring = (fifoRun (size - 1) [] ops).1.length := by
  obtain ⟨ring, mem, hrun, hs, hlay⟩ := (Layout.alloc hblock hpos hsize).run ops hops
  have hs' : ring.size = size := hs
  refine ⟨ring, mem, hrun, hlay, hs', ?_, ?_, hlay.cnt⟩
  · rw [← hs']
    exact hlay.head_lt
  · rw [← hs']
    exact hlay.tail_lt

/-- `ring_refines_fifo` at size four: of five bytes three are taken, and the last write wraps. -/
theorem ring_refines_fifo_four :
    ∃ ring, (ringBufAlloc (some [0, 0, 0, 0]) 4).2.run
        [.write [1, 2, 3, 4, 5] 5, .read 2, .writeChar 9, .writeChar 8]
        = some (ring, [(3, []), (2, [1, 2]), (1, []), (1, [])]) ∧
      ringBufCnt ring = 3 := by
  have hops : ∀ op ∈ [.write [1, 2, 3, 4, 5] 5, .read 2, .writeChar 9, .writeChar 8],
      Op.Legal op := by
    simp [Op.Legal]
  obtain ⟨ring, -, hrun, -, -, -, -, hcnt⟩ :=
    ring_refines_fifo 4 (by decide) (by decide) [0, 0, 0, 0] rfl _ hops
  exact ⟨ring, hrun, hcnt⟩

end NuAgent.Ring
