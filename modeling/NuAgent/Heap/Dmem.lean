import Mathlib.Logic.Function.Basic
import Mathlib.Logic.Relation
import NuAgent.Lib.CInt

/-!
# The dynamic memory pool

Reference: `Ports/Cortex-M3/os_dmem.c` and `os_dmem.h`.

The pool is a block of memory tiled by headers of 16 bytes, each followed by the payload it
describes, threaded into a circular doubly linked list that ends in a small trailer. Memory is a map
from byte addresses to the objects that start there: the pointer fields of a header and its free
flag are cells of that map, and so is everything a client stores in its payload.
-/

namespace NuAgent.Heap

open CInt

/-! ## Memory and headers -/

/-- Memory: the object that starts at a byte address. -/
abbrev Mem := ℕ → ℕ

/-- `DM_OVERHEAD`, the size of a header. -/
def dmOverhead : ℕ := 16

/-- The field `dm_next_memory` of the header at `a`. -/
def next (m : Mem) (a : ℕ) : ℕ := m a
/-- The field `dm_previous_memory` of the header at `a`. -/
def prev (m : Mem) (a : ℕ) : ℕ := m (a + 4)
/-- The field `dm_memory_free` of the header at `a`, as a truth value. -/
def isFree (m : Mem) (a : ℕ) : Prop := m (a + 8) ≠ 0
/-- The field `dm_memory_pool` of the header at `a`. -/
def poolOf (m : Mem) (a : ℕ) : ℕ := m (a + 12)

instance (m : Mem) (a : ℕ) : Decidable (isFree m a) := inferInstanceAs (Decidable (m (a + 8) ≠ 0))

/-- Assignment to `dm_next_memory`. -/
def setNext (m : Mem) (a v : ℕ) : Mem := Function.update m a v
/-- Assignment to `dm_previous_memory`. -/
def setPrev (m : Mem) (a v : ℕ) : Mem := Function.update m (a + 4) v
/-- Assignment of `TRUE` or `FALSE` to `dm_memory_free`. -/
def setFree (m : Mem) (a : ℕ) (b : Bool) : Mem := Function.update m (a + 8) b.toNat
/-- Assignment to `dm_memory_pool`. -/
def setPool (m : Mem) (a v : ℕ) : Mem := Function.update m (a + 12) v

/-- `DM_PCB`; `pcb` is the address of the control block itself, which the headers store. -/
structure Pool where
  pcb : ℕ
  startAddress : ℕ
  poolSize : ℕ
  minAllocation : ℕ
  available : ℕ
  memoryList : ℕ
  searchPtr : ℕ

/-- The memory and the control block of its one pool. -/
structure State where
  mem : Mem
  pool : Pool

/-! ## `OS_Create_Memory_Pool` -/

/-- `OS_Create_Memory_Pool`: a single free block that has all of the memory, and the trailer. -/
def osCreateMemoryPool (m : Mem) (pcb startAddress poolSize minAllocation : ℕ) : State :=
  let poolSize := poolSize / 4 * 4
  let available := u32 (poolSize - 2 * dmOverhead)
  let m := setPool m startAddress pcb
  let m := setFree m startAddress true
  let m := setNext m startAddress (u32 (startAddress + available + dmOverhead))
  let m := setPrev m startAddress (next m startAddress)
  let trailer := next m startAddress
  let m := setNext m trailer startAddress
  let m := setPrev m trailer startAddress
  let m := setPool m trailer pcb
  let m := setFree m trailer false
  { mem := m
    pool :=
      { pcb, startAddress, poolSize
        minAllocation := u32 (minAllocation + 4 - 1) / 4 * 4
        available
        memoryList := startAddress
        searchPtr := startAddress } }

/-- `OS_DMEM_POOL_SIZE`. -/
def dmemPoolSize : ℕ := 1024 * 20

/-- `OS_DMemInit`, for a system pool at `sysemPool` with its control block at `pcb`. -/
def osDMemInit (m : Mem) (pcb sysemPool : ℕ) : State :=
  osCreateMemoryPool m pcb sysemPool dmemPoolSize 16

/-! ## `OS_GetMem` -/

/-- The request adjusted to the minimum size and to a multiple of the word size. -/
def adjustSize (minAllocation size : ℕ) : ℕ :=
  if size < minAllocation then minAllocation else u32 (size + 4 - 1) / 4 * 4

/-- The free bytes of the block at `a`; none when it is in use. -/
def freeSize (m : Mem) (a : ℕ) : ℕ :=
  if isFree m a then u32 (next m a - a - dmOverhead) else 0

/-- The `do`-`while` loop that searches the list from `memoryPtr` on for a block of `size` bytes and
gives up when it is back at the search pointer. The result is the last `memory_ptr` and `free_size`;
`none` means that `fuel` turns were not enough. -/
def searchLoop (m : Mem) (searchPtr size : ℕ) : ℕ → ℕ → Option (ℕ × ℕ)
  | 0, _ => none
  | fuel + 1, memoryPtr =>
      if freeSize m memoryPtr < size then
        if next m memoryPtr ≠ searchPtr then searchLoop m searchPtr size fuel (next m memoryPtr)
        else some (next m memoryPtr, freeSize m memoryPtr)
      else some (memoryPtr, freeSize m memoryPtr)

/-- Split the block at `a`: a new free header behind `size` bytes of payload. -/
def splitBlock (m : Mem) (pcb a size : ℕ) : Mem :=
  let newPtr := u32 (a + size + dmOverhead)
  let m := setFree m newPtr true
  let m := setPool m newPtr pcb
  let m := setPrev m newPtr a
  let m := setNext m newPtr (next m a)
  let m := setPrev m (next m newPtr) newPtr
  setNext m a newPtr

/-- Take the block at `a` with its `free` bytes for a request of `size` bytes. -/
def takeBlock (s : State) (a free size : ℕ) : State :=
  let split := free ≥ u32 (size + dmOverhead + s.pool.minAllocation)
  let m := if split then splitBlock s.mem s.pool.pcb a size else s.mem
  let available :=
    if split then u32 (s.pool.available - size - dmOverhead) else u32 (s.pool.available - free)
  let m := setFree m a false
  { mem := m
    pool :=
      { s.pool with
        available
        searchPtr := if s.pool.searchPtr = a then next m a else s.pool.searchPtr } }

/-- The status codes of the pool's interface. -/
inductive OsErr
  | errNone
  | errMemFull
deriving DecidableEq, Repr

/-- `OS_GetMem`: the status, the returned pointer (`0` is `NULL`) and the pool. A turn of the search
moves to another header, so the size of the pool bounds the number of turns. -/
def osGetMem (s : State) (size : ℕ) : Option (OsErr × ℕ × State) := do
  let size := adjustSize s.pool.minAllocation size
  let (memoryPtr, free) ← searchLoop s.mem s.pool.searchPtr size s.pool.poolSize s.pool.searchPtr
  if free ≥ size then
    some (.errNone, u32 (memoryPtr + dmOverhead), takeBlock s memoryPtr free size)
  else some (.errMemFull, 0, s)

/-- `OSMMalloc`. -/
def osmMalloc (s : State) (size : ℕ) : Option (ℕ × State) := do
  let (err, pointer, s') ← osGetMem s size
  some (if err = .errNone then pointer else 0, s')

/-- `memset` to zero of `n` bytes from `p` on. -/
def memset (m : Mem) (p n : ℕ) : Mem := fun a => if p ≤ a ∧ a < p + n then 0 else m a

/-- `OSMCalloc`. -/
def osmCalloc (s : State) (count size : ℕ) : Option (ℕ × State) := do
  let (p, s) ← osmMalloc s (u32 (count * size))
  if p ≠ 0 then some (p, { s with mem := memset s.mem p (u32 (count * size)) })
  else some (p, s)

/-! ## `OS_FreeMem` -/

/-- Merge the block at `a` into its previous neighbour when that is free; the resulting block. -/
def mergePrev (s : State) (a : ℕ) : State × ℕ :=
  if isFree s.mem (prev s.mem a) then
    let m := s.mem
    let m := setNext m (prev m a) (next m a)
    let m := setPrev m (next m a) (prev m a)
    let header := prev m a
    ({ mem := m
       pool := { s.pool with
         available := u32 (s.pool.available + dmOverhead)
         searchPtr := header } }, header)
  else (s, a)

/-- Merge the next neighbour of the block at `a` into it when that is free. -/
def mergeNext (s : State) (a : ℕ) : State :=
  if isFree s.mem (next s.mem a) then
    let m := s.mem
    let newPtr := next m a
    let m := setPrev m (next m newPtr) a
    let m := setNext m a (next m newPtr)
    { mem := m
      pool := { s.pool with
        available := u32 (s.pool.available + dmOverhead)
        searchPtr := a } }
  else s

/-- Mark the block at `a` free and count its bytes. -/
def releaseBlock (s : State) (a : ℕ) : State :=
  let m := setFree s.mem a true
  { mem := m
    pool := { s.pool with
      available := u32 (s.pool.available + (next m a - a) - dmOverhead) } }

/-- `OS_FreeMem`. The control block is found through the header; `none` when the header does not
point to it. -/
def osFreeMem (s : State) (memory : ℕ) : Option State :=
  let header := u32 (memory - dmOverhead)
  if poolOf s.mem header ≠ s.pool.pcb then none
  else
    let (s, header) := mergePrev (releaseBlock s header) header
    some (mergeNext s header)

/-- `OSMFree`. -/
def osmFree (s : State) (ptr : ℕ) : Option State := osFreeMem s ptr

end NuAgent.Heap
