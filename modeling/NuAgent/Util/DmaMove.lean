import Mathlib.Tactic.SplitIfs
import NuAgent.Lib.CInt
import NuAgent.Lib.Overlay

/-!
# Moving memory by DMA

Reference: `NST_DmaMoveMem` of `Sys/util.c`, `BSP_DmaStart` and `BSP_DmaIntISR` of `BSP/dma.c`.

Ranges with the same offset from a word are moved in three parts: a head, blocks that the DMA
controller moves one after the other while its interrupt handler starts the next one, and a tail.
The head has the length of the offset instead of what is missing to the next word, the start of a
block is called with source and destination exchanged, and a size below the length of the head wraps
round to almost 64 KB.
-/

namespace NuAgent.Util

open CInt
open Memory

/-! ## The source -/

/-- `MEM_ALIGNMENT`. -/
abbrev memAlignment : ℕ := 4

/-- `DMA_TRANSFER_SIZE_IN_BYTE`, `DMA_TRANSFER_SIZE*4`. -/
abbrev dmaTransferSizeInByte : ℕ := 127 * 4

/-- Memory, the variables shared with the interrupt handler, and channel 1 of the controller; `busy`
says that a block is being moved, and `starts` lists the addresses of all starts. -/
structure Dma where
  mem : ℕ → UInt8
  pDmaDst : ℕ
  pDmaSrc : ℕ
  dmaSize : ℕ
  pDmaSem : ℕ
  sar : ℕ
  dar : ℕ
  busy : Bool
  starts : List (ℕ × ℕ)

namespace Dma

variable (s : Dma)

/-- `NST_MoveBigMem`, that is `memcpy` with a 16-bit length. -/
def nstMoveBigMem (pDst pSrc size : ℕ) : Dma := { s with mem := copy s.mem pDst pSrc (u16 size) }

/-- `BSP_DmaStart` on channel 1. -/
def bspDmaStart (pSrc pDest : ℕ) : Dma :=
  { s with
    sar := pSrc
    dar := pDest
    busy := true
    starts := s.starts ++ [(pSrc, pDest)] }

/-- The controller moves a block and raises its interrupt. -/
def transfer : Dma :=
  { s with mem := copy s.mem s.dar s.sar dmaTransferSizeInByte, busy := false }

/-- `BSP_DmaIntISR` for channel 1. -/
def bspDmaIntIsr : Dma :=
  let s := { s with
    pDmaDst := s.pDmaDst + dmaTransferSizeInByte
    pDmaSrc := s.pDmaSrc + dmaTransferSizeInByte
    dmaSize := u16 (s.dmaSize - dmaTransferSizeInByte) }
  if s.dmaSize > dmaTransferSizeInByte then s.bspDmaStart s.pDmaDst s.pDmaSrc
  else { s with pDmaSem := s.pDmaSem + 1 }

/-- `OSSemPend` without a timeout: while the semaphore is not posted, blocks complete. It gives up
after `fuel` blocks, or when no interrupt is to come. -/
def osSemPend : ℕ → Dma → Option Dma
  | 0, s => if s.pDmaSem > 0 then some { s with pDmaSem := s.pDmaSem - 1 } else none
  | fuel + 1, s =>
      if s.pDmaSem > 0 then some { s with pDmaSem := s.pDmaSem - 1 }
      else if s.busy then osSemPend fuel s.transfer.bspDmaIntIsr
      else none

/-- `NST_DmaMoveMem`. -/
def nstDmaMoveMem (fuel : ℕ) (pDst pSrc : ℕ) (size : UInt16) : Option Dma :=
  let memAlignModDst := pDst % memAlignment
  let memAlignModSrc := pSrc % memAlignment
  if memAlignModDst ≠ memAlignModSrc then some (s.nstMoveBigMem pDst pSrc size.toNat)
  else
    let s := if memAlignModDst > 0 then s.nstMoveBigMem pDst pSrc memAlignModDst else s
    let s := { s with
      pDmaDst := pDst + memAlignModDst
      pDmaSrc := pSrc + memAlignModSrc
      dmaSize := u16 ((size.toNat : ℤ) - memAlignModDst) }
    -- Short Data
    if (size.toNat : ℤ) - memAlignModDst < dmaTransferSizeInByte then
      some (s.nstMoveBigMem s.pDmaDst s.pDmaSrc s.dmaSize)
    else do
      -- First Block
      let s ← (s.bspDmaStart s.pDmaDst s.pDmaSrc).osSemPend fuel
      let s := { s with pDmaSem := 0 }
      -- Left
      if s.dmaSize > 0 then some (s.nstMoveBigMem s.pDmaDst s.pDmaSrc s.dmaSize) else some s

end Dma

/-! ## The chain of blocks -/

/-- The blocks that are moved for `n` bytes: the last one is left to the tail. -/
def blocks (n : ℕ) : ℕ := max 1 ((n - 1) / 508)

theorem blocks_last {n : ℕ} (h : n ≤ 1016) : blocks n = 1 := by
  unfold blocks
  omega

theorem blocks_step {n : ℕ} (h : 1016 < n) : blocks n = 1 + blocks (n - 508) := by
  unfold blocks
  omega

theorem blocks_le {n : ℕ} (h : 508 ≤ n) : 508 * blocks n ≤ n := by
  unfold blocks
  omega

theorem u16_natCast {n : ℕ} (h : n < 65536) : u16 n = n := by
  rw [u16_of_lt (by omega) (by omega), Int.toNat_natCast]

/-- A block is being moved, from where the destination is to where the source is. -/
structure Dma.Moving (s : Dma) : Prop where
  busy : s.busy = true
  waiting : s.pDmaSem = 0
  sar_eq : s.sar = s.pDmaDst
  dar_eq : s.dar = s.pDmaSrc
  size_ge : 508 ≤ s.dmaSize
  size_lt : s.dmaSize < 65536

/-- What the chain of blocks that starts in `s` leaves behind. -/
structure Dma.Moved (s s' : Dma) : Prop where
  mem_eq : s'.mem = copy s.mem s.pDmaSrc s.pDmaDst (508 * blocks s.dmaSize)
  dst_eq : s'.pDmaDst = s.pDmaDst + 508 * blocks s.dmaSize
  src_eq : s'.pDmaSrc = s.pDmaSrc + 508 * blocks s.dmaSize
  size_eq : s'.dmaSize = s.dmaSize - 508 * blocks s.dmaSize
  starts_mono : ∀ p ∈ s.starts, p ∈ s'.starts
  starts_aligned : ∀ p ∈ s'.starts,
    p ∈ s.starts ∨ (p.1 % 4 = s.pDmaDst % 4 ∧ p.2 % 4 = s.pDmaSrc % 4)

/-- The two ranges of `n` bytes have no byte in common. -/
def Apart (dst src n : ℕ) : Prop := dst + n ≤ src ∨ src + n ≤ dst

instance (dst src n : ℕ) : Decidable (Apart dst src n) := inferInstanceAs (Decidable (_ ∨ _))

/-- The state behind a block, before the handler decides how to go on. -/
def Dma.advance (s : Dma) : Dma :=
  { s with
    mem := copy s.mem s.pDmaSrc s.pDmaDst 508
    pDmaDst := s.pDmaDst + 508
    pDmaSrc := s.pDmaSrc + 508
    dmaSize := s.dmaSize - 508
    busy := false }

section
variable {s : Dma}

@[simp] theorem Dma.advance_mem : s.advance.mem = copy s.mem s.pDmaSrc s.pDmaDst 508 := rfl
@[simp] theorem Dma.advance_pDmaDst : s.advance.pDmaDst = s.pDmaDst + 508 := rfl
@[simp] theorem Dma.advance_pDmaSrc : s.advance.pDmaSrc = s.pDmaSrc + 508 := rfl
@[simp] theorem Dma.advance_dmaSize : s.advance.dmaSize = s.dmaSize - 508 := rfl
@[simp] theorem Dma.advance_starts : s.advance.starts = s.starts := rfl
@[simp] theorem Dma.advance_pDmaSem : s.advance.pDmaSem = s.pDmaSem := rfl

@[simp] theorem Dma.start_mem (p q : ℕ) : (s.bspDmaStart p q).mem = s.mem := rfl
@[simp] theorem Dma.start_pDmaDst (p q : ℕ) : (s.bspDmaStart p q).pDmaDst = s.pDmaDst := rfl
@[simp] theorem Dma.start_pDmaSrc (p q : ℕ) : (s.bspDmaStart p q).pDmaSrc = s.pDmaSrc := rfl
@[simp] theorem Dma.start_dmaSize (p q : ℕ) : (s.bspDmaStart p q).dmaSize = s.dmaSize := rfl
@[simp] theorem Dma.start_pDmaSem (p q : ℕ) : (s.bspDmaStart p q).pDmaSem = s.pDmaSem := rfl
@[simp] theorem Dma.start_starts (p q : ℕ) :
    (s.bspDmaStart p q).starts = s.starts ++ [(p, q)] := rfl

/-- A block that is started from the variables of the handler is being moved. -/
theorem Dma.moving_start (hwait : s.pDmaSem = 0) (hge : 508 ≤ s.dmaSize)
    (hlt : s.dmaSize < 65536) : (s.bspDmaStart s.pDmaDst s.pDmaSrc).Moving :=
  ⟨rfl, hwait, rfl, rfl, hge, hlt⟩

/-- One completed block: the next one is started, or the semaphore is posted. -/
theorem Dma.Moving.step (h : s.Moving) :
    s.transfer.bspDmaIntIsr =
      if 1016 < s.dmaSize then s.advance.bspDmaStart s.advance.pDmaDst s.advance.pDmaSrc
      else { s.advance with pDmaSem := 1 } := by
  have hge := h.size_ge
  have hlt := h.size_lt
  have hsize : u16 ((s.dmaSize : ℤ) - (508 : ℕ)) = s.dmaSize - 508 := by
    rw [u16_of_lt (by omega) (by omega)]
    omega
  have hcond : s.dmaSize - 508 > 508 ↔ 1016 < s.dmaSize := by omega
  simp only [Dma.transfer, Dma.bspDmaIntIsr, dmaTransferSizeInByte, h.sar_eq, h.dar_eq, h.waiting,
    Nat.reduceMul, hsize, hcond, Nat.zero_add, Dma.advance]

/-- A semaphore that is posted is taken at once. -/
theorem Dma.osSemPend_posted (fuel : ℕ) (h : s.pDmaSem > 0) :
    Dma.osSemPend fuel s = some { s with pDmaSem := s.pDmaSem - 1 } := by
  cases fuel <;> rw [Dma.osSemPend, if_pos h]

/-- What is left behind when the last block is followed by no other. -/
theorem Dma.Moved.last (hlast : s.dmaSize ≤ 1016) :
    s.Moved { s.advance with pDmaSem := 0 } := by
  have hblocks := blocks_last hlast
  refine ⟨?_, ?_, ?_, ?_, fun p hp => hp, fun p hp => .inl hp⟩ <;> rw [hblocks] <;> rfl

/-- What is left behind when the handler starts the next block. -/
theorem Dma.Moved.next {s' : Dma} (hmore : 1016 < s.dmaSize)
    (hapart : Apart s.pDmaDst s.pDmaSrc s.dmaSize)
    (h : (s.advance.bspDmaStart s.advance.pDmaDst s.advance.pDmaSrc).Moved s') : s.Moved s' := by
  have hstep := blocks_step hmore
  have hle := blocks_le (n := s.dmaSize - 508) (by omega)
  have hmul : 508 * blocks s.dmaSize = 508 + 508 * blocks (s.dmaSize - 508) := by omega
  obtain ⟨hmem, hdst, hsrc, hsize, hmono, haligned⟩ := h
  simp only [Dma.advance_mem, Dma.advance_pDmaDst, Dma.advance_pDmaSrc, Dma.advance_dmaSize,
    Dma.advance_starts, Dma.start_mem, Dma.start_pDmaDst, Dma.start_pDmaSrc, Dma.start_dmaSize,
    Dma.start_starts] at hmem hdst hsrc hsize hmono haligned
  rw [Apart] at hapart
  refine ⟨?_, by omega, by omega, by omega, fun p hp => hmono p (List.mem_append_left _ hp), ?_⟩
  · rw [hmem, hmul, copy_copy (by omega)]
  · intro p hp
    rcases haligned p hp with hstart | hword
    · rcases List.mem_append.mp hstart with hold | hnew
      · exact .inl hold
      · rw [List.mem_singleton] at hnew
        rw [hnew]
        exact .inr ⟨by omega, by omega⟩
    · exact .inr ⟨by omega, by omega⟩

/-- Waiting for the semaphore moves all blocks. -/
theorem Dma.Moving.osSemPend (h : s.Moving) (hapart : Apart s.pDmaDst s.pDmaSrc s.dmaSize)
    {fuel : ℕ} (hfuel : blocks s.dmaSize ≤ fuel) :
    ∃ s', Dma.osSemPend fuel s = some s' ∧ s.Moved s' := by
  induction fuel generalizing s with
  | zero =>
    have hpos : 1 ≤ blocks s.dmaSize := Nat.le_max_left _ _
    omega
  | succ fuel ih =>
    have hge := h.size_ge
    have hlt := h.size_lt
    have hsem : ¬ s.pDmaSem > 0 := by
      rw [h.waiting]
      exact lt_irrefl 0
    rw [Dma.osSemPend, if_neg hsem, if_pos h.busy, h.step]
    by_cases hmore : 1016 < s.dmaSize
    · -- the handler starts the next block
      have hstep := blocks_step hmore
      have hmoving : (s.advance.bspDmaStart s.advance.pDmaDst s.advance.pDmaSrc).Moving :=
        Dma.moving_start h.waiting (by rw [Dma.advance_dmaSize]; omega)
          (by rw [Dma.advance_dmaSize]; omega)
      have hnext : Apart (s.advance.bspDmaStart s.advance.pDmaDst s.advance.pDmaSrc).pDmaDst
          (s.advance.bspDmaStart s.advance.pDmaDst s.advance.pDmaSrc).pDmaSrc
          (s.advance.bspDmaStart s.advance.pDmaDst s.advance.pDmaSrc).dmaSize := by
        rw [Apart] at hapart ⊢
        simp only [Dma.start_pDmaDst, Dma.start_pDmaSrc, Dma.start_dmaSize, Dma.advance_pDmaDst,
          Dma.advance_pDmaSrc, Dma.advance_dmaSize]
        omega
      obtain ⟨s', hpend, hmoved⟩ := ih hmoving hnext (by
        rw [Dma.start_dmaSize, Dma.advance_dmaSize]
        omega)
      rw [if_pos hmore]
      exact ⟨s', hpend, hmoved.next hmore hapart⟩
    · -- the handler posts the semaphore
      rw [if_neg hmore, Dma.osSemPend_posted fuel Nat.one_pos]
      exact ⟨_, rfl, Dma.Moved.last (by omega)⟩

end

/-! ## When the parts make one copy -/

section
variable {mem : ℕ → UInt8} {pDst pSrc m b l z : ℕ}

/-- A head, blocks in the wrong direction and a tail are a copy iff the blocks change nothing. -/
theorem copy_exchanged_iff (hz : m + b + l = z) (hapart : Apart pDst pSrc z) :
    copy (copy (copy mem pDst pSrc m) (pSrc + m) (pDst + m) b) (pDst + m + b) (pSrc + m + b) l =
      copy mem pDst pSrc z ↔ window mem (pDst + m) b = window mem (pSrc + m) b := by
  rw [Apart] at hapart
  constructor
  · intro h
    rw [window_eq_iff]
    intro i hi
    -- a byte of the source that a block has overwritten
    have hcell := congrFun h (pSrc + m + i)
    rw [copy_outside (by omega), copy_inside hi, copy_outside (by omega),
      copy_outside (by omega)] at hcell
    exact hcell
  · intro h
    have hkeep : copy (copy mem pDst pSrc m) (pSrc + m) (pDst + m) b = copy mem pDst pSrc m := by
      rw [copy_eq_self_iff, window_eq_iff]
      intro i hi
      rw [copy_outside (by omega), copy_outside (by omega), (window_eq_iff.mp h) i hi]
    have hlong : copy mem pDst pSrc (m + b) = copy mem pDst pSrc m :=
      copy_eq_copy (Nat.le_add_right m b) (by rwa [Nat.add_sub_cancel_left])
    rw [hkeep, ← hlong, Nat.add_assoc pDst, Nat.add_assoc pSrc, copy_copy (by omega), hz]

/-- A head that is too long and what follows it are a copy iff neither changes anything else. -/
theorem copy_wrapped_iff (hz : z < m) :
    copy (copy mem pDst pSrc m) (pDst + m) (pSrc + m) l = copy mem pDst pSrc z ↔
      window mem (pDst + z) (m - z) = window mem (pSrc + z) (m - z) ∧
        window (copy mem pDst pSrc z) (pDst + m) l = window (copy mem pDst pSrc z) (pSrc + m) l := by
  have hhead : copy (copy mem pDst pSrc m) (pDst + m) (pSrc + m) l = copy mem pDst pSrc z →
      window mem (pDst + z) (m - z) = window mem (pSrc + z) (m - z) := by
    intro h
    rw [window_eq_iff]
    intro i hi
    have hcell := congrFun h (pDst + (z + i))
    rw [copy_outside (by omega), copy_inside (by omega), copy_outside (by omega)] at hcell
    rw [Nat.add_assoc, Nat.add_assoc, hcell]
  constructor
  · intro h
    have hwindow := hhead h
    rw [copy_eq_copy hz.le hwindow] at h
    exact ⟨hwindow, copy_eq_self_iff.mp h⟩
  · rintro ⟨hwindow, htail⟩
    rw [copy_eq_copy hz.le hwindow]
    exact copy_eq_self_iff.mpr htail

end

/-! ## The whole move -/

/-- The state before a move: the semaphore is not posted and no block is on its way. -/
def Dma.idle (s : Dma) : Dma := { s with pDmaSem := 0, busy := false, starts := [] }

/-- A move comes to an end with the source's bytes in the destination and nothing else changed, and
has started the controller at addresses of words only. -/
def Dma.MovesRight (s : Dma) (pDst pSrc : ℕ) (size : UInt16) : Prop :=
  ∃ n, ∀ fuel ≥ n, ∃ s', s.idle.nstDmaMoveMem fuel pDst pSrc size = some s' ∧
    (∀ i < size.toNat, s'.mem (pDst + i) = s.mem (pSrc + i)) ∧
    (∀ a, a < pDst ∨ pDst + size.toNat ≤ a → s'.mem a = s.mem a) ∧
    ∀ p ∈ s'.starts, p.1 % memAlignment = 0 ∧ p.2 % memAlignment = 0

/-- The moves that go right: the offsets differ, or what follows the head is short, or the blocks
start at words and exchange equal bytes, or a head that is too long and the wrapped length behind it
copy equal bytes. -/
def MoveFits (mem : ℕ → UInt8) (pDst pSrc : ℕ) (size : UInt16) : Prop :=
  let m := pDst % memAlignment
  m ≠ pSrc % memAlignment ∨
  (m ≤ size.toNat ∧ size.toNat < m + dmaTransferSizeInByte) ∨
  (m + dmaTransferSizeInByte ≤ size.toNat ∧ (m = 0 ∨ m = 2) ∧
    window mem (pDst + m) (508 * blocks (size.toNat - m)) =
      window mem (pSrc + m) (508 * blocks (size.toNat - m))) ∨
  (size.toNat < m ∧
    window mem (pDst + size.toNat) (m - size.toNat) =
      window mem (pSrc + size.toNat) (m - size.toNat) ∧
    window (copy mem pDst pSrc size.toNat) (pDst + m) (65536 + size.toNat - m) =
      window (copy mem pDst pSrc size.toNat) (pSrc + m) (65536 + size.toNat - m))

/-- The state behind the head. -/
def Dma.headed (s : Dma) (pDst pSrc : ℕ) (size : UInt16) : Dma :=
  { s with
    mem := copy s.mem pDst pSrc (pDst % 4)
    pDmaDst := pDst + pDst % 4
    pDmaSrc := pSrc + pDst % 4
    dmaSize := u16 ((size.toNat : ℤ) - (pDst % 4 : ℕ)) }

/-- The tail. -/
def Dma.finish (s : Dma) : Dma := s.nstMoveBigMem s.pDmaDst s.pDmaSrc s.dmaSize

section
variable (s : Dma) {pDst pSrc : ℕ} {size : UInt16} {fuel : ℕ}

theorem Dma.nstMoveBigMem_zero (p q : ℕ) : s.nstMoveBigMem p q 0 = s := by
  rw [Dma.nstMoveBigMem, u16_natCast (by decide), copy_zero]

theorem Dma.nstDmaMoveMem_ne (h : pDst % 4 ≠ pSrc % 4) :
    s.nstDmaMoveMem fuel pDst pSrc size = some { s with mem := copy s.mem pDst pSrc size.toNat } := by
  rw [Dma.nstDmaMoveMem, if_pos h, Dma.nstMoveBigMem, u16_natCast size.toNat_lt]

/-- Ranges with the same offset are moved in parts. -/
theorem Dma.nstDmaMoveMem_same (h : pDst % 4 = pSrc % 4) :
    s.nstDmaMoveMem fuel pDst pSrc size =
      if (size.toNat : ℤ) - (pDst % 4 : ℕ) < 508 then some (s.headed pDst pSrc size).finish
      else (Dma.osSemPend fuel ((s.headed pDst pSrc size).bspDmaStart (pDst + pDst % 4)
        (pSrc + pDst % 4))).map fun s => { s with pDmaSem := 0 }.finish := by
  have hhead : (if pDst % 4 > 0 then s.nstMoveBigMem pDst pSrc (pDst % 4) else s) =
      { s with mem := copy s.mem pDst pSrc (pDst % 4) } := by
    split_ifs with hpos
    · rw [Dma.nstMoveBigMem, u16_natCast (by omega)]
    · rw [show pDst % 4 = 0 by omega, copy_zero]
  have htail : ∀ s : Dma, (if s.dmaSize > 0 then
      some ({ s with pDmaSem := 0 }.nstMoveBigMem s.pDmaDst s.pDmaSrc s.dmaSize)
      else some { s with pDmaSem := 0 }) = some { s with pDmaSem := 0 }.finish := by
    intro s
    split_ifs with hpos
    · rfl
    · have hzero : { s with pDmaSem := 0 }.dmaSize = 0 := by
        show s.dmaSize = 0
        omega
      rw [Dma.finish, hzero, Dma.nstMoveBigMem_zero]
  rw [Dma.nstDmaMoveMem, if_neg (not_not.mpr h)]
  simp only [memAlignment, dmaTransferSizeInByte, hhead, ← h, htail, Nat.reduceMul,
    Nat.cast_ofNat]
  split_ifs
  · rfl
  · rw [Option.map_eq_bind]
    rfl

/-- A final state is right when its memory is the copy and its starts are at words. -/
theorem Dma.right_iff {s' : Dma} {n : ℕ} :
    ((∀ i < n, s'.mem (pDst + i) = s.mem (pSrc + i)) ∧
      (∀ a, a < pDst ∨ pDst + n ≤ a → s'.mem a = s.mem a) ∧
      ∀ p ∈ s'.starts, p.1 % memAlignment = 0 ∧ p.2 % memAlignment = 0) ↔
    s'.mem = copy s.mem pDst pSrc n ∧
      ∀ p ∈ s'.starts, p.1 % memAlignment = 0 ∧ p.2 % memAlignment = 0 := by
  rw [eq_copy_iff, and_assoc]

/-- A move that ends with the same memory and as good starts for all fuel from `n` on. -/
theorem Dma.movesRight_iff_of {mem : ℕ → UInt8} {aligned : Prop} (n : ℕ)
    (h : ∀ fuel ≥ n, ∃ s', s.idle.nstDmaMoveMem fuel pDst pSrc size = some s' ∧ s'.mem = mem ∧
      ((∀ p ∈ s'.starts, p.1 % memAlignment = 0 ∧ p.2 % memAlignment = 0) ↔ aligned)) :
    s.MovesRight pDst pSrc size ↔ mem = copy s.mem pDst pSrc size.toNat ∧ aligned := by
  constructor
  · rintro ⟨n', h'⟩
    obtain ⟨s₁, hs₁, hmem, haligned⟩ := h (max n n') (Nat.le_max_left _ _)
    obtain ⟨s₂, hs₂, hright⟩ := h' (max n n') (Nat.le_max_right _ _)
    rw [hs₁, Option.some.injEq] at hs₂
    rwa [← hs₂, s.right_iff, hmem, haligned] at hright
  · rintro hright
    refine ⟨n, fun fuel hfuel => ?_⟩
    obtain ⟨s', hs', hmem, haligned⟩ := h fuel hfuel
    refine ⟨s', hs', ?_⟩
    rwa [s.right_iff, hmem, haligned]

/-- The state in which the first block is on its way. -/
theorem Dma.moving_headed (pSrc : ℕ) (hlong : pDst % 4 + 508 ≤ size.toNat) :
    ((s.idle.headed pDst pSrc size).bspDmaStart (pDst + pDst % 4) (pSrc + pDst % 4)).Moving ∧
      (s.idle.headed pDst pSrc size).dmaSize = size.toNat - pDst % 4 := by
  have hlt := size.toNat_lt
  have hsize : (s.idle.headed pDst pSrc size).dmaSize = size.toNat - pDst % 4 := by
    show u16 _ = _
    rw [u16_of_lt (by omega) (by omega)]
    omega
  exact ⟨Dma.moving_start rfl (by omega) (by omega), hsize⟩

theorem Dma.movesRight_blocks (hsame : pDst % 4 = pSrc % 4) (hlong : pDst % 4 + 508 ≤ size.toNat)
    (hapart : Apart pDst pSrc size.toNat) :
    s.MovesRight pDst pSrc size ↔
      window s.mem (pDst + pDst % 4) (508 * blocks (size.toNat - pDst % 4)) =
          window s.mem (pSrc + pDst % 4) (508 * blocks (size.toNat - pDst % 4)) ∧
        (pDst % 4 = 0 ∨ pDst % 4 = 2) := by
  obtain ⟨hmoving, hsize⟩ := s.moving_headed pSrc hlong
  have hle := blocks_le (n := size.toNat - pDst % 4) (by omega)
  rw [← copy_exchanged_iff (l := size.toNat - pDst % 4 - 508 * blocks (size.toNat - pDst % 4))
    (by omega) hapart]
  refine s.movesRight_iff_of (blocks (size.toNat - pDst % 4)) fun fuel hfuel => ?_
  rw [Apart] at hapart
  have hnext : Apart (pDst + pDst % 4) (pSrc + pDst % 4) (size.toNat - pDst % 4) := by
    rw [Apart]
    omega
  rw [← hsize] at hnext hfuel
  obtain ⟨s', hpend, hmem, hdst, hsrc, hleft, hmono, haligned⟩ := hmoving.osSemPend hnext hfuel
  rw [Dma.start_dmaSize, hsize] at hmem hdst hsrc hleft
  refine ⟨_, by rw [Dma.nstDmaMoveMem_same _ hsame, if_neg (by omega), hpend]; rfl, ?_, ?_⟩
  · have hu16 : u16 (s'.dmaSize : ℤ) = s'.dmaSize := u16_natCast (by have := size.toNat_lt; omega)
    show copy s'.mem s'.pDmaDst s'.pDmaSrc (u16 s'.dmaSize) = _
    rw [hu16, hmem, hdst, hsrc, hleft]
    rfl
  · show (∀ p ∈ s'.starts, _) ↔ _
    have hdst4 : (pDst + pDst % 4) % 4 = 0 ↔ pDst % 4 = 0 ∨ pDst % 4 = 2 := by omega
    have hsrc4 : (pSrc + pDst % 4) % 4 = 0 ↔ pDst % 4 = 0 ∨ pDst % 4 = 2 := by omega
    constructor
    · intro h
      exact hdst4.mp (h _ (hmono _ (List.mem_append_right _ (List.mem_singleton_self _)))).1
    · intro h p hp
      rcases haligned p hp with hfirst | ⟨hp1, hp2⟩
      · rw [Dma.start_starts] at hfirst
        rcases List.mem_append.mp hfirst with hold | hnew
        · cases hold
        · rw [List.mem_singleton] at hnew
          rw [hnew]
          exact ⟨hdst4.mpr h, hsrc4.mpr h⟩
      · exact ⟨hp1.trans (hdst4.mpr h), hp2.trans (hsrc4.mpr h)⟩

theorem Dma.movesRight_ne (h : pDst % 4 ≠ pSrc % 4) : s.MovesRight pDst pSrc size := by
  refine (s.movesRight_iff_of 0 fun fuel _ => ⟨_, s.idle.nstDmaMoveMem_ne h, rfl, ?_⟩).mpr
    ⟨rfl, trivial⟩
  exact iff_of_true (fun p hp => nomatch hp) trivial

/-- Below the size of a block no block is started: the head and what follows are copied. -/
theorem Dma.movesRight_short (hsame : pDst % 4 = pSrc % 4)
    (hshort : (size.toNat : ℤ) - (pDst % 4 : ℕ) < 508) :
    s.MovesRight pDst pSrc size ↔
      copy (copy s.mem pDst pSrc (pDst % 4)) (pDst + pDst % 4) (pSrc + pDst % 4)
        (u16 ((size.toNat : ℤ) - (pDst % 4 : ℕ))) = copy s.mem pDst pSrc size.toNat := by
  have hu16 : u16 ((u16 ((size.toNat : ℤ) - (pDst % 4 : ℕ)) : ℕ) : ℤ) =
      u16 ((size.toNat : ℤ) - (pDst % 4 : ℕ)) := by
    refine u16_natCast ?_
    unfold u16 unsigned
    omega
  rw [← and_true (copy _ _ _ _ = _)]
  refine s.movesRight_iff_of 0 fun fuel _ => ⟨(s.idle.headed pDst pSrc size).finish, ?_, ?_, ?_⟩
  · rw [s.idle.nstDmaMoveMem_same hsame, if_pos hshort]
  · show copy _ _ _ (u16 (u16 _)) = _
    rw [hu16]
    rfl
  · exact iff_of_true (fun p hp => nomatch hp) trivial

/-- A move of two ranges that have no byte in common goes right exactly if it fits. -/
theorem Dma.movesRight_iff (hapart : Apart pDst pSrc size.toNat) :
    s.MovesRight pDst pSrc size ↔ MoveFits s.mem pDst pSrc size := by
  have hlt := size.toNat_lt
  simp only [MoveFits, memAlignment, dmaTransferSizeInByte, Nat.reduceMul]
  by_cases hsame : pDst % 4 = pSrc % 4
  swap
  · exact iff_of_true (s.movesRight_ne hsame) (.inl hsame)
  rw [or_iff_right (not_not.mpr hsame)]
  rcases Nat.lt_or_ge size.toNat (pDst % 4) with hwrap | hge
  · -- the length behind the head wraps round
    have hu16 : u16 ((size.toNat : ℤ) - (pDst % 4 : ℕ)) = 65536 + size.toNat - pDst % 4 := by
      unfold u16 unsigned
      omega
    rw [s.movesRight_short hsame (by omega), hu16, copy_wrapped_iff hwrap]
    have hnot : ¬ pDst % 4 ≤ size.toNat := Nat.not_le_of_lt hwrap
    have hnot' : ¬ pDst % 4 + 508 ≤ size.toNat := by omega
    simp only [hnot, hnot', hwrap, false_and, true_and, false_or]
  · rcases Nat.lt_or_ge size.toNat (pDst % 4 + 508) with hshort | hlong
    · have hu16 : u16 ((size.toNat : ℤ) - (pDst % 4 : ℕ)) = size.toNat - pDst % 4 := by
        rw [u16_of_lt (by omega) (by omega)]
        omega
      rw [s.movesRight_short hsame (by omega), hu16, copy_copy, Nat.add_sub_cancel' hge]
      · exact iff_of_true rfl (.inl ⟨hge, hshort⟩)
      · rw [Apart] at hapart
        omega
    · rw [s.movesRight_blocks hsame hlong hapart]
      have hnot : ¬ size.toNat < pDst % 4 + 508 := Nat.not_lt_of_le hlong
      have hnot' : ¬ size.toNat < pDst % 4 := by omega
      simp only [hnot, hnot', hlong, and_false, false_and, or_false, false_or, true_and]
      exact and_comm

end

/-- The states of the examples. -/
def Dma.fresh (mem : ℕ → UInt8) : Dma := ⟨mem, 0, 0, 0, 0, 0, 0, false, []⟩

/-- `movesRight_iff` for four bytes. -/
theorem movesRight_four : (Dma.fresh fun a => UInt8.ofNat a).MovesRight 0 64 4 :=
  (Dma.movesRight_iff _ (by decide)).mpr (.inr (.inl (by decide)))

/-- A block of 508 bytes is moved from the destination to the source. -/
theorem block_moved_back : ¬ ∀ (s : Dma) (pDst pSrc : ℕ) (size : UInt16),
    Apart pDst pSrc size.toNat → s.MovesRight pDst pSrc size := by
  intro hall
  have hright := hall (Dma.fresh fun a => if a < 1024 then 0 else 1) 0 1024 508 (by decide)
  rw [Dma.movesRight_blocks _ (by decide) (by decide) (by decide), window_eq_iff] at hright
  exact absurd (hright.1 0 (by decide)) (by decide)

end NuAgent.Util
