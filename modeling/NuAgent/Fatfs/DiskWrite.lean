import NuAgent.Fatfs.Diskio
import NuAgent.Flash.Sector

/-!
# What `disk_write` writes

On the NOR flash each turn of `disk_write` stores its piece of the caller's buffer at its place. The
places are right, and so are the pieces but one: the last piece is taken from behind the first one,
whatever number of whole sectors was written in between. `diskWrite_iff` says that the write is
exact when it touches at most two sectors of the flash, and that a longer one is exact only when the
two ranges of the buffer hold the same bytes.
-/

namespace NuAgent.Fatfs

open CInt Memory Flash

/-! ## One sector of the flash -/

/-- The sector of the flash that holds the disk's `w`-th eight logical sectors. -/
theorem sectorAddr_eq {w : ℕ} (hw : w < 73) :
    u32 ((norFlashStartAddr : ℤ) + (w : ℕ) * flashSectorSize) = (52 + w) * flashSectorSize ∧
      (52 + w) * flashSectorSize = norFlashStartAddr + w * flashSectorSize := by
  unfold norFlashStartAddr norFlashSectorSize flashSectorSize
  refine ⟨?_, by omega⟩
  rw [u32_of_lt (by omega) (by omega)]
  omega

/-- Rewriting a sector stores the piece and nothing else. -/
theorem rewriteSector_cells (d : Disk Nor) (tempbuf : ℕ) {w off : ℕ} {data : List UInt8}
    (hw : w < 73) (hfit : off + data.length ≤ flashSectorSize) :
    (rewriteSector nor d tempbuf (u32 ((norFlashStartAddr : ℤ) + (w : ℕ) * flashSectorSize)) off
        data).flash.cells =
      overlay d.flash.cells (norFlashStartAddr + w * flashSectorSize + off) data := by
  obtain ⟨haddr, hstart⟩ := sectorAddr_eq hw
  have hread : qSpiFlashRead nor d.flash ((52 + w) * flashSectorSize) flashSectorSize =
      window d.flash.cells ((52 + w) * flashSectorSize) flashSectorSize := by
    apply flashReadLoop_nor d.flash _ _ _
    unfold flashSectorSize
    omega
  have hlen : (window d.flash.cells ((52 + w) * flashSectorSize) flashSectorSize).length =
      flashSectorSize := length_window
  have hbuf : window (overlay (overlay d.ram tempbuf
        (window d.flash.cells ((52 + w) * flashSectorSize) flashSectorSize)) (tempbuf + off) data)
        tempbuf flashSectorSize =
      Block.splice (window d.flash.cells ((52 + w) * flashSectorSize) flashSectorSize) off data :=
    window_overlay_splice hlen hfit
  have hsplice : (Block.splice (window d.flash.cells ((52 + w) * flashSectorSize) flashSectorSize)
      off data).length = flashSectorSize := by
    rw [Block.length_splice (by rw [hlen]; exact hfit), hlen]
  obtain ⟨s', hwrite, hst⟩ :=
    qSpiWriteOneSector_nor d.flash hsplice (by omega : 52 + w < 256)
  rw [rewriteSector, haddr]
  dsimp only
  rw [hread, hbuf, hwrite]
  dsimp only
  rw [hst.cells, overlay_splice_window hfit, hstart]

/-! ## The pieces -/

/-- The pieces that the loop of `disk_write` writes when `sectorCnt` sectors are left. -/
def laterData (buff : ℕ → UInt8) (writePoint count sectorCnt : ℕ) : List UInt8 :=
  if sectorCnt > 8 then
    window buff ((count - sectorCnt) * norFlashSectorSize) flashSectorSize ++
      laterData buff writePoint count (sectorCnt - 8)
  else window buff ((8 - writePoint) * norFlashSectorSize) (sectorCnt * norFlashSectorSize)
termination_by sectorCnt
decreasing_by omega

/-- The number of logical sectors in the last sector of the flash. -/
def lastCount (sector count : ℕ) : ℕ := (sector % 8 + count - 1) % 8 + 1

section
variable {buff : ℕ → UInt8} {sector count : ℕ}

/-- Whole sectors come from their places; the last piece comes from behind the first one. -/
theorem laterData_eq (buff : ℕ → UInt8) (writePoint : ℕ) {count sectorCnt : ℕ}
    (hpos : 0 < sectorCnt) (hle : sectorCnt ≤ count) :
    laterData buff writePoint count sectorCnt =
      window buff ((count - sectorCnt) * norFlashSectorSize)
          ((sectorCnt - ((sectorCnt - 1) % 8 + 1)) * norFlashSectorSize) ++
        window buff ((8 - writePoint) * norFlashSectorSize)
          (((sectorCnt - 1) % 8 + 1) * norFlashSectorSize) := by
  fun_induction laterData buff writePoint count sectorCnt with
  | case1 sectorCnt hmore ih =>
    have hlast : (sectorCnt - 8 - 1) % 8 = (sectorCnt - 1) % 8 := by omega
    have hlen : (sectorCnt - ((sectorCnt - 1) % 8 + 1)) * norFlashSectorSize =
        flashSectorSize +
          (sectorCnt - 8 - ((sectorCnt - 1) % 8 + 1)) * norFlashSectorSize := by
      unfold flashSectorSize norFlashSectorSize
      omega
    have hpos' : (count - sectorCnt) * norFlashSectorSize + flashSectorSize =
        (count - (sectorCnt - 8)) * norFlashSectorSize := by
      unfold flashSectorSize norFlashSectorSize
      omega
    rw [ih (by omega) (by omega), hlast, hlen, window_add, hpos', List.append_assoc]
  | case2 sectorCnt hmore =>
    have hlast : (sectorCnt - 1) % 8 + 1 = sectorCnt := by omega
    rw [hlast, Nat.sub_self, Nat.zero_mul]
    rfl

/-- The loop stores its pieces from the sector `writeSector + i` of the flash on. -/
theorem diskWriteLoop_cells (d : Disk Nor) (tempbuf : ℕ) (buff : ℕ → UInt8)
    (writeSector writePoint count i sectorCnt : ℕ) (hpos : 0 < sectorCnt) (hle : sectorCnt ≤ count)
    (hend : (writeSector + i) * 8 + sectorCnt ≤ norFlashSectorCount)
    (hcount : count ≤ norFlashSectorCount) :
    (diskWriteLoop nor d tempbuf buff writeSector writePoint count i sectorCnt).flash.cells =
      overlay d.flash.cells (norFlashStartAddr + (writeSector + i) * flashSectorSize)
        (laterData buff writePoint count sectorCnt) := by
  unfold norFlashSectorCount at hend hcount
  induction hm : sectorCnt using Nat.strongRecOn generalizing d i sectorCnt with
  | _ m ih =>
  subst hm
  have hcast : (writeSector : ℤ) + (i : ℕ) = ((writeSector + i : ℕ) : ℤ) := by push_cast; rfl
  rw [diskWriteLoop, if_pos hpos, laterData]
  dsimp only
  by_cases hmore : sectorCnt > 8
  · rw [if_pos hmore, if_pos hmore, hcast]
    have hsrc : u32 (((count : ℤ) - sectorCnt) * norFlashSectorSize) =
        (count - sectorCnt) * norFlashSectorSize := by
      unfold norFlashSectorSize
      rw [u32_of_lt (by omega) (by omega)]
      omega
    have hbase : norFlashStartAddr + (writeSector + i) * flashSectorSize + 0 +
          (window buff ((count - sectorCnt) * norFlashSectorSize) flashSectorSize).length =
        norFlashStartAddr + (writeSector + (i + 1)) * flashSectorSize := by
      rw [length_window]
      unfold flashSectorSize
      omega
    rw [ih (sectorCnt - 8) (by omega) _ (i + 1) (sectorCnt - 8) (by omega) (by omega) (by omega)
      rfl, hsrc, rewriteSector_cells d tempbuf (by omega)
      (by rw [length_window, Nat.zero_add]), ← hbase, overlay_append]
    rfl
  · rw [if_neg hmore, if_neg hmore, hcast, rewriteSector_cells d tempbuf (by omega)
      (by rw [length_window]; unfold norFlashSectorSize flashSectorSize; omega), Nat.add_zero]

/-- The bytes that `disk_write` stores in the logical sectors. -/
def storedData (buff : ℕ → UInt8) (sector count : ℕ) : List UInt8 :=
  if sector % 8 + count ≤ 16 then window buff 0 (count * norFlashSectorSize)
  else
    window buff 0 ((count - lastCount sector count) * norFlashSectorSize) ++
      window buff ((8 - sector % 8) * norFlashSectorSize)
        (lastCount sector count * norFlashSectorSize)

/-- A write that leaves its first sector: the first piece and the whole sectors behind it are one
range of the buffer. -/
theorem storedData_of_long (buff : ℕ → UInt8) (hlong : ¬ count ≤ 8 - sector % 8) :
    window buff 0 ((8 - sector % 8) * norFlashSectorSize) ++
        laterData buff (sector % 8) count (count - (8 - sector % 8)) =
      storedData buff sector count := by
  have hback : count - (count - (8 - sector % 8)) = 8 - sector % 8 := by omega
  have hlast : (count - (8 - sector % 8) - 1) % 8 + 1 = lastCount sector count := by
    unfold lastCount
    omega
  have hmid : (8 - sector % 8) * norFlashSectorSize +
        (count - (8 - sector % 8) - lastCount sector count) * norFlashSectorSize =
      (count - lastCount sector count) * norFlashSectorSize := by
    unfold lastCount norFlashSectorSize
    omega
  rw [laterData_eq _ _ (by omega) (by omega), hback, hlast, ← List.append_assoc]
  nth_rewrite 2 [← Nat.zero_add ((8 - sector % 8) * norFlashSectorSize)]
  rw [← window_add, hmid, storedData]
  by_cases hshort : sector % 8 + count ≤ 16
  · have hrest : count - lastCount sector count = 8 - sector % 8 := by
      unfold lastCount
      omega
    have hall : count * norFlashSectorSize = (8 - sector % 8) * norFlashSectorSize +
        lastCount sector count * norFlashSectorSize := by
      unfold lastCount norFlashSectorSize
      omega
    rw [if_pos hshort, hrest, hall, window_add, Nat.zero_add]
  · rw [if_neg hshort]

/-- `disk_write` stores these bytes from its first logical sector on, and nothing else. -/
theorem diskWrite_cells (d : Disk Nor) (tempbuf : ℕ) (buff : ℕ → UInt8)
    (hpos : 1 ≤ count) (hend : sector + count ≤ norFlashSectorCount) :
    (diskWrite nor d tempbuf 0 buff sector count).1.flash.cells =
      overlay d.flash.cells (norFlashStartAddr + norFlashSectorSize * sector)
        (storedData buff sector count) := by
  unfold norFlashSectorCount at hend
  have hbase : norFlashStartAddr + sector / 8 * flashSectorSize +
      sector % 8 * norFlashSectorSize = norFlashStartAddr + norFlashSectorSize * sector := by
    unfold flashSectorSize norFlashSectorSize
    omega
  rw [diskWrite, if_neg (by decide)]
  dsimp only
  by_cases hone : count ≤ 8 - sector % 8
  · rw [if_pos hone, storedData, if_pos (by omega), rewriteSector_cells d tempbuf (by omega)
      (by rw [length_window]; unfold norFlashSectorSize flashSectorSize; omega), hbase]
  · have hnext : norFlashStartAddr + norFlashSectorSize * sector +
          (window buff 0 ((8 - sector % 8) * norFlashSectorSize)).length =
        norFlashStartAddr + (sector / 8 + 1) * flashSectorSize := by
      rw [length_window]
      unfold flashSectorSize norFlashSectorSize
      omega
    rw [if_neg hone, diskWriteLoop_cells _ _ _ _ _ _ _ _ (by omega) (by omega)
      (by unfold norFlashSectorCount; omega) (by unfold norFlashSectorCount; omega),
      rewriteSector_cells d tempbuf (by omega)
      (by rw [length_window]; unfold norFlashSectorSize flashSectorSize; omega), hbase,
      ← hnext, overlay_append, storedData_of_long buff hone]

theorem length_storedData (buff : ℕ → UInt8) (hpos : 1 ≤ count) :
    (storedData buff sector count).length = count * norFlashSectorSize := by
  unfold storedData
  split_ifs
  · exact length_window
  · rw [List.length_append, length_window, length_window]
    unfold lastCount norFlashSectorSize
    omega

/-- The range of the buffer that the last piece should come from holds the bytes of the range that
it comes from. -/
def LastPieceAgrees (buff : ℕ → UInt8) (sector count : ℕ) : Prop :=
  ∀ i < lastCount sector count * norFlashSectorSize,
    buff ((8 - sector % 8) * norFlashSectorSize + i) =
      buff ((count - lastCount sector count) * norFlashSectorSize + i)

/-- What is stored is the buffer iff the write is short or the last piece agrees. -/
theorem storedData_eq_iff (buff : ℕ → UInt8) (hpos : 1 ≤ count) :
    storedData buff sector count = window buff 0 (count * norFlashSectorSize) ↔
      sector % 8 + count ≤ 16 ∨ LastPieceAgrees buff sector count := by
  by_cases hshort : sector % 8 + count ≤ 16
  · rw [storedData, if_pos hshort]
    exact iff_of_true rfl (.inl hshort)
  · have hall : count * norFlashSectorSize =
        (count - lastCount sector count) * norFlashSectorSize +
          lastCount sector count * norFlashSectorSize := by
      unfold lastCount norFlashSectorSize
      omega
    rw [storedData, if_neg hshort, hall, window_add, List.append_cancel_left_eq, Nat.zero_add,
      window_eq_iff, or_iff_right hshort]
    rfl

/-- `disk_write` makes the logical sectors from `sector` on equal to the buffer and leaves every
other byte of the flash as it was. -/
structure WritesSectors (d : Disk Nor) (tempbuf : ℕ) (buff : ℕ → UInt8) (sector count : ℕ) :
    Prop where
  stored : ∀ i < count * norFlashSectorSize,
    (diskWrite nor d tempbuf 0 buff sector count).1.flash.cells
      (norFlashStartAddr + norFlashSectorSize * sector + i) = buff i
  kept : ∀ a, a < norFlashStartAddr + norFlashSectorSize * sector ∨
      norFlashStartAddr + norFlashSectorSize * (sector + count) ≤ a →
    (diskWrite nor d tempbuf 0 buff sector count).1.flash.cells a = d.flash.cells a

theorem writesSectors_iff (d : Disk Nor) (tempbuf : ℕ) (buff : ℕ → UInt8) (hpos : 1 ≤ count)
    (hend : sector + count ≤ norFlashSectorCount) :
    WritesSectors d tempbuf buff sector count ↔
      sector % 8 + count ≤ 16 ∨ LastPieceAgrees buff sector count := by
  have hcells := diskWrite_cells d tempbuf buff hpos hend
  have hlen : (storedData buff sector count).length = count * norFlashSectorSize :=
    length_storedData buff hpos
  have hread : window (diskWrite nor d tempbuf 0 buff sector count).1.flash.cells
      (norFlashStartAddr + norFlashSectorSize * sector) (count * norFlashSectorSize) =
      storedData buff sector count := by
    rw [hcells, ← hlen]
    exact window_overlay
  rw [← storedData_eq_iff buff hpos, ← hread, window_eq_iff]
  simp only [Nat.zero_add]
  refine ⟨fun h => h.stored, fun h => ⟨h, ?_⟩⟩
  rintro a (hlt | hge)
  · rw [hcells, overlay_of_lt hlt]
  · rw [hcells, overlay_of_ge]
    rw [hlen]
    unfold norFlashSectorSize at hge ⊢
    omega

/-- A buffer of zeros up to the last piece and ones from it on. -/
def stepBuffer (sector count : ℕ) (a : ℕ) : UInt8 :=
  if a < (count - lastCount sector count) * norFlashSectorSize then 0 else 1

theorem stepBuffer_disagrees (hlong : 16 < sector % 8 + count) :
    ¬ LastPieceAgrees (stepBuffer sector count) sector count := by
  intro hagree
  have hfirst := hagree 0 (by unfold lastCount norFlashSectorSize; omega)
  have hlt : (8 - sector % 8) * norFlashSectorSize + 0 <
      (count - lastCount sector count) * norFlashSectorSize := by
    unfold lastCount norFlashSectorSize
    omega
  rw [stepBuffer, stepBuffer, if_pos hlt, if_neg (by omega)] at hfirst
  exact absurd hfirst (by decide)

/-- On the NOR flash `disk_write` is an exact update iff it touches at most two sectors of the flash
or the bytes of the last piece are repeated in the buffer; it is one for every buffer iff it touches
at most two. -/
theorem diskWrite_iff (hpos : 1 ≤ count) (hend : sector + count ≤ norFlashSectorCount) :
    (∀ d tempbuf buff, WritesSectors d tempbuf buff sector count ↔
      sector % 8 + count ≤ 16 ∨ LastPieceAgrees buff sector count) ∧
    ((∀ d tempbuf buff, WritesSectors d tempbuf buff sector count) ↔
      sector % 8 + count ≤ 16) := by
  refine ⟨fun d tempbuf buff => writesSectors_iff d tempbuf buff hpos hend, ?_⟩
  constructor
  · intro hall
    by_contra hlong
    have hwrite := hall ⟨⟨fun _ => 0, []⟩, fun _ => 0⟩ 1 (stepBuffer sector count)
    rw [writesSectors_iff _ _ _ hpos hend] at hwrite
    exact stepBuffer_disagrees (by omega) (hwrite.resolve_left hlong)
  · intro hshort d tempbuf buff
    exact (writesSectors_iff d tempbuf buff hpos hend).mpr (.inl hshort)

end

/-- Sixteen aligned sectors are written exactly, seventeen are not. -/
theorem diskWrite_iff_aligned :
    (∀ d tempbuf buff, WritesSectors d tempbuf buff 0 16) ∧
      ¬ ∀ d tempbuf buff, WritesSectors d tempbuf buff 0 17 := by
  refine ⟨(diskWrite_iff (by decide) (by decide)).2.mpr (by decide), fun hall => ?_⟩
  exact absurd ((diskWrite_iff (by decide) (by decide)).2.mp hall) (by decide)

/-- Of seventeen sectors the last one is a copy of the ninth. -/
theorem diskWrite_seventeen : ¬ ∀ d tempbuf buff sector count, tempbuf ≠ 0 → 1 ≤ count →
    sector + count ≤ norFlashSectorCount → WritesSectors d tempbuf buff sector count := by
  intro hall
  have hwrite := hall ⟨⟨fun _ => 0, []⟩, fun _ => 0⟩ 1 (stepBuffer 0 17) 0 17 (by decide)
    (by decide) (by decide)
  rw [writesSectors_iff _ _ _ (by decide) (by decide)] at hwrite
  exact stepBuffer_disagrees (by decide) (hwrite.resolve_left (by decide))

end NuAgent.Fatfs
