import NuAgent.Flash.Verify

/-!
# The disk driver of the file system

Reference: `Fatfs/diskio.c` and `diskio.h`.

A disk of 584 logical sectors of 512 bytes lies in the serial flash from `0x34000` on, eight logical
sectors to one sector of the flash. A write goes through a buffer from the heap: a sector of the
flash is read into it, changed and written back. The heap's answer is a parameter of the model; the
buffer is memory like any other, also at address zero, since the source does not look at the pointer
before it uses it.
-/

namespace NuAgent.Fatfs

open CInt Memory Flash

/-- `NOR_FLASH_SECTOR_SIZE`, the size of a logical sector. -/
def norFlashSectorSize : ℕ := 512
/-- `NOR_FLASH_START_ADDR`. -/
def norFlashStartAddr : ℕ := 52 * norFlashSectorSize * 8
/-- `NOR_FLASH_SECTOR_COUNT`. -/
def norFlashSectorCount : ℕ := 73 * 8

/-- `DRESULT`. -/
inductive DResult
  | resOk
  | resError
  | resWrprt
  | resNotrdy
  | resParerr
deriving DecidableEq, Repr

section
variable {σ : Type} (dev : Device σ)

/-! ## `disk_read` -/

/-- The loop of `disk_read` with `left` turns to go: the bytes it stores, one sector after the
other. -/
def diskReadLoop (s : σ) : ℕ → ℕ → ℕ → List UInt8
  | 0, _, _ => []
  | left + 1, i, readOffset =>
      qSpiFlashRead dev s (u32 (norFlashStartAddr + readOffset)) norFlashSectorSize ++
        diskReadLoop s left (i + 1) (u32 (readOffset + norFlashSectorSize * i))

/-- `disk_read`: the result and the bytes stored in `buff`. -/
def diskRead (s : σ) (pdrv sector count : ℕ) : DResult × List UInt8 :=
  if pdrv ≠ 0 then (.resParerr, [])
  else (.resOk, diskReadLoop dev s count 0 (u32 (norFlashSectorSize * sector)))

/-! ## `disk_write` -/

/-- The flash and the memory that holds the buffer. -/
structure Disk (σ : Type) where
  flash : σ
  ram : ℕ → UInt8

/-- What `disk_write` does with one sector of the flash: read it into `tempbuf`, copy `data` over it
from `off` on and write it back. What `QSpiWriteOneSector` returns is not looked at. -/
def rewriteSector (d : Disk σ) (tempbuf addr off : ℕ) (data : List UInt8) : Disk σ :=
  let ram := overlay d.ram tempbuf (qSpiFlashRead dev d.flash addr flashSectorSize)
  let ram := overlay ram (tempbuf + off) data
  { flash := (qSpiWriteOneSector dev d.flash addr (window ram tempbuf flashSectorSize)).1
    ram }

/-- The loop over the sectors of the flash behind the first one. -/
def diskWriteLoop (d : Disk σ) (tempbuf : ℕ) (buff : ℕ → UInt8)
    (writeSector writePoint count i sectorCnt : ℕ) : Disk σ :=
  if sectorCnt > 0 then
    let addr := u32 (norFlashStartAddr + (writeSector + i) * flashSectorSize)
    if sectorCnt > 8 then
      let data := window buff (u32 ((count - sectorCnt) * norFlashSectorSize)) flashSectorSize
      let d := rewriteSector dev d tempbuf addr 0 data
      diskWriteLoop d tempbuf buff writeSector writePoint count (i + 1) (sectorCnt - 8)
    else
      let data := window buff ((8 - writePoint) * norFlashSectorSize)
        (sectorCnt * norFlashSectorSize)
      rewriteSector dev d tempbuf addr 0 data
  else d
termination_by sectorCnt
decreasing_by omega

/-- `disk_write`, where the bytes of the caller's buffer are `buff` and `malloc` returns `tempbuf`:
the disk, the result and the pointer given to `free`. -/
def diskWrite (d : Disk σ) (tempbuf pdrv : ℕ) (buff : ℕ → UInt8) (sector count : ℕ) :
    Disk σ × DResult × Option ℕ :=
  if pdrv ≠ 0 then (d, .resParerr, none)
  else
    let writeSector := sector / 8
    let writePoint := sector % 8
    let addr := u32 (norFlashStartAddr + writeSector * flashSectorSize)
    let off := writePoint * norFlashSectorSize
    let d :=
      if count ≤ 8 - writePoint then
        rewriteSector dev d tempbuf addr off (window buff 0 (count * norFlashSectorSize))
      else
        let data := window buff 0 ((8 - writePoint) * norFlashSectorSize)
        let d := rewriteSector dev d tempbuf addr off data
        diskWriteLoop dev d tempbuf buff writeSector writePoint count 1 (count - (8 - writePoint))
    (d, .resOk, if tempbuf ≠ 0 then some tempbuf else none)

end

end NuAgent.Fatfs
