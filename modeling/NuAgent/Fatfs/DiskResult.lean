import NuAgent.Fatfs.Diskio

/-!
# What `disk_write` reports

`disk_write` looks neither at the pointer that `malloc` returns nor at what `QSpiWriteOneSector`
returns: it rewrites its sectors and reports `RES_OK`. The device is any device, so its verification
outcomes are any outcomes. `diskWrite_commands` names the pages that a write programs, and
`honest_iff` says when the report is true.
-/

namespace NuAgent.Fatfs

open CInt Memory Flash Retry

/-! ## The pieces of a write -/

/-- One turn of `disk_write`: `data` goes to the offset `off` of the sector at `addr`. -/
structure Piece where
  addr : ℕ
  off : ℕ
  data : List UInt8

/-- The turns of the loop. -/
def laterPieces (buff : ℕ → UInt8) (writeSector writePoint count i sectorCnt : ℕ) : List Piece :=
  if sectorCnt > 0 then
    let addr := u32 (norFlashStartAddr + (writeSector + i) * flashSectorSize)
    if sectorCnt > 8 then
      ⟨addr, 0, window buff (u32 ((count - sectorCnt) * norFlashSectorSize)) flashSectorSize⟩ ::
        laterPieces buff writeSector writePoint count (i + 1) (sectorCnt - 8)
    else [⟨addr, 0, window buff ((8 - writePoint) * norFlashSectorSize)
      (sectorCnt * norFlashSectorSize)⟩]
  else []
termination_by sectorCnt
decreasing_by omega

/-- The turns of `disk_write`. -/
def pieces (buff : ℕ → UInt8) (sector count : ℕ) : List Piece :=
  let addr := u32 (norFlashStartAddr + (sector / 8 : ℕ) * flashSectorSize)
  let off := sector % 8 * norFlashSectorSize
  if count ≤ 8 - sector % 8 then [⟨addr, off, window buff 0 (count * norFlashSectorSize)⟩]
  else
    ⟨addr, off, window buff 0 ((8 - sector % 8) * norFlashSectorSize)⟩ ::
      laterPieces buff (sector / 8) (sector % 8) count 1 (count - (8 - sector % 8))

theorem pieces_ne_nil (buff : ℕ → UInt8) (sector count : ℕ) : pieces buff sector count ≠ [] := by
  unfold pieces
  dsimp only
  split_ifs <;> exact List.cons_ne_nil _ _

section
variable {σ : Type} (dev : Device σ) (tempbuf : ℕ)

/-- One turn on the disk. -/
def rewritePiece (d : Disk σ) (p : Piece) : Disk σ :=
  rewriteSector dev d tempbuf p.addr p.off p.data

theorem diskWriteLoop_eq (d : Disk σ) (buff : ℕ → UInt8)
    (writeSector writePoint count i sectorCnt : ℕ) :
    diskWriteLoop dev d tempbuf buff writeSector writePoint count i sectorCnt =
      (laterPieces buff writeSector writePoint count i sectorCnt).foldl
        (rewritePiece dev tempbuf) d := by
  induction hm : sectorCnt using Nat.strongRecOn generalizing d i sectorCnt with
  | _ m ih =>
  subst hm
  rw [diskWriteLoop, laterPieces]
  by_cases hpos : sectorCnt > 0
  · rw [if_pos hpos, if_pos hpos]
    dsimp only
    by_cases hmore : sectorCnt > 8
    · rw [if_pos hmore, if_pos hmore, ih (sectorCnt - 8) (by omega) _ _ _ rfl,
        List.foldl_cons, rewritePiece]
    · rw [if_neg hmore, if_neg hmore, List.foldl_cons, List.foldl_nil, rewritePiece]
  · rw [if_neg hpos, if_neg hpos]
    rfl

/-- `disk_write` takes its turns one after the other and reports success. -/
theorem diskWrite_eq (d : Disk σ) (buff : ℕ → UInt8) (sector count : ℕ) :
    diskWrite dev d tempbuf 0 buff sector count =
      ((pieces buff sector count).foldl (rewritePiece dev tempbuf) d, .resOk,
        if tempbuf ≠ 0 then some tempbuf else none) := by
  unfold diskWrite pieces
  rw [if_neg (by decide)]
  dsimp only
  split_ifs
  all_goals first
    | rfl
    | rw [diskWriteLoop_eq]
      rfl

/-! ## The commands of a write -/

/-- The sector buffer that a turn writes back. -/
def pieceBuffer (d : Disk σ) (p : Piece) : List UInt8 :=
  window (rewritePiece dev tempbuf d p).ram tempbuf flashSectorSize

/-- The pages of a turn, and the outcomes that they have when all of them are tried. -/
def pieceOutcomes (d : Disk σ) (p : Piece) : List (Option ℕ) :=
  outcomes dev (sectorPages 16 p.addr (pieceBuffer dev tempbuf d p))
    (qSpiFlashEraseSector dev d.flash p.addr)

/-- The number of pages that a turn programs: all, or up to the one that took its last attempt. -/
def piecePages (d : Disk σ) (p : Piece) : ℕ := (pieceOutcomes dev tempbuf d p).idxOf (some 0) + 1

/-- The commands of a turn. -/
def pieceCommands (d : Disk σ) (p : Piece) : List Command :=
  [.sectorErase (addrBytes p.addr)] ++
    sent pageCommand 10
      ((sectorPages 16 p.addr (pieceBuffer dev tempbuf d p)).take (piecePages dev tempbuf d p))
      (pieceOutcomes dev tempbuf d p)

/-- The commands of the turns in order. -/
def diskCommands : Disk σ → List Piece → List Command
  | _, [] => []
  | d, p :: ps => pieceCommands dev tempbuf d p ++ diskCommands (rewritePiece dev tempbuf d p) ps

/-- The outcomes of the pages that the turns program, in order. -/
def diskOutcomes : Disk σ → List Piece → List (Option ℕ)
  | _, [] => []
  | d, p :: ps =>
      (pieceOutcomes dev tempbuf d p).take (piecePages dev tempbuf d p) ++
        diskOutcomes (rewritePiece dev tempbuf d p) ps

/-- The disk with a record of the commands given to the flash. -/
def Disk.logged (d : Disk σ) (log : List Command) : Disk (σ × List Command) where
  flash := (d.flash, log)
  ram := d.ram

theorem rewritePiece_logged (d : Disk σ) (log : List Command) (p : Piece) :
    rewritePiece dev.logged tempbuf (d.logged log) p =
      (rewritePiece dev tempbuf d p).logged (log ++ pieceCommands dev tempbuf d p) := by
  unfold rewritePiece rewriteSector Disk.logged
  dsimp only
  rw [qSpiFlashRead_logged, qSpiWriteOneSector_logged, List.append_assoc]
  rfl

/-- The turns give the flash these commands. -/
theorem foldl_logged (d : Disk σ) (log : List Command) (ps : List Piece) :
    ps.foldl (rewritePiece dev.logged tempbuf) (d.logged log) =
      (ps.foldl (rewritePiece dev tempbuf) d).logged (log ++ diskCommands dev tempbuf d ps) := by
  induction ps generalizing d log with
  | nil => simp [diskCommands]
  | cons p ps ih =>
    rw [List.foldl_cons, rewritePiece_logged, ih, List.foldl_cons, diskCommands,
      List.append_assoc]

/-- The commands that `disk_write` gives to the flash. -/
theorem diskWrite_commands (d : Disk σ) (buff : ℕ → UInt8) (sector count : ℕ) :
    (diskWrite dev.logged (d.logged []) tempbuf 0 buff sector count).1.flash.2 =
      diskCommands dev tempbuf d (pieces buff sector count) := by
  rw [diskWrite_eq, foldl_logged]
  rfl

/-- A write erases a sector, whatever it is asked to write. -/
theorem diskCommands_ne_nil (d : Disk σ) {ps : List Piece} (h : ps ≠ []) :
    diskCommands dev tempbuf d ps ≠ [] := by
  cases ps with
  | nil => exact absurd rfl h
  | cons p ps => exact List.cons_ne_nil _ _

/-! ## The report -/

/-- The report of `disk_write` is honest: `RES_OK` only when the buffer was allocated and every page
that was programmed was verified; and without a buffer the flash is given no command. -/
structure Honest (d : Disk σ) (pdrv : ℕ) (buff : ℕ → UInt8) (sector count : ℕ) : Prop where
  ok_only : (diskWrite dev d tempbuf pdrv buff sector count).2.1 = .resOk →
    tempbuf ≠ 0 ∧ none ∉ diskOutcomes dev tempbuf d (pieces buff sector count)
  untouched : tempbuf = 0 →
    (diskWrite dev.logged (d.logged []) tempbuf pdrv buff sector count).1.flash.2 = []

/-- For every device, disk, buffer, sector and count, and every answer of `malloc`, the report is
honest iff the call is refused for its drive number, or the buffer is allocated and the flash
verifies every page that it is given. -/
theorem honest_iff (d : Disk σ) (pdrv : ℕ) (buff : ℕ → UInt8) (sector count : ℕ) :
    Honest dev tempbuf d pdrv buff sector count ↔
      pdrv ≠ 0 ∨
        (tempbuf ≠ 0 ∧ none ∉ diskOutcomes dev tempbuf d (pieces buff sector count)) := by
  by_cases hdrv : pdrv = 0
  · subst hdrv
    rw [or_iff_right (not_not.mpr rfl)]
    have hok : (diskWrite dev d tempbuf 0 buff sector count).2.1 = .resOk := by
      rw [diskWrite_eq]
    constructor
    · exact fun h => h.ok_only hok
    · rintro ⟨halloc, hverified⟩
      exact ⟨fun _ => ⟨halloc, hverified⟩, fun hnull => absurd hnull halloc⟩
  · refine iff_of_true ⟨fun hok => ?_, fun _ => ?_⟩ (.inl hdrv)
    · rw [diskWrite, if_pos hdrv] at hok
      cases hok
    · rw [diskWrite, if_pos hdrv]
      rfl

/-- Without a buffer an accepted write still erases. -/
theorem null_buffer_erases (d : Disk σ) (buff : ℕ → UInt8) (sector count : ℕ) :
    (diskWrite dev.logged (d.logged []) 0 0 buff sector count).1.flash.2 ≠ [] := by
  rw [diskWrite_commands]
  exact diskCommands_ne_nil dev 0 d (pieces_ne_nil buff sector count)

end

/-- `disk_write` reports success for a sector although it got no buffer. -/
theorem no_buffer_ok : ¬ ∀ (dev : Device Unit) (tempbuf : ℕ) (d : Disk Unit) (pdrv : ℕ)
    (buff : ℕ → UInt8) (sector count : ℕ), Honest dev tempbuf d pdrv buff sector count := by
  intro hall
  have hhonest := hall deadChip 0 ⟨(), fun _ => 0⟩ 0 (fun _ => 0) 0 1
  have hok : (diskWrite deadChip ⟨(), fun _ => 0⟩ 0 0 (fun _ => 0) 0 1).2.1 = .resOk := by
    rw [diskWrite_eq]
  exact (hhonest.ok_only hok).1 rfl

end NuAgent.Fatfs
