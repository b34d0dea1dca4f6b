import Mathlib.Tactic.Ring
import NuAgent.Flash.Qspi
import NuAgent.Lib.Bytes

/-!
# `WriteFlash`

Reference: `App/NuAgent/System/nuagent_drv.c`, the function `WriteFlash`.

A range of the flash is updated in place, sector by sector. A sector whose part of the range is
still erased is programmed as it is; any other sector is read, erased, merged with the new bytes and
written back. On a NOR flash both ways have one effect: the new bytes are stored and every other
byte of the flash is what it was.
-/

namespace NuAgent.Flash

open CInt Memory

/-! ## The function -/

section
variable {σ : Type} (dev : Device σ)

/-- The first loop over a sector buffer: the index of the first of `secreMain` bytes from
`sectorOff` on that is not erased, or `secreMain` when there is none. -/
def firstProgrammed (flashBuf : List UInt8) (sectorOff secreMain : ℕ) : ℕ :=
  ((flashBuf.drop sectorOff).take secreMain).findIdx (· ≠ 0xFF)

/-- The body of the loop up to the check of what `QSpiWriteAny` returns: one sector is written. -/
def writeSector (s : σ) (pData : List UInt8) (writeAddr sectorNum sectorOff secreMain : ℕ) :
    Option (σ × ℤ) :=
  let flashBuf := qSpiFlashRead dev s (sectorNum * flashSectorSize) flashSectorSize
  if firstProgrammed flashBuf sectorOff secreMain < secreMain then
    let s := qSpiFlashEraseSector dev s (sectorNum * flashSectorSize)
    let flashBuf := Block.splice flashBuf sectorOff (pData.take secreMain)
    qSpiWriteAny dev s (sectorNum * flashSectorSize) flashBuf flashSectorSize
  else qSpiWriteAny dev s writeAddr (pData.take secreMain) secreMain

/-- The `do`-`while` loop of `WriteFlash`; `none` when `fuel` turns were not enough. -/
def writeFlashLoop : ℕ → σ → List UInt8 → ℕ → ℕ → ℕ → ℕ → ℕ → Option σ
  | 0, _, _, _, _, _, _, _ => none
  | fuel + 1, s, pData, dataLen, writeAddr, sectorNum, sectorOff, secreMain => do
      let (s, ret) ← writeSector dev s pData writeAddr sectorNum sectorOff secreMain
      if ret ≠ 0 then some s
      else if dataLen = secreMain then some s
      else
        let sectorNum := u8 (sectorNum + 1)
        let pData := pData.drop secreMain
        let writeAddr := u32 (writeAddr + secreMain)
        let dataLen := u32 (dataLen - secreMain)
        let secreMain := if dataLen > flashSectorSize then flashSectorSize else u16 dataLen
        writeFlashLoop fuel s pData dataLen writeAddr sectorNum 0 secreMain

/-- `WriteFlash`. Without a sector buffer it goes on to store through a null pointer, which has no
result. A turn of its loop writes at least one byte unless there is nothing to write. -/
def writeFlash (flashBuf : Bool) (s : σ) (pData : List UInt8) (dataLen burnStartPos : ℕ) :
    Option σ :=
  let sectorNum := u8 (burnStartPos / flashSectorSize : ℕ)
  let sectorOff := u16 (burnStartPos % flashSectorSize : ℕ)
  let secreMain := u16 (flashSectorSize - sectorOff)
  let secreMain := if dataLen ≤ secreMain then u16 dataLen else secreMain
  if flashBuf then
    writeFlashLoop dev (dataLen + 1) s pData dataLen burnStartPos sectorNum sectorOff secreMain
  else none

end

/-! ## On the NOR flash -/

/-- When the search for a programmed byte finds none, the range is erased. -/
theorem erased_of_firstProgrammed {s : Nor} {base len off n : ℕ} (hfit : off + n ≤ len)
    (h : ¬ firstProgrammed (window s.cells base len) off n < n) : Erased s (base + off) n := by
  have hlen : (((window s.cells base len).drop off).take n).length = n := by
    rw [List.length_take, List.length_drop, length_window]
    omega
  intro i hi
  have hidx : i < (((window s.cells base len).drop off).take n).findIdx (· ≠ 0xFF) := by
    unfold firstProgrammed at h
    omega
  have hne := List.not_of_lt_findIdx hidx
  have hcell :
      (((window s.cells base len).drop off).take n)[i]? = some (s.cells (base + off + i)) := by
    rw [List.getElem?_take_of_lt hi, List.getElem?_drop, getElem?_window, if_pos (by omega),
      Nat.add_assoc]
  rw [List.getElem?_eq_getElem (by omega)] at hcell
  rw [Option.some_inj.mp hcell] at hne
  simpa using hne

/-- Erasing a sector of the flash. -/
theorem eraseSector_nor (s : Nor) {sectorNum : ℕ} (hsec : sectorNum < 256) :
    (qSpiFlashEraseSector nor s (sectorNum * flashSectorSize)).cells =
      overlay s.cells (sectorNum * flashSectorSize) (List.replicate flashSectorSize 0xFF) := by
  have hadr : addrBytes (sectorNum * flashSectorSize) / flashSectorSize * flashSectorSize =
      sectorNum * flashSectorSize := by
    unfold addrBytes flashSectorSize
    omega
  change overlay s.cells (addrBytes (sectorNum * flashSectorSize) / flashSectorSize *
    flashSectorSize) _ = _
  rw [hadr]

/-- Rewriting a sector with a part of it changed stores the change. -/
theorem rewriteSector_nor (s : Nor) {sectorNum off : ℕ} {data : List UInt8}
    (hoff : off + data.length ≤ flashSectorSize) (hsec : sectorNum < 256) :
    ∃ s', qSpiWriteAny nor (qSpiFlashEraseSector nor s (sectorNum * flashSectorSize))
        (sectorNum * flashSectorSize)
        (Block.splice (window s.cells (sectorNum * flashSectorSize) flashSectorSize) off data)
        flashSectorSize = some (s', 0) ∧
      Stores s (sectorNum * flashSectorSize + off) data s' := by
  have hcells := eraseSector_nor s hsec
  have hlen : (Block.splice (window s.cells (sectorNum * flashSectorSize) flashSectorSize) off
      data).length = flashSectorSize := by
    rw [Block.length_splice (by rw [length_window]; exact hoff), length_window]
  have hff : Erased (qSpiFlashEraseSector nor s (sectorNum * flashSectorSize))
      (sectorNum * flashSectorSize) flashSectorSize := by
    intro i hi
    rw [hcells]
    exact overlay_replicate hi
  obtain ⟨s', hwrite, hst⟩ := qSpiWriteAny_nor hlen hff (by decide)
    (by unfold flashSectorSize; omega)
  refine ⟨s', hwrite, ?_, hst.log⟩
  rw [hst.cells, hcells, overlay_overlay (Nat.le_of_eq (by rw [List.length_replicate, hlen])),
    overlay_splice_window hoff]

/-- Writing one sector's part of the range. -/
theorem writeSector_nor (s : Nor) {pData : List UInt8} {sectorNum off n : ℕ}
    (hn : n ≤ pData.length) (hoff : off + n ≤ flashSectorSize) (hsec : sectorNum < 256) :
    ∃ s', writeSector nor s pData (sectorNum * flashSectorSize + off) sectorNum off n
        = some (s', 0) ∧
      Stores s (sectorNum * flashSectorSize + off) (pData.take n) s' := by
  have htake : (pData.take n).length = n := by
    rw [List.length_take]
    omega
  have hread : qSpiFlashRead nor s (sectorNum * flashSectorSize) flashSectorSize =
      window s.cells (sectorNum * flashSectorSize) flashSectorSize := by
    apply flashReadLoop_nor s _ _ _
    unfold flashSectorSize
    omega
  unfold writeSector
  simp only [hread]
  by_cases hprog : firstProgrammed (window s.cells (sectorNum * flashSectorSize) flashSectorSize)
      off n < n
  · rw [if_pos hprog]
    exact rewriteSector_nor s (by rw [htake]; exact hoff) hsec
  · rw [if_neg hprog]
    have hff := erased_of_firstProgrammed hoff hprog
    unfold flashSectorSize at hoff hff ⊢
    exact qSpiWriteAny_nor htake hff (by omega) (by omega)

/-- The part of `len` bytes that a sector with `room` cells left takes. -/
theorem ite_u16_eq_min {len room : ℕ} (hroom : room ≤ flashSectorSize) :
    (if len ≤ room then u16 len else room) = min len room := by
  unfold flashSectorSize at hroom
  split_ifs
  · rw [u16_of_lt (by omega) (by omega)]
    omega
  · omega

/-- The loop's variables after a sector that was filled up to its end. -/
theorem nextSector_eq {sectorNum off secreMain len : ℕ} (hfull : off + secreMain = flashSectorSize)
    (hlt : secreMain < len)
    (hend : sectorNum * flashSectorSize + off + len ≤ 256 * flashSectorSize) :
    sectorNum + 1 < 256 ∧ u8 ((sectorNum : ℤ) + 1) = sectorNum + 1 ∧
      u32 (((sectorNum * flashSectorSize + off : ℕ) : ℤ) + secreMain) =
        (sectorNum + 1) * flashSectorSize + 0 ∧
      u32 ((len : ℤ) - secreMain) = len - secreMain := by
  unfold flashSectorSize at hfull hend ⊢
  refine ⟨by omega, ?_, ?_, ?_⟩
  · rw [u8_of_lt (by omega) (by omega)]
    omega
  · rw [u32_of_lt (by omega) (by omega)]
    omega
  · rw [u32_of_lt (by omega) (by omega)]
    omega

/-- The loop of `WriteFlash` stores the data sector by sector. -/
theorem writeFlashLoop_nor (fuel : ℕ) {s : Nor} (pData : List UInt8) {sectorNum off secreMain : ℕ}
    (hfuel : pData.length < fuel) (hoff : off < flashSectorSize)
    (hrem : secreMain = min pData.length (flashSectorSize - off))
    (hend : sectorNum * flashSectorSize + off + pData.length ≤ 256 * flashSectorSize)
    (hsec : sectorNum < 256) :
    ∃ s', writeFlashLoop nor fuel s pData pData.length (sectorNum * flashSectorSize + off) sectorNum
        off secreMain = some s' ∧
      Stores s (sectorNum * flashSectorSize + off) pData s' := by
  induction fuel generalizing s pData sectorNum off secreMain with
  | zero => omega
  | succ fuel ih =>
    have hn : secreMain ≤ pData.length := by omega
    have hfit : off + secreMain ≤ flashSectorSize := by omega
    obtain ⟨s₁, hwrite, hst⟩ := writeSector_nor s hn hfit hsec
    rw [writeFlashLoop, hwrite]
    simp only [Option.bind_eq_bind, Option.bind_some, ne_eq, not_true_eq_false, if_false]
    by_cases hall : pData.length = secreMain
    · rw [if_pos hall]
      rw [List.take_of_length_le (Nat.le_of_eq hall)] at hst
      exact ⟨s₁, rfl, hst⟩
    · -- a sector that does not take the rest is filled up to its end
      rw [if_neg hall]
      have hfull : off + secreMain = flashSectorSize := by omega
      obtain ⟨hlt, hnum, hadr, hcount⟩ := nextSector_eq hfull (by omega) hend
      have hdrop : (pData.drop secreMain).length = pData.length - secreMain := List.length_drop
      have hbase : sectorNum * flashSectorSize + off + secreMain =
          (sectorNum + 1) * flashSectorSize + 0 := by
        rw [Nat.add_assoc, hfull]
        ring
      have hmain : (if (pData.drop secreMain).length > flashSectorSize then flashSectorSize
          else u16 (pData.drop secreMain).length) =
          min (pData.drop secreMain).length (flashSectorSize - 0) := by
        rw [Nat.sub_zero, ← ite_u16_eq_min (Nat.le_refl flashSectorSize), ← ite_not]
        simp only [gt_iff_lt, Nat.not_lt]
      obtain ⟨s₂, hloop, hst₂⟩ := ih (s := s₁) (pData.drop secreMain) (by omega)
        (Nat.lt_of_le_of_lt (Nat.zero_le off) hoff) rfl (by omega) hlt
      rw [hnum, hadr, hcount, ← hdrop, hmain]
      rw [← hbase] at hst₂
      exact ⟨s₂, hloop, hst.take_drop hn hst₂⟩

/-- Writing nothing stores nothing, also at the end of the flash, where the sector number wraps. -/
theorem writeFlash_empty (s : Nor) {pos : ℕ} (hpos : pos < 2 ^ 24) :
    ∃ s', writeFlash nor true s [] 0 pos = some s' ∧ Stores s pos [] s' := by
  have hff : Erased s pos 0 := fun i hi => absurd hi (Nat.not_lt_zero i)
  obtain ⟨s', hwrite, hst⟩ := qSpiWriteAny_nor List.length_nil hff (by decide) (by omega)
  refine ⟨s', ?_, hst⟩
  have hzero : u16 ((0 : ℕ) : ℤ) = 0 := rfl
  unfold writeFlash
  simp only [Nat.zero_le, if_true, hzero, writeFlashLoop, writeSector, Nat.not_lt_zero, if_false,
    List.take_nil, hwrite, Option.bind_eq_bind, Option.bind_some, ne_eq, not_true_eq_false]

/-- `WriteFlash` returns, and it stores the data. -/
theorem writeFlash_nor (s : Nor) (pData : List UInt8) (pos : ℕ)
    (hend : pos + pData.length ≤ 256 * flashSectorSize) :
    ∃ s', writeFlash nor true s pData pData.length pos = some s' ∧ Stores s pos pData s' := by
  by_cases hpos : pos < 256 * flashSectorSize
  swap
  · -- only an empty range can start at the end of the flash
    have hnil : pData = [] := List.eq_nil_of_length_eq_zero (by omega)
    subst hnil
    unfold flashSectorSize at hend
    exact writeFlash_empty s (by omega)
  unfold writeFlash
  rw [if_pos rfl]
  have hsplit : pos = pos / flashSectorSize * flashSectorSize + pos % flashSectorSize :=
    (Nat.div_add_mod' pos flashSectorSize).symm
  have hmod : pos % flashSectorSize < flashSectorSize := Nat.mod_lt _ (by decide)
  have hnum : u8 ((pos / flashSectorSize : ℕ) : ℤ) = pos / flashSectorSize := by
    unfold flashSectorSize at *
    rw [u8_of_lt (by omega) (by omega)]
    omega
  have hoff : u16 ((pos % flashSectorSize : ℕ) : ℤ) = pos % flashSectorSize := by
    unfold flashSectorSize at *
    rw [u16_of_lt (by omega) (by omega)]
    omega
  have hrem : u16 ((flashSectorSize : ℤ) - (pos % flashSectorSize : ℕ)) =
      flashSectorSize - pos % flashSectorSize := by
    unfold flashSectorSize at *
    rw [u16_of_lt (by omega) (by omega)]
    omega
  have hmain : (if pData.length ≤ flashSectorSize - pos % flashSectorSize then u16 pData.length
      else flashSectorSize - pos % flashSectorSize) =
      min pData.length (flashSectorSize - pos % flashSectorSize) :=
    ite_u16_eq_min (Nat.sub_le _ _)
  have hsec : pos / flashSectorSize < 256 := by
    unfold flashSectorSize at *
    omega
  have hloop := writeFlashLoop_nor (pData.length + 1) (s := s) pData (Nat.lt_succ_self _) hmod rfl
    (by rw [← hsplit]; exact hend) hsec
  rw [← hsplit] at hloop
  simp only [hnum, hoff, hrem, hmain]
  exact hloop

/-- `WriteFlash` updates a flash of `n` sectors in place: it returns, the range holds the data,
every other byte is what it was, and no page program leaves its page. -/
theorem writeFlash_in_place (n : ℕ) (hn : n ≤ 256) (s : Nor) (pData : List UInt8)
    (burnStartPos : ℕ) (hend : burnStartPos + pData.length ≤ n * flashSectorSize) :
    ∃ s', writeFlash nor true s pData pData.length burnStartPos = some s' ∧
      (∀ i (hi : i < pData.length), s'.cells (burnStartPos + i) = pData[i]) ∧
      (∀ a, a < burnStartPos ∨ burnStartPos + pData.length ≤ a → s'.cells a = s.cells a) ∧
      ∀ p ∈ s'.log, p ∈ s.log ∨ InPage p := by
  have hsize : n * flashSectorSize ≤ 256 * flashSectorSize := Nat.mul_le_mul_right _ hn
  obtain ⟨s', hwrite, hst⟩ := writeFlash_nor s pData burnStartPos (by omega)
  refine ⟨s', hwrite, ?_, ?_, hst.log⟩
  · intro i hi
    have hcell : some (overlay s.cells burnStartPos pData (burnStartPos + i)) = pData[i]? :=
      overlay_add hi
    rw [List.getElem?_eq_getElem hi] at hcell
    rw [hst.cells]
    exact Option.some_inj.mp hcell
  · rintro a (hlt | hge)
    · rw [hst.cells, overlay_of_lt hlt]
    · rw [hst.cells, overlay_of_ge hge]

/-- Three bytes across the end of a sector of a programmed flash. -/
theorem writeFlash_in_place_across :
    ∃ s', writeFlash nor true ⟨fun _ => 0, []⟩ [1, 2, 3] 3 4095 = some s' ∧
      s'.cells 4095 = 1 ∧ s'.cells 4096 = 2 ∧ s'.cells 4097 = 3 ∧ s'.cells 4094 = 0 ∧
      ∀ p ∈ s'.log, InPage p := by
  obtain ⟨s', hwrite, hdata, hrest, hlog⟩ :=
    writeFlash_in_place 2 (by decide) ⟨fun _ => 0, []⟩ [1, 2, 3] 4095 (by decide)
  refine ⟨s', hwrite, hdata 0 (by decide), hdata 1 (by decide), hdata 2 (by decide),
    hrest 4094 (.inl (by decide)), fun p hp => ?_⟩
  exact (hlog p hp).resolve_left List.not_mem_nil

end NuAgent.Flash
