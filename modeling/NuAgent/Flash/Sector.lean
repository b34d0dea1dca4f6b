import NuAgent.Flash.Verify
import NuAgent.Flash.Write

/-!
# `QSpiWriteOneSector` on the NOR flash

A sector that was just erased takes every page at the first attempt, so the function stores its
buffer in the sector and reports success.
-/

namespace NuAgent.Flash

open CInt Memory Retry

/-- Erased cells of a page take the data at the first of ten attempts. -/
theorem retry_nor {s : Nor} {addr : ℕ} {data : List UInt8} (hpage : InPage (addr, data.length))
    (hff : Erased s addr data.length) (hend : addr + data.length < 2 ^ 24) :
    ∃ s', retry (pageAttempt nor) (addr, data) 10 s = (s', some 9) ∧ Stores s addr data s' := by
  obtain ⟨s', hprog, hst⟩ := programVerify_nor 9 addr data hpage hff hend
  rw [programVerify_eq, Prod.mk.injEq] at hprog
  refine ⟨s', Prod.ext hprog.1 ?_, hst⟩
  have hcount := hprog.2
  cases hr : (retry (pageAttempt nor) (addr, data) 10 s).2 with
  | none =>
    rw [hr] at hcount
    exact absurd hcount (by decide)
  | some j =>
    rw [hr] at hcount
    exact congrArg some hcount

/-- The loop over the pages stores the buffer page by page. -/
theorem writeSectorLoop_nor (pages : ℕ) {s : Nor} {addr : ℕ} {pBuf : List UInt8}
    (hlen : pBuf.length = pages * flashPageSize) (hpage : addr % flashPageSize = 0)
    (hff : Erased s addr pBuf.length) (hend : addr + pBuf.length < 2 ^ 24) :
    ∃ s', writeSectorLoop nor pages s addr pBuf = (s', 0) ∧ Stores s addr pBuf s' := by
  have hsize : flashPageSize = 256 := rfl
  rw [hsize] at hlen hpage
  induction pages generalizing s addr pBuf with
  | zero =>
    obtain rfl : pBuf = [] := List.eq_nil_of_length_eq_zero (by omega)
    exact ⟨s, rfl, by rw [overlay_nil], fun p hp => .inl hp⟩
  | succ pages ih =>
    have htake : (pBuf.take flashPageSize).length = flashPageSize := by
      rw [List.length_take]
      omega
    have hdrop : (pBuf.drop flashPageSize).length = pBuf.length - flashPageSize := List.length_drop
    have hin : InPage (addr, (pBuf.take flashPageSize).length) := by
      rw [InPage, htake, hsize, hpage, Nat.zero_add]
    obtain ⟨s₁, hprog, hst⟩ := retry_nor hin (fun i hi => hff i (by omega)) (by omega)
    have hadr : u32 ((addr : ℤ) + flashPageSize) = addr + flashPageSize := by
      rw [u32_of_lt (by omega) (by omega)]
      omega
    have hff' : Erased s₁ (addr + flashPageSize) (pBuf.drop flashPageSize).length := by
      intro i hi
      rw [hst.cells, overlay_of_ge (by omega), Nat.add_assoc]
      exact hff _ (by omega)
    obtain ⟨s₂, hloop, hst₂⟩ := ih (by omega) (by omega) hff' (by omega)
    refine ⟨s₂, ?_, hst.take_drop (by omega) hst₂⟩
    rw [writeSectorLoop, programVerifyPage_eq, hprog]
    dsimp only [Option.getD_some]
    rw [if_neg (by decide), hadr]
    exact hloop

/-- `QSpiWriteOneSector` stores its buffer in the sector. -/
theorem qSpiWriteOneSector_nor (s : Nor) {sectorNum : ℕ} {pBuf : List UInt8}
    (hlen : pBuf.length = flashSectorSize) (hsec : sectorNum < 256) :
    ∃ s', qSpiWriteOneSector nor s (sectorNum * flashSectorSize) pBuf = (s', 0) ∧
      Stores s (sectorNum * flashSectorSize) pBuf s' := by
  have hcells := eraseSector_nor s hsec
  have hff : Erased (qSpiFlashEraseSector nor s (sectorNum * flashSectorSize))
      (sectorNum * flashSectorSize) pBuf.length := by
    intro i hi
    rw [hlen] at hi
    rw [hcells]
    exact overlay_replicate hi
  unfold flashSectorSize at hlen
  obtain ⟨s', hwrite, hst⟩ := writeSectorLoop_nor 16 (by unfold flashPageSize; omega)
    (by unfold flashSectorSize flashPageSize; omega) hff (by unfold flashSectorSize; omega)
  refine ⟨s', hwrite, ?_, hst.log⟩
  rw [hst.cells, hcells, overlay_overlay]
  apply Nat.le_of_eq
  rw [List.length_replicate, hlen]
  rfl

end NuAgent.Flash
