import Mathlib.Data.Nat.Choose.Basic
import NuAgent.Fatfs.Diskio

/-!
# What `disk_read` reads

The loop of `disk_read` adds `512 * i` to its offset behind the `i`-th sector, where the next sector
is 512 bytes on. So its `i`-th turn reads the sector `i * (i - 1) / 2` behind the first one: the
first sector twice, then the second, then the fourth. One sector is read rightly; a longer read is
right when the flash happens to hold the same bytes in the places.
-/

namespace NuAgent.Fatfs

open CInt Memory Flash

/-- The logical sector `k`, at its 24-bit address. -/
def logicalSector (s : Nor) (k : ℕ) : List UInt8 :=
  window s.cells ((norFlashStartAddr + norFlashSectorSize * k) % 2 ^ 24) norFlashSectorSize

@[simp] theorem length_logicalSector (s : Nor) (k : ℕ) :
    (logicalSector s k).length = norFlashSectorSize := length_window

/-- Inside the disk the address does not wrap. -/
theorem logicalSector_eq {s : Nor} {k : ℕ} (h : k < norFlashSectorCount) :
    logicalSector s k =
      window s.cells (norFlashStartAddr + norFlashSectorSize * k) norFlashSectorSize := by
  unfold norFlashSectorCount at h
  unfold logicalSector norFlashStartAddr norFlashSectorSize
  rw [Nat.mod_eq_of_lt (by omega)]

/-- The loop at its turn `i` stands at the sector `i * (i - 1) / 2`. -/
theorem diskReadLoop_nor (s : Nor) (sector left i off : ℕ)
    (hoff : off = norFlashSectorSize * (sector + i * (i - 1) / 2) % 2 ^ 32) :
    diskReadLoop nor s left i off = (List.range left).flatMap fun j =>
      logicalSector s (sector + (i + j) * (i + j - 1) / 2) := by
  induction left generalizing i off with
  | zero => rfl
  | succ left ih =>
    have htri := Nat.triangle_succ i
    have hnext : u32 ((off : ℤ) + norFlashSectorSize * (i : ℕ)) =
        norFlashSectorSize * (sector + (i + 1) * (i + 1 - 1) / 2) % 2 ^ 32 := by
      rw [hoff, htri]
      unfold norFlashSectorSize u32 unsigned
      omega
    have haddr : addrBytes (u32 ((norFlashStartAddr : ℤ) + off)) =
        (norFlashStartAddr + norFlashSectorSize * (sector + i * (i - 1) / 2)) % 2 ^ 24 := by
      rw [hoff]
      unfold addrBytes norFlashStartAddr norFlashSectorSize u32 unsigned
      omega
    have hread : qSpiFlashRead nor s (u32 (norFlashStartAddr + off)) norFlashSectorSize =
        logicalSector s (sector + i * (i - 1) / 2) := by
      rw [qSpiFlashRead_single nor s _ (by decide) (by decide), haddr, nor_seqRead, logicalSector]
    have hshift : ∀ j, i + 1 + j = i + (j + 1) := fun j => by omega
    rw [diskReadLoop, hread, ih (i + 1) _ hnext, List.range_succ_eq_map, List.flatMap_cons,
      List.flatMap_map]
    simp only [hshift]
    rfl

/-- The sectors that `disk_read` stores. -/
theorem diskRead_nor (s : Nor) (sector count : ℕ) :
    diskRead nor s 0 sector count = (.resOk, (List.range count).flatMap fun i =>
      logicalSector s (sector + i * (i - 1) / 2)) := by
  have hoff : u32 ((norFlashSectorSize : ℤ) * sector) =
      norFlashSectorSize * (sector + 0 * (0 - 1) / 2) % 2 ^ 32 := by
    unfold norFlashSectorSize u32 unsigned
    omega
  rw [diskRead, if_neg (by decide), diskReadLoop_nor s sector count 0 _ hoff]
  simp only [Nat.zero_add]

/-- Rows of pieces of one length agree iff their pieces do. -/
theorem flatMap_range_eq_iff {g h : ℕ → List UInt8} {n : ℕ} (hg : ∀ i, (g i).length = n)
    (hh : ∀ i, (h i).length = n) (k : ℕ) :
    (List.range k).flatMap g = (List.range k).flatMap h ↔ ∀ i < k, g i = h i := by
  induction k with
  | zero => simp
  | succ k ih =>
    rw [List.range_succ, List.flatMap_append, List.flatMap_append, List.flatMap_singleton,
      List.flatMap_singleton, List.append_eq_append_iff_of_size_eq_right (by rw [hg, hh]), ih]
    exact Nat.forall_lt_succ_right.symm

/-- `disk_read` stores `count` consecutive logical sectors from `sector` on, which are the bytes
that `count` reads of a single sector store. -/
structure ReadsConsecutive (s : Nor) (sector count : ℕ) : Prop where
  stored : diskRead nor s 0 sector count =
    (.resOk, window s.cells (norFlashStartAddr + norFlashSectorSize * sector)
      (norFlashSectorSize * count))
  singly : (diskRead nor s 0 sector count).2 =
    (List.range count).flatMap fun i => (diskRead nor s 0 (sector + i) 1).2

section
variable {sector count : ℕ}

/-- Consecutive sectors, one by one. -/
theorem window_sectors (s : Nor) (h : sector + count ≤ norFlashSectorCount) :
    window s.cells (norFlashStartAddr + norFlashSectorSize * sector)
        (norFlashSectorSize * count) =
      (List.range count).flatMap fun i => logicalSector s (sector + i) := by
  rw [window_mul]
  refine List.flatMap_congr fun i hi => ?_
  have hi' := List.mem_range.mp hi
  rw [logicalSector_eq (by omega), Nat.mul_add, Nat.add_assoc]

/-- A read of one sector is right. -/
theorem diskRead_one (s : Nor) (k : ℕ) : (diskRead nor s 0 k 1).2 = logicalSector s k := by
  have hone : List.range 1 = [0] := rfl
  rw [diskRead_nor, hone, List.flatMap_singleton, Nat.zero_mul, Nat.zero_div, Nat.add_zero]

theorem readsConsecutive_iff (s : Nor) (h : sector + count ≤ norFlashSectorCount) :
    ReadsConsecutive s sector count ↔
      ∀ i < count, logicalSector s (sector + i * (i - 1) / 2) = logicalSector s (sector + i) := by
  have hpieces := flatMap_range_eq_iff
    (fun i => length_logicalSector s (sector + i * (i - 1) / 2))
    (fun i => length_logicalSector s (sector + i)) count
  constructor
  · intro hread
    have hstored := hread.stored
    rw [diskRead_nor, window_sectors s h, Prod.mk.injEq] at hstored
    exact hpieces.mp hstored.2
  · intro hsame
    have hflat := hpieces.mpr hsame
    refine ⟨?_, ?_⟩
    · rw [diskRead_nor, window_sectors s h, hflat]
    · simp only [diskRead_one]
      rw [diskRead_nor, hflat]

/-- A flash that is zero up to a logical sector and one from it on. -/
def stepFlash (sector : ℕ) : Nor where
  cells a := if a < norFlashStartAddr + norFlashSectorSize * sector then 0 else 1
  log := []

theorem stepFlash_cells (sector a : ℕ) : (stepFlash sector).cells a =
    if a < norFlashStartAddr + norFlashSectorSize * sector then 0 else 1 := rfl

/-- Two sectors on either side of the step differ. -/
theorem stepFlash_ne (h : sector + 1 < norFlashSectorCount) :
    logicalSector (stepFlash (sector + 1)) sector ≠
      logicalSector (stepFlash (sector + 1)) (sector + 1) := by
  rw [logicalSector_eq (by omega), logicalSector_eq h, Ne, window_eq_iff]
  intro hsame
  have hfirst := hsame 0 (by decide)
  have hlt : norFlashStartAddr + norFlashSectorSize * sector + 0 <
      norFlashStartAddr + norFlashSectorSize * (sector + 1) := by
    unfold norFlashSectorSize
    omega
  rw [stepFlash_cells, stepFlash_cells, if_pos hlt, if_neg (by omega)] at hfirst
  exact absurd hfirst (by decide)

/-- `disk_read` stores consecutive sectors iff the sectors it reads hold the same bytes as those it
should read; for every content of the flash it does so iff it reads at most one sector. -/
theorem diskRead_iff (h : sector + count ≤ norFlashSectorCount) :
    (∀ s, ReadsConsecutive s sector count ↔
      ∀ i < count, logicalSector s (sector + i * (i - 1) / 2) = logicalSector s (sector + i)) ∧
    ((∀ s, ReadsConsecutive s sector count) ↔ count ≤ 1) := by
  refine ⟨fun s => readsConsecutive_iff s h, ?_⟩
  constructor
  · intro hall
    by_contra hcount
    have hread := (readsConsecutive_iff _ h).mp (hall (stepFlash (sector + 1))) 1 (by omega)
    exact stepFlash_ne (by omega) hread
  · intro hcount s
    rw [readsConsecutive_iff s h]
    intro i hi
    obtain rfl : i = 0 := by omega
    rfl

end

/-- One sector at the end of the disk, and two at its start. -/
theorem diskRead_iff_ends :
    (∀ s, ReadsConsecutive s 583 1) ∧ ¬ ∀ s, ReadsConsecutive s 0 2 := by
  refine ⟨(diskRead_iff (by decide)).2.mpr (by decide), fun hall => ?_⟩
  exact absurd ((diskRead_iff (by decide)).2.mp hall) (by decide)

/-- A read of two sectors stores the first one twice. -/
theorem diskRead_twice : ¬ ∀ s sector count, sector + count ≤ norFlashSectorCount →
    ReadsConsecutive s sector count := by
  intro hall
  have hread := (readsConsecutive_iff (stepFlash 1) (by decide)).mp
    (hall (stepFlash 1) 0 2 (by decide)) 1 (by decide)
  exact stepFlash_ne (by decide) hread

end NuAgent.Fatfs
