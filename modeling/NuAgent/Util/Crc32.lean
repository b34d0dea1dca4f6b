import NuAgent.Lib.Crc
import NuAgent.Lib.Overlay

/-!
# CRC-32

Reference: `_cal_crc32` and `NST_GetCrc32` of `Sys/util.c`.

A byte is fed to the register by 32 sums of its bits and of the bits of the register, with the
highest bit of the register shifted out first. The result is turned round at the end, which makes it
the usual reflected check. The sums are compared with eight single steps on the forty single bits:
both sides are additive.
-/

namespace NuAgent.Util

open Crc
open Memory

/-! ## The source -/

/-- The loop that sets the bit `pos i` of a zeroed `INT32` for each `i < n` with `bit i`. -/
def orBits (bit : ℕ → Bool) (pos : ℕ → ℕ) : ℕ → BitVec 32
  | 0 => 0
  | i + 1 => if bit i then orBits bit pos i ||| 1#32 <<< pos i else orBits bit pos i

/-- `crc_out` of `_cal_crc32`, from the arrays of single bits. -/
def crcOut (inDataBuf crcBuf : ℕ → Bool) : List Bool :=
  [ inDataBuf 1 ^^ inDataBuf 7 ^^ crcBuf 30 ^^ crcBuf 24,
    inDataBuf 0 ^^ inDataBuf 1 ^^ inDataBuf 6 ^^ inDataBuf 7 ^^ crcBuf 31 ^^ crcBuf 30 ^^
      crcBuf 25 ^^ crcBuf 24,
    inDataBuf 0 ^^ inDataBuf 1 ^^ inDataBuf 5 ^^ inDataBuf 6 ^^ inDataBuf 7 ^^ crcBuf 31 ^^
      crcBuf 30 ^^ crcBuf 26 ^^ crcBuf 25 ^^ crcBuf 24,
    inDataBuf 0 ^^ inDataBuf 4 ^^ inDataBuf 5 ^^ inDataBuf 6 ^^ crcBuf 31 ^^ crcBuf 27 ^^
      crcBuf 26 ^^ crcBuf 25,
    inDataBuf 1 ^^ inDataBuf 3 ^^ inDataBuf 4 ^^ inDataBuf 5 ^^ inDataBuf 7 ^^ crcBuf 30 ^^
      crcBuf 28 ^^ crcBuf 27 ^^ crcBuf 26 ^^ crcBuf 24,
    inDataBuf 0 ^^ inDataBuf 1 ^^ inDataBuf 2 ^^ inDataBuf 3 ^^ inDataBuf 4 ^^ inDataBuf 6 ^^
      inDataBuf 7 ^^ crcBuf 31 ^^ crcBuf 30 ^^ crcBuf 29 ^^ crcBuf 28 ^^ crcBuf 27 ^^
      crcBuf 25 ^^ crcBuf 24,
    inDataBuf 0 ^^ inDataBuf 1 ^^ inDataBuf 2 ^^ inDataBuf 3 ^^ inDataBuf 5 ^^ inDataBuf 6 ^^
      crcBuf 31 ^^ crcBuf 30 ^^ crcBuf 29 ^^ crcBuf 28 ^^ crcBuf 26 ^^ crcBuf 25,
    inDataBuf 0 ^^ inDataBuf 2 ^^ inDataBuf 4 ^^ inDataBuf 5 ^^ inDataBuf 7 ^^ crcBuf 31 ^^
      crcBuf 29 ^^ crcBuf 27 ^^ crcBuf 26 ^^ crcBuf 24,
    inDataBuf 3 ^^ inDataBuf 4 ^^ inDataBuf 6 ^^ inDataBuf 7 ^^ crcBuf 28 ^^ crcBuf 27 ^^
      crcBuf 25 ^^ crcBuf 24 ^^ crcBuf 0,
    inDataBuf 2 ^^ inDataBuf 3 ^^ inDataBuf 5 ^^ inDataBuf 6 ^^ crcBuf 29 ^^ crcBuf 28 ^^
      crcBuf 26 ^^ crcBuf 25 ^^ crcBuf 1,
    inDataBuf 2 ^^ inDataBuf 4 ^^ inDataBuf 5 ^^ inDataBuf 7 ^^ crcBuf 29 ^^ crcBuf 27 ^^
      crcBuf 26 ^^ crcBuf 24 ^^ crcBuf 2,
    inDataBuf 3 ^^ inDataBuf 4 ^^ inDataBuf 6 ^^ inDataBuf 7 ^^ crcBuf 28 ^^ crcBuf 27 ^^
      crcBuf 25 ^^ crcBuf 24 ^^ crcBuf 3,
    inDataBuf 1 ^^ inDataBuf 2 ^^ inDataBuf 3 ^^ inDataBuf 5 ^^ inDataBuf 6 ^^ inDataBuf 7 ^^
      crcBuf 30 ^^ crcBuf 29 ^^ crcBuf 28 ^^ crcBuf 26 ^^ crcBuf 25 ^^ crcBuf 24 ^^ crcBuf 4,
    inDataBuf 0 ^^ inDataBuf 1 ^^ inDataBuf 2 ^^ inDataBuf 4 ^^ inDataBuf 5 ^^ inDataBuf 6 ^^
      crcBuf 31 ^^ crcBuf 30 ^^ crcBuf 29 ^^ crcBuf 27 ^^ crcBuf 26 ^^ crcBuf 25 ^^ crcBuf 5,
    inDataBuf 0 ^^ inDataBuf 1 ^^ inDataBuf 3 ^^ inDataBuf 4 ^^ inDataBuf 5 ^^ crcBuf 31 ^^
      crcBuf 30 ^^ crcBuf 28 ^^ crcBuf 27 ^^ crcBuf 26 ^^ crcBuf 6,
    inDataBuf 0 ^^ inDataBuf 2 ^^ inDataBuf 3 ^^ inDataBuf 4 ^^ crcBuf 31 ^^ crcBuf 29 ^^
      crcBuf 28 ^^ crcBuf 27 ^^ crcBuf 7,
    inDataBuf 2 ^^ inDataBuf 3 ^^ inDataBuf 7 ^^ crcBuf 29 ^^ crcBuf 28 ^^ crcBuf 24 ^^ crcBuf 8,
    inDataBuf 1 ^^ inDataBuf 2 ^^ inDataBuf 6 ^^ crcBuf 30 ^^ crcBuf 29 ^^ crcBuf 25 ^^ crcBuf 9,
    inDataBuf 0 ^^ inDataBuf 1 ^^ inDataBuf 5 ^^ crcBuf 31 ^^ crcBuf 30 ^^ crcBuf 26 ^^ crcBuf 10,
    inDataBuf 0 ^^ inDataBuf 4 ^^ crcBuf 31 ^^ crcBuf 27 ^^ crcBuf 11,
    inDataBuf 3 ^^ crcBuf 28 ^^ crcBuf 12,
    inDataBuf 2 ^^ crcBuf 29 ^^ crcBuf 13,
    inDataBuf 7 ^^ crcBuf 24 ^^ crcBuf 14,
    inDataBuf 1 ^^ inDataBuf 6 ^^ inDataBuf 7 ^^ crcBuf 30 ^^ crcBuf 25 ^^ crcBuf 24 ^^ crcBuf 15,
    inDataBuf 0 ^^ inDataBuf 5 ^^ inDataBuf 6 ^^ crcBuf 31 ^^ crcBuf 26 ^^ crcBuf 25 ^^ crcBuf 16,
    inDataBuf 4 ^^ inDataBuf 5 ^^ crcBuf 27 ^^ crcBuf 26 ^^ crcBuf 17,
    inDataBuf 1 ^^ inDataBuf 3 ^^ inDataBuf 4 ^^ inDataBuf 7 ^^ crcBuf 30 ^^ crcBuf 28 ^^
      crcBuf 27 ^^ crcBuf 24 ^^ crcBuf 18,
    inDataBuf 0 ^^ inDataBuf 2 ^^ inDataBuf 3 ^^ inDataBuf 6 ^^ crcBuf 31 ^^ crcBuf 29 ^^
      crcBuf 28 ^^ crcBuf 25 ^^ crcBuf 19,
    inDataBuf 1 ^^ inDataBuf 2 ^^ inDataBuf 5 ^^ crcBuf 30 ^^ crcBuf 29 ^^ crcBuf 26 ^^ crcBuf 20,
    inDataBuf 0 ^^ inDataBuf 1 ^^ inDataBuf 4 ^^ crcBuf 31 ^^ crcBuf 30 ^^ crcBuf 27 ^^ crcBuf 21,
    inDataBuf 0 ^^ inDataBuf 3 ^^ crcBuf 31 ^^ crcBuf 28 ^^ crcBuf 22,
    inDataBuf 2 ^^ crcBuf 23 ^^ crcBuf 29]

/-- `_cal_crc32`. -/
def calCrc32 (crcResult : BitVec 32) (data8 : BitVec 8) : BitVec 32 :=
  orBits (fun i => (crcOut data8.getLsbD crcResult.getLsbD).getD i false) id 32

/-- `NST_GetCrc32`, on the memory at `pData`. -/
def nstGetCrc32 (pData : ℕ → UInt8) (dataSize : Int32) : BitVec 32 :=
  let crcResult := (List.range dataSize.toInt.toNat).foldl
    (fun crcResult i => calCrc32 crcResult (pData i).toBitVec) 0xFFFFFFFF
  ~~~orBits crcResult.getLsbD (31 - ·) 32

/-! ## The definition -/

/-- The polynomial of the check, reflected. -/
def crc32Poly : BitVec 32 := 0xEDB88320

/-- The IEEE check of a byte string, bit by bit. -/
def ieeeCrc32 (bytes : List UInt8) : BitVec 32 :=
  ~~~bytes.foldl (fun r b => feedBits crc32Poly (b.toBitVec.setWidth 32) r 8) 0xFFFFFFFF

/-! ## One byte -/

theorem getLsbD_orBits (bit : ℕ → Bool) (pos : ℕ → ℕ) (n : ℕ) {j : ℕ} (hj : j < 32) :
    (orBits bit pos n).getLsbD j = true ↔ ∃ i < n, bit i = true ∧ pos i = j := by
  induction n with
  | zero => simp [orBits]
  | succ n ih =>
    have hbit : (1#32 <<< pos n).getLsbD j = true ↔ pos n = j := by
      rw [BitVec.getLsbD_shiftLeft]
      simp [hj]
      omega
    rw [orBits, Nat.exists_lt_succ_right, ← ih]
    split_ifs with hset
    · rw [BitVec.getLsbD_or, Bool.or_eq_true, hbit, and_iff_right hset]
    · simp [hset]

/-- The loop that turns the bits round, or leaves them in their places. -/
theorem getLsbD_orBits_involution {bit : ℕ → Bool} {pos : ℕ → ℕ}
    (hpos : ∀ i < 32, pos i < 32 ∧ pos (pos i) = i) {j : ℕ} (hj : j < 32) :
    (orBits bit pos 32).getLsbD j = bit (pos j) := by
  rw [Bool.eq_iff_iff, getLsbD_orBits bit pos 32 hj]
  constructor
  · rintro ⟨i, hi, hbit, rfl⟩
    rwa [(hpos i hi).2]
  · exact fun hbit => ⟨pos j, (hpos j hj).1, hbit, (hpos j hj).2⟩

theorem orBits_reverse (x : BitVec 32) : orBits x.getLsbD (31 - ·) 32 = x.reverse := by
  apply BitVec.eq_of_getLsbD_eq
  intro j hj
  rw [getLsbD_orBits_involution (fun i hi => ⟨by omega, by omega⟩) hj, BitVec.getLsbD_reverse,
    BitVec.getMsbD_eq_getLsbD, decide_eq_true hj, Bool.true_and]

instance commutative_xor : Std.Commutative Bool.xor := ⟨Bool.xor_comm⟩

theorem crcOut_xor (d d' c c' : ℕ → Bool) :
    crcOut (fun i => d i ^^ d' i) (fun i => c i ^^ c' i) =
      List.zipWith xor (crcOut d c) (crcOut d' c') := by
  simp only [crcOut, List.zipWith_cons_cons, List.zipWith_nil_left, List.cons.injEq, and_true]
  refine ⟨?_, ?_, ?_, ?_, ?_, ?_, ?_, ?_, ?_, ?_, ?_, ?_, ?_, ?_, ?_, ?_, ?_, ?_, ?_, ?_, ?_, ?_,
    ?_, ?_, ?_, ?_, ?_, ?_, ?_, ?_, ?_, ?_⟩ <;> ac_rfl

theorem getLsbD_calCrc32 (r : BitVec 32) (d : BitVec 8) {j : ℕ} (hj : j < 32) :
    (calCrc32 r d).getLsbD j = (crcOut d.getLsbD r.getLsbD).getD j false :=
  getLsbD_orBits_involution (fun _ hi => ⟨hi, rfl⟩) hj

theorem additive_calCrc32 : Additive calCrc32 := by
  intro r r' d d'
  apply BitVec.eq_of_getLsbD_eq
  intro j hj
  have hd : (d ^^^ d').getLsbD = fun i => d.getLsbD i ^^ d'.getLsbD i :=
    funext fun i => BitVec.getLsbD_xor
  have hr : (r ^^^ r').getLsbD = fun i => r.getLsbD i ^^ r'.getLsbD i :=
    funext fun i => BitVec.getLsbD_xor
  have hget : ∀ l : List Bool, (h : j < l.length) → l.getD j false = l[j] := by
    intro l h
    rw [List.getD_eq_getElem?_getD, List.getElem?_eq_getElem h, Option.getD_some]
  have hlen : ∀ d c, j < (crcOut d c).length := fun _ _ => hj
  rw [BitVec.getLsbD_xor, getLsbD_calCrc32 _ _ hj, getLsbD_calCrc32 _ _ hj,
    getLsbD_calCrc32 _ _ hj, hd, hr, crcOut_xor, hget _ (hlen _ _), hget _ (hlen _ _),
    hget _ (by rw [List.length_zipWith, Nat.lt_min]; exact ⟨hlen _ _, hlen _ _⟩),
    List.getElem_zipWith]

/-- The polynomial of the check for a register that is shifted upwards. -/
def crc32PolyUp : BitVec 32 := 0x04C11DB7

theorem reverse_crc32PolyUp : crc32PolyUp.reverse = crc32Poly := by decide +kernel

/-- `_cal_crc32` is eight single steps of the register. -/
theorem calCrc32_eq (r : BitVec 32) (d : BitVec 8) :
    calCrc32 r d = feedBitsUp crc32PolyUp d r 8 :=
  additive_ext additive_calCrc32 (additive_feedBitsUp crc32PolyUp 8)
    (by decide +kernel) (by decide +kernel) r d

/-! ## The whole check -/

/-- Turned round, the loop over the bytes is the reflected check. -/
theorem reverse_foldl (bytes : List UInt8) (r : BitVec 32) :
    (bytes.foldl (fun r b => calCrc32 r b.toBitVec) r).reverse =
      bytes.foldl (fun r b => feedBits crc32Poly (b.toBitVec.setWidth 32) r 8) r.reverse := by
  induction bytes generalizing r with
  | nil => rfl
  | cons b bytes ih =>
    rw [List.foldl_cons, List.foldl_cons, ih, calCrc32_eq, reverse_feedBitsUp _ _ _ (by decide),
      reverse_crc32PolyUp]

/-- `_cal_crc32` is the eightfold bit step on the register that is not reflected, and `NST_GetCrc32`
is the IEEE check of the `DataSize` bytes at `pData`. -/
theorem nstGetCrc32_eq :
    (∀ r d, calCrc32 r d = feedBitsUp crc32PolyUp d r 8) ∧
      ∀ (pData : ℕ → UInt8) (dataSize : Int32),
        nstGetCrc32 pData dataSize = ieeeCrc32 (window pData 0 dataSize.toInt.toNat) := by
  refine ⟨calCrc32_eq, fun pData dataSize => ?_⟩
  have hbytes : ∀ n, (List.range n).foldl (fun r i => calCrc32 r (pData i).toBitVec) 0xFFFFFFFF =
      (window pData 0 n).foldl (fun r b => calCrc32 r b.toBitVec) 0xFFFFFFFF := by
    intro n
    rw [window, List.foldl_map]
    simp only [Nat.zero_add]
  have hinit : (0xFFFFFFFF : BitVec 32).reverse = 0xFFFFFFFF := by decide +kernel
  rw [nstGetCrc32, hbytes, orBits_reverse, reverse_foldl, hinit, ieeeCrc32]

end NuAgent.Util
