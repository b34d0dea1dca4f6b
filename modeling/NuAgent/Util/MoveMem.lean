import Mathlib.Logic.Function.Basic
import NuAgent.Lib.Overlay

/-!
# Moving memory

Reference: `NST_MoveMemOvlap` of `Sys/util.c`.

Memory is a function from addresses to bytes, and no address wraps. A move whose destination lies
above its source runs from the last byte down, any other one from the first byte up: each loop reads
a byte before it can have written it.
-/

namespace NuAgent.Util

open Memory

/-! ## The source -/

/-- `while (Size > 0u) *pDstStart-- = *pSrcStart--` -/
def moveDown (mem : ℕ → UInt8) (pDstStart pSrcStart : ℕ) : ℕ → ℕ → UInt8
  | 0 => mem
  | size + 1 => moveDown (Function.update mem pDstStart (mem pSrcStart)) (pDstStart - 1)
      (pSrcStart - 1) size

/-- `while (Size > 0u) *pDst++ = *pSrc++` -/
def moveUp (mem : ℕ → UInt8) (pDst pSrc : ℕ) : ℕ → ℕ → UInt8
  | 0 => mem
  | size + 1 => moveUp (Function.update mem pDst (mem pSrc)) (pDst + 1) (pSrc + 1) size

/-- `NST_MoveMemOvlap`. -/
def nstMoveMemOvlap (mem : ℕ → UInt8) (pDst pSrc : ℕ) (size : UInt16) : ℕ → UInt8 :=
  if pDst > pSrc then
    moveDown mem (pDst + size.toNat - 1) (pSrc + size.toNat - 1) size.toNat
  else moveUp mem pDst pSrc size.toNat

/-! ## Both directions -/

section
variable {pDst pSrc : ℕ}

/-- Upwards, the bytes still to be moved are those of the start: the destination is behind. -/
theorem moveUp_eq (mem : ℕ → UInt8) (h : pDst ≤ pSrc) (size : ℕ) :
    moveUp mem pDst pSrc size = copy mem pDst pSrc size := by
  induction size generalizing mem pDst pSrc with
  | zero => exact copy_zero.symm
  | succ size ih =>
    rw [moveUp, ih _ (by omega)]
    funext a
    rw [copy_apply, copy_apply]
    by_cases hfirst : a = pDst
    · rw [if_neg (by omega), if_pos (by omega), hfirst, Function.update_self, Nat.sub_self,
        Nat.add_zero]
    · rw [Function.update_of_ne hfirst]
      by_cases hin : pDst ≤ a ∧ a < pDst + (size + 1)
      · have hsrc : pSrc + 1 + (a - (pDst + 1)) = pSrc + (a - pDst) := by omega
        rw [if_pos (by omega), if_pos hin, hsrc, Function.update_of_ne (by omega)]
      · rw [if_neg (by omega), if_neg hin]

/-- Downwards, the bytes still to be moved lie below what has been written. -/
theorem moveDown_eq (mem : ℕ → UInt8) (h : pSrc < pDst) (size : ℕ) :
    moveDown mem (pDst + size - 1) (pSrc + size - 1) size = copy mem pDst pSrc size := by
  induction size generalizing mem with
  | zero => exact copy_zero.symm
  | succ size ih =>
    have hdst : pDst + (size + 1) - 1 = pDst + size := by omega
    have hsrc : pSrc + (size + 1) - 1 = pSrc + size := by omega
    rw [moveDown, hdst, hsrc, ih]
    funext a
    rw [copy_apply, copy_apply]
    by_cases hin : pDst ≤ a ∧ a < pDst + size
    · rw [if_pos hin, if_pos (by omega), Function.update_of_ne (by omega)]
    · rw [if_neg hin]
      by_cases hlast : a = pDst + size
      · rw [if_pos (by omega), hlast, Function.update_self, Nat.add_sub_cancel_left]
      · rw [Function.update_of_ne hlast, if_neg (by omega)]

end

theorem nstMoveMemOvlap_eq (mem : ℕ → UInt8) (pDst pSrc : ℕ) (size : UInt16) :
    nstMoveMemOvlap mem pDst pSrc size = copy mem pDst pSrc size.toNat := by
  unfold nstMoveMemOvlap
  split_ifs with h
  · exact moveDown_eq mem h size.toNat
  · exact moveUp_eq mem (Nat.le_of_not_lt h) size.toNat

/-- `NST_MoveMemOvlap` is a move: the destination holds what the source held before, and nothing
else changes, wherever the two ranges lie. -/
theorem nstMoveMemOvlap_spec (mem : ℕ → UInt8) (pDst pSrc : ℕ) (size : UInt16) :
    (∀ i < size.toNat, nstMoveMemOvlap mem pDst pSrc size (pDst + i) = mem (pSrc + i)) ∧
      ∀ a, a < pDst ∨ pDst + size.toNat ≤ a → nstMoveMemOvlap mem pDst pSrc size a = mem a := by
  rw [nstMoveMemOvlap_eq]
  exact ⟨fun i hi => copy_inside hi, fun a ha => copy_outside ha⟩

end NuAgent.Util
