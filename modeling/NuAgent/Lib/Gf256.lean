import Mathlib.Logic.Function.Iterate
import NuAgent.Lib.Serial

/-!
# Bytes as elements of the field with 256 elements

A byte stands for the polynomial over the bits whose coefficients are its bits, modulo
`x ^ 8 + x ^ 4 + x ^ 3 + x + 1`. Addition is the exclusive or, `xtime` multiplies by `x`, and `mul`
multiplies by adding up multiples by powers of `x`. Multiplication by `x` is linear (`xtime_xor`), which is
what a proof over columns of bytes needs, with the small factors as sums of its powers.
-/

namespace Gf256

open Serial

/-- Multiplication by `x`. -/
def xtime (b : UInt8) : UInt8 := if b &&& 0x80 = 0 then b <<< 1 else (b <<< 1) ^^^ 0x1b

/-- The product of two bytes, over the bits of the first. -/
def mul (a b : UInt8) : UInt8 :=
  (List.range 8).foldl (fun acc i => if a.toNat.testBit i then acc ^^^ xtime^[i] b else acc) 0

/-- `c` is the inverse of `b`, where 0 counts as its own inverse. -/
def IsInv (b c : UInt8) : Prop := if b = 0 then c = 0 else mul b c = 1

instance decidableIsInv (b c : UInt8) : Decidable (IsInv b c) :=
  inferInstanceAs (Decidable (ite _ _ _))

/-! ## Linearity -/

/-- The carry of `xtime` without a case split. -/
theorem xtime_eq (b : UInt8) : xtime b = (b <<< 1) ^^^ ((0x1b : UInt8) * (b >>> 7)) := by
  revert b
  apply forall_byte
  decide +kernel

theorem carry_xor (a b : UInt8) :
    (0x1b : UInt8) * ((a ^^^ b) >>> 7) =
      ((0x1b : UInt8) * (a >>> 7)) ^^^ ((0x1b : UInt8) * (b >>> 7)) := by
  have hbit : ∀ c : UInt8, c >>> 7 = 0 ∨ c >>> 7 = 1 := by
    apply forall_byte
    decide +kernel
  rw [UInt8.shiftRight_xor]
  rcases hbit a with ha | ha <;> rcases hbit b with hb | hb <;> rw [ha, hb] <;> decide

theorem xtime_xor (a b : UInt8) : xtime (a ^^^ b) = xtime a ^^^ xtime b := by
  rw [xtime_eq, xtime_eq, xtime_eq, UInt8.shiftLeft_xor, carry_xor]
  ac_rfl

/-! ## Small factors -/

theorem mul_one_left (b : UInt8) : mul 1 b = b := by
  revert b
  apply forall_byte
  decide +kernel

theorem mul_two (b : UInt8) : mul 2 b = xtime b := by
  revert b
  apply forall_byte
  decide +kernel

theorem mul_three (b : UInt8) : mul 3 b = xtime b ^^^ b := by
  revert b
  apply forall_byte
  decide +kernel

/-- The factors `9`, `11`, `13` and `14` of an inverse column map. -/
theorem mul_inverse_factors (b : UInt8) :
    mul 9 b = xtime (xtime (xtime b)) ^^^ b ∧
      mul 11 b = xtime (xtime (xtime b)) ^^^ xtime b ^^^ b ∧
      mul 13 b = xtime (xtime (xtime b)) ^^^ xtime (xtime b) ^^^ b ∧
      mul 14 b = xtime (xtime (xtime b)) ^^^ xtime (xtime b) ^^^ xtime b := by
  revert b
  apply forall_byte
  decide +kernel

end Gf256
