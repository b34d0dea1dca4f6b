import Mathlib.Algebra.Order.Ring.Nat
import Mathlib.Algebra.Ring.Int.Defs

/-!
# Machine integers

Values of C's integer types are natural numbers or integers in the range of the type. An expression
is computed exactly and then converted to the type it is stored in, which is where it wraps.
-/

namespace CInt

/-- Conversion to an unsigned type of `w` bits. -/
def unsigned (w : ℕ) (x : ℤ) : ℕ := (x % 2 ^ w).toNat

/-- Conversion to an 8-bit unsigned type. -/
def u8 (x : ℤ) : ℕ := unsigned 8 x

/-- Conversion to a 16-bit unsigned type. -/
def u16 (x : ℤ) : ℕ := unsigned 16 x

/-- Conversion to a 32-bit unsigned type. -/
def u32 (x : ℤ) : ℕ := unsigned 32 x

/-- Conversion of a 16-bit unsigned value to `short`. -/
def i16 (x : ℕ) : ℤ := if x < 2 ^ 15 then x else x - 2 ^ 16

/-- Conversion of a 32-bit unsigned value to `int`. -/
def i32 (x : ℕ) : ℤ := if x < 2 ^ 31 then x else x - 2 ^ 32

/-- A value in the range of the type is converted to itself. -/
theorem unsigned_of_lt {w : ℕ} {x : ℤ} (h0 : 0 ≤ x) (h : x < 2 ^ w) : unsigned w x = x.toNat := by
  rw [unsigned, Int.emod_eq_of_lt h0 h]

@[simp] theorem unsigned_natCast (w n : ℕ) : unsigned w n = n % 2 ^ w := by
  rw [unsigned]
  have h : ((n : ℤ) % 2 ^ w) = ((n % 2 ^ w : ℕ) : ℤ) := by simp
  rw [h, Int.toNat_natCast]

theorem u8_of_lt {x : ℤ} (h0 : 0 ≤ x) (h : x < 256) : u8 x = x.toNat :=
  unsigned_of_lt h0 h

theorem u16_of_lt {x : ℤ} (h0 : 0 ≤ x) (h : x < 65536) : u16 x = x.toNat :=
  unsigned_of_lt h0 h

theorem u32_of_lt {x : ℤ} (h0 : 0 ≤ x) (h : x < 4294967296) : u32 x = x.toNat :=
  unsigned_of_lt h0 h

theorem i32_of_lt {x : ℕ} (h : x < 2147483648) : i32 x = x := if_pos h

/-- The value of an `int` and the unsigned value of its 32 bits. -/
theorem toInt_int32 (x : Int32) : x.toInt =
    if x.toUInt32.toNat < 2147483648 then (x.toUInt32.toNat : ℤ)
    else x.toUInt32.toNat - 4294967296 := by
  have hcond : x.toInt = if 2 * x.toUInt32.toNat < 2 ^ 32 then (x.toUInt32.toNat : ℤ)
      else x.toUInt32.toNat - (2 ^ 32 : ℕ) := BitVec.toInt_eq_toNat_cond x.toBitVec
  split_ifs at hcond ⊢ <;> omega

end CInt
