import Mathlib.Logic.Function.Iterate
import Mathlib.Order.Basic
import NuAgent.Lib.CInt

/-!
# A free-running tick counter

The counter is a 32-bit word that counts ticks and wraps. Times are converted between ticks and
another unit by a product and a quotient in machine words; `scaled_eq_iff` says when the wrapping of
the product does not show in the quotient.
-/

namespace Ticks

open CInt

/-- The ticks from `a` to `b`, as far as the counter can tell. -/
def elapsed (a b : UInt32) : ℕ := u32 (b.toNat - a.toNat)

/-- The counter after `n` ticks. -/
def after (c : UInt32) (n : ℕ) : UInt32 := (· + 1)^[n] c

theorem elapsed_of_le {a b : UInt32} (h : a ≤ b) : elapsed a b = b.toNat - a.toNat := by
  rw [UInt32.le_iff_toNat_le] at h
  have hb := b.toNat_lt
  rw [elapsed, u32_of_lt (by omega) (by omega)]
  omega

theorem elapsed_of_lt {a b : UInt32} (h : b < a) :
    elapsed a b = 2 ^ 32 - a.toNat + b.toNat := by
  rw [UInt32.lt_iff_toNat_lt] at h
  have ha := a.toNat_lt
  unfold elapsed u32 unsigned
  omega

/-- The difference of two words is the elapsed time. -/
theorem toNat_sub (a b : UInt32) : (b - a).toNat = elapsed a b := by
  rw [UInt32.toNat_sub]
  have ha := a.toNat_lt
  unfold elapsed u32 unsigned
  omega

theorem toNat_after (c : UInt32) (n : ℕ) : (after c n).toNat = (c.toNat + n) % 2 ^ 32 := by
  induction n with
  | zero => exact (Nat.mod_eq_of_lt c.toNat_lt).symm
  | succ n ih =>
    rw [after, Function.iterate_succ_apply', ← after, UInt32.toNat_add, ih, UInt32.toNat_one]
    omega

/-- While the counter does not go all the way round, it tells the ticks that have passed. -/
theorem elapsed_after {n : ℕ} (c : UInt32) (h : n < 2 ^ 32) : elapsed c (after c n) = n := by
  have hc := c.toNat_lt
  unfold elapsed u32 unsigned
  rw [toNat_after]
  omega

/-- The wrapping of a number shows in its quotient by any divisor up to the modulus. -/
theorem scaled_eq_iff {n m d : ℕ} (hd : 0 < d) (h : d ≤ m) : n % m / d = n / d ↔ n < m := by
  constructor
  · intro he
    by_contra hn
    have hle : n % m + d ≤ n := by
      have := Nat.mod_le (n - m) m
      rw [Nat.mod_eq_sub_mod (by omega)]
      omega
    have hlt : n % m / d + 1 ≤ n / d := by
      rw [← Nat.add_div_right _ hd]
      exact Nat.div_le_div_right hle
    omega
  · intro hn
    rw [Nat.mod_eq_of_lt hn]

end Ticks
