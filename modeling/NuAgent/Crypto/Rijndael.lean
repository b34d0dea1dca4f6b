import Mathlib.Data.Fin.VecNotation
import NuAgent.Lib.Gf256

/-!
# The cipher, abstractly

What a block cipher of this family is for: a block is a four by four matrix of bytes, and a round
substitutes every byte, rotates row `r` by `r` places, multiplies the columns by a fixed polynomial and
adds a key. Every step has an inverse, so deciphering undoes enciphering for any round keys
(`decipher_encipher`).
-/

namespace NuAgent.Crypto

open Gf256

/-- The rows and columns of a block. -/
abbrev Block4 := Fin 4 → Fin 4 → UInt8

namespace Block4

def sub (box : UInt8 → UInt8) (m : Block4) : Block4 := fun r c => box (m r c)

/-- Row `r` rotated by `r` places. -/
def shift (m : Block4) : Block4 := fun r c => m r (c + r)

def unshift (m : Block4) : Block4 := fun r c => m r (c - r)

/-- The columns times the polynomial with coefficients `a`, modulo `x ^ 4 + 1`. -/
def mix (a : Fin 4 → UInt8) (m : Block4) : Block4 := fun r c =>
  mul (a 0) (m r c) ^^^ mul (a 1) (m (r + 1) c) ^^^ mul (a 2) (m (r + 2) c) ^^^
    mul (a 3) (m (r + 3) c)

def add (k m : Block4) : Block4 := fun r c => m r c ^^^ k r c

end Block4

open Block4

/-- The polynomial of the column map, and its inverse. -/
def mixPoly : Fin 4 → UInt8 := ![2, 3, 1, 1]

def unmixPoly : Fin 4 → UInt8 := ![14, 11, 13, 9]

/-- A substitution and its inverse. -/
structure SubBox where
  box : UInt8 → UInt8
  unbox : UInt8 → UInt8
  unbox_box : ∀ b, unbox (box b) = b

variable (S : SubBox) (key : ℕ → Block4)

/-- `n` rounds, the last without the column map; the keys are `key 0` to `key (n + 1)`. -/
def rounds : ℕ → Block4 → Block4
  | 0, m => add (key 0) m
  | n + 1, m => add (key (n + 1)) (mix mixPoly (shift (sub S.box (rounds n m))))

def encipher (n : ℕ) (m : Block4) : Block4 :=
  add (key (n + 1)) (shift (sub S.box (rounds S key n m)))

/-- The rounds undone from round `n` on. -/
def unrounds : ℕ → Block4 → Block4
  | 0, m => add (key 0) m
  | n + 1, m => unrounds n (sub S.unbox (unshift (mix unmixPoly (add (key (n + 1)) m))))

def decipher (n : ℕ) (m : Block4) : Block4 :=
  unrounds S key n (sub S.unbox (unshift (add (key (n + 1)) m)))

/-- Four bytes, a column of a block. -/
abbrev Word := Fin 4 → UInt8

/-- What the key schedule adds to the word four places back. -/
def scheduleTemp (prev : Word) (i : ℕ) : Word :=
  if i % 4 = 0 then fun r => S.box (prev (r + 1)) ^^^ if r = 0 then xtime^[i / 4 - 1] 1 else 0
  else prev

/-- The words `w` are the key schedule of a key of four words, up to word `n`. -/
structure IsSchedule (first : ℕ → Word) (n : ℕ) (w : ℕ → Word) : Prop where
  first : ∀ i < 4, w i = first i
  next : ∀ i, 4 ≤ i → i < n → w i = fun r => w (i - 4) r ^^^ scheduleTemp S (w (i - 1)) i r

/-! ## Inverses -/

theorem add_add (k m : Block4) : add k (add k m) = m := by
  funext r c
  show m r c ^^^ k r c ^^^ k r c = m r c
  rw [UInt8.xor_assoc, UInt8.xor_self, UInt8.xor_zero]

theorem unshift_shift (m : Block4) : unshift (shift m) = m := by
  funext r c
  have hback : ∀ c r : Fin 4, c - r + r = c := by decide
  exact congrArg (m r) (hback c r)

theorem unsub_sub (m : Block4) : sub S.unbox (sub S.box m) = m := by
  funext r c
  exact S.unbox_box (m r c)

/-- Bytes that occur twice drop out. -/
theorem xor_twice (a b : UInt8) : a ^^^ (a ^^^ b) = b := by
  rw [← UInt8.xor_assoc, UInt8.xor_self, UInt8.zero_xor]

theorem xor_common (s a b : UInt8) : (s ^^^ a) ^^^ (s ^^^ b) = a ^^^ b := by
  calc (s ^^^ a) ^^^ (s ^^^ b) = s ^^^ (s ^^^ (a ^^^ b)) := by ac_rfl
    _ = a ^^^ b := xor_twice s (a ^^^ b)

/-- The sum of a column. -/
def colSum (m : Block4) (c : Fin 4) : UInt8 := m 0 c ^^^ m 1 c ^^^ m 2 c ^^^ m 3 c

theorem colSum_eq (m : Block4) (r c : Fin 4) :
    colSum m c = m r c ^^^ m (r + 1) c ^^^ m (r + 2) c ^^^ m (r + 3) c := by
  unfold colSum
  match r with
  | 0 => rfl
  | 1 =>
    show _ = m 1 c ^^^ m 2 c ^^^ m 3 c ^^^ m 0 c
    ac_rfl
  | 2 =>
    show _ = m 2 c ^^^ m 3 c ^^^ m 0 c ^^^ m 1 c
    ac_rfl
  | 3 =>
    show _ = m 3 c ^^^ m 0 c ^^^ m 1 c ^^^ m 2 c
    ac_rfl

/-- The column map with one multiplication. -/
theorem mix_mixPoly (m : Block4) (r c : Fin 4) :
    mix mixPoly m r c = colSum m c ^^^ m r c ^^^ xtime (m r c ^^^ m (r + 1) c) := by
  show mul 2 _ ^^^ mul 3 _ ^^^ mul 1 _ ^^^ mul 1 _ = _
  rw [mul_two, mul_three, mul_one_left, mul_one_left, colSum_eq m r c, xtime_xor]
  generalize m r c = p0
  generalize m (r + 1) c = p1
  generalize m (r + 2) c = p2
  generalize m (r + 3) c = p3
  calc xtime p0 ^^^ (xtime p1 ^^^ p1) ^^^ p2 ^^^ p3
      = p1 ^^^ p2 ^^^ p3 ^^^ (xtime p0 ^^^ xtime p1) := by ac_rfl
    _ = p0 ^^^ (p0 ^^^ (p1 ^^^ p2 ^^^ p3 ^^^ (xtime p0 ^^^ xtime p1))) := (xor_twice _ _).symm
    _ = p0 ^^^ p1 ^^^ p2 ^^^ p3 ^^^ p0 ^^^ (xtime p0 ^^^ xtime p1) := by ac_rfl

/-- The inverse column map from the column map and two multiplications by `x ^ 2`. -/
theorem mix_unmixPoly (m : Block4) (r c : Fin 4) :
    mix unmixPoly m r c = mix mixPoly m r c ^^^
      (xtime (xtime (xtime (colSum m c))) ^^^ xtime (xtime (m r c ^^^ m (r + 2) c))) := by
  have hleft : mix unmixPoly m r c = mul 14 (m r c) ^^^ mul 11 (m (r + 1) c) ^^^
      mul 13 (m (r + 2) c) ^^^ mul 9 (m (r + 3) c) := rfl
  have hright : mix mixPoly m r c = mul 2 (m r c) ^^^ mul 3 (m (r + 1) c) ^^^
      mul 1 (m (r + 2) c) ^^^ mul 1 (m (r + 3) c) := rfl
  rw [hleft, hright, (mul_inverse_factors (m r c)).2.2.2, (mul_inverse_factors (m (r + 1) c)).2.1,
    (mul_inverse_factors (m (r + 2) c)).2.2.1, (mul_inverse_factors (m (r + 3) c)).1, mul_two,
    mul_three, mul_one_left, mul_one_left, colSum_eq m r c]
  simp only [xtime_xor]
  ac_rfl

/-- Two bytes of a column after the column map. -/
theorem mix_pair (m : Block4) (c r r' : Fin 4) :
    mix mixPoly m r c ^^^ mix mixPoly m r' c =
      m r c ^^^ m r' c ^^^ xtime (m r c ^^^ m (r + 1) c ^^^ (m r' c ^^^ m (r' + 1) c)) := by
  rw [mix_mixPoly, mix_mixPoly, xtime_xor (m r c ^^^ m (r + 1) c)]
  generalize xtime (m r c ^^^ m (r + 1) c) = u
  generalize xtime (m r' c ^^^ m (r' + 1) c) = v
  calc colSum m c ^^^ m r c ^^^ u ^^^ (colSum m c ^^^ m r' c ^^^ v)
      = (colSum m c ^^^ (m r c ^^^ u)) ^^^ (colSum m c ^^^ (m r' c ^^^ v)) := by ac_rfl
    _ = m r c ^^^ u ^^^ (m r' c ^^^ v) := xor_common _ _ _
    _ = m r c ^^^ m r' c ^^^ (u ^^^ v) := by ac_rfl

/-- The column map keeps the sum of a column. -/
theorem colSum_mix (m : Block4) (c : Fin 4) : colSum (mix mixPoly m) c = colSum m c := by
  have h01 := mix_pair m c 0 1
  have h23 := mix_pair m c 2 3
  have hzero : xtime (m 0 c ^^^ m 1 c ^^^ (m 1 c ^^^ m 2 c)) ^^^
      xtime (m 2 c ^^^ m 3 c ^^^ (m 3 c ^^^ m 0 c)) = 0 := by
    rw [← xtime_xor]
    have hsum : m 0 c ^^^ m 1 c ^^^ (m 1 c ^^^ m 2 c) ^^^
        (m 2 c ^^^ m 3 c ^^^ (m 3 c ^^^ m 0 c)) = 0 := by
      rw [UInt8.xor_comm (m 0 c) (m 1 c), xor_common, UInt8.xor_comm (m 2 c) (m 3 c), xor_common,
        UInt8.xor_comm (m 2 c) (m 0 c), UInt8.xor_self]
    rw [hsum]
    rfl
  calc colSum (mix mixPoly m) c
      = (mix mixPoly m 0 c ^^^ mix mixPoly m 1 c) ^^^
          (mix mixPoly m 2 c ^^^ mix mixPoly m 3 c) := by
        unfold colSum
        ac_rfl
    _ = (m 0 c ^^^ m 1 c ^^^ xtime (m 0 c ^^^ m 1 c ^^^ (m 1 c ^^^ m 2 c))) ^^^
          (m 2 c ^^^ m 3 c ^^^ xtime (m 2 c ^^^ m 3 c ^^^ (m 3 c ^^^ m 0 c))) := by
        rw [h01, h23]
        rfl
    _ = colSum m c ^^^ (xtime (m 0 c ^^^ m 1 c ^^^ (m 1 c ^^^ m 2 c)) ^^^
          xtime (m 2 c ^^^ m 3 c ^^^ (m 3 c ^^^ m 0 c))) := by
        unfold colSum
        ac_rfl
    _ = colSum m c := by rw [hzero, UInt8.xor_zero]

/-- The column maps are inverse to each other. -/
theorem unmix_mix (m : Block4) : mix unmixPoly (mix mixPoly m) = m := by
  funext r c
  have hnext : ∀ r : Fin 4, r + 1 + 1 = r + 2 ∧ r + 2 + 1 = r + 3 := by decide
  -- the sum of neighbours, and the sum of bytes two rows apart
  have hone : mix mixPoly m r c ^^^ mix mixPoly m (r + 1) c =
      m r c ^^^ m (r + 1) c ^^^ xtime (m r c ^^^ m (r + 2) c) := by
    rw [mix_pair, (hnext r).1, UInt8.xor_comm (m r c) (m (r + 1) c), xor_common]
  have htwo : mix mixPoly m r c ^^^ mix mixPoly m (r + 2) c =
      m r c ^^^ m (r + 2) c ^^^ xtime (colSum m c) := by
    rw [mix_pair, (hnext r).2, colSum_eq m r c]
    congr 2
    ac_rfl
  rw [mix_unmixPoly, mix_mixPoly, colSum_mix, hone, htwo, mix_mixPoly]
  rw [xtime_xor (m r c ^^^ m (r + 1) c), xtime_xor (m r c ^^^ m (r + 2) c),
    xtime_xor (xtime (m r c ^^^ m (r + 2) c))]
  generalize xtime (m r c ^^^ m (r + 1) c) = u
  generalize xtime (xtime (m r c ^^^ m (r + 2) c)) = v
  generalize xtime (xtime (xtime (colSum m c))) = w
  generalize colSum m c = s
  calc s ^^^ (s ^^^ m r c ^^^ u) ^^^ (u ^^^ v) ^^^ (w ^^^ (v ^^^ w))
      = s ^^^ (s ^^^ (u ^^^ (u ^^^ (v ^^^ (v ^^^ (w ^^^ (w ^^^ m r c))))))) := by ac_rfl
    _ = m r c := by rw [xor_twice, xor_twice, xor_twice, xor_twice]

theorem decipher_encipher (n : ℕ) (m : Block4) : decipher S key n (encipher S key n m) = m := by
  have hrounds : ∀ n, unrounds S key n (rounds S key n m) = m := by
    intro n
    induction n with
    | zero => exact add_add (key 0) m
    | succ n ih => rw [rounds, unrounds, add_add, unmix_mix, unshift_shift, unsub_sub, ih]
  rw [decipher, encipher, add_add, unshift_shift, unsub_sub, hrounds]

end NuAgent.Crypto
