import Mathlib.Data.Nat.Notation
import Mathlib.Logic.Function.Iterate
import Mathlib.Tactic.SplitIfs

/-!
# Reflected cyclic redundancy checks

A register of `w` bits is fed a message one bit at a time, lowest bit of each symbol first. The
bit-serial form `feedBit` is the definition; table-driven code instead combines a whole symbol into
the register and then shifts `w` times. `feedSymbol_eq` says that these are the same for symbols as
wide as the register, and `feed_eq_foldl_table` carries that over to messages of any length.

Other code keeps the register the other way round and shifts it upwards; `reverse_feedBitsUp` says
that this is the same check with register and polynomial reversed. Code that computes many bits at
once from hand-expanded sums is compared on the single bits only, since all these maps are additive
(`additive_ext`).
-/

namespace NuAgent.Crc

variable {w : ℕ}

/-- One shift of the register: the bit that falls out selects the polynomial. -/
def shift (poly r : BitVec w) : BitVec w :=
  (r >>> 1) ^^^ (if r.getLsbD 0 then poly else 0)

/-- Feed one message bit: it is added to the bit that falls out. -/
def feedBit (poly r : BitVec w) (bit : Bool) : BitVec w :=
  (r >>> 1) ^^^ (if r.getLsbD 0 ^^ bit then poly else 0)

/-- Feed the `n` lowest bits of a symbol, lowest first. -/
def feedBits (poly : BitVec w) (d : BitVec w) (r : BitVec w) : ℕ → BitVec w
  | 0 => r
  | n + 1 => feedBit poly (feedBits poly d r n) (d.getLsbD n)

/-- Feed all bits of a symbol. -/
def feedSymbol (poly r d : BitVec w) : BitVec w := feedBits poly d r w

/-- The bit-serial check of a message, from a register `init`. -/
def feed (poly init : BitVec w) (msg : List (BitVec w)) : BitVec w :=
  msg.foldl (feedSymbol poly) init

/-- Adding the fed bits' symbol in advance leaves only the bits not yet fed in the register. -/
theorem feedBits_eq (poly r d : BitVec w) (n : ℕ) :
    feedBits poly d r n = (shift poly)^[n] (r ^^^ d) ^^^ (d >>> n) := by
  induction n with
  | zero =>
    rw [feedBits, Function.iterate_zero, id_eq, BitVec.ushiftRight_zero, BitVec.xor_assoc,
      BitVec.xor_self, BitVec.xor_zero]
  | succ n ih =>
    have hbit : ((shift poly)^[n] (r ^^^ d) ^^^ d >>> n).getLsbD 0
        = (((shift poly)^[n] (r ^^^ d)).getLsbD 0 ^^ d.getLsbD n) := by
      rw [BitVec.getLsbD_xor, BitVec.getLsbD_ushiftRight, Nat.add_zero]
    -- the bit fed cancels the symbol's bit that was added in advance
    rw [feedBits, ih, Function.iterate_succ_apply', feedBit, hbit, Bool.xor_assoc, Bool.xor_self,
      Bool.xor_false, BitVec.ushiftRight_xor_distrib, ← BitVec.shiftRight_add, BitVec.xor_assoc,
      BitVec.xor_comm (d >>> (n + 1)), ← BitVec.xor_assoc, shift]

/-- Feeding a symbol bit by bit is adding it to the register and shifting `w` times. -/
theorem feedSymbol_eq (poly r d : BitVec w) :
    feedSymbol poly r d = (shift poly)^[w] (r ^^^ d) := by
  rw [feedSymbol, feedBits_eq, BitVec.ushiftRight_eq_zero (Nat.le_refl w), BitVec.xor_zero]

/-- A table whose entries are `w` shifts of their index computes the bit-serial check. -/
theorem feed_eq_foldl_table {poly : BitVec w} {table : BitVec w → BitVec w}
    (htable : ∀ i, table i = (shift poly)^[w] i) (init : BitVec w) (msg : List (BitVec w)) :
    feed poly init msg = msg.foldl (fun r d => table (r ^^^ d)) init := by
  induction msg generalizing init with
  | nil => rfl
  | cons d msg ih =>
    have hstep : feedSymbol poly init d = table (init ^^^ d) := by
      rw [feedSymbol_eq, htable]
    show feed poly (feedSymbol poly init d) msg = msg.foldl _ (table (init ^^^ d))
    rw [hstep]
    exact ih _

/-! ## Registers that are not reflected -/

/-- Feed one message bit to a register that is shifted upwards. -/
def feedBitUp (poly r : BitVec w) (bit : Bool) : BitVec w :=
  (r <<< 1) ^^^ (if r.msb ^^ bit then poly else 0)

/-- Feed the `n` lowest bits of a symbol, lowest first. -/
def feedBitsUp {v : ℕ} (poly : BitVec w) (d : BitVec v) (r : BitVec w) : ℕ → BitVec w
  | 0 => r
  | n + 1 => feedBitUp poly (feedBitsUp poly d r n) (d.getLsbD n)

theorem reverse_xor (x y : BitVec w) : (x ^^^ y).reverse = x.reverse ^^^ y.reverse := by
  apply BitVec.eq_of_getLsbD_eq
  intro i hi
  rw [BitVec.getLsbD_xor, BitVec.getLsbD_reverse, BitVec.getLsbD_reverse, BitVec.getLsbD_reverse,
    BitVec.getMsbD_xor]

/-- Reversed, a shift upwards is a shift downwards. -/
theorem reverse_shiftLeft_one (x : BitVec w) : (x <<< 1).reverse = x.reverse >>> 1 := by
  apply BitVec.eq_of_getLsbD_eq
  intro i hi
  rw [BitVec.getLsbD_reverse, BitVec.getMsbD_shiftLeft, BitVec.getLsbD_ushiftRight,
    BitVec.getLsbD_reverse, Nat.add_comm i 1]

theorem reverse_feedBitUp (poly r : BitVec w) (bit : Bool) :
    (feedBitUp poly r bit).reverse = feedBit poly.reverse r.reverse bit := by
  have hbit : r.msb = r.reverse.getLsbD 0 := by
    rw [BitVec.getLsbD_reverse, BitVec.msb]
  rw [feedBitUp, feedBit, reverse_xor, reverse_shiftLeft_one, hbit]
  congr 1
  split_ifs
  · rfl
  · exact BitVec.reverse_eq_zero_iff.mpr rfl

/-- Reversed, feeding a register upwards is feeding it in the reflected way. -/
theorem reverse_feedBitsUp {v : ℕ} (poly : BitVec w) (d : BitVec v) (r : BitVec w) {n : ℕ}
    (hn : n ≤ w) :
    (feedBitsUp poly d r n).reverse = feedBits poly.reverse (d.setWidth w) r.reverse n := by
  induction n with
  | zero => rfl
  | succ n ih =>
    have hbit : (d.setWidth w).getLsbD n = d.getLsbD n := by
      rw [BitVec.getLsbD_setWidth, decide_eq_true (show n < w from hn), Bool.true_and]
    rw [feedBitsUp, reverse_feedBitUp, ih (by omega), feedBits, hbit]

/-! ## Additive maps -/

/-- A map of two bit vectors that turns sums into sums. -/
def Additive {u v w : ℕ} (f : BitVec u → BitVec v → BitVec w) : Prop :=
  ∀ r r' d d', f (r ^^^ r') (d ^^^ d') = f r d ^^^ f r' d'

section
variable {u v w : ℕ}

/-- Two maps that turn sums into sums are equal when they are on single bits. -/
theorem eq_of_single {f g : BitVec v → BitVec w} (hf : ∀ x y, f (x ^^^ y) = f x ^^^ f y)
    (hg : ∀ x y, g (x ^^^ y) = g x ^^^ g y)
    (h : ∀ i < v, f (BitVec.twoPow v i) = g (BitVec.twoPow v i)) : f = g := by
  have hzero : ∀ k : BitVec v → BitVec w, (∀ x y, k (x ^^^ y) = k x ^^^ k y) → k 0 = 0 := by
    intro k hk
    have hsum := hk 0 0
    rwa [BitVec.xor_self, BitVec.xor_self] at hsum
  -- by induction on the number of bits that are in use
  have hlow : ∀ n ≤ v, ∀ x : BitVec v, (∀ i, n ≤ i → x.getLsbD i = false) → f x = g x := by
    intro n
    induction n with
    | zero =>
      intro _ x hx
      have hx0 : x = 0 := BitVec.eq_of_getLsbD_eq fun i _ => by
        rw [hx i (Nat.zero_le i)]
        exact BitVec.getLsbD_zero.symm
      rw [hx0, hzero f hf, hzero g hg]
    | succ n ih =>
      intro hn x hx
      by_cases hbit : x.getLsbD n
      · have hclear : ∀ i, n ≤ i → (x ^^^ BitVec.twoPow v n).getLsbD i = false := by
          intro i hi
          rw [BitVec.getLsbD_xor, BitVec.getLsbD_twoPow]
          rcases Nat.eq_or_lt_of_le hi with rfl | hlt
          · simp [hbit, show n < v from hn]
          · simp [hx i hlt, show ¬ n = i by omega]
        have hsplit : x = (x ^^^ BitVec.twoPow v n) ^^^ BitVec.twoPow v n := by
          rw [BitVec.xor_assoc, BitVec.xor_self, BitVec.xor_zero]
        rw [hsplit, hf, hg, ih (by omega) _ hclear, h n hn]
      · refine ih (by omega) x fun i hi => ?_
        rcases Nat.eq_or_lt_of_le hi with rfl | hlt
        · simpa using hbit
        · exact hx i hlt
  funext x
  exact hlow v (Nat.le_refl v) x fun i hi => BitVec.getLsbD_of_ge x i hi

/-- Additive maps are equal when they are on single bits of either argument. -/
theorem additive_ext {f g : BitVec u → BitVec v → BitVec w} (hf : Additive f) (hg : Additive g)
    (hr : ∀ i < u, f (BitVec.twoPow u i) 0 = g (BitVec.twoPow u i) 0)
    (hd : ∀ i < v, f 0 (BitVec.twoPow v i) = g 0 (BitVec.twoPow v i)) (r : BitVec u)
    (d : BitVec v) : f r d = g r d := by
  have hfirst : (fun r => f r 0) = fun r => g r 0 := by
    refine eq_of_single (fun x y => ?_) (fun x y => ?_) hr
    · simpa using hf x y 0 0
    · simpa using hg x y 0 0
  have hsecond : f 0 = g 0 := by
    refine eq_of_single (fun x y => ?_) (fun x y => ?_) hd
    · simpa using hf 0 0 x y
    · simpa using hg 0 0 x y
  have hr0 : r ^^^ 0 = r := BitVec.xor_zero
  have hd0 : 0 ^^^ d = d := BitVec.zero_xor
  calc f r d = f (r ^^^ 0) (0 ^^^ d) := by rw [hr0, hd0]
    _ = f r 0 ^^^ f 0 d := hf r 0 0 d
    _ = g r 0 ^^^ g 0 d := by rw [congrFun hfirst r, hsecond]
    _ = g (r ^^^ 0) (0 ^^^ d) := (hg r 0 0 d).symm
    _ = g r d := by rw [hr0, hd0]

end

section
variable {v : ℕ}

theorem feedBitUp_xor (poly r r' : BitVec w) (bit bit' : Bool) :
    feedBitUp poly (r ^^^ r') (bit ^^ bit') = feedBitUp poly r bit ^^^ feedBitUp poly r' bit' := by
  have hselect : ∀ a b : Bool,
      (if a ^^ b then poly else 0) = (if a then poly else 0) ^^^ (if b then poly else 0) := by
    intro a b
    cases a <;> cases b <;> simp
  simp only [feedBitUp, BitVec.shiftLeft_xor_distrib, BitVec.msb_xor, hselect]
  ac_rfl

/-- Feeding bits upwards is additive. -/
theorem additive_feedBitsUp (poly : BitVec w) (n : ℕ) :
    Additive fun r (d : BitVec v) => feedBitsUp poly d r n := by
  intro r r' d d'
  induction n with
  | zero => rfl
  | succ n ih =>
    simp only [feedBitsUp] at ih ⊢
    rw [ih, BitVec.getLsbD_xor, feedBitUp_xor]

end

end NuAgent.Crc
