import Mathlib.Data.Nat.Digits.Lemmas

/-!
# Numerals

The digits of a number as a person writes them: the most significant first, a single zero for zero
and no leading zero otherwise. They are the digits of `Nat.digits` in reverse, except for zero. The
last part has the characters of the digits, with letters from ten on.
-/

namespace Numeral

/-- The digits of `n` in base `b`, the most significant first. -/
def numeral (b n : ℕ) : List ℕ := if n = 0 then [0] else (Nat.digits b n).reverse

/-- The number that digits stand for. -/
def value (b : ℕ) (ds : List ℕ) : ℕ := ds.foldl (fun acc d => acc * b + d) 0

/-- Digits of base `b` that are not empty and have no leading zero, unless they are a single zero. -/
structure Canonical (b : ℕ) (ds : List ℕ) : Prop where
  ne_nil : ds ≠ []
  lt : ∀ d ∈ ds, d < b
  head : ds.head? = some 0 → ds = [0]

variable {b n : ℕ}

theorem numeral_zero (b : ℕ) : numeral b 0 = [0] := if_pos rfl

theorem numeral_of_ne_zero (h : n ≠ 0) : numeral b n = (Nat.digits b n).reverse := if_neg h

/-- A number below the base is its own digit. -/
theorem numeral_of_lt (h : n < b) : numeral b n = [n] := by
  rcases Nat.eq_zero_or_pos n with rfl | hpos
  · exact numeral_zero b
  · have hne : n ≠ 0 := Nat.ne_of_gt hpos
    rw [numeral_of_ne_zero hne, Nat.digits_of_lt b n hne h, List.reverse_singleton]

/-- The last digit of a larger number follows the digits of the quotient. -/
theorem numeral_of_le (hb : 1 < b) (h : b ≤ n) : numeral b n = numeral b (n / b) ++ [n % b] := by
  have hdiv : n / b ≠ 0 := Nat.ne_of_gt (Nat.div_pos h (by omega))
  rw [numeral_of_ne_zero (by omega), numeral_of_ne_zero hdiv,
    Nat.digits_def' hb (by omega), List.reverse_cons]

/-- The value of digits is the one that `Nat.ofDigits` gives to the reversed list. -/
theorem value_eq_ofDigits (b : ℕ) (ds : List ℕ) : value b ds = Nat.ofDigits b ds.reverse := by
  rw [Nat.ofDigits_eq_foldr, List.foldr_reverse, value]
  congr 1
  funext acc d
  push_cast
  ring

@[simp] theorem value_numeral (b n : ℕ) : value b (numeral b n) = n := by
  by_cases h : n = 0
  · rw [h, numeral_zero]
    simp [value]
  · rw [value_eq_ofDigits, numeral_of_ne_zero h, List.reverse_reverse, Nat.ofDigits_digits]

theorem numeral_ne_nil (b n : ℕ) : numeral b n ≠ [] := by
  by_cases h : n = 0
  · rw [h, numeral_zero]
    exact List.cons_ne_nil _ _
  · rw [numeral_of_ne_zero h, Ne, List.reverse_eq_nil_iff]
    exact Nat.digits_ne_nil_iff_ne_zero.mpr h

theorem numeral_lt (hb : 1 < b) : ∀ d ∈ numeral b n, d < b := by
  intro d hd
  by_cases h : n = 0
  · rw [h, numeral_zero, List.mem_singleton] at hd
    omega
  · rw [numeral_of_ne_zero h, List.mem_reverse] at hd
    exact Nat.digits_lt_base hb hd

/-- The first digit of a number other than zero. -/
theorem head?_numeral (h : n ≠ 0) : ∃ d, d ≠ 0 ∧ (numeral b n).head? = some d := by
  have hne : Nat.digits b n ≠ [] := Nat.digits_ne_nil_iff_ne_zero.mpr h
  refine ⟨(Nat.digits b n).getLast hne, Nat.getLast_digit_ne_zero b h, ?_⟩
  rw [numeral_of_ne_zero h, List.head?_reverse, List.getLast?_eq_some_getLast hne]

theorem canonical_numeral (hb : 1 < b) (n : ℕ) : Canonical b (numeral b n) where
  ne_nil := numeral_ne_nil b n
  lt := numeral_lt hb
  head hhead := by
    by_cases h : n = 0
    · rw [h, numeral_zero]
    · obtain ⟨d, hd, heq⟩ := head?_numeral (b := b) h
      rw [heq, Option.some.injEq] at hhead
      exact absurd hhead hd

/-- A number below `b ^ k` has at most `k` digits. -/
theorem length_numeral_le {k : ℕ} (hb : 1 < b) (hk : 0 < k) (h : n < b ^ k) :
    (numeral b n).length ≤ k := by
  by_cases hn : n = 0
  · rw [hn, numeral_zero]
    exact hk
  · rw [numeral_of_ne_zero hn, List.length_reverse, Nat.digits_length_le_iff hb]
    exact h

theorem length_numeral_pos (b n : ℕ) : 0 < (numeral b n).length :=
  List.length_pos_iff.mpr (numeral_ne_nil b n)

theorem length_numeral_mono {m : ℕ} (h : m ≤ n) : (numeral b m).length ≤ (numeral b n).length := by
  by_cases hm : m = 0
  · rw [hm, numeral_zero]
    exact length_numeral_pos b n
  · rw [numeral_of_ne_zero hm, numeral_of_ne_zero (by omega), List.length_reverse,
      List.length_reverse]
    exact Nat.le_length_digits_le b m n h

/-! ## Characters -/

/-- The character of a digit, with letters from `letter` on for the digits from ten on. -/
def digit (letter : UInt8) (d : ℕ) : UInt8 :=
  if d < 10 then '0'.toUInt8 + UInt8.ofNat d else letter + UInt8.ofNat (d - 10)

/-- The numeral of a number in characters. -/
def text (letter : UInt8) (b n : ℕ) : List UInt8 := (numeral b n).map (digit letter)

/-- The minus sign of a negative number. -/
def sign (z : ℤ) : List UInt8 := if z < 0 then ['-'.toUInt8] else []

theorem length_text (letter : UInt8) (b n : ℕ) :
    (text letter b n).length = (numeral b n).length := List.length_map _

end Numeral
