import Mathlib.Data.Int.Notation

/-!
# Comparison results

A comparison function answers with an integer: negative, zero or positive. `Orders r x y` says that
`r` is such an answer for the lexicographic order of the lists `x` and `y`, and the lemmas below are
the exits and the step of a loop that compares two lists from their heads on.
-/

namespace Lex

variable {α : Type*} [LT α]

/-- The sign of `r` is the one of comparing `x` and `y` lexicographically. -/
structure Orders (r : ℤ) (x y : List α) : Prop where
  neg_iff : r < 0 ↔ x < y
  zero_iff : r = 0 ↔ x = y
  pos_iff : 0 < r ↔ y < x

variable {r r' : ℤ} {x y : List α} {a b : α}

/-- The answer for the lists the other way round. -/
theorem Orders.symm (h : Orders r x y) : Orders (-r) y x where
  neg_iff := by
    rw [← h.pos_iff]
    omega
  zero_iff := by
    rw [eq_comm (a := y), ← h.zero_iff]
    omega
  pos_iff := by
    rw [← h.neg_iff]
    omega

/-- Two answers for the same lists, one of them for the other order, have opposite signs. -/
theorem Orders.opposite (h : Orders r x y) (h' : Orders r' y x) :
    (r < 0 ↔ 0 < r') ∧ (r = 0 ↔ r' = 0) ∧ (0 < r ↔ r' < 0) :=
  ⟨h.neg_iff.trans h'.pos_iff.symm, h.zero_iff.trans (eq_comm.trans h'.zero_iff.symm),
    h.pos_iff.trans h'.neg_iff.symm⟩

variable [Std.Asymm (· < · : α → α → Prop)]

/-- Equal lists. -/
theorem Orders.refl (x : List α) : Orders 0 x x where
  neg_iff := iff_of_false (by omega) (List.lt_irrefl x)
  zero_iff := iff_of_true rfl rfl
  pos_iff := iff_of_false (by omega) (List.lt_irrefl x)

/-- A negative answer for a list that comes first. -/
theorem Orders.of_lt (hr : r < 0) (h : x < y) : Orders r x y where
  neg_iff := iff_of_true hr h
  zero_iff := iff_of_false (by omega) fun heq => List.lt_irrefl y (heq ▸ h)
  pos_iff := iff_of_false (by omega) (List.lt_asymm h)

/-- A positive answer for a list that comes last. -/
theorem Orders.of_gt (hr : 0 < r) (h : y < x) : Orders r x y := by
  have hneg : Orders (-r) y x := Orders.of_lt (by omega) h
  simpa only [Int.neg_neg] using hneg.symm

/-- A common first element does not count. -/
theorem Orders.cons (a : α) (h : Orders r x y) : Orders r (a :: x) (a :: y) where
  neg_iff := by rw [h.neg_iff, List.cons_lt_cons_self]
  zero_iff := by rw [h.zero_iff, List.cons_inj_right]
  pos_iff := by rw [h.pos_iff, List.cons_lt_cons_self]

/-- First elements that are in order decide. -/
theorem Orders.of_head (hr : r ≠ 0) (hlt : r < 0 → a < b) (hgt : 0 < r → b < a) :
    Orders r (a :: x) (b :: y) := by
  rcases Int.lt_or_gt_of_ne hr with h | h
  · exact Orders.of_lt h (List.cons_lt_cons_iff.mpr (Or.inl (hlt h)))
  · exact Orders.of_gt h (List.cons_lt_cons_iff.mpr (Or.inl (hgt h)))

end Lex
