import Mathlib.Data.Nat.Notation
import Mathlib.Data.Set.Insert
import Mathlib.Order.Bounds.Basic

/-!
# Two-level bitmaps

A set of numbers below `w * w` in `w` words of `w` bits, with one more word that says which of them
are not zero. A number `p` is bit `p % w` of word `p / w`. Insertion and removal touch one word and
the summary; the least element takes two searches for the lowest bit of a word. `Table.toSet` is the
set that a table stands for, `Table.Wf` says that the summary is right.
-/

namespace Bitmap

variable {w : ℕ}

/-- The words of a two-level bitmap and their summary. -/
structure Table (w : ℕ) where
  grp : BitVec w
  tbl : ℕ → BitVec w

namespace Table

def empty : Table w := ⟨0, fun _ => 0⟩

/-- Sets bit `x` of word `y`. -/
def set (t : Table w) (y x : ℕ) : Table w where
  grp := t.grp ||| BitVec.twoPow w y
  tbl j := if j = y then t.tbl y ||| BitVec.twoPow w x else t.tbl j

/-- Clears bit `x` of word `y`, and the bit of the word when it becomes zero. -/
def clear (t : Table w) (y x : ℕ) : Table w :=
  let word := t.tbl y &&& ~~~ BitVec.twoPow w x
  { grp := if word = 0 then t.grp &&& ~~~ BitVec.twoPow w y else t.grp
    tbl := fun j => if j = y then word else t.tbl j }

/-- The numbers whose bits are set. -/
def toSet (t : Table w) : Set ℕ := {p | p / w < w ∧ (t.tbl (p / w)).getLsbD (p % w) = true}

theorem mem_toSet {t : Table w} {p : ℕ} :
    p ∈ t.toSet ↔ p / w < w ∧ (t.tbl (p / w)).getLsbD (p % w) = true := Iff.rfl

/-- The summary has the bits of the words that are not zero. -/
def Wf (t : Table w) : Prop := ∀ y < w, (t.grp.getLsbD y = true ↔ t.tbl y ≠ 0)

theorem wf_empty : (empty : Table w).Wf := fun y _ => by simp [empty]

@[simp] theorem toSet_empty : (empty : Table w).toSet = ∅ := by
  ext p
  simp [toSet, empty]

end Table

/-! ## Words -/

/-- A word is zero exactly when it has no bits. -/
theorem ne_zero_iff {v : BitVec w} : v ≠ 0 ↔ ∃ i < w, v.getLsbD i = true := by
  constructor
  · intro hne
    by_contra hnone
    apply hne
    apply BitVec.eq_of_getLsbD_eq
    intro i hi
    have hzero : v.getLsbD i = false := by
      by_contra hbit
      exact hnone ⟨i, hi, by simpa using hbit⟩
    simpa using hzero
  · rintro ⟨i, -, hbit⟩ rfl
    simp at hbit

theorem getLsbD_set {v : BitVec w} {x i : ℕ} (hx : x < w) :
    (v ||| BitVec.twoPow w x).getLsbD i = true ↔ v.getLsbD i = true ∨ i = x := by
  rw [BitVec.getLsbD_or, BitVec.getLsbD_twoPow, Bool.or_eq_true, Bool.and_eq_true, decide_eq_true_eq,
    decide_eq_true_eq]
  exact or_congr_right ⟨fun h => h.2.symm, fun h => ⟨h ▸ hx, h.symm⟩⟩

theorem getLsbD_clear {v : BitVec w} {x i : ℕ} :
    (v &&& ~~~ BitVec.twoPow w x).getLsbD i = true ↔ v.getLsbD i = true ∧ i ≠ x := by
  rw [BitVec.getLsbD_and, BitVec.getLsbD_not, BitVec.getLsbD_twoPow]
  constructor
  · intro h
    have hbit := (Bool.and_eq_true_iff.mp h).1
    have hi := BitVec.lt_of_getLsbD hbit
    exact ⟨hbit, by rintro rfl; simp [hi] at h⟩
  · rintro ⟨hbit, hne⟩
    have hi := BitVec.lt_of_getLsbD hbit
    have hne' : ¬ x = i := fun h => hne h.symm
    simp [hbit, hi, hne']

/-- `find` gives the lowest bit of every word that has one. -/
def FindsLowest (find : BitVec w → ℕ) : Prop :=
  ∀ v : BitVec w, v ≠ 0 → v.getLsbD (find v) = true ∧ ∀ i < find v, v.getLsbD i = false

namespace Table

/-! ## Insertion and removal -/

/-- A table with a member has a bit in its summary. -/
theorem Wf.grp_ne_zero {t : Table w} (h : t.Wf) {p : ℕ} (hp : p ∈ t.toSet) : t.grp ≠ 0 := by
  obtain ⟨hy, hbit⟩ := hp
  exact ne_zero_iff.2 ⟨p / w, hy, (h _ hy).2 (ne_zero_iff.2 ⟨_, BitVec.lt_of_getLsbD hbit, hbit⟩)⟩

theorem Wf.set {t : Table w} (h : t.Wf) {y x : ℕ} (hy : y < w) (hx : x < w) :
    (t.set y x).Wf := by
  intro j hj
  rw [Table.set, getLsbD_set hy]
  dsimp only
  by_cases hjy : j = y
  · subst hjy
    rw [if_pos rfl]
    exact ⟨fun _ => ne_zero_iff.2 ⟨x, hx, (getLsbD_set hx).2 (Or.inr rfl)⟩, fun _ => Or.inr rfl⟩
  · rw [if_neg hjy, ← h j hj]
    exact ⟨fun h' => h'.resolve_right hjy, Or.inl⟩

theorem Wf.clear {t : Table w} (h : t.Wf) (y x : ℕ) : (t.clear y x).Wf := by
  intro j hj
  unfold Table.clear
  dsimp only
  by_cases hjy : j = y
  · subst hjy
    rw [if_pos rfl]
    split
    · rename_i hzero
      rw [getLsbD_clear]
      exact ⟨fun h' => absurd rfl h'.2, fun h' => absurd hzero h'⟩
    · rename_i hne
      refine ⟨fun _ => hne, fun _ => (h j hj).2 fun hz => hne ?_⟩
      rw [hz]
      exact BitVec.zero_and
  · rw [if_neg hjy]
    split
    · rw [getLsbD_clear, h j hj]
      exact ⟨And.left, fun h' => ⟨h', hjy⟩⟩
    · exact h j hj

/-- A number is known by its word and its bit. -/
theorem eq_iff_digits {p q : ℕ} : p = q ↔ p / w = q / w ∧ p % w = q % w := by
  constructor
  · rintro rfl
    exact ⟨rfl, rfl⟩
  · rintro ⟨hdiv, hmod⟩
    rw [← Nat.div_add_mod p w, hdiv, hmod, Nat.div_add_mod]

theorem toSet_set (t : Table w) {p : ℕ} (hw : 0 < w) (hp : p / w < w) :
    (t.set (p / w) (p % w)).toSet = insert p t.toSet := by
  ext q
  rw [Set.mem_insert_iff, @eq_iff_digits w q p]
  simp only [mem_toSet, Table.set]
  by_cases hy : q / w = p / w
  · rw [if_pos hy, getLsbD_set (Nat.mod_lt p hw), hy]
    constructor
    · rintro ⟨hlt, hbit | hx⟩
      · exact Or.inr ⟨hlt, hbit⟩
      · exact Or.inl ⟨rfl, hx⟩
    · rintro (⟨-, hx⟩ | ⟨hlt, hbit⟩)
      · exact ⟨hp, Or.inr hx⟩
      · exact ⟨hlt, Or.inl hbit⟩
  · rw [if_neg hy]
    exact ⟨Or.inr, fun h' => h'.resolve_left fun h'' => hy h''.1⟩

theorem toSet_clear (t : Table w) (p : ℕ) :
    (t.clear (p / w) (p % w)).toSet = t.toSet \ {p} := by
  ext q
  rw [Set.mem_sdiff, Set.mem_singleton_iff, @eq_iff_digits w q p]
  simp only [mem_toSet, Table.clear]
  by_cases hy : q / w = p / w
  · rw [if_pos hy, getLsbD_clear, hy]
    constructor
    · rintro ⟨hlt, hbit, hx⟩
      exact ⟨⟨hlt, hbit⟩, fun h' => hx h'.2⟩
    · rintro ⟨⟨hlt, hbit⟩, hx⟩
      exact ⟨hlt, hbit, fun h' => hx ⟨rfl, h'⟩⟩
  · rw [if_neg hy]
    exact ⟨fun h' => ⟨h', fun h'' => hy h''.1⟩, And.left⟩

/-! ## The least element -/

/-- The number found by the lowest bit of the summary and the lowest bit of its word. -/
def least (find : BitVec w → ℕ) (t : Table w) : ℕ := w * find t.grp + find (t.tbl (find t.grp))

theorem isLeast_least {find : BitVec w → ℕ} (hfind : FindsLowest find) {t : Table w} (h : t.Wf)
    (hne : t.grp ≠ 0) : IsLeast t.toSet (t.least find) := by
  obtain ⟨hgrp, hgrp_low⟩ := hfind t.grp hne
  have hy : find t.grp < w := BitVec.lt_of_getLsbD hgrp
  have hword := (h _ hy).1 hgrp
  obtain ⟨hbit, hbit_low⟩ := hfind _ hword
  have hx : find (t.tbl (find t.grp)) < w := BitVec.lt_of_getLsbD hbit
  have hdiv : t.least find / w = find t.grp := by
    rw [least, Nat.mul_add_div (by omega), Nat.div_eq_of_lt hx, Nat.add_zero]
  have hmod : t.least find % w = find (t.tbl (find t.grp)) := by
    rw [least, Nat.mul_add_mod, Nat.mod_eq_of_lt hx]
  constructor
  · show t.least find / w < w ∧ _
    rw [hdiv, hmod]
    exact ⟨hy, hbit⟩
  · rintro p ⟨hp, hpbit⟩
    -- a smaller number is in an earlier word or at a lower bit of the same word
    have hpword : find t.grp ≤ p / w := by
      by_contra hlt
      have hpgrp := (h _ hp).2 (ne_zero_iff.2 ⟨_, BitVec.lt_of_getLsbD hpbit, hpbit⟩)
      rw [hgrp_low _ (Nat.lt_of_not_le hlt)] at hpgrp
      cases hpgrp
    rcases Nat.lt_or_eq_of_le hpword with hlt | heq
    · calc t.least find ≤ w * find t.grp + w := by rw [least]; omega
        _ = w * (find t.grp + 1) := (Nat.mul_succ w _).symm
        _ ≤ w * (p / w) := Nat.mul_le_mul_left w hlt
        _ ≤ p := Nat.mul_div_le p w
    · have hpx : find (t.tbl (find t.grp)) ≤ p % w := by
        by_contra hlt
        rw [← heq, hbit_low _ (Nat.lt_of_not_le hlt)] at hpbit
        cases hpbit
      calc t.least find ≤ w * (p / w) + p % w := by
            rw [least, ← heq]
            exact Nat.add_le_add_left hpx _
        _ = p := Nat.div_add_mod p w

/-- The summary is zero exactly when the set is empty. -/
theorem Wf.grp_eq_zero_iff {t : Table w} (h : t.Wf) : t.grp = 0 ↔ t.toSet = ∅ := by
  constructor
  · intro hzero
    by_contra hne
    obtain ⟨p, hp⟩ := Set.nonempty_iff_ne_empty.2 hne
    exact h.grp_ne_zero hp hzero
  · intro hempty
    by_contra hne
    obtain ⟨y, hy, hbit⟩ := ne_zero_iff.1 hne
    obtain ⟨x, hx, hxbit⟩ := ne_zero_iff.1 ((h y hy).1 hbit)
    have hmem : w * y + x ∈ t.toSet := by
      refine ⟨?_, ?_⟩ <;>
        rw [Nat.mul_add_div (by omega), Nat.div_eq_of_lt hx, Nat.add_zero]
      · exact hy
      · rwa [Nat.mul_add_mod, Nat.mod_eq_of_lt hx]
    rw [hempty] at hmem
    exact hmem

end Table

end Bitmap
