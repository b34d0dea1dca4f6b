import Mathlib.Order.Bounds.Basic
import NuAgent.Lib.Bytes

/-!
# Circular layout of a queue in a block

`Holds mem head q` says that the queue `q` lies in the block `mem` from index `head` on, wrapping at
the end of the block. The three edits of a circular buffer that copies in contiguous chunks are
`Holds.append` (write a chunk behind the queue), `Holds.take` (the chunk at the head is a prefix of
the queue) and `Holds.drop` (move the head over a chunk).
-/

namespace Circular

variable {α : Type*}

/-- The index `i` places after `head` in a block of `size` cells. -/
def slot (size head i : ℕ) : ℕ := if head + i < size then head + i else head + i - size

theorem slot_lt {size head i : ℕ} (hh : head < size) (hi : i < size) : slot size head i < size := by
  unfold slot
  split <;> omega

/-- Walking first `i` and then `j` places. -/
theorem slot_slot {size head i j : ℕ} (hh : head < size) (hij : i + j ≤ size) :
    slot size (slot size head i) j = slot size head (i + j) := by
  unfold slot
  split_ifs <;> omega

/-- The queue `q` lies in `mem` from `head` on. -/
def Holds (mem : List α) (head : ℕ) (q : List α) : Prop :=
  ∀ i, i < q.length → mem[slot mem.length head i]? = q[i]?

theorem Holds.nil (mem : List α) (head : ℕ) : Holds mem head [] := fun _ hi => absurd hi (by simp)

/-- Writing a chunk into the free cells behind the queue appends it. -/
theorem Holds.append {mem q : List α} {head : ℕ} (h : Holds mem head q) (data : List α)
    (hroom : q.length + data.length < mem.length)
    (hfit : slot mem.length head q.length + data.length ≤ mem.length) :
    Holds (Block.splice mem (slot mem.length head q.length) data) head (q ++ data) := by
  intro i hi
  rw [List.length_append] at hi
  rw [Block.length_splice hfit, Block.getElem?_splice hfit]
  by_cases hq : i < q.length
  · -- an occupied cell is not among the written ones
    have hout : ¬ (slot mem.length head q.length ≤ slot mem.length head i ∧
        slot mem.length head i < slot mem.length head q.length + data.length) := by
      unfold slot at hfit ⊢
      split_ifs at hfit ⊢ <;> omega
    rw [if_neg hout, h i hq, List.getElem?_append_left hq]
  · have hpos : slot mem.length head i = slot mem.length head q.length + (i - q.length) := by
      unfold slot at hfit ⊢
      split_ifs at hfit ⊢ <;> omega
    rw [if_pos (by omega), List.getElem?_append_right (by omega), hpos]
    congr 1
    omega

/-- A contiguous chunk read at the head is a prefix of the queue. -/
theorem Holds.take {mem q : List α} {head n : ℕ} (h : Holds mem head q) (hn : n ≤ q.length)
    (hfit : head + n ≤ mem.length) : (mem.drop head).take n = q.take n := by
  apply List.ext_getElem?
  intro i
  by_cases hi : i < n
  · have hslot : slot mem.length head i = head + i := if_pos (by omega)
    rw [List.getElem?_take_of_lt hi, List.getElem?_take_of_lt hi, List.getElem?_drop,
      ← h i (by omega), hslot]
  · rw [List.getElem?_take_eq_none (by omega), List.getElem?_take_eq_none (by omega)]

/-- Moving the head over a chunk drops it from the queue. -/
theorem Holds.drop {mem q : List α} {head n : ℕ} (h : Holds mem head q) (hh : head < mem.length)
    (hn : n ≤ q.length) (hq : q.length < mem.length) :
    Holds mem (slot mem.length head n) (q.drop n) := by
  intro i hi
  rw [List.length_drop] at hi
  rw [slot_slot hh (by omega), h (n + i) (by omega), List.getElem?_drop]

/-! ## Contiguous runs -/

/-- The `len` cells from `start` on. -/
def Span (size start len : ℕ) : Set ℕ := {x | ∃ i < len, slot size start i = x}

/-- The longest run of the cells from `start` on ends with them or at the end of the block. -/
theorem span_longest_run {size start len : ℕ} (hs : start < size) (hl : len < size) :
    IsGreatest {k : ℤ | ∀ i : ℕ, i < k → start + i ∈ Span size start len}
      (min len (size - start) : ℕ) := by
  constructor
  · intro i hi
    refine ⟨i, by omega, ?_⟩
    unfold slot
    rw [if_pos (by omega)]
  · intro k hk
    by_contra hlong
    -- the cell behind the run is either outside the block or not among the cells
    obtain ⟨j, hj, hslot⟩ := hk (min len (size - start)) (by omega)
    have hbound := slot_lt hs (i := j) (by omega)
    unfold slot at hslot hbound
    split_ifs at hslot hbound <;> omega

end Circular
