import Mathlib.Data.Nat.Notation
import Mathlib.Data.List.Basic

/-!
# Memory blocks

A block of memory is a list of cells. Copies into and out of a block are checked: an access that
leaves the block has no result, so a function of the model that returns one has stayed inside.
-/

namespace Block

variable {α : Type*}

/-- The block with `data` written from offset `off` on. -/
def splice (mem : List α) (off : ℕ) (data : List α) : List α :=
  mem.take off ++ data ++ mem.drop (off + data.length)

/-- Read `n` cells from offset `off` on. -/
def read (mem : List α) (off n : ℕ) : Option (List α) :=
  if off + n ≤ mem.length then some ((mem.drop off).take n) else none

/-- Write `data` from offset `off` on. -/
def write (mem : List α) (off : ℕ) (data : List α) : Option (List α) :=
  if off + data.length ≤ mem.length then some (splice mem off data) else none

theorem read_of_le {mem : List α} {off n : ℕ} (h : off + n ≤ mem.length) :
    read mem off n = some ((mem.drop off).take n) := if_pos h

theorem write_of_le {mem data : List α} {off : ℕ} (h : off + data.length ≤ mem.length) :
    write mem off data = some (splice mem off data) := if_pos h

theorem length_splice {mem data : List α} {off : ℕ} (h : off + data.length ≤ mem.length) :
    (splice mem off data).length = mem.length := by
  simp only [splice, List.length_append, List.length_take, List.length_drop]
  omega

/-- Writing the start of a constant block. -/
theorem splice_replicate (n : ℕ) (v : α) (data : List α) :
    splice (List.replicate n v) 0 data = data ++ List.replicate (n - data.length) v := by
  rw [splice, List.take_zero, List.nil_append, Nat.zero_add, List.drop_replicate]

/-- A cell of the written range holds what was written, every other cell what it held. -/
theorem getElem?_splice {mem data : List α} {off : ℕ} (h : off + data.length ≤ mem.length)
    (i : ℕ) : (splice mem off data)[i]? =
      if off ≤ i ∧ i < off + data.length then data[i - off]? else mem[i]? := by
  have hoff : (mem.take off).length = off := by
    rw [List.length_take]
    omega
  by_cases hlt : i < off
  · rw [splice, List.append_assoc, List.getElem?_append_left (by omega),
      List.getElem?_take_of_lt hlt, if_neg (by omega)]
  · by_cases hin : i < off + data.length
    · rw [splice, List.append_assoc, List.getElem?_append_right (by omega), hoff,
        List.getElem?_append_left (by omega), if_pos ⟨by omega, hin⟩]
    · rw [splice, List.getElem?_append_right (by rw [List.length_append, hoff]; omega),
        List.getElem?_drop, if_neg (by omega), List.length_append, hoff]
      congr 1
      omega

/-- Writing no cell changes nothing. -/
theorem splice_nil (mem : List α) (off : ℕ) : splice mem off [] = mem := by
  rw [splice, List.append_nil, List.length_nil, Nat.add_zero, List.take_append_drop]

/-- A range can be written from its first cell on, one cell and then the others. -/
theorem splice_cons {mem data : List α} {off : ℕ} {v : α}
    (h : off + (v :: data).length ≤ mem.length) :
    splice (splice mem off [v]) (off + 1) data = splice mem off (v :: data) := by
  rw [List.length_cons] at h
  have hone : off + [v].length ≤ mem.length := by
    rw [List.length_singleton]
    omega
  have hlen := length_splice hone
  apply List.ext_getElem?
  intro i
  rw [getElem?_splice (by omega), getElem?_splice hone, getElem?_splice (by simp; omega)]
  rcases Nat.lt_trichotomy i off with hlt | rfl | hgt
  · rw [if_neg (by omega), if_neg (by omega), if_neg (by omega)]
  · rw [if_neg (by omega), if_pos (by simp), if_pos (by simp), Nat.sub_self]
    rfl
  · have hnext : i - off = i - (off + 1) + 1 := by omega
    rw [if_neg (c := off ≤ i ∧ i < off + [v].length) (by simp; omega), hnext,
      List.getElem?_cons_succ, List.length_cons]
    simp only [show off + 1 ≤ i by omega, show off ≤ i by omega, true_and, Nat.add_assoc,
      Nat.add_comm 1]

end Block
