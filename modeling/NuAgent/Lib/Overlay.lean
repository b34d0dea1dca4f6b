import Mathlib.Data.List.Basic
import Mathlib.Data.Nat.Notation
import Mathlib.Logic.Function.Basic
import NuAgent.Lib.Bytes

/-!
# Windows of a memory

An unbounded memory is a function from addresses to cells. `window` reads a range of it as a list
and `overlay` replaces a range by a list. A copy in pieces is one copy (`overlay_append`), what was
written is what is read (`window_overlay`), and a copy that hides an earlier one replaces it
(`overlay_overlay`). `copy` copies inside of one memory.
-/

namespace Memory

variable {α : Type*}

/-- The `n` cells from `pos` on. -/
def window (f : ℕ → α) (pos n : ℕ) : List α := (List.range n).map fun i => f (pos + i)

/-- The memory with `data` written from `pos` on. -/
def overlay (f : ℕ → α) (pos : ℕ) (data : List α) : ℕ → α :=
  fun a => if pos ≤ a then (data[a - pos]?).getD (f a) else f a

variable {f : ℕ → α} {pos n : ℕ} {data : List α}

@[simp] theorem length_window : (window f pos n).length = n := by simp [window]

theorem getElem?_window (i : ℕ) :
    (window f pos n)[i]? = if i < n then some (f (pos + i)) else none := by
  unfold window
  by_cases hi : i < n <;> simp [hi]

/-- A range read in two pieces. -/
theorem window_add (k : ℕ) : window f pos (n + k) = window f pos n ++ window f (pos + n) k := by
  unfold window
  rw [List.range_add, List.map_append, List.map_map]
  congr 2
  funext i
  exact congrArg f (Nat.add_assoc pos n i).symm

/-- The first cell of a range. -/
theorem window_cons (f : ℕ → α) (pos n : ℕ) :
    window f pos (n + 1) = f pos :: window f (pos + 1) n := by
  rw [Nat.add_comm n 1, window_add]
  rfl

theorem overlay_of_lt {a : ℕ} (h : a < pos) : overlay f pos data a = f a := if_neg (by omega)

theorem overlay_of_ge {a : ℕ} (h : pos + data.length ≤ a) : overlay f pos data a = f a := by
  rw [overlay, if_pos (by omega), List.getElem?_eq_none (by omega), Option.getD_none]

theorem overlay_add {i : ℕ} (h : i < data.length) :
    some (overlay f pos data (pos + i)) = data[i]? := by
  rw [overlay, if_pos (by omega), Nat.add_sub_cancel_left, List.getElem?_eq_getElem h,
    Option.getD_some]

/-- What a copy to the start of the memory leaves there. -/
theorem overlay_zero {i : ℕ} (h : i < data.length) (v : α) : overlay f 0 data i = data.getD i v := by
  have hget : some (overlay f 0 data (0 + i)) = data[i]? := overlay_add h
  rw [Nat.zero_add] at hget
  rw [List.getD_eq_getElem?_getD, ← hget, Option.getD_some]

theorem overlay_replicate {v : α} {i : ℕ} (h : i < n) :
    overlay f pos (List.replicate n v) (pos + i) = v := by
  rw [overlay, if_pos (by omega), Nat.add_sub_cancel_left, List.getElem?_replicate, if_pos h,
    Option.getD_some]

@[simp] theorem overlay_nil : overlay f pos [] = f := by
  funext a
  simp [overlay]

/-- A copy in two pieces. -/
theorem overlay_append (data' : List α) :
    overlay (overlay f pos data) (pos + data.length) data' = overlay f pos (data ++ data') := by
  funext a
  unfold overlay
  by_cases hlo : a < pos
  · rw [if_neg (by omega), if_neg (by omega), if_neg (by omega)]
  · by_cases hhi : a < pos + data.length
    · rw [if_neg (by omega), if_pos (by omega), if_pos (by omega),
        List.getElem?_append_left (by omega)]
    · rw [if_pos (by omega), if_pos (by omega), if_pos (by omega),
        List.getElem?_append_right (by omega), List.getElem?_eq_none (l := data) (by omega),
        Option.getD_none]
      congr 2
      omega

/-- A copy over an earlier copy that is not longer hides it. -/
theorem overlay_overlay {data' : List α} (h : data.length ≤ data'.length) :
    overlay (overlay f pos data) pos data' = overlay f pos data' := by
  funext a
  unfold overlay
  by_cases hlo : pos ≤ a
  · rw [if_pos hlo, if_pos hlo, if_pos hlo]
    by_cases hhi : a - pos < data'.length
    · rw [List.getElem?_eq_getElem hhi, Option.getD_some, Option.getD_some]
    · rw [List.getElem?_eq_none (l := data') (by omega),
        List.getElem?_eq_none (l := data) (by omega)]
      rfl
  · rw [if_neg hlo, if_neg hlo, if_neg hlo]

/-- A copy that begins inside of an earlier one, and hides the rest of it, continues what was written
up to there. -/
theorem overlay_append_overlay {tail data' : List α} (h : tail.length ≤ data'.length) :
    overlay (overlay f pos (data ++ tail)) (pos + data.length) data'
      = overlay f pos (data ++ data') := by
  rw [← overlay_append, overlay_overlay h, overlay_append]

/-- What was written is what is read. -/
theorem window_overlay : window (overlay f pos data) pos data.length = data := by
  apply List.ext_getElem?
  intro i
  rw [getElem?_window]
  by_cases hi : i < data.length
  · rw [if_pos hi, overlay_add hi]
  · rw [if_neg hi, List.getElem?_eq_none (by omega)]

/-- A piece of what was written, read back. -/
theorem window_overlay_middle (l b r : List α) :
    window (overlay f pos (l ++ (b ++ r))) (pos + l.length) b.length = b := by
  apply List.ext_getElem?
  intro i
  rw [getElem?_window]
  by_cases hi : i < b.length
  · have hin : l.length + i < (l ++ (b ++ r)).length := by
      simp only [List.length_append]
      omega
    rw [if_pos hi, Nat.add_assoc, overlay_add hin, List.getElem?_append_right (by omega),
      Nat.add_sub_cancel_left, List.getElem?_append_left hi]
  · rw [if_neg hi, List.getElem?_eq_none (by omega)]

/-- The window of a memory seen from an offset. -/
theorem window_shift (off : ℕ) : window (fun i => f (off + i)) pos n = window f (off + pos) n := by
  unfold window
  congr 1
  funext i
  exact congrArg f (Nat.add_assoc off pos i).symm

/-- Writing back a range that was read and changed in part stores the change. -/
theorem overlay_splice_window {off : ℕ} (h : off + data.length ≤ n) :
    overlay f pos (Block.splice (window f pos n) off data) = overlay f (pos + off) data := by
  funext a
  unfold overlay
  by_cases hlo : pos ≤ a
  · rw [if_pos hlo, Block.getElem?_splice (by rw [length_window]; exact h), getElem?_window]
    have ha : pos + (a - pos) = a := by omega
    by_cases hin : off ≤ a - pos ∧ a - pos < off + data.length
    · rw [if_pos hin, if_pos (by omega)]
      congr 2
      omega
    · rw [if_neg hin, ha]
      by_cases hge : pos + off ≤ a
      · rw [if_pos hge, List.getElem?_eq_none (l := data) (by omega)]
        split_ifs <;> rfl
      · rw [if_neg hge]
        split_ifs <;> rfl
  · rw [if_neg hlo, if_neg (by omega)]

/-- Two memories agree on a window iff they agree cell by cell. -/
theorem window_eq_iff {g : ℕ → α} {pos' : ℕ} :
    window f pos n = window g pos' n ↔ ∀ i < n, f (pos + i) = g (pos' + i) := by
  constructor
  · intro h i hi
    have hget := congrArg (·[i]?) h
    simpa only [getElem?_window, if_pos hi, Option.some.injEq] using hget
  · intro h
    unfold window
    exact List.map_congr_left fun i hi => h i (List.mem_range.mp hi)

/-- A range read in `k` pieces. -/
theorem window_mul (f : ℕ → α) (pos n k : ℕ) :
    window f pos (n * k) = (List.range k).flatMap fun i => window f (pos + n * i) n := by
  induction k with
  | zero => rfl
  | succ k ih => rw [Nat.mul_succ, window_add, ih, List.range_succ, List.flatMap_append,
      List.flatMap_singleton]

/-- Reading back a buffer that was filled and then changed in part. -/
theorem window_overlay_splice {buf : List α} {off : ℕ} (hlen : buf.length = n)
    (h : off + data.length ≤ n) :
    window (overlay (overlay f pos buf) (pos + off) data) pos n = Block.splice buf off data := by
  apply List.ext_getElem?
  intro i
  rw [getElem?_window, Block.getElem?_splice (by omega)]
  by_cases hi : i < n
  · rw [if_pos hi]
    by_cases hin : off ≤ i ∧ i < off + data.length
    · have hadd : pos + i = pos + off + (i - off) := by omega
      rw [if_pos hin, hadd, overlay_add (by omega)]
    · rw [if_neg hin]
      have hbuf : some (overlay f pos buf (pos + i)) = buf[i]? := overlay_add (by omega)
      rw [← hbuf]
      rcases Nat.lt_or_ge i off with hlt | hge
      · rw [overlay_of_lt (by omega)]
      · rw [overlay_of_ge (by omega)]
  · rw [if_neg hi, if_neg (by omega), List.getElem?_eq_none (by omega)]

/-! ## Copies inside of a memory -/

/-- The memory with the `n` cells from `src` on copied to `dst`. -/
def copy (f : ℕ → α) (dst src n : ℕ) : ℕ → α := overlay f dst (window f src n)

section
variable {dst src a : ℕ}

/-- A cell after a copy. -/
theorem copy_apply (f : ℕ → α) (dst src n a : ℕ) :
    copy f dst src n a = if dst ≤ a ∧ a < dst + n then f (src + (a - dst)) else f a := by
  unfold copy overlay
  by_cases hlo : dst ≤ a
  · rw [if_pos hlo, getElem?_window]
    by_cases hhi : a < dst + n
    · rw [if_pos (by omega), if_pos ⟨hlo, hhi⟩, Option.getD_some]
    · rw [if_neg (by omega), if_neg (fun h => hhi h.2), Option.getD_none]
  · rw [if_neg hlo, if_neg (fun h => hlo h.1)]

theorem copy_inside {i : ℕ} (h : i < n) : copy f dst src n (dst + i) = f (src + i) := by
  rw [copy_apply, if_pos (by omega), Nat.add_sub_cancel_left]

theorem copy_outside (h : a < dst ∨ dst + n ≤ a) : copy f dst src n a = f a := by
  rw [copy_apply, if_neg (by omega)]

@[simp] theorem copy_zero : copy f dst src 0 = f := overlay_nil

/-- A copy changes nothing iff both ranges hold the same. -/
theorem copy_eq_self_iff : copy f dst src n = f ↔ window f dst n = window f src n := by
  rw [window_eq_iff]
  constructor
  · intro h i hi
    calc f (dst + i) = copy f dst src n (dst + i) := by rw [h]
      _ = f (src + i) := copy_inside hi
  · intro h
    funext a
    rw [copy_apply]
    split_ifs with hin
    · have hi := h (a - dst) (by omega)
      rw [← hi, Nat.add_sub_cancel' hin.1]
    · rfl

/-- A memory is the copy iff the range holds what was read and everything else is as it was. -/
theorem eq_copy_iff {g : ℕ → α} : g = copy f dst src n ↔
    (∀ i < n, g (dst + i) = f (src + i)) ∧ ∀ a, a < dst ∨ dst + n ≤ a → g a = f a := by
  constructor
  · rintro rfl
    exact ⟨fun i hi => copy_inside hi, fun a ha => copy_outside ha⟩
  · rintro ⟨hin, hout⟩
    funext a
    rw [copy_apply]
    split_ifs with ha
    · rw [← hin _ (by omega), Nat.add_sub_cancel' ha.1]
    · exact hout a (by omega)

/-- A longer copy is the same if the cells that it adds hold the same already. -/
theorem copy_eq_copy {k : ℕ} (hk : k ≤ n)
    (h : window f (dst + k) (n - k) = window f (src + k) (n - k)) :
    copy f dst src n = copy f dst src k := by
  rw [window_eq_iff] at h
  funext a
  rw [copy_apply, copy_apply]
  by_cases hin : dst ≤ a ∧ a < dst + k
  · rw [if_pos hin, if_pos (by omega)]
  · rw [if_neg hin]
    split_ifs with ha
    · have hcell := h (a - (dst + k)) (by omega)
      rw [show dst + k + (a - (dst + k)) = a by omega,
        show src + k + (a - (dst + k)) = src + (a - dst) by omega] at hcell
      exact hcell.symm
    · rfl

/-- Two copies, one behind the other, are one copy if the first does not reach the source of the
second. -/
theorem copy_copy {k : ℕ} (h : dst + n ≤ src + n ∨ src + n + k ≤ dst) :
    copy (copy f dst src n) (dst + n) (src + n) k = copy f dst src (n + k) := by
  funext a
  rw [copy_apply, copy_apply, copy_apply, copy_apply]
  split_ifs <;> first | omega | rfl | (congr 1; omega)

end

end Memory
