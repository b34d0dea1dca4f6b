import Mathlib.Data.List.TakeWhile
import Mathlib.Data.Nat.Notation
import NuAgent.Lib.Bytes

/-!
# C strings

A C string is read from the bytes of memory that start at its address, up to the first NUL byte.
-/

namespace CString

/-- The C string at the start of a piece of memory. -/
def cstr (mem : List UInt8) : List UInt8 := mem.takeWhile (· ≠ 0)

/-- `strlen`. -/
def strlen (mem : List UInt8) : ℕ := (cstr mem).length

/-- A string without NUL bytes. -/
def NoNul (s : List UInt8) : Prop := ∀ b ∈ s, b ≠ 0

instance (s : List UInt8) : Decidable (NoNul s) := List.decidableBAll (· ≠ 0) s

/-- A string runs on through bytes that are not NUL. -/
theorem cstr_append {s : List UInt8} (h : NoNul s) (mem : List UInt8) :
    cstr (s ++ mem) = s ++ cstr mem :=
  List.takeWhile_append_of_pos fun b hb => by simpa using h b hb

/-- A string ends at a NUL byte. -/
theorem cstr_terminated {s : List UInt8} (h : NoNul s) (mem : List UInt8) :
    cstr (s ++ 0 :: mem) = s := by
  rw [cstr_append h, cstr, List.takeWhile_cons_of_neg (by simp), List.append_nil]

/-- A string in an array of zeros that is longer than it. -/
theorem cstr_splice_replicate {n : ℕ} {s : List UInt8} (hs : NoNul s) (hlen : s.length < n) :
    cstr (Block.splice (List.replicate n 0) 0 s) = s := by
  obtain ⟨k, hk⟩ : ∃ k, n - s.length = k + 1 := ⟨n - s.length - 1, by omega⟩
  rw [Block.splice_replicate, hk, List.replicate_succ, cstr_terminated hs]

theorem noNul_cstr (mem : List UInt8) : NoNul (cstr mem) := by
  intro b hb
  simpa using List.mem_takeWhile_imp hb

/-- Memory starts with the string that is read from it. -/
theorem take_eq_take_cstr {mem : List UInt8} {n : ℕ} (hn : n ≤ strlen mem) :
    mem.take n = (cstr mem).take n := by
  obtain ⟨t, ht⟩ : cstr mem <+: mem := List.takeWhile_prefix _
  have htake : (cstr mem ++ t).take n = (cstr mem).take n := List.take_append_of_le_length hn
  rwa [ht] at htake

/-- Memory that starts with a string shows exactly this string when a NUL byte comes next. -/
theorem cstr_eq_iff {mem s : List UInt8} (hs : NoNul s) (htake : mem.take s.length = s)
    (hlt : s.length < mem.length) : cstr mem = s ↔ mem[s.length]? = some 0 := by
  obtain ⟨x, rest, hdrop⟩ : ∃ x rest, mem.drop s.length = x :: rest :=
    List.exists_cons_of_ne_nil (by rw [Ne, List.drop_eq_nil_iff]; omega)
  have hmem : mem = s ++ x :: rest := by
    calc mem = mem.take s.length ++ mem.drop s.length := (List.take_append_drop _ _).symm
      _ = s ++ x :: rest := by rw [htake, hdrop]
  have hx : mem[s.length]? = some x := by
    rw [hmem, List.getElem?_append_right (Nat.le_refl _), Nat.sub_self, List.getElem?_cons_zero]
  rw [hx, Option.some.injEq]
  constructor
  · intro h
    by_contra hne
    rw [hmem, cstr_append hs, cstr, List.takeWhile_cons_of_pos (by simpa using hne)] at h
    exact absurd (List.append_right_eq_self.mp h) (List.cons_ne_nil _ _)
  · rintro rfl
    rw [hmem, cstr_terminated hs]

/-- A string that ends inside of a piece of memory. -/
theorem strlen_lt_of_mem {mem : List UInt8} (h : 0 ∈ mem) : strlen mem < mem.length := by
  refine Nat.lt_of_le_of_ne (List.takeWhile_prefix _).length_le fun heq => ?_
  have hall : cstr mem = mem := (List.takeWhile_prefix _).eq_of_length heq
  exact noNul_cstr mem 0 (by rwa [hall]) rfl

/-- What follows the memory in which a string ends does not matter. -/
theorem cstr_append_of_mem {mem : List UInt8} (h : 0 ∈ mem) (rest : List UInt8) :
    cstr (mem ++ rest) = cstr mem := by
  have hne : ¬ (mem.takeWhile (· ≠ 0)).length = mem.length := Nat.ne_of_lt (strlen_lt_of_mem h)
  rw [cstr, List.takeWhile_append, if_neg hne, cstr]

/-- Reading one character of a string that ends inside of the memory: it is the NUL byte behind the
string, or the first character of the string, which goes on behind it. -/
theorem exists_read {mem : List UInt8} {i : ℕ} (h : 0 ∈ mem.drop i) : ∃ c, mem[i]? = some c ∧
    (c = 0 ∧ cstr (mem.drop i) = [] ∨
      c ≠ 0 ∧ 0 ∈ mem.drop (i + 1) ∧ cstr (mem.drop i) = c :: cstr (mem.drop (i + 1))) := by
  obtain ⟨c, rest, hdrop⟩ := List.exists_cons_of_ne_nil (List.ne_nil_of_mem h)
  have hget : mem[i]? = some c := by
    rw [← Nat.add_zero i, ← List.getElem?_drop, hdrop, List.getElem?_cons_zero]
  have hnext : mem.drop (i + 1) = rest := by rw [← List.drop_drop, hdrop, List.drop_one, List.tail_cons]
  refine ⟨c, hget, ?_⟩
  rw [hdrop] at h ⊢
  by_cases hc : c = 0
  · exact Or.inl ⟨hc, List.takeWhile_cons_of_neg (by simpa using hc)⟩
  · refine Or.inr ⟨hc, ?_, ?_⟩
    · rw [hnext]
      exact (List.mem_cons.mp h).resolve_left (Ne.symm hc)
    · rw [hnext]
      exact List.takeWhile_cons_of_pos (by simpa using hc)

theorem take_strlen (mem : List UInt8) : (cstr mem).take (strlen mem) = cstr mem := List.take_length

end CString
