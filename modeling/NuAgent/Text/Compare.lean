import NuAgent.Lib.CString
import NuAgent.Lib.Lex
import NuAgent.Lib.Serial

/-!
# String comparison

`strncmp` and `strncmpi` of `Lib/str_lib.c`. A string lies at the start of a piece of memory and a
pointer into it is an offset. A read outside of the memory has no result. `char` values are bytes:
they are compared for equality, and the differences are taken of `unsigned char`.
-/

open CString Lex

namespace NuAgent.Text

/-- `tolower` of the C locale. -/
def tolower (c : UInt8) : UInt8 := if 'A'.toUInt8 ≤ c ∧ c ≤ 'Z'.toUInt8 then c + 32 else c

/-- The difference of two values of type `unsigned char`, an `int`. -/
def byteDiff (c₁ c₂ : UInt8) : ℤ := (c₁.toNat : ℤ) - c₂.toNat

/-- The end of `strncmp` behind a `break`: `s1` is at the character that differs and `s2` one behind
it. -/
def strncmpBreak (m₁ m₂ : List UInt8) (s1 s2 : ℕ) : Option ℤ := do
  let c₁ ← m₁[s1]?
  if c₁ = 0 then return -1
  let c₂ ← m₂[s2 - 1]?
  if c₂ = 0 then return 1
  return byteDiff c₁ c₂

/-- The loop of `strncmp` with `n` characters left to compare. -/
def strncmpLoop (m₁ m₂ : List UInt8) (s1 s2 : ℕ) : ℕ → Option ℤ
  | 0 => some 0
  | n + 1 => do
    let c₁ ← m₁[s1]?
    let c₂ ← m₂[s2]?
    if c₁ ≠ c₂ then strncmpBreak m₁ m₂ s1 (s2 + 1)
    else if c₁ = 0 then return 0
    else strncmpLoop m₁ m₂ (s1 + 1) (s2 + 1) n

/-- Compare at most `n` characters. -/
def strncmp (m₁ m₂ : List UInt8) (n : ℕ) : Option ℤ := strncmpLoop m₁ m₂ 0 0 n

/-- The loop of `strncmpi`, which is entered with `n` other than zero. -/
def strncmpiLoop (m₁ m₂ : List UInt8) (s1 s2 : ℕ) : ℕ → Option ℤ
  | 0 => none
  | n + 1 => do
    let c₁ := tolower (← m₁[s1]?)
    let c₂ := tolower (← m₂[s2]?)
    if c₁ = 0 ∨ c₂ = 0 then return byteDiff c₁ c₂
    -- `while((c1 == c2) && --n)`
    else if c₁ = c₂ ∧ n ≠ 0 then strncmpiLoop m₁ m₂ (s1 + 1) (s2 + 1) n
    else return byteDiff c₁ c₂

/-- Compare at most `n` characters, upper and lower case being the same. -/
def strncmpi (m₁ m₂ : List UInt8) (n : ℕ) : Option ℤ :=
  if n = 0 then some 0 else strncmpiLoop m₁ m₂ 0 0 n

/-! ## Characters -/

theorem byteDiff_neg_iff {c₁ c₂ : UInt8} : byteDiff c₁ c₂ < 0 ↔ c₁ < c₂ := by
  rw [UInt8.lt_iff_toNat_lt, byteDiff]
  omega

theorem byteDiff_pos_iff {c₁ c₂ : UInt8} : 0 < byteDiff c₁ c₂ ↔ c₂ < c₁ := by
  rw [UInt8.lt_iff_toNat_lt, byteDiff]
  omega

theorem byteDiff_eq_zero_iff {c₁ c₂ : UInt8} : byteDiff c₁ c₂ = 0 ↔ c₁ = c₂ := by
  rw [← UInt8.toNat_inj, byteDiff]
  omega

theorem byteDiff_self (c : UInt8) : byteDiff c c = 0 := byteDiff_eq_zero_iff.mpr rfl

/-- Only NUL becomes NUL. -/
theorem tolower_eq_zero_iff (c : UInt8) : tolower c = 0 ↔ c = 0 := by
  revert c
  apply Serial.forall_byte
  decide +kernel

theorem tolower_zero : tolower 0 = 0 := rfl

theorem zero_lt_tolower {c : UInt8} (h : c ≠ 0) : 0 < tolower c :=
  UInt8.pos_iff_ne_zero.mpr fun heq => h ((tolower_eq_zero_iff c).mp heq)

section Order

variable {x y : List UInt8} {c₁ c₂ : UInt8}

/-- The end of the first string. -/
theorem orders_nil_cons {r : ℤ} (hr : r < 0) : Orders r [] (c₂ :: y) :=
  Orders.of_lt hr (List.nil_lt_cons c₂ y)

/-- The end of the second string. -/
theorem orders_cons_nil {r : ℤ} (hr : 0 < r) : Orders r (c₁ :: x) [] :=
  Orders.of_gt hr (List.nil_lt_cons c₁ x)

/-- The difference of two characters that differ. -/
theorem orders_byteDiff (h : c₁ ≠ c₂) : Orders (byteDiff c₁ c₂) (c₁ :: x) (c₂ :: y) := by
  apply Orders.of_head
  · intro hzero
    exact h (byteDiff_eq_zero_iff.mp hzero)
  · exact byteDiff_neg_iff.mp
  · exact byteDiff_pos_iff.mp

end Order

/-! ## The loops

One turn reads a character of each string. `exists_read` says for both of them whether the string
ends there, and the four cases are the exits of the loop and its next turn.
-/

section Loops

variable {m₁ m₂ : List UInt8}

/-- A `break` answers with the order of the strings from the characters that differ on. -/
theorem strncmpBreak_orders {s1 s2 : ℕ} (h₁ : 0 ∈ m₁.drop s1) (h₂ : 0 ∈ m₂.drop s2)
    (hne : m₁[s1]? ≠ m₂[s2]?) (n : ℕ) : ∃ r, strncmpBreak m₁ m₂ s1 (s2 + 1) = some r ∧
      Orders r ((cstr (m₁.drop s1)).take (n + 1)) ((cstr (m₂.drop s2)).take (n + 1)) := by
  obtain ⟨c₁, hget₁, hend₁⟩ := exists_read h₁
  obtain ⟨c₂, hget₂, hend₂⟩ := exists_read h₂
  have hc : c₁ ≠ c₂ := by
    rintro rfl
    exact hne (hget₁.trans hget₂.symm)
  unfold strncmpBreak
  rw [Nat.add_sub_cancel, hget₁, hget₂]
  rcases hend₁ with ⟨rfl, hnil₁⟩ | ⟨hc₁, -, hcons₁⟩
  · rcases hend₂ with ⟨rfl, -⟩ | ⟨-, -, hcons₂⟩
    · exact absurd rfl hc
    · refine ⟨-1, rfl, ?_⟩
      rw [hnil₁, hcons₂, List.take_nil, List.take_succ_cons]
      exact orders_nil_cons (by omega)
  · rcases hend₂ with ⟨rfl, hnil₂⟩ | ⟨hc₂, -, hcons₂⟩
    · refine ⟨1, by simp [hc₁], ?_⟩
      rw [hcons₁, hnil₂, List.take_nil, List.take_succ_cons]
      exact orders_cons_nil (by omega)
    · refine ⟨byteDiff c₁ c₂, by simp [hc₁, hc₂], ?_⟩
      rw [hcons₁, hcons₂, List.take_succ_cons, List.take_succ_cons]
      exact orders_byteDiff hc

/-- `strncmp` from any two places in the strings. -/
theorem strncmpLoop_orders (n : ℕ) (s1 s2 : ℕ) (h₁ : 0 ∈ m₁.drop s1) (h₂ : 0 ∈ m₂.drop s2) :
    ∃ r, strncmpLoop m₁ m₂ s1 s2 n = some r ∧
      Orders r ((cstr (m₁.drop s1)).take n) ((cstr (m₂.drop s2)).take n) := by
  induction n generalizing s1 s2 with
  | zero => exact ⟨0, rfl, Orders.refl _⟩
  | succ n ih =>
    obtain ⟨c₁, hget₁, hend₁⟩ := exists_read h₁
    obtain ⟨c₂, hget₂, hend₂⟩ := exists_read h₂
    by_cases hc : c₁ = c₂
    · subst hc
      rcases hend₁ with ⟨rfl, hnil₁⟩ | ⟨hc₁, hmem₁, hcons₁⟩
      · rcases hend₂ with ⟨-, hnil₂⟩ | ⟨hc₂, -, -⟩
        · refine ⟨0, by simp [strncmpLoop, hget₁, hget₂], ?_⟩
          rw [hnil₁, hnil₂]
          exact Orders.refl _
        · exact absurd rfl hc₂
      · rcases hend₂ with ⟨hc₂, -⟩ | ⟨-, hmem₂, hcons₂⟩
        · exact absurd hc₂ hc₁
        · obtain ⟨r, hr, hord⟩ := ih (s1 + 1) (s2 + 1) hmem₁ hmem₂
          refine ⟨r, by simpa [strncmpLoop, hget₁, hget₂, hc₁] using hr, ?_⟩
          rw [hcons₁, hcons₂, List.take_succ_cons, List.take_succ_cons]
          exact hord.cons c₁
    · have hne : m₁[s1]? ≠ m₂[s2]? := by
        rw [hget₁, hget₂]
        exact fun heq => hc (Option.some.inj heq)
      obtain ⟨r, hr, hord⟩ := strncmpBreak_orders h₁ h₂ hne n
      exact ⟨r, by simpa [strncmpLoop, hget₁, hget₂, hc] using hr, hord⟩

/-- `strncmpi` from any two places in the strings. -/
theorem strncmpiLoop_orders (n : ℕ) (s1 s2 : ℕ) (h₁ : 0 ∈ m₁.drop s1) (h₂ : 0 ∈ m₂.drop s2)
    (hn : n ≠ 0) : ∃ r, strncmpiLoop m₁ m₂ s1 s2 n = some r ∧
      Orders r (((cstr (m₁.drop s1)).take n).map tolower)
        (((cstr (m₂.drop s2)).take n).map tolower) := by
  induction n generalizing s1 s2 with
  | zero => exact absurd rfl hn
  | succ n ih =>
    obtain ⟨c₁, hget₁, hend₁⟩ := exists_read h₁
    obtain ⟨c₂, hget₂, hend₂⟩ := exists_read h₂
    -- the loop goes on only with `--n`, so the last turn answers with the difference as well
    rcases hend₁ with ⟨rfl, hnil₁⟩ | ⟨hc₁, hmem₁, hcons₁⟩
    · refine ⟨byteDiff 0 (tolower c₂), by simp [strncmpiLoop, hget₁, hget₂, tolower_zero], ?_⟩
      rw [hnil₁, List.take_nil, List.map_nil]
      rcases hend₂ with ⟨rfl, hnil₂⟩ | ⟨hc₂, -, hcons₂⟩
      · rw [hnil₂, List.take_nil, List.map_nil, tolower_zero]
        exact Orders.refl []
      · rw [hcons₂, List.take_succ_cons, List.map_cons]
        exact orders_nil_cons (byteDiff_neg_iff.mpr (zero_lt_tolower hc₂))
    · rcases hend₂ with ⟨rfl, hnil₂⟩ | ⟨hc₂, hmem₂, hcons₂⟩
      · refine ⟨byteDiff (tolower c₁) 0, by simp [strncmpiLoop, hget₁, hget₂, tolower_zero], ?_⟩
        rw [hnil₂, hcons₁, List.take_nil, List.take_succ_cons, List.map_nil, List.map_cons]
        exact orders_cons_nil (byteDiff_pos_iff.mpr (zero_lt_tolower hc₁))
      · have hlow₁ : tolower c₁ ≠ 0 := fun h => hc₁ ((tolower_eq_zero_iff c₁).mp h)
        have hlow₂ : tolower c₂ ≠ 0 := fun h => hc₂ ((tolower_eq_zero_iff c₂).mp h)
        rw [hcons₁, hcons₂, List.take_succ_cons, List.take_succ_cons, List.map_cons, List.map_cons]
        by_cases heq : tolower c₁ = tolower c₂
        · by_cases hlast : n = 0
          · refine ⟨0, by simp [strncmpiLoop, hget₁, hget₂, heq, hlast, byteDiff_self], ?_⟩
            rw [heq, hlast, List.take_zero, List.take_zero]
            exact Orders.refl _
          · obtain ⟨r, hr, hord⟩ := ih (s1 + 1) (s2 + 1) hmem₁ hmem₂ hlast
            refine ⟨r, by simpa [strncmpiLoop, hget₁, hget₂, heq, hlow₂, hlast] using hr, ?_⟩
            rw [heq]
            exact hord.cons _
        · refine ⟨byteDiff (tolower c₁) (tolower c₂), ?_, orders_byteDiff heq⟩
          simp [strncmpiLoop, hget₁, hget₂, heq, hlow₁, hlow₂]

end Loops

/-! ## The functions -/

variable {m₁ m₂ : List UInt8}

theorem strncmp_orders (h₁ : 0 ∈ m₁) (h₂ : 0 ∈ m₂) (n : ℕ) :
    ∃ r, strncmp m₁ m₂ n = some r ∧ Orders r ((cstr m₁).take n) ((cstr m₂).take n) :=
  strncmpLoop_orders n 0 0 h₁ h₂

theorem strncmpi_orders (h₁ : 0 ∈ m₁) (h₂ : 0 ∈ m₂) (n : ℕ) :
    ∃ r, strncmpi m₁ m₂ n = some r ∧
      Orders r (((cstr m₁).take n).map tolower) (((cstr m₂).take n).map tolower) := by
  unfold strncmpi
  split_ifs with hn
  · refine ⟨0, rfl, ?_⟩
    rw [hn, List.take_zero, List.take_zero]
    exact Orders.refl _
  · exact strncmpiLoop_orders n 0 0 h₁ h₂ hn

/-- What it means that a function compares the prefixes `x` and `y` of two strings: `here` is its
answer and `swapped` its answer for the strings the other way round. -/
structure Compares (here swapped : Option ℤ) (x y : List UInt8) : Prop where
  orders : ∃ r, here = some r ∧ Orders r x y
  antisymmetric : ∃ r r', here = some r ∧ swapped = some r' ∧
    (r < 0 ↔ 0 < r') ∧ (r = 0 ↔ r' = 0) ∧ (0 < r ↔ r' < 0)

/-- The two answers of a function that orders its strings. -/
theorem compares {here swapped : Option ℤ} {x y : List UInt8}
    (h : ∃ r, here = some r ∧ Orders r x y) (h' : ∃ r, swapped = some r ∧ Orders r y x) :
    Compares here swapped x y := by
  obtain ⟨r, hr, hord⟩ := h
  obtain ⟨r', hr', hord'⟩ := h'
  exact ⟨⟨r, hr, hord⟩, ⟨r, r', hr, hr', hord.opposite hord'⟩⟩

/-- For any two strings and every `n`, `strncmp` answers with the sign of the comparison of their
first `n` bytes, and `strncmpi` with the one of the first `n` bytes in lower case. -/
theorem comparisons_order (h₁ : 0 ∈ m₁) (h₂ : 0 ∈ m₂) (n : ℕ) :
    Compares (strncmp m₁ m₂ n) (strncmp m₂ m₁ n) ((cstr m₁).take n) ((cstr m₂).take n) ∧
      Compares (strncmpi m₁ m₂ n) (strncmpi m₂ m₁ n)
        (((cstr m₁).take n).map tolower) (((cstr m₂).take n).map tolower) :=
  ⟨compares (strncmp_orders h₁ h₂ n) (strncmp_orders h₂ h₁ n),
    compares (strncmpi_orders h₁ h₂ n) (strncmpi_orders h₂ h₁ n)⟩

/-- Two names that differ in case and behind the first two characters, one with a byte above 127. -/
theorem comparisons_order_name :
    Compares (strncmp [77, 97, 0] [109, 65, 200, 0] 2) (strncmp [109, 65, 200, 0] [77, 97, 0] 2)
        [77, 97] [109, 65] ∧
      Compares (strncmpi [77, 97, 0] [109, 65, 200, 0] 2) (strncmpi [109, 65, 200, 0] [77, 97, 0] 2)
        [109, 97] [109, 97] :=
  @comparisons_order [77, 97, 0] [109, 65, 200, 0] (by decide) (by decide) 2

end NuAgent.Text
