import Mathlib.Data.List.DropRight
import NuAgent.Lib.CInt
import NuAgent.Lib.CString

/-!
# String trimming

`strrmvspace` of `Lib/str_lib.c`. The source string lies at the start of a piece of memory and the
destination is an object of its own. A read or a write outside of them has no result.
-/

open CString

namespace NuAgent.Text

/-- `isspace` of the C locale: the blank, and the characters from `\t` to `\r`. -/
def isspace (c : UInt8) : Bool := c = 32 || (9 ≤ c && c ≤ 13)

/-- An object in memory: its size is a value of `size_t`. -/
structure Object where
  bytes : List UInt8
  length_lt : bytes.length < 4294967296

/-- `strcpy`. -/
def strcpy (dst src : List UInt8) : Option (List UInt8) :=
  if 0 ∈ src then Block.write dst 0 (cstr src ++ [0]) else none

/-- `for (i = 0; isspace(src[i]); i++);`, which leaves the memory from `src[i]` on. -/
def skipLoop : List UInt8 → Option (List UInt8)
  | [] => none
  | c :: src => if isspace c then skipLoop src else some (c :: src)

theorem countP_set_lt {dst : List UInt8} {i : ℕ} {c : UInt8} (h : dst[i]? = some c)
    (hc : isspace c) : (dst.set i 0).countP isspace < dst.countP isspace := by
  obtain ⟨hi, hget⟩ := List.getElem?_eq_some_iff.mp h
  have hpos : 0 < dst.countP isspace :=
    List.countP_pos_iff.mpr ⟨c, List.mem_of_getElem? h, hc⟩
  rw [List.countP_set hi, hget, if_pos hc, if_neg (by decide)]
  omega

/-- `for (; isspace(dst[i]); i--) dst[i] = 0;` with `i` an `unsigned int`. -/
def trimLoop (dst : List UInt8) (i : ℕ) : Option (List UInt8) :=
  match h : dst[i]? with
  | none => none
  | some c =>
    if hc : isspace c then trimLoop (dst.set i 0) (CInt.u32 ((i : ℤ) - 1)) else some dst
termination_by dst.countP isspace
decreasing_by exact countP_set_lt h hc

/-- Copy `src` to `dst` without the whitespace at both ends. -/
def strrmvspace (dst src : List UInt8) : Option (List UInt8) := do
  let c ← src[0]?
  if c = 0 then Block.write dst 0 [0]
  else
    let src ← skipLoop src
    let dst ← strcpy dst src
    trimLoop dst (CInt.u32 ((strlen dst : ℤ) - 1))

/-- A string without the whitespace at both ends. -/
def trimmed (s : List UInt8) : List UInt8 := (s.dropWhile isspace).rdropWhile isspace

/-! ## The loops -/

/-- The first loop stops at the first character that is not whitespace, at the latest at the NUL. -/
theorem skipLoop_eq {src : List UInt8} (h : 0 ∈ src) :
    ∃ src', skipLoop src = some src' ∧ 0 ∈ src' ∧ cstr src' = (cstr src).dropWhile isspace := by
  induction src with
  | nil => exact absurd h List.not_mem_nil
  | cons c src ih =>
    by_cases hc : isspace c
    · have hne : c ≠ 0 := by
        rintro rfl
        exact absurd hc (by decide)
      obtain ⟨src', hskip, hmem, hcstr⟩ := ih ((List.mem_cons.mp h).resolve_left hne.symm)
      refine ⟨src', by rw [skipLoop, if_pos hc, hskip], hmem, ?_⟩
      rw [hcstr, cstr, cstr, List.takeWhile_cons_of_pos (by simpa using hne),
        List.dropWhile_cons_of_pos hc]
    · refine ⟨c :: src, by rw [skipLoop, if_neg hc], h, ?_⟩
      by_cases hne : c = 0
      · rw [hne, cstr, List.takeWhile_cons_of_neg (by simp), List.dropWhile_nil]
      · rw [cstr, List.takeWhile_cons_of_pos (by simpa using hne), List.dropWhile_cons_of_neg hc]

theorem trimLoop_outside {dst : List UInt8} {i : ℕ} (h : dst.length ≤ i) : trimLoop dst i = none := by
  rw [trimLoop]
  have hget : dst[i]? = none := List.getElem?_eq_none h
  split
  · rfl
  · next heq => exact absurd (hget.symm.trans heq) (by simp)

/-- One turn of the second loop. -/
theorem trimLoop_some {dst : List UInt8} {i : ℕ} {c : UInt8} (h : dst[i]? = some c) :
    trimLoop dst i =
      if isspace c then trimLoop (dst.set i 0) (CInt.u32 ((i : ℤ) - 1)) else some dst := by
  rw [trimLoop]
  split
  · next heq => exact absurd (h.symm.trans heq) (by simp)
  · next c' heq =>
    obtain rfl : c = c' := Option.some.inj (h.symm.trans heq)
    by_cases hc : isspace c
    · rw [dif_pos hc, if_pos hc]
    · rw [dif_neg hc, if_neg hc]

/-- The index of the last character of a string, computed in `unsigned int`. -/
theorem u32_pred {n : ℕ} (hn : 0 < n) (hlt : n < 4294967296) : CInt.u32 ((n : ℤ) - 1) = n - 1 := by
  rw [CInt.u32_of_lt (by omega) (by omega)]
  omega

theorem u32_neg_one : CInt.u32 (((0 : ℕ) : ℤ) - 1) = 4294967295 := rfl

/-- The second loop overwrites the whitespace at the end of `t`, which has another character where
the loop stops. -/
theorem trimLoop_eq (t : List UInt8) (tail : List UInt8) (ht : ∃ c ∈ t, ¬ isspace c)
    (hlt : t.length < 4294967296) : ∃ k, t.length = (t.rdropWhile isspace).length + k ∧
      trimLoop (t ++ tail) (CInt.u32 ((t.length : ℤ) - 1))
        = some (t.rdropWhile isspace ++ List.replicate k 0 ++ tail) := by
  induction t using List.reverseRecOn generalizing tail with
  | nil => simp at ht
  | append_singleton t c ih =>
    have hlen : (t ++ [c]).length = t.length + 1 := List.length_append
    have hidx : CInt.u32 (((t ++ [c]).length : ℤ) - 1) = t.length := by
      rw [u32_pred (by omega) hlt]
      omega
    have hget : ((t ++ [c]) ++ tail)[t.length]? = some c := by
      rw [List.append_assoc, List.getElem?_append_right (Nat.le_refl _), Nat.sub_self]
      rfl
    rw [hidx]
    by_cases hc : isspace c
    · have ht' : ∃ d ∈ t, ¬ isspace d := by
        obtain ⟨d, hd, hdc⟩ := ht
        rcases List.mem_append.mp hd with hin | hin
        · exact ⟨d, hin, hdc⟩
        · rw [List.mem_singleton] at hin
          exact absurd (hin ▸ hc) hdc
      have hset : ((t ++ [c]) ++ tail).set t.length 0 = t ++ 0 :: tail := by
        rw [List.append_assoc, List.set_append_right _ _ (Nat.le_refl _), Nat.sub_self]
        rfl
      obtain ⟨k, hk, hloop⟩ := ih (0 :: tail) ht' (by omega)
      rw [List.rdropWhile_concat_pos isspace t c hc]
      refine ⟨k + 1, by omega, ?_⟩
      rw [trimLoop_some hget, if_pos hc, hset, hloop, List.replicate_succ']
      simp
    · rw [List.rdropWhile_concat_neg isspace t c hc]
      exact ⟨0, rfl, by rw [trimLoop_some hget, if_neg hc, List.replicate_zero, List.append_nil]⟩

/-! ## The function -/

variable {src : List UInt8}

/-- What the call leaves in `dst`: the trimmed string, NUL bytes over the whitespace behind it, and
the rest of the object as it was. -/
def leaves (dst src : List UInt8) : List UInt8 :=
  let rest := (cstr src).dropWhile isspace
  trimmed (cstr src) ++
    (List.replicate (rest.length - (trimmed (cstr src)).length + 1) 0 ++ dst.drop (rest.length + 1))

theorem length_dropWhile_le (src : List UInt8) :
    ((cstr src).dropWhile isspace).length ≤ strlen src :=
  (List.dropWhile_suffix _).length_le

/-- The copy of a string to the start of an object. -/
theorem strcpy_eq {dst : List UInt8} (h : 0 ∈ src) (hroom : strlen src + 1 ≤ dst.length) :
    strcpy dst src = some (cstr src ++ 0 :: dst.drop (strlen src + 1)) := by
  have hlen : (cstr src ++ [0]).length = strlen src + 1 := List.length_append
  rw [strcpy, if_pos h, Block.write_of_le (by omega), Block.splice, List.take_zero,
    List.nil_append, Nat.zero_add, hlen, List.append_assoc]
  rfl

/-- The call on a string that is not empty, up to the second loop. -/
theorem strrmvspace_eq {dst : List UInt8} (hsrc : 0 ∈ src) (hne : cstr src ≠ [])
    (hroom : strlen src + 1 ≤ dst.length) :
    strrmvspace dst src =
      trimLoop ((cstr src).dropWhile isspace ++
          0 :: dst.drop (((cstr src).dropWhile isspace).length + 1))
        (CInt.u32 ((((cstr src).dropWhile isspace).length : ℤ) - 1)) := by
  obtain ⟨c, hget, hend⟩ := exists_read (i := 0) hsrc
  have hc : c ≠ 0 := by
    rcases hend with ⟨-, hnil⟩ | ⟨hc, -⟩
    · exact absurd hnil hne
    · exact hc
  obtain ⟨src', hskip, hmem, hcstr⟩ := skipLoop_eq hsrc
  have hlen : strlen src' = ((cstr src).dropWhile isspace).length := by rw [strlen, hcstr]
  have hle := length_dropWhile_le src
  have hcopy := @strcpy_eq src' dst hmem (by omega)
  have hstr : strlen (cstr src' ++ 0 :: dst.drop (strlen src' + 1)) = strlen src' := by
    rw [strlen, cstr_terminated (noNul_cstr src'), strlen]
  rw [strrmvspace, hget]
  simp only [Option.bind_eq_bind, Option.bind_some, if_neg hc, hskip, hcopy, hstr]
  rw [hlen, hcstr]

theorem strrmvspace_empty {dst : List UInt8} (hsrc : 0 ∈ src) (hnil : cstr src = [])
    (hroom : strlen src + 1 ≤ dst.length) : strrmvspace dst src = some (leaves dst src) := by
  obtain ⟨c, hget, hend⟩ := exists_read (i := 0) hsrc
  have hc : c = 0 := by
    rcases hend with ⟨hc, -⟩ | ⟨-, -, hcons⟩
    · exact hc
    · rw [List.drop_zero, hnil] at hcons
      exact absurd hcons (List.cons_ne_nil _ _).symm
  rw [strrmvspace, hget]
  simp only [Option.bind_eq_bind, Option.bind_some, if_pos hc]
  rw [Block.write_of_le (by rw [List.length_singleton]; omega), leaves, hnil]
  rfl

/-- The call on a string with a character that is not whitespace. -/
theorem strrmvspace_text {dst : List UInt8} (hsrc : 0 ∈ src) (htext : ∃ c ∈ cstr src, ¬ isspace c)
    (hroom : strlen src + 1 ≤ dst.length) (hlt : strlen src < 4294967296) :
    strrmvspace dst src = some (leaves dst src) := by
  have hne : cstr src ≠ [] := by
    rintro hnil
    simp [hnil] at htext
  have hle := length_dropWhile_le src
  have hrest : ∃ c ∈ (cstr src).dropWhile isspace, ¬ isspace c := by
    by_contra hall
    push Not at hall
    obtain ⟨c, hc, hcs⟩ := htext
    rw [← List.takeWhile_append_dropWhile (p := isspace) (l := cstr src), List.mem_append] at hc
    rcases hc with hin | hin
    · exact hcs (List.mem_takeWhile_imp hin)
    · exact hcs (hall c hin)
  obtain ⟨k, hk, hloop⟩ := trimLoop_eq _ (0 :: dst.drop (((cstr src).dropWhile isspace).length + 1))
    hrest (by omega)
  have hcount : ((cstr src).dropWhile isspace).length - (trimmed (cstr src)).length = k := by
    rw [trimmed]
    omega
  rw [strrmvspace_eq hsrc hne hroom, hloop, leaves, hcount, List.replicate_succ', trimmed]
  simp

/-- The call on a string of whitespace: the length of the copy is zero, and the index of its last
character is the largest `unsigned int`. -/
theorem strrmvspace_blank {dst : List UInt8} (hsrc : 0 ∈ src) (hne : cstr src ≠ [])
    (hall : ∀ c ∈ cstr src, isspace c) (hroom : strlen src + 1 ≤ dst.length)
    (hlt : dst.length < 4294967296) : strrmvspace dst src = none := by
  have hnil : (cstr src).dropWhile isspace = [] := List.dropWhile_eq_nil_iff.mpr hall
  rw [strrmvspace_eq hsrc hne hroom, hnil, List.length_nil, u32_neg_one]
  apply trimLoop_outside
  rw [List.nil_append, List.length_cons, List.length_drop]
  omega

theorem cstr_leaves (dst src : List UInt8) : cstr (leaves dst src) = trimmed (cstr src) := by
  have hno : NoNul (trimmed (cstr src)) := fun b hb =>
    noNul_cstr src b ((List.dropWhile_suffix _).subset ((List.rdropWhile_prefix _ _).subset hb))
  rw [leaves, List.replicate_succ, List.cons_append, cstr_terminated hno]

theorem length_leaves {dst : List UInt8} (hroom : strlen src + 1 ≤ dst.length) :
    (leaves dst src).length = dst.length := by
  have hle := length_dropWhile_le src
  have htrim : (trimmed (cstr src)).length ≤ ((cstr src).dropWhile isspace).length :=
    (List.rdropWhile_prefix _ _).length_le
  simp only [leaves, List.length_append, List.length_replicate, List.length_drop]
  omega

/-- What a call leaves in the first bytes of an object is what it leaves in an object of these bytes
only. -/
theorem leaves_take_append {dst : List UInt8} (hroom : strlen src + 1 ≤ dst.length) :
    leaves (dst.take (strlen src + 1)) src ++ dst.drop (strlen src + 1) = leaves dst src := by
  have hle := length_dropWhile_le src
  have hdrop : (dst.take (strlen src + 1)).drop (((cstr src).dropWhile isspace).length + 1)
      ++ dst.drop (strlen src + 1) = dst.drop (((cstr src).dropWhile isspace).length + 1) := by
    rw [← List.drop_append_of_le_length (by rw [List.length_take]; omega),
      List.take_append_drop]
  simp only [leaves, List.append_assoc, hdrop]

/-- The call leaves the trimmed source string in `dst`, and it stays in the first
`strlen(src) + 1` bytes of it: it runs with these bytes alone, and the others are as they were. -/
def Trims (dst src : List UInt8) : Prop :=
  ∃ out, out.length = strlen src + 1 ∧
    strrmvspace (dst.take (strlen src + 1)) src = some out ∧
    strrmvspace dst src = some (out ++ dst.drop (strlen src + 1)) ∧
    0 ∈ out ∧ cstr out = trimmed (cstr src)

theorem trims_of_leaves {dst : List UInt8} (hroom : strlen src + 1 ≤ dst.length)
    (h : ∀ obj : List UInt8, strlen src + 1 ≤ obj.length →
      strrmvspace obj src = some (leaves obj src)) : Trims dst src := by
  have htake : (dst.take (strlen src + 1)).length = strlen src + 1 := by
    rw [List.length_take]
    omega
  refine ⟨leaves (dst.take (strlen src + 1)) src, ?_, h _ (Nat.le_of_eq htake.symm), ?_, ?_,
    cstr_leaves _ src⟩
  · rw [length_leaves (Nat.le_of_eq htake.symm), htake]
  · rw [leaves_take_append hroom]
    exact h dst hroom
  · rw [leaves, List.replicate_succ]
    simp

theorem not_trims_of_blank {dst : List UInt8} (hsrc : 0 ∈ src) (hne : cstr src ≠ [])
    (hall : ∀ c ∈ cstr src, isspace c) (hroom : strlen src + 1 ≤ dst.length)
    (hlt : dst.length < 4294967296) : ¬ Trims dst src := by
  rintro ⟨out, -, -, hcall, -⟩
  rw [strrmvspace_blank hsrc hne hall hroom hlt] at hcall
  exact absurd hcall.symm (Option.some_ne_none _)

/-- `strrmvspace` trims a string into an object with room for it iff the string is empty or has a
character that is not whitespace. -/
theorem strrmvspace_trims_iff (dst : Object) (hsrc : 0 ∈ src)
    (hroom : strlen src + 1 ≤ dst.bytes.length) :
    Trims dst.bytes src ↔ cstr src = [] ∨ ∃ c ∈ cstr src, ¬ isspace c := by
  have hlt := dst.length_lt
  constructor
  · intro h
    by_contra hno
    push Not at hno
    exact not_trims_of_blank hsrc hno.1 hno.2 hroom hlt h
  · rintro (hnil | htext)
    · exact trims_of_leaves hroom fun _ hobj => strrmvspace_empty hsrc hnil hobj
    · exact trims_of_leaves hroom fun _ hobj =>
        strrmvspace_text hsrc htext hobj (by omega)

/-- `" a b "` is trimmed to `"a b"`. -/
theorem strrmvspace_trims_inner :
    Trims [1, 2, 3, 4, 5, 6, 7] [32, 97, 32, 98, 32, 0] ↔
      cstr [32, 97, 32, 98, 32, 0] = [] ∨ ∃ c ∈ cstr [32, 97, 32, 98, 32, 0], ¬ isspace c :=
  strrmvspace_trims_iff ⟨[1, 2, 3, 4, 5, 6, 7], by decide⟩ (by decide) (by decide)

/-- A single blank is not trimmed: the call reads `dst[4294967295]`. -/
theorem strrmvspace_blank_outside :
    ¬ ∀ (dst : Object) (src : List UInt8), 0 ∈ src → strlen src + 1 ≤ dst.bytes.length →
      Trims dst.bytes src := by
  intro h
  have hlen : strlen [32, 0] + 1 ≤ [1, 2].length := by decide
  have hall : ∀ c ∈ cstr [32, 0], isspace c := List.forall_mem_singleton.mpr rfl
  have hnot : ¬ Trims [1, 2] [32, 0] :=
    not_trims_of_blank (by decide) (List.cons_ne_nil 32 []) hall hlen (by decide)
  exact hnot (h ⟨[1, 2], by decide⟩ [32, 0] (by decide) hlen)

end NuAgent.Text
