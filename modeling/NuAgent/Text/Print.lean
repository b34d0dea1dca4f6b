import Mathlib.Algebra.Order.BigOperators.Group.List
import NuAgent.Lib.CInt
import NuAgent.Lib.CString
import NuAgent.Lib.Numeral

/-!
# The log formatter

`print` of `User/log.c` and the functions it prints numbers and strings with. The result is the
bytes that `printch` sends, in order. The format and the strings are pieces of memory, and a read
behind their end has no result, nor has taking an argument of another type than the next one has.
The text of a floating point number is the parameter `printflt`, for a type `F` of such numbers.
-/

open CString Numeral

namespace NuAgent.Text

/-! ## Printing numbers and strings -/

/-- The recursion of `printdec`, `printbin` and `printhex`: the digits of the quotient first, and
for zero the text `zero`. The division is the one of C, towards zero. -/
def printNum (base : ℤ) (hb : 1 < base) (zero : List UInt8) (char : ℤ → UInt8) (x : ℤ) :
    List UInt8 :=
  if x = 0 then zero
  else printNum base hb zero char (x.tdiv base) ++ [char (x.tmod base)]
termination_by x.natAbs
decreasing_by
  rw [Int.natAbs_tdiv]
  exact Nat.div_lt_self (by omega) (by omega)

/-- `(char)(r + '0')`. -/
def decChar (r : ℤ) : UInt8 := UInt8.ofInt (r + 48)

/-- `(char)(r < 10) ? r+'0' : (r-10)+'A'`. -/
def hexChar (r : ℤ) : UInt8 := UInt8.ofInt (if r < 10 then r + 48 else r - 10 + 65)

/-- `printdec`. -/
def printdec (dec : Int32) : List UInt8 := printNum 10 (by omega) [] decChar dec.toInt

/-- `printbin`. -/
def printbin (bin : Int32) : List UInt8 :=
  printNum 2 (by omega) ['0'.toUInt8, 'b'.toUInt8] decChar bin.toInt

/-- `printhex`. -/
def printhex (hex : Int32) : List UInt8 := printNum 16 (by omega) [] hexChar hex.toInt

/-- `printstr`. -/
def printstr : List UInt8 → Option (List UInt8)
  | [] => none
  | c :: str => if c ≠ 0 then do return c :: (← printstr str) else some []

/-! ## The formatter -/

/-- An argument: an integer, a floating point number, or a pointer to a string. -/
inductive Arg (F : Type)
  | int (v : Int32)
  | flt (x : F)
  | str (mem : List UInt8)

section Model

variable {F : Type}

/-- `va_arg(vp, int)`. -/
def vaInt : List (Arg F) → Option (Int32 × List (Arg F))
  | .int v :: vp => some (v, vp)
  | _ => none

/-- `va_arg(vp, double)`. -/
def vaFlt : List (Arg F) → Option (F × List (Arg F))
  | .flt x :: vp => some (x, vp)
  | _ => none

/-- `va_arg(vp, char*)`. -/
def vaStr : List (Arg F) → Option (List UInt8 × List (Arg F))
  | .str mem :: vp => some (mem, vp)
  | _ => none

variable (printflt : F → List UInt8)

/-- The `switch` on the character behind a `%`: what it prints and the arguments left. -/
def directive (c : UInt8) (vp : List (Arg F)) : Option (List UInt8 × List (Arg F)) :=
  if c = 'c'.toUInt8 then do
    let (vargch, vp) ← vaInt vp
    return ([vargch.toUInt32.toUInt8], vp)
  else if c = 'd'.toUInt8 ∨ c = 'i'.toUInt8 then do
    let (vargint, vp) ← vaInt vp
    return (printdec vargint, vp)
  else if c = 'f'.toUInt8 then do
    let (vargflt, vp) ← vaFlt vp
    return (printflt vargflt, vp)
  else if c = 's'.toUInt8 then do
    let (vargpch, vp) ← vaStr vp
    return (← printstr vargpch, vp)
  else if c = 'b'.toUInt8 ∨ c = 'B'.toUInt8 then do
    let (vargint, vp) ← vaInt vp
    return (printbin vargint, vp)
  else if c = 'x'.toUInt8 ∨ c = 'X'.toUInt8 then do
    let (vargint, vp) ← vaInt vp
    return (printhex vargint, vp)
  else if c = '%'.toUInt8 then some (['%'.toUInt8], vp)
  else some ([], vp)

/-- Print a format with its arguments. -/
def print : List UInt8 → List (Arg F) → Option (List UInt8)
  | [], _ => none
  | c :: fmt, vp =>
    if c = 0 then some []
    else if c = '%'.toUInt8 then
      -- the character behind `%` is taken whatever it is, also the NUL byte
      match fmt with
      | [] => none
      | d :: fmt => do
        let (out, vp) ← directive printflt d vp
        return out ++ (← print fmt vp)
    else do return c :: (← print fmt vp)

end Model

/-! ## Formats -/

/-- A piece of a format, with the argument that belongs to it. -/
inductive Piece
  | lit (c : UInt8) (hc : c ≠ 0 ∧ c ≠ '%'.toUInt8)
  | chr (v : Int32)
  | dec (c : UInt8) (hc : c = 'd'.toUInt8 ∨ c = 'i'.toUInt8) (v : Int32)
  | hex (c : UInt8) (hc : c = 'x'.toUInt8 ∨ c = 'X'.toUInt8) (v : Int32)
  | str (s : List UInt8) (hs : NoNul s)
  | percent

namespace Piece

/-- The bytes of a piece in the format. -/
def bytes : Piece → List UInt8
  | lit c _ => [c]
  | chr _ => ['%'.toUInt8, 'c'.toUInt8]
  | dec c _ _ => ['%'.toUInt8, c]
  | hex c _ _ => ['%'.toUInt8, c]
  | str _ _ => ['%'.toUInt8, 's'.toUInt8]
  | percent => ['%'.toUInt8, '%'.toUInt8]

/-- The arguments of a piece. -/
def args (F : Type) : Piece → List (Arg F)
  | lit _ _ => []
  | chr v => [.int v]
  | dec _ _ v => [.int v]
  | hex _ _ v => [.int v]
  | str s _ => [.str (s ++ [0])]
  | percent => []

/-- What C's format says about a piece: integers are printed in decimal with a minus sign, or in
hexadecimal in upper case by the value of their 32 bits, as canonical numerals. -/
def expected : Piece → List UInt8
  | lit c _ => [c]
  | chr v => [v.toUInt32.toUInt8]
  | dec _ _ v => sign v.toInt ++ text 'A'.toUInt8 10 v.toInt.natAbs
  | hex _ _ v => text 'A'.toUInt8 16 v.toUInt32.toNat
  | str s _ => s
  | percent => ['%'.toUInt8]

/-- What `print` prints for a piece. -/
def out : Piece → List UInt8
  | lit c _ => [c]
  | chr v => [v.toUInt32.toUInt8]
  | dec _ _ v => printdec v
  | hex _ _ v => printhex v
  | str s _ => s
  | percent => ['%'.toUInt8]

/-- The integer of a numeral directive is positive. -/
def Positive : Piece → Prop
  | dec _ _ v => 0 < v
  | hex _ _ v => 0 < v
  | _ => True

end Piece

/-- A format: pieces, and possibly a lone `%` at the end. -/
structure Format where
  pieces : List Piece
  lone : Bool

namespace Format

def bytes (fmt : Format) : List UInt8 :=
  fmt.pieces.flatMap Piece.bytes ++ if fmt.lone then ['%'.toUInt8] else []

def args (F : Type) (fmt : Format) : List (Arg F) := fmt.pieces.flatMap (Piece.args F)

def expected (fmt : Format) : List UInt8 := fmt.pieces.flatMap Piece.expected

end Format

/-! ## Numbers -/

section Numbers

variable {b : ℕ} {hb : (1 : ℤ) < b} {char : ℤ → UInt8}

/-- The digits of `n`, or of `-n`, where the remainders are negative. -/
theorem printNum_eq (s : ℤ) (hs : s = 1 ∨ s = -1) (n : ℕ) (hn : 0 < n) :
    printNum b hb [] char (s * n) = (numeral b n).map fun d : ℕ => char (s * d) := by
  induction n using Nat.strong_induction_on with
  | h n ih =>
    have hdiv : (s * n).tdiv b = s * (n / b : ℕ) := by
      rcases hs with rfl | rfl
      · rw [one_mul, one_mul, Int.ofNat_tdiv]
      · rw [neg_one_mul, neg_one_mul, Int.neg_tdiv, Int.ofNat_tdiv]
    have hmod : (s * n).tmod b = s * (n % b : ℕ) := by
      rcases hs with rfl | rfl
      · rw [one_mul, one_mul, Int.ofNat_tmod]
      · rw [neg_one_mul, neg_one_mul, Int.neg_tmod, Int.ofNat_tmod]
    have hne : s * (n : ℤ) ≠ 0 := by
      rcases hs with rfl | rfl <;> omega
    rw [printNum, if_neg hne, hdiv, hmod]
    by_cases hlt : n < b
    · rw [Nat.div_eq_of_lt hlt, Nat.mod_eq_of_lt hlt, numeral_of_lt hlt, printNum,
        if_pos (by simp)]
      rfl
    · have hpos : 0 < n / b := Nat.div_pos (by omega) (by omega)
      rw [ih (n / b) (Nat.div_lt_self hn (by omega)) hpos,
        numeral_of_le (n := n) (by omega) (by omega), List.map_append]
      rfl

/-- A positive number. -/
theorem printNum_of_pos {x : ℤ} (hx : 0 < x) :
    printNum b hb [] char x = (numeral b x.natAbs).map fun d : ℕ => char d := by
  have hprint := @printNum_eq b hb char 1 (Or.inl rfl) x.natAbs (by omega)
  simp only [one_mul] at hprint
  rwa [Int.natAbs_of_nonneg (by omega)] at hprint

/-- A negative number. -/
theorem printNum_of_neg {x : ℤ} (hx : x < 0) :
    printNum b hb [] char x = (numeral b x.natAbs).map fun d : ℕ => char (-d) := by
  have hprint := @printNum_eq b hb char (-1) (Or.inr rfl) x.natAbs (by omega)
  simp only [neg_one_mul] at hprint
  rwa [Int.ofNat_natAbs_of_nonpos (by omega), Int.neg_neg] at hprint

theorem printNum_zero (zero : List UInt8) : printNum b hb zero char 0 = zero := by
  rw [printNum, if_pos rfl]

end Numbers

theorem decChar_eq : ∀ d < 10, decChar (d : ℕ) = digit 'A'.toUInt8 d := by decide

theorem hexChar_eq : ∀ d < 16, hexChar (d : ℕ) = digit 'A'.toUInt8 d := by decide

/-- A negative remainder is printed as a character before the digits. -/
theorem hexChar_neg_lt : ∀ d < 16, d ≠ 0 → hexChar (-(d : ℕ)) < '0'.toUInt8 := by decide

theorem zero_le_digit : ∀ d < 16, '0'.toUInt8 ≤ digit 'A'.toUInt8 d := by decide

section Integers

variable {v : Int32}

theorem printdec_of_pos (hv : 0 < v.toInt) :
    printdec v = text 'A'.toUInt8 10 v.toInt.natAbs := by
  rw [printdec, text]
  refine (printNum_of_pos (b := 10) hv).trans (List.map_congr_left fun d hd => ?_)
  exact decChar_eq d (numeral_lt (by omega) d hd)

/-- A number that is not positive is printed too short: without its sign, or not at all. -/
theorem length_printdec_lt (hv : v.toInt ≤ 0) :
    (printdec v).length < (sign v.toInt ++ text 'A'.toUInt8 10 v.toInt.natAbs).length := by
  have hpos := length_numeral_pos 10 v.toInt.natAbs
  rw [List.length_append, length_text]
  by_cases hzero : v.toInt = 0
  · have hnil : printdec v = [] := by
      rw [printdec, hzero]
      exact printNum_zero (b := 10) []
    rw [hnil, List.length_nil]
    omega
  · have hneg : v.toInt < 0 := by omega
    have hlen : (printdec v).length = (numeral 10 v.toInt.natAbs).length := by
      rw [printdec]
      exact (congrArg List.length (printNum_of_neg (b := 10) hneg)).trans (List.length_map _)
    rw [hlen, sign, if_pos hneg, List.length_singleton]
    omega

theorem printhex_of_pos (hv : 0 < v.toInt) :
    printhex v = text 'A'.toUInt8 16 v.toUInt32.toNat := by
  have hbits : v.toInt.natAbs = v.toUInt32.toNat := by
    have hcond := CInt.toInt_int32 v
    have hlt := v.toUInt32.toNat_lt
    split_ifs at hcond <;> omega
  rw [printhex, text, ← hbits]
  refine (printNum_of_pos (b := 16) hv).trans (List.map_congr_left fun d hd => ?_)
  exact hexChar_eq d (numeral_lt (by omega) d hd)

/-- The digits of a negative number are not more than those of its 32 bits, but the first of them is
printed as another character. -/
theorem printhex_of_neg (hv : v.toInt < 0) :
    (printhex v).length ≤ (text 'A'.toUInt8 16 v.toUInt32.toNat).length ∧
      printhex v ≠ text 'A'.toUInt8 16 v.toUInt32.toNat := by
  have hcond := CInt.toInt_int32 v
  have hlt := v.toUInt32.toNat_lt
  have hprint : printhex v = (numeral 16 v.toInt.natAbs).map _ := printNum_of_neg (b := 16) hv
  rw [hprint]
  constructor
  · rw [List.length_map, length_text]
    apply length_numeral_mono
    split_ifs at hcond <;> omega
  · intro heq
    have hhead := congrArg List.head? heq
    obtain ⟨d, hd, hfirst⟩ := head?_numeral (b := 16) (n := v.toInt.natAbs) (by omega)
    obtain ⟨e, he, hfirst'⟩ := head?_numeral (b := 16) (n := v.toUInt32.toNat) (by omega)
    have hdlt : d < 16 := numeral_lt (by omega) d (List.mem_of_head? hfirst)
    have helt : e < 16 := numeral_lt (by omega) e (List.mem_of_head? hfirst')
    rw [text, List.head?_map, List.head?_map, hfirst, hfirst'] at hhead
    have hchar : digit 'A'.toUInt8 e < '0'.toUInt8 :=
      calc digit 'A'.toUInt8 e = hexChar (-d) := (Option.some.inj hhead).symm
        _ < '0'.toUInt8 := hexChar_neg_lt d hdlt hd
    exact UInt8.not_lt.mpr (zero_le_digit e helt) hchar

theorem printhex_zero (hv : v.toInt = 0) : printhex v = [] := by
  rw [printhex, hv]
  exact printNum_zero (b := 16) []

end Integers

/-! ## Pieces -/

/-- Pieces that are not longer than what they stand for make up the same text only if each of them is
what it stands for. -/
theorem flatMap_eq_iff {α β : Type*} {l : List α} {f g : α → List β}
    (h : ∀ a ∈ l, (f a).length ≤ (g a).length) :
    l.flatMap f = l.flatMap g ↔ ∀ a ∈ l, f a = g a := by
  constructor
  · intro heq
    induction l with
    | nil => exact fun a ha => absurd ha List.not_mem_nil
    | cons a l ih =>
      have hl : ∀ b ∈ l, (f b).length ≤ (g b).length := fun b hb => h b (List.mem_cons_of_mem a hb)
      have hhead := h a List.mem_cons_self
      have htail : (l.flatMap f).length ≤ (l.flatMap g).length := by
        rw [List.length_flatMap, List.length_flatMap]
        exact List.sum_le_sum hl
      rw [List.flatMap_cons, List.flatMap_cons] at heq
      have hlen := congrArg List.length heq
      rw [List.length_append, List.length_append] at hlen
      obtain ⟨ha, hrest⟩ := List.append_inj heq (by omega)
      exact List.forall_mem_cons.mpr ⟨ha, ih hl hrest⟩
  · exact fun heq => List.flatMap_congr heq

namespace Piece

theorem length_out_le (p : Piece) : p.out.length ≤ p.expected.length := by
  cases p with
  | lit c hc => exact Nat.le_refl _
  | chr v => exact Nat.le_refl _
  | str s hs => exact Nat.le_refl _
  | percent => exact Nat.le_refl _
  | dec c hc v =>
    by_cases hv : 0 < v.toInt
    · rw [out, expected, printdec_of_pos hv, List.length_append]
      omega
    · exact Nat.le_of_lt (length_printdec_lt (by omega))
  | hex c hc v =>
    rcases Int.lt_trichotomy v.toInt 0 with hv | hv | hv
    · exact (printhex_of_neg hv).1
    · rw [out, printhex_zero hv]
      exact Nat.zero_le _
    · exact Nat.le_of_eq (congrArg List.length (printhex_of_pos hv))

/-- A piece is printed as C's format says iff its integer, if it is printed as a numeral, is
positive. -/
theorem out_eq_iff (p : Piece) : p.out = p.expected ↔ p.Positive := by
  cases p with
  | lit c hc => exact iff_of_true rfl trivial
  | chr v => exact iff_of_true rfl trivial
  | str s hs => exact iff_of_true rfl trivial
  | percent => exact iff_of_true rfl trivial
  | dec c hc v =>
    have hpos : 0 < v ↔ 0 < v.toInt := Int32.lt_iff_toInt_lt
    rw [Positive, hpos]
    by_cases hv : 0 < v.toInt
    · refine iff_of_true ?_ hv
      rw [out, expected, printdec_of_pos hv, sign, if_neg (by omega), List.nil_append]
    · refine iff_of_false (fun heq => ?_) hv
      exact absurd (congrArg List.length heq) (Nat.ne_of_lt (length_printdec_lt (by omega)))
  | hex c hc v =>
    have hpos : 0 < v ↔ 0 < v.toInt := Int32.lt_iff_toInt_lt
    rw [Positive, hpos]
    rcases Int.lt_trichotomy v.toInt 0 with hv | hv | hv
    · exact iff_of_false (printhex_of_neg hv).2 (by omega)
    · refine iff_of_false (fun heq => ?_) (by omega)
      have hlen := congrArg List.length heq
      rw [out, printhex_zero hv, expected, length_text, List.length_nil] at hlen
      exact absurd hlen (Nat.ne_of_lt (length_numeral_pos _ _))
    · exact iff_of_true (printhex_of_pos hv) hv

end Piece

section Formatter

variable {F : Type} (printflt : F → List UInt8)

/-- `printstr` prints the string that its memory starts with. -/
theorem printstr_eq {s : List UInt8} (hs : NoNul s) (rest : List UInt8) :
    printstr (s ++ 0 :: rest) = some s := by
  induction s with
  | nil => rfl
  | cons c s ih =>
    have hc : c ≠ 0 := hs c List.mem_cons_self
    rw [List.cons_append, printstr, if_pos hc, ih fun b hb => hs b (List.mem_cons_of_mem c hb)]
    rfl

/-- A directive is taken with the character behind the `%`. -/
theorem print_directive {c : UInt8} {fmt out : List UInt8} {vp vp' : List (Arg F)}
    (h : directive printflt c vp = some (out, vp')) :
    print printflt ('%'.toUInt8 :: c :: fmt) vp = (print printflt fmt vp').map (out ++ ·) := by
  have hnul : '%'.toUInt8 ≠ 0 := by decide
  rw [print, if_neg hnul, if_pos rfl]
  simp only [h, Option.bind_eq_bind, Option.bind_some]
  cases print printflt fmt vp' <;> rfl

/-- Any other character but NUL is printed as it is. -/
theorem print_char {c : UInt8} {fmt : List UInt8} {vp : List (Arg F)}
    (hc : c ≠ 0 ∧ c ≠ '%'.toUInt8) :
    print printflt (c :: fmt) vp = (print printflt fmt vp).map ([c] ++ ·) := by
  rw [print.eq_def]
  simp only [if_neg hc.1, if_neg hc.2]
  cases print printflt fmt vp <;> rfl

/-- Printing a piece and going on behind it. -/
theorem print_piece (p : Piece) (fmt : List UInt8) (vp : List (Arg F)) :
    print printflt (p.bytes ++ fmt) (p.args F ++ vp)
      = (print printflt fmt vp).map (p.out ++ ·) := by
  cases p with
  | lit c hc => exact print_char printflt hc
  | chr v => exact print_directive printflt rfl
  | dec c hc v =>
    refine print_directive printflt ?_
    rcases hc with rfl | rfl <;> rfl
  | hex c hc v =>
    refine print_directive printflt ?_
    rcases hc with rfl | rfl <;> rfl
  | str s hs =>
    refine print_directive printflt ?_
    have hstr := printstr_eq hs []
    change ((printstr (s ++ [0])).bind fun out => some (out, vp)) = some (s, vp)
    rw [hstr]
    rfl
  | percent => exact print_directive printflt rfl

/-- Printing all the pieces of a format. -/
theorem print_pieces (pieces : List Piece) (fmt : List UInt8) (vp : List (Arg F)) :
    print printflt (pieces.flatMap Piece.bytes ++ fmt) (pieces.flatMap (Piece.args F) ++ vp)
      = (print printflt fmt vp).map (pieces.flatMap Piece.out ++ ·) := by
  induction pieces with
  | nil =>
    cases h : print printflt fmt vp <;> simp [h]
  | cons p pieces ih =>
    rw [List.flatMap_cons, List.flatMap_cons, List.flatMap_cons, List.append_assoc,
      List.append_assoc, print_piece, ih, Option.map_map]
    congr 1
    funext s
    exact (List.append_assoc _ _ _).symm

/-- What `print` does with a format whose memory ends at its NUL byte. -/
theorem print_format (fmt : Format) : print printflt (fmt.bytes ++ [0]) (fmt.args F) =
    if fmt.lone then none else some (fmt.pieces.flatMap Piece.out) := by
  have hprint := fun tail => print_pieces printflt fmt.pieces tail []
  simp only [List.append_nil] at hprint
  rw [Format.bytes, Format.args, List.append_assoc, hprint]
  cases fmt.lone with
  | false =>
    rw [if_neg Bool.false_ne_true, if_neg Bool.false_ne_true, List.nil_append, print,
      if_pos rfl, Option.map_some, List.append_nil]
  | true =>
    -- the NUL byte is taken as the directive, and the scan goes on behind it
    rw [if_pos rfl, if_pos rfl, List.singleton_append, print_directive printflt rfl, print]
    rfl

/-- A call that prints what C's format says, and reads no byte behind the NUL of the format. -/
def Prints (fmt : Format) : Prop :=
  print printflt (fmt.bytes ++ [0]) (fmt.args F) = some fmt.expected

/-- `print` prints what C's format says iff the format does not end in a lone `%` and the integers
that are printed as numerals are positive. -/
theorem prints_iff (fmt : Format) :
    Prints printflt fmt ↔ fmt.lone = false ∧ ∀ p ∈ fmt.pieces, p.Positive := by
  have hpieces : fmt.pieces.flatMap Piece.out = fmt.expected ↔ ∀ p ∈ fmt.pieces, p.Positive := by
    rw [Format.expected, flatMap_eq_iff fun p _ => p.length_out_le]
    exact forall₂_congr fun p _ => p.out_eq_iff
  rw [Prints, print_format]
  cases fmt.lone with
  | false =>
    rw [if_neg Bool.false_ne_true, Option.some.injEq, hpieces]
    exact (and_iff_right rfl).symm
  | true =>
    rw [if_pos rfl]
    exact iff_of_false (Option.some_ne_none _).symm fun h => Bool.false_ne_true h.1.symm

/-- `"%d"` with the argument 0 prints nothing. -/
theorem prints_zero_not :
    ¬ ∀ (F : Type) (printflt : F → List UInt8) (fmt : Format), Prints printflt fmt := by
  intro h
  have hdec := h Empty Empty.elim ⟨[.dec 'd'.toUInt8 (Or.inl rfl) 0], false⟩
  have hout : [Piece.dec 'd'.toUInt8 (Or.inl rfl) 0].flatMap Piece.out
      = [Piece.dec 'd'.toUInt8 (Or.inl rfl) 0].flatMap Piece.expected :=
    Option.some.inj ((print_format Empty.elim _).symm.trans hdec)
  rw [List.flatMap_singleton, List.flatMap_singleton] at hout
  have hpos : (0 : Int32) < 0 := (Piece.out_eq_iff _).mp hout
  exact absurd hpos (by decide)

end Formatter

end NuAgent.Text
