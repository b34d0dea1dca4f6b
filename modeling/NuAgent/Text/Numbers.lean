import NuAgent.Lib.CInt
import NuAgent.Lib.CString
import NuAgent.Lib.Numeral
import NuAgent.Lib.Overlay

/-!
# Integers and texts

`utoa`, `itoa` and `atou_hex` of `Lib/str_lib.c`. Memory is a function from addresses to bytes, and
`none` is the null pointer. `utoa` calls itself on the buffer that it fills, and neither it nor the
scans to a NUL byte need to come to an end for every argument, so that each is given a number of
steps and has no result when these do not suffice.
-/

open CString Memory Numeral

namespace NuAgent.Text

/-- The bytes that `s` of `utoa` points to. -/
def digitTable : List UInt8 := "0123456789abcdefghijklmnopqrstuvwxyz".toList.map Char.toUInt8 ++ [0]

/-- `for (; *p; p++);` -/
def toNul : ℕ → (ℕ → UInt8) → ℕ → Option ℕ
  | 0, _, _ => none
  | fuel + 1, mem, p => if mem p ≠ 0 then toNul fuel mem (p + 1) else some p

/-- Write `val` in base `radix` to `buf`. -/
def utoa : ℕ → UInt32 → Option ℕ → Int32 → (ℕ → UInt8) → Option (Option ℕ × (ℕ → UInt8))
  | 0, _, _, _, _ => none
  | fuel + 1, val, buf, radix, mem =>
    let radix := if radix = 0 then 10 else radix
    match buf with
    | none => some (none, mem)
    | some b =>
      if val < radix.toUInt32 then do
        let c ← digitTable[val.toNat]?
        return (some b, overlay mem b [c, 0])
      else do
        let (text, mem) ← utoa fuel (val / radix.toUInt32) (some b) radix mem
        let p ← toNul (fuel + 1) mem (← text)
        let (_, mem) ← utoa fuel (val % radix.toUInt32) (some p) radix mem
        return (some b, mem)

/-- Write `val` in base `radix` to `buf`, behind a minus sign if it is negative. The negation wraps
around. -/
def itoa (fuel : ℕ) (val : Int32) (buf : Option ℕ) (radix : Int32) (mem : ℕ → UInt8) :
    Option (Option ℕ × (ℕ → UInt8)) :=
  let radix := if radix = 0 then 10 else radix
  match buf with
  | none => some (none, mem)
  | some b => do
    let (_, mem) ←
      if val < 0 then utoa fuel (-val).toUInt32 (some (b + 1)) radix (overlay mem b ['-'.toUInt8])
      else utoa fuel val.toUInt32 (some b) radix mem
    return (some b, mem)

/-- The value of a hexadecimal digit, in the order of the tests of `atou_hex`. -/
def hexDigit (c : UInt8) : Option UInt32 :=
  if '0'.toUInt8 ≤ c ∧ c ≤ '9'.toUInt8 then some (c - '0'.toUInt8).toUInt32
  else if 'A'.toUInt8 ≤ c ∧ c ≤ 'F'.toUInt8 then some (c - 'A'.toUInt8 + 10).toUInt32
  else if 'a'.toUInt8 ≤ c ∧ c ≤ 'f'.toUInt8 then some (c - 'a'.toUInt8 + 10).toUInt32
  else none

/-- The loop of `atou_hex`. -/
def atouHexLoop : ℕ → (ℕ → UInt8) → ℕ → UInt32 → Option UInt32
  | 0, _, _, _ => none
  | fuel + 1, mem, s, value =>
    if mem s ≠ 0 then
      match hexDigit (mem s) with
      | some d => atouHexLoop fuel mem (s + 1) (value * 16 + d)
      | none => some value
    else some value

/-- Read a hexadecimal number. -/
def atouHex (fuel : ℕ) (mem : ℕ → UInt8) : Option ℕ → Option UInt32
  | none => some 0
  | some s => atouHexLoop fuel mem s 0

/-! ## Digits -/

/-- The character of a digit in lower case. -/
def lower (d : ℕ) : UInt8 := digit 'a'.toUInt8 d

theorem digitTable_getElem? : ∀ d < 36, digitTable[d]? = some (lower d) := by decide

theorem lower_ne_zero : ∀ d < 36, lower d ≠ 0 := by decide

theorem hexDigit_lower : ∀ d < 16, hexDigit (lower d) = some (UInt32.ofNat d) := by decide

/-- The characters of digits below 36 are a string. -/
theorem noNul_map_lower {ds : List ℕ} (h : ∀ d ∈ ds, d < 36) : NoNul (ds.map lower) := by
  intro c hc
  obtain ⟨d, hd, rfl⟩ := List.mem_map.mp hc
  exact lower_ne_zero d (h d hd)

/-! ## Scans -/

/-- The scan over a string that lies at `p`. -/
theorem toNul_eq {mem : ℕ → UInt8} {p : ℕ} {s : List UInt8} {fuel : ℕ} (hs : NoNul s)
    (hmem : window mem p (s.length + 1) = s ++ [0]) (hfuel : s.length < fuel) :
    toNul fuel mem p = some (p + s.length) := by
  induction s generalizing p fuel with
  | nil =>
    obtain ⟨fuel, rfl⟩ := Nat.exists_eq_add_one.mpr (Nat.zero_lt_of_lt hfuel)
    have hend : mem p = 0 := by
      rw [List.length_nil, window_cons] at hmem
      exact (List.cons.inj hmem).1
    rw [toNul, if_neg (not_not_intro hend)]
    rfl
  | cons c s ih =>
    obtain ⟨fuel, rfl⟩ := Nat.exists_eq_add_one.mpr (Nat.zero_lt_of_lt hfuel)
    rw [List.length_cons, window_cons, List.cons_append] at hmem
    obtain ⟨hc, hrest⟩ := List.cons.inj hmem
    have hne : mem p ≠ 0 := hc ▸ hs c List.mem_cons_self
    rw [List.length_cons] at hfuel
    rw [toNul, if_pos hne, ih (fun b hb => hs b (List.mem_cons_of_mem c hb)) hrest (by omega),
      List.length_cons]
    congr 1
    omega

/-- The loop of `atou_hex` over digits that lie at `s` takes them up one by one. -/
theorem atouHexLoop_eq {mem : ℕ → UInt8} {s : ℕ} {ds : List ℕ} {fuel : ℕ} (hds : ∀ d ∈ ds, d < 16)
    (hmem : window mem s (ds.length + 1) = ds.map lower ++ [0]) (hfuel : ds.length < fuel)
    (acc : UInt32) : atouHexLoop fuel mem s acc
      = some (ds.foldl (fun acc d => acc * 16 + UInt32.ofNat d) acc) := by
  induction ds generalizing s fuel acc with
  | nil =>
    obtain ⟨fuel, rfl⟩ := Nat.exists_eq_add_one.mpr (Nat.zero_lt_of_lt hfuel)
    have hend : mem s = 0 := by
      rw [List.length_nil, window_cons] at hmem
      exact (List.cons.inj hmem).1
    rw [atouHexLoop, if_neg (not_not_intro hend)]
    rfl
  | cons d ds ih =>
    obtain ⟨fuel, rfl⟩ := Nat.exists_eq_add_one.mpr (Nat.zero_lt_of_lt hfuel)
    rw [List.length_cons, window_cons, List.map_cons, List.cons_append] at hmem
    obtain ⟨hd, hrest⟩ := List.cons.inj hmem
    have hlt : d < 16 := hds d List.mem_cons_self
    have hne : mem s ≠ 0 := hd ▸ lower_ne_zero d (by omega)
    rw [List.length_cons] at hfuel
    rw [atouHexLoop, if_pos hne, hd, hexDigit_lower d hlt]
    exact ih (fun e he => hds e (List.mem_cons_of_mem d he)) hrest (by omega) _

/-- Taking up digits in 32 bits gives the value of the digits in 32 bits. -/
theorem foldl_ofNat (ds : List ℕ) (n : ℕ) :
    ds.foldl (fun acc d => acc * 16 + UInt32.ofNat d) (UInt32.ofNat n)
      = UInt32.ofNat (ds.foldl (fun acc d => acc * 16 + d) n) := by
  induction ds generalizing n with
  | nil => rfl
  | cons d ds ih =>
    rw [List.foldl_cons, List.foldl_cons, ← ih, UInt32.ofNat_add, UInt32.ofNat_mul]
    rfl

/-! ## Writing -/

/-- A text as it is written: the characters and the NUL byte. -/
def terminated (b n : ℕ) : List UInt8 := (numeral b n).map lower ++ [0]

section
variable {radix : Int32} {b : ℕ}

/-- A base that `utoa` has digits for. -/
structure Base (radix : Int32) (b : ℕ) : Prop where
  two_le : 2 ≤ b
  le : b ≤ 36
  toNat_eq : radix.toUInt32.toNat = b

theorem Base.ne_zero (h : Base radix b) : radix ≠ 0 := by
  rintro rfl
  have hb : (0 : Int32).toUInt32.toNat = b := h.toNat_eq
  have h2 := h.two_le
  rw [← hb] at h2
  exact absurd h2 (by decide)

theorem Base.digits_lt (h : Base radix b) (n : ℕ) : ∀ d ∈ numeral b n, d < 36 := by
  have h2 := h.two_le
  have h36 := h.le
  intro d hd
  exact Nat.lt_of_lt_of_le (numeral_lt (by omega) d hd) h36

/-- What was written, read back. -/
theorem window_terminated (b n p : ℕ) (mem : ℕ → UInt8) :
    window (overlay mem p (terminated b n)) p ((numeral b n).length + 1)
      = (numeral b n).map lower ++ [0] := by
  have hlen : (numeral b n).length + 1 = (terminated b n).length := by
    rw [terminated, List.length_append, List.length_map, List.length_singleton]
  rw [hlen]
  exact window_overlay

/-- The scan over what was written. -/
theorem toNul_terminated (h : Base radix b) (p : ℕ) (mem : ℕ → UInt8) (n fuel : ℕ)
    (hfuel : (numeral b n).length < fuel) :
    toNul fuel (overlay mem p (terminated b n)) p = some (p + (numeral b n).length) := by
  have hlen : ((numeral b n).map lower).length = (numeral b n).length := List.length_map _
  rw [← hlen]
  apply toNul_eq (noNul_map_lower (h.digits_lt n))
  · rw [hlen]
    exact window_terminated b n p mem
  · omega

/-- A text written over the NUL byte behind another. -/
theorem overlay_terminated (b n m : ℕ) (p : ℕ) (mem : ℕ → UInt8) :
    overlay (overlay mem p (terminated b n)) (p + (numeral b n).length) (terminated b m)
      = overlay mem p ((numeral b n).map lower ++ terminated b m) := by
  have hle : ([0] : List UInt8).length ≤ (terminated b m).length := by
    rw [terminated, List.length_append]
    exact Nat.le_add_left _ _
  rw [terminated, ← List.length_map (f := lower), overlay_append_overlay hle]

/-- The text of a number from the base on ends in the text of its last digit. -/
theorem terminated_of_le {b n : ℕ} (hb : 1 < b) (h : b ≤ n) :
    terminated b n = (numeral b (n / b)).map lower ++ terminated b (n % b) := by
  rw [terminated, terminated, numeral_of_le hb h, numeral_of_lt (Nat.mod_lt n (by omega)),
    List.map_append, List.append_assoc]

/-- A number below the base. -/
theorem utoa_digit (h : Base radix b) (fuel : ℕ) {val : UInt32} (hval : val.toNat < b) (p : ℕ)
    (mem : ℕ → UInt8) : utoa (fuel + 1) val (some p) radix mem
      = some (some p, overlay mem p (terminated b val.toNat)) := by
  have hlt : val < radix.toUInt32 := by
    rw [UInt32.lt_iff_toNat_lt, h.toNat_eq]
    exact hval
  have h36 := h.le
  rw [utoa, if_neg h.ne_zero, terminated, numeral_of_lt hval]
  simp only [if_pos hlt, digitTable_getElem? val.toNat (by omega)]
  rfl

/-- `utoa` writes the numeral of a number and a NUL byte. The induction is on the steps that it is
given, of which it takes no more than the number has digits. -/
theorem utoa_eq (h : Base radix b) (fuel : ℕ) (val : UInt32) (p : ℕ) (mem : ℕ → UInt8)
    (hfuel : (numeral b val.toNat).length ≤ fuel) : utoa fuel val (some p) radix mem
      = some (some p, overlay mem p (terminated b val.toNat)) := by
  have h2 := h.two_le
  induction fuel generalizing val p mem with
  | zero =>
    have hpos := length_numeral_pos b val.toNat
    omega
  | succ fuel ih =>
    by_cases hval : val.toNat < b
    · exact utoa_digit h fuel hval p mem
    · have hnlt : ¬ val < radix.toUInt32 := by
        rw [UInt32.lt_iff_toNat_lt, h.toNat_eq]
        exact hval
      have hmodlt : val.toNat % b < b := Nat.mod_lt _ (by omega)
      have hlen : (numeral b val.toNat).length = (numeral b (val.toNat / b)).length + 1 := by
        rw [numeral_of_le h2 (by omega), List.length_append, List.length_singleton]
      -- the digits of the quotient, and the last digit over the NUL byte behind them
      have hfirst := ih (val / radix.toUInt32) p mem
        (by rw [UInt32.toNat_div, h.toNat_eq]; omega)
      have hscan := toNul_terminated h p mem (val.toNat / b) (fuel + 1) (by omega)
      have hpos := length_numeral_pos b (val.toNat / b)
      have hlast := ih (val % radix.toUInt32) (p + (numeral b (val.toNat / b)).length)
        (overlay mem p (terminated b (val.toNat / b)))
        (by rw [UInt32.toNat_mod, h.toNat_eq, numeral_of_lt hmodlt, List.length_singleton]; omega)
      rw [UInt32.toNat_div, h.toNat_eq] at hfirst
      rw [UInt32.toNat_mod, h.toNat_eq, overlay_terminated,
        ← terminated_of_le h2 (by omega)] at hlast
      rw [utoa, if_neg h.ne_zero]
      simp only [if_neg hnlt, hfirst, hscan, hlast, Option.bind_eq_bind, Option.bind_some]
      rfl

/-- A number of 32 bits has at most 32 digits. -/
theorem Base.length_le (h : Base radix b) (n : UInt32) : (numeral b n.toNat).length ≤ 32 := by
  have h2 := h.two_le
  refine length_numeral_le h2 (by omega) ?_
  calc n.toNat < 2 ^ 32 := n.toNat_lt
    _ ≤ b ^ 32 := Nat.pow_le_pow_left h2 32

/-- The bases from 2 to 36. -/
theorem base_of_range (h2 : 2 ≤ radix) (h36 : radix ≤ 36) : Base radix radix.toInt.toNat := by
  rw [Int32.le_iff_toInt_le] at h2 h36
  have hlo : (2 : Int32).toInt = 2 := rfl
  have hhi : (36 : Int32).toInt = 36 := rfl
  have hcond := CInt.toInt_int32 radix
  have hbound := radix.toUInt32.toNat_lt
  split_ifs at hcond with hneg
  · exact ⟨by omega, by omega, by omega⟩
  · omega
end

/-- The unsigned negation of a negative number is its absolute value, also for the smallest one. -/
theorem toNat_neg {val : Int32} (h : val < 0) : (-val).toUInt32.toNat = val.toInt.natAbs := by
  rw [Int32.lt_iff_toInt_lt] at h
  have hzero : (0 : Int32).toInt = 0 := rfl
  have hsize : UInt32.size = 4294967296 := rfl
  have hcond := CInt.toInt_int32 val
  have hbound := val.toUInt32.toNat_lt
  rw [Int32.toUInt32_neg, UInt32.toNat_neg, hsize]
  split_ifs at hcond with hneg <;> omega

theorem toNat_of_nonneg {val : Int32} (h : ¬ val < 0) :
    val.toUInt32.toNat = val.toInt.natAbs := by
  rw [Int32.lt_iff_toInt_lt] at h
  have hzero : (0 : Int32).toInt = 0 := rfl
  have hcond := CInt.toInt_int32 val
  have hbound := val.toUInt32.toNat_lt
  split_ifs at hcond with hneg <;> omega

/-- The sign that `itoa` writes. -/
theorem sign_toInt (val : Int32) :
    sign val.toInt = if val < 0 then ['-'.toUInt8] else [] := by
  have hzero : val < 0 ↔ val.toInt < 0 := Int32.lt_iff_toInt_lt
  simp only [sign, hzero]

/-! ## The functions -/

variable {radix : Int32} {b : ℕ}

/-- `itoa` writes the sign and the numeral of the absolute value. -/
theorem itoa_eq (h : Base radix b) {fuel : ℕ} (hfuel : 32 ≤ fuel) (val : Int32) (p : ℕ)
    (mem : ℕ → UInt8) : itoa fuel val (some p) radix mem
      = some (some p, overlay mem p (sign val.toInt ++ terminated b val.toInt.natAbs)) := by
  have hlen := fun n => Nat.le_trans (h.length_le n) hfuel
  unfold itoa
  by_cases hneg : val < 0
  · have hdigits := utoa_eq h fuel (-val).toUInt32 (p + 1) (overlay mem p ['-'.toUInt8]) (hlen _)
    rw [toNat_neg hneg] at hdigits
    have hwrite : overlay (overlay mem p ['-'.toUInt8]) (p + 1) (terminated b val.toInt.natAbs)
        = overlay mem p (['-'.toUInt8] ++ terminated b val.toInt.natAbs) := overlay_append _
    simp only [if_neg h.ne_zero, if_pos hneg, hdigits, Option.bind_eq_bind, Option.bind_some, hwrite]
    rw [sign_toInt, if_pos hneg]
    rfl
  · have hdigits := utoa_eq h fuel val.toUInt32 p mem (hlen _)
    rw [toNat_of_nonneg hneg] at hdigits
    simp only [if_neg h.ne_zero, if_neg hneg, hdigits, Option.bind_eq_bind, Option.bind_some]
    rw [sign_toInt, if_neg hneg]
    rfl

/-- `atou_hex` reads back what `utoa` writes in base 16. -/
theorem atouHex_utoa {fuel : ℕ} (hfuel : 32 ≤ fuel) (v : UInt32) (p : ℕ) (mem : ℕ → UInt8) :
    ∃ buf mem', utoa fuel v (some p) 16 mem = some (buf, mem') ∧ atouHex fuel mem' buf = some v := by
  have h : Base 16 16 := ⟨by omega, by omega, rfl⟩
  have hlen : (numeral 16 v.toNat).length ≤ 8 :=
    length_numeral_le (by omega) (by omega) v.toNat_lt
  have hfold := foldl_ofNat (numeral 16 v.toNat) 0
  refine ⟨some p, _, utoa_eq h fuel v p mem (Nat.le_trans (h.length_le v) hfuel), ?_⟩
  rw [atouHex, atouHexLoop_eq (numeral_lt (by omega)) (window_terminated 16 v.toNat p mem) (by omega)]
  congr 1
  calc (numeral 16 v.toNat).foldl (fun acc d => acc * 16 + UInt32.ofNat d) 0
      = UInt32.ofNat (value 16 (numeral 16 v.toNat)) := hfold
    _ = v := by rw [value_numeral, UInt32.ofNat_toNat]

/-- A call that returns the buffer, has written `sign` and the canonical numeral of `n` in base `b`
to it in lower case, and a NUL byte behind them, and nothing else. -/
def Writes (result : Option (Option ℕ × (ℕ → UInt8))) (p : ℕ) (mem : ℕ → UInt8)
    (sign : List UInt8) (b n : ℕ) : Prop :=
  ∃ ds, Canonical b ds ∧ value b ds = n ∧
    result = some (some p, overlay mem p (sign ++ (ds.map lower ++ [0])))

/-- For every base from 2 to 36, `utoa` writes the numeral of every unsigned value and `itoa` the
sign and the numeral of the absolute value of every signed one, within 32 steps. `atou_hex` reads
back every value that `utoa` wrote in base 16. -/
theorem conversions_canonical :
    (∀ radix : Int32, 2 ≤ radix → radix ≤ 36 → ∀ fuel, 32 ≤ fuel → ∀ p mem,
      (∀ val : UInt32,
        Writes (utoa fuel val (some p) radix mem) p mem [] radix.toInt.toNat val.toNat) ∧
      ∀ val : Int32, Writes (itoa fuel val (some p) radix mem) p mem
        (if val < 0 then ['-'.toUInt8] else []) radix.toInt.toNat val.toInt.natAbs) ∧
    ∀ fuel, 32 ≤ fuel → ∀ (v : UInt32) p mem, ∃ buf mem',
      utoa fuel v (some p) 16 mem = some (buf, mem') ∧ atouHex fuel mem' buf = some v := by
  refine ⟨?_, fun fuel hfuel v p mem => atouHex_utoa hfuel v p mem⟩
  intro radix hlo hhi fuel hfuel p mem
  have h := base_of_range hlo hhi
  constructor
  · intro val
    exact ⟨_, canonical_numeral h.two_le _, value_numeral _ _,
      utoa_eq h fuel val p mem (Nat.le_trans (h.length_le val) hfuel)⟩
  · intro val
    refine ⟨_, canonical_numeral h.two_le _, value_numeral _ _, ?_⟩
    rw [itoa_eq h hfuel val p mem, sign_toInt]
    rfl

/-- The smallest signed value in base 7, and a round trip in base 16. -/
theorem conversions_canonical_smallest :
    Writes (itoa 32 Int32.minValue (some 100) 7 fun _ => 255) 100 (fun _ => 255) ['-'.toUInt8] 7
      2147483648 ∧
    ∃ buf mem', utoa 32 48879 (some 100) 16 (fun _ => 255) = some (buf, mem') ∧
      atouHex 32 mem' buf = some 48879 :=
  ⟨(conversions_canonical.1 7 (by decide) (by decide) 32 (Nat.le_refl 32) 100 fun _ => 255).2
    Int32.minValue, conversions_canonical.2 32 (Nat.le_refl 32) 48879 100 fun _ => 255⟩

end NuAgent.Text
