import Mathlib.Logic.Function.Basic
import Mathlib.Tactic.IntervalCases
import NuAgent.Lib.Serial

/-!
# Base64

Reference: `Lib/base64.c`.

A buffer is the list of the bytes written to it; `malloc` succeeds. `base64_encode` breaks its output
into lines of 72 characters, and `base64_decode` passes over every byte outside of its table.
-/

namespace NuAgent.Text

open Serial

/-! ## The source -/

/-- `base64_table`. -/
def base64Table : List UInt8 :=
  "ABCDEFGHIJKLMNOPQRSTUVWXYZabcdefghijklmnopqrstuvwxyz0123456789+/".toList.map fun c =>
    UInt8.ofNat c.toNat

/-- `base64_table[i]`. -/
def base64Char (i : UInt8) : UInt8 := base64Table.getD i.toNat 0

/-- `olen`, the size of the buffer that `base64_encode` allocates for a nonnegative `len`. -/
def encodeSize (len : UInt32) : UInt32 :=
  let olen := len * 4 / 3 + 4 -- 3-byte blocks to 4-byte
  let olen := olen + olen / 72 -- line feeds
  olen + 1

/-- The loop `while (end - in >= 3)`, then the last group, then the last line feed. -/
def encodeFrom : List UInt8 → ℕ → List UInt8
  | in0 :: in1 :: in2 :: rest, lineLen =>
    let group :=
      [base64Char (in0 >>> 2), base64Char (((in0 &&& 0x03) <<< 4) ||| (in1 >>> 4)),
        base64Char (((in1 &&& 0x0f) <<< 2) ||| (in2 >>> 6)), base64Char (in2 &&& 0x3f)]
    if lineLen + 4 ≥ 72 then group ++ 10 :: encodeFrom rest 0
    else group ++ encodeFrom rest (lineLen + 4)
  | [in0, in1], _ =>
    [base64Char (in0 >>> 2), base64Char (((in0 &&& 0x03) <<< 4) ||| (in1 >>> 4)),
      base64Char ((in1 &&& 0x0f) <<< 2), 61, 10]
  | [in0], _ => [base64Char (in0 >>> 2), base64Char ((in0 &&& 0x03) <<< 4), 61, 61, 10]
  | [], lineLen => if lineLen ≠ 0 then [10] else []

/-- `base64_encode`: the bytes before the terminating zero. -/
def base64Encode (src : List UInt8) : List UInt8 := encodeFrom src 0

/-- `dtable`, filled from the table. -/
def dtable : List UInt8 :=
  let t := (List.range 64).foldl
    (fun t i => t.set (base64Table.getD i 0).toNat (UInt8.ofNat i)) (List.replicate 256 0x80)
  t.set 61 0

/-- The variables of the second loop of `base64_decode`. -/
structure Decoding where
  inn : ℕ → UInt8
  block : ℕ → UInt8
  count : ℕ
  out : List UInt8

/-- The body of the second loop. -/
def decodeByte (s : Decoding) (ch : UInt8) : Decoding :=
  let tmp := dtable.getD ch.toNat 0
  if tmp = 0x80 then s
  else
    let inn := Function.update s.inn s.count ch
    let block := Function.update s.block s.count tmp
    let count := s.count + 1
    if count = 4 then
      { inn, block, count := 0
        out := s.out ++ [(block 0 <<< 2) ||| (block 1 >>> 4), (block 1 <<< 4) ||| (block 2 >>> 2),
          (block 2 <<< 6) ||| block 3] }
    else { s with inn, block, count }

/-- `base64_decode`; `none` is `NULL`, and `inn` and `block` are the arrays before the loop. -/
def base64Decode (inn block : ℕ → UInt8) (src : List UInt8) : Option (List UInt8) :=
  let count := src.countP fun ch => dtable.getD ch.toNat 0 ≠ 0x80
  if count % 4 ≠ 0 then none
  else
    let s := src.foldl decodeByte ⟨inn, block, 0, []⟩
    some
      (if s.out.length > 0 then
        if s.inn 2 = 61 then s.out.dropLast.dropLast
        else if s.inn 3 = 61 then s.out.dropLast
        else s.out
      else s.out)

/-! ## The table -/

/-- The table's characters are read back, and are not the padding character. -/
theorem dtable_base64Char {i : UInt8} (hi : i < 64) :
    dtable.getD (base64Char i).toNat 0 = i ∧ base64Char i ≠ 61 := by
  revert i
  apply forall_byte
  decide +kernel

theorem dtable_special :
    dtable.getD (61 : UInt8).toNat 0 = 0 ∧ dtable.getD (10 : UInt8).toNat 0 = 0x80 := by
  decide +kernel

/-- The four characters of a group have six bits each. -/
theorem sextet_lt (a b c : UInt8) :
    a >>> 2 < 64 ∧ ((a &&& 0x03) <<< 4) ||| (b >>> 4) < 64 ∧
      ((b &&& 0x0f) <<< 2) ||| (c >>> 6) < 64 ∧ c &&& 0x3f < 64 := by
  have hlow : ∀ x : UInt8, x >>> 6 = 0 → x < 64 := by
    apply forall_byte
    decide +kernel
  refine ⟨hlow _ ?_, hlow _ ?_, hlow _ ?_, hlow _ ?_⟩ <;>
  · apply UInt8.toBitVec_inj.1
    simp only [UInt8.toBitVec_or, UInt8.toBitVec_shiftLeft, UInt8.toBitVec_shiftRight,
      UInt8.toBitVec_and]
    ext i hi
    interval_cases i <;> simp

/-- Three bytes from the four sextets. -/
theorem join_split (a b c : UInt8) :
    ((a >>> 2) <<< 2) ||| ((((a &&& 0x03) <<< 4) ||| (b >>> 4)) >>> 4) = a ∧
      ((((a &&& 0x03) <<< 4) ||| (b >>> 4)) <<< 4) |||
          ((((b &&& 0x0f) <<< 2) ||| (c >>> 6)) >>> 2) = b ∧
      ((((b &&& 0x0f) <<< 2) ||| (c >>> 6)) <<< 6) ||| (c &&& 0x3f) = c := by
  refine ⟨?_, ?_, ?_⟩ <;>
  · apply UInt8.toBitVec_inj.1
    simp only [UInt8.toBitVec_or, UInt8.toBitVec_shiftLeft, UInt8.toBitVec_shiftRight,
      UInt8.toBitVec_and]
    ext i hi
    interval_cases i <;> simp

/-! ## Decoding what was encoded -/

/-- A byte that is not in the table is passed over. -/
theorem decodeByte_skip {ch : UInt8} (h : dtable.getD ch.toNat 0 = 0x80) (s : Decoding) :
    decodeByte s ch = s := by
  unfold decodeByte
  dsimp only
  rw [if_pos h]

theorem decodeByte_value {ch v : UInt8} (h : dtable.getD ch.toNat 0 = v) (hv : v ≠ 0x80)
    (s : Decoding) : decodeByte s ch =
      if s.count + 1 = 4 then
        { inn := Function.update s.inn s.count ch
          block := Function.update s.block s.count v
          count := 0
          out := s.out ++ [(Function.update s.block s.count v 0 <<< 2) |||
              (Function.update s.block s.count v 1 >>> 4),
            (Function.update s.block s.count v 1 <<< 4) |||
              (Function.update s.block s.count v 2 >>> 2),
            (Function.update s.block s.count v 2 <<< 6) ||| Function.update s.block s.count v 3] }
      else
        { s with
          inn := Function.update s.inn s.count ch
          block := Function.update s.block s.count v
          count := s.count + 1 } := by
  unfold decodeByte
  dsimp only
  rw [h, if_neg hv]

/-- Four bytes of the table give three bytes. -/
theorem decode_group {c0 c1 c2 c3 v0 v1 v2 v3 : UInt8} (h0 : dtable.getD c0.toNat 0 = v0)
    (h1 : dtable.getD c1.toNat 0 = v1) (h2 : dtable.getD c2.toNat 0 = v2)
    (h3 : dtable.getD c3.toNat 0 = v3) (hv0 : v0 < 64) (hv1 : v1 < 64) (hv2 : v2 < 64)
    (hv3 : v3 < 64) {s s' : Decoding} (hs : s.count = 0)
    (hs' : [c0, c1, c2, c3].foldl decodeByte s = s') :
    s'.count = 0 ∧ s'.inn 2 = c2 ∧ s'.inn 3 = c3 ∧
      s'.out = s.out ++ [(v0 <<< 2) ||| (v1 >>> 4), (v1 <<< 4) ||| (v2 >>> 2), (v2 <<< 6) ||| v3] := by
  have hne : ∀ v : UInt8, v < 64 → v ≠ 0x80 := by
    apply forall_byte
    decide +kernel
  obtain ⟨inn, block, count, out⟩ := s
  obtain rfl : count = 0 := hs
  rw [← hs', List.foldl_cons, decodeByte_value h0 (hne v0 hv0), List.foldl_cons,
    decodeByte_value h1 (hne v1 hv1), List.foldl_cons, decodeByte_value h2 (hne v2 hv2),
    List.foldl_cons, decodeByte_value h3 (hne v3 hv3), List.foldl_nil]
  simp

/-- The padding that the last group shows. -/
def Padding (inn : ℕ → UInt8) : ℕ → Prop
  | 0 => inn 2 ≠ 61 ∧ inn 3 ≠ 61
  | 1 => inn 2 ≠ 61 ∧ inn 3 = 61
  | _ => inn 2 = 61

/-- The number of bytes missing in the last group. -/
def missing (src : List UInt8) : ℕ := (3 - src.length % 3) % 3

theorem missing_cons (a b c : UInt8) (rest : List UInt8) :
    missing (a :: b :: c :: rest) = missing rest := by
  unfold missing
  simp only [List.length_cons]
  omega

/-- The four characters of three bytes. -/
theorem decode_three (a b c : UInt8) {s s' : Decoding} (hs : s.count = 0)
    (hs' : [base64Char (a >>> 2), base64Char (((a &&& 0x03) <<< 4) ||| (b >>> 4)),
      base64Char (((b &&& 0x0f) <<< 2) ||| (c >>> 6)), base64Char (c &&& 0x3f)].foldl decodeByte s =
        s') :
    s'.count = 0 ∧ Padding s'.inn 0 ∧ s'.out = s.out ++ [a, b, c] := by
  obtain ⟨h0, h1, h2, h3⟩ := sextet_lt a b c
  obtain ⟨hcount, hin2, hin3, hout⟩ := decode_group (dtable_base64Char h0).1 (dtable_base64Char h1).1
    (dtable_base64Char h2).1 (dtable_base64Char h3).1 h0 h1 h2 h3 hs hs'
  obtain ⟨ha, hb, hc⟩ := join_split a b c
  rw [ha, hb, hc] at hout
  refine ⟨hcount, ⟨?_, ?_⟩, hout⟩
  · rw [hin2]
    exact (dtable_base64Char h2).2
  · rw [hin3]
    exact (dtable_base64Char h3).2

/-- The last two bytes, with one padding character. -/
theorem decode_two (a b : UInt8) {s s' : Decoding} (hs : s.count = 0)
    (hs' : [base64Char (a >>> 2), base64Char (((a &&& 0x03) <<< 4) ||| (b >>> 4)),
      base64Char ((b &&& 0x0f) <<< 2), 61].foldl decodeByte s = s') :
    s'.count = 0 ∧ Padding s'.inn 1 ∧ s'.out = s.out ++ [a, b, 0] := by
  have hzero : ((b &&& 0x0f) <<< 2) ||| ((0 : UInt8) >>> 6) = (b &&& 0x0f) <<< 2 := UInt8.or_zero
  have hlast : (0 : UInt8) &&& 0x3f = 0 := rfl
  obtain ⟨h0, h1, h2, -⟩ := sextet_lt a b 0
  obtain ⟨ha, hb, hc⟩ := join_split a b 0
  rw [hzero] at h2 hb hc
  rw [hlast] at hc
  obtain ⟨hcount, hin2, hin3, hout⟩ := decode_group (dtable_base64Char h0).1 (dtable_base64Char h1).1
    (dtable_base64Char h2).1 dtable_special.1 h0 h1 h2 (by decide) hs hs'
  rw [ha, hb, hc] at hout
  refine ⟨hcount, ⟨?_, hin3⟩, hout⟩
  rw [hin2]
  exact (dtable_base64Char h2).2

/-- The last byte, with two padding characters. -/
theorem decode_one (a : UInt8) {s s' : Decoding} (hs : s.count = 0)
    (hs' : [base64Char (a >>> 2), base64Char ((a &&& 0x03) <<< 4), 61, 61].foldl decodeByte s = s') :
    s'.count = 0 ∧ Padding s'.inn 2 ∧ s'.out = s.out ++ [a, 0, 0] := by
  have hzero : ((a &&& 0x03) <<< 4) ||| ((0 : UInt8) >>> 4) = (a &&& 0x03) <<< 4 := UInt8.or_zero
  have hmid : (((0 : UInt8) &&& 0x0f) <<< 2) ||| ((0 : UInt8) >>> 6) = 0 := rfl
  have hlast : (0 : UInt8) &&& 0x3f = 0 := rfl
  obtain ⟨h0, h1, -, -⟩ := sextet_lt a 0 0
  obtain ⟨ha, hb, hc⟩ := join_split a 0 0
  rw [hzero] at h1 ha hb
  rw [hmid] at hb hc
  rw [hlast] at hc
  obtain ⟨hcount, hin2, -, hout⟩ := decode_group (dtable_base64Char h0).1 (dtable_base64Char h1).1
    dtable_special.1 dtable_special.1 h0 h1 (by decide) (by decide) hs hs'
  rw [ha, hb, hc] at hout
  exact ⟨hcount, hin2, hout⟩

/-- From `s` to `s'` the bytes `src` were decoded, with zeros for what the last group lacks. -/
structure Decodes (src : List UInt8) (s s' : Decoding) : Prop where
  count : s'.count = 0
  out : s'.out = s.out ++ (src ++ List.replicate (missing src) 0)
  pad : src ≠ [] → Padding s'.inn (missing src)
  same : src = [] → s'.inn = s.inn

/-- A full group, and what comes behind it. -/
theorem Decodes.cons {a b c : UInt8} {rest : List UInt8} {s s0 s' : Decoding}
    (hpad : Padding s0.inn 0) (hout : s0.out = s.out ++ [a, b, c]) (h : Decodes rest s0 s') :
    Decodes (a :: b :: c :: rest) s s' where
  count := h.count
  out := by
    rw [h.out, hout, missing_cons, List.append_assoc]
    rfl
  pad _ := by
    rw [missing_cons]
    by_cases hrest : rest = []
    · rw [h.same hrest, hrest]
      exact hpad
    · exact h.pad hrest
  same hnil := absurd hnil (List.cons_ne_nil _ _)

/-- A line feed is passed over. -/
theorem foldl_lineFeed (s : Decoding) (tail : List UInt8) :
    (10 :: tail).foldl decodeByte s = tail.foldl decodeByte s := by
  rw [List.foldl_cons, decodeByte_skip dtable_special.2]

theorem decodes_encodeFrom (src : List UInt8) (lineLen : ℕ) {s : Decoding} (hs : s.count = 0) :
    Decodes src s ((encodeFrom src lineLen).foldl decodeByte s) := by
  induction src, lineLen using encodeFrom.induct generalizing s with
  | case1 a b c rest lineLen hline ih =>
    rw [encodeFrom, if_pos hline, List.foldl_append, foldl_lineFeed]
    obtain ⟨hcount, hpad, hout⟩ := decode_three a b c hs rfl
    exact .cons hpad hout (ih hcount)
  | case2 a b c rest lineLen hline ih =>
    rw [encodeFrom, if_neg hline, List.foldl_append]
    obtain ⟨hcount, hpad, hout⟩ := decode_three a b c hs rfl
    exact .cons hpad hout (ih hcount)
  | case3 a b lineLen =>
    have hsplit : encodeFrom [a, b] lineLen = [base64Char (a >>> 2),
        base64Char (((a &&& 0x03) <<< 4) ||| (b >>> 4)), base64Char ((b &&& 0x0f) <<< 2), 61] ++
          [10] := by
      rw [encodeFrom]
      rfl
    rw [hsplit, List.foldl_append, foldl_lineFeed, List.foldl_nil]
    obtain ⟨hcount, hpad, hout⟩ := decode_two a b hs rfl
    exact ⟨hcount, hout, fun _ => hpad, fun h => absurd h (List.cons_ne_nil _ _)⟩
  | case4 a lineLen =>
    have hsplit : encodeFrom [a] lineLen =
        [base64Char (a >>> 2), base64Char ((a &&& 0x03) <<< 4), 61, 61] ++ [10] := by
      rw [encodeFrom]
      rfl
    rw [hsplit, List.foldl_append, foldl_lineFeed, List.foldl_nil]
    obtain ⟨hcount, hpad, hout⟩ := decode_one a hs rfl
    exact ⟨hcount, hout, fun _ => hpad, fun h => absurd h (List.cons_ne_nil _ _)⟩
  | case5 lineLen hline =>
    rw [encodeFrom, if_pos hline, foldl_lineFeed]
    exact ⟨hs, (List.append_nil _).symm, fun h => absurd rfl h, fun _ => rfl⟩
  | case6 lineLen hline =>
    rw [encodeFrom, if_neg hline]
    exact ⟨hs, (List.append_nil _).symm, fun h => absurd rfl h, fun _ => rfl⟩

/-- The lengths of an encoding: four characters for each three bytes, and the line feeds. -/
theorem length_encodeFrom (src : List UInt8) (lineLen : ℕ) (hlt : lineLen < 72)
    (hfour : lineLen % 4 = 0) :
    (encodeFrom src lineLen).length =
        4 * ((src.length + 2) / 3) + (lineLen / 4 + (src.length + 2) / 3 + 17) / 18 := by
  induction src, lineLen using encodeFrom.induct with
  | case1 a b c rest lineLen hline ih =>
    have hrest := ih (by omega) rfl
    rw [encodeFrom, if_pos hline]
    simp only [List.length_append, List.length_cons, List.length_nil, hrest]
    omega
  | case2 a b c rest lineLen hline ih =>
    have hrest := ih (by omega) (by omega)
    rw [encodeFrom, if_neg hline]
    simp only [List.length_append, List.length_cons, List.length_nil, hrest]
    omega
  | case3 a b lineLen =>
    rw [encodeFrom]
    simp only [List.length_cons, List.length_nil]
    omega
  | case4 a lineLen =>
    rw [encodeFrom]
    simp only [List.length_cons, List.length_nil]
    omega
  | case5 lineLen hline =>
    rw [encodeFrom, if_pos hline]
    simp only [List.length_cons, List.length_nil]
    omega
  | case6 lineLen hline =>
    rw [encodeFrom, if_neg hline]
    simp only [List.length_nil]
    omega

/-- The number of bytes that the decoder counts. -/
def counted (src : List UInt8) : ℕ := src.countP fun ch => dtable.getD ch.toNat 0 ≠ 0x80

/-- The decoder's counter is the number of counted bytes modulo four, and every fourth one stores three
bytes. -/
theorem foldl_decodeByte (src : List UInt8) {s : Decoding} (hs : s.count < 4) :
    (src.foldl decodeByte s).count = (s.count + counted src) % 4 ∧
      (src.foldl decodeByte s).out.length = s.out.length + 3 * ((s.count + counted src) / 4) := by
  induction src generalizing s with
  | nil =>
    rw [List.foldl_nil, counted, List.countP_nil]
    constructor <;> omega
  | cons ch src ih =>
    rw [List.foldl_cons]
    by_cases hch : dtable.getD ch.toNat 0 = 0x80
    · have hskip : counted (ch :: src) = counted src :=
        List.countP_cons_of_neg (by rw [hch]; decide)
      rw [decodeByte_skip hch, hskip]
      exact ih hs
    · have hone : counted (ch :: src) = counted src + 1 :=
        List.countP_cons_of_pos (decide_eq_true hch)
      rw [decodeByte_value rfl hch, hone]
      split
      · rename_i hfour
        obtain ⟨hcount, hlen⟩ := ih (s := ⟨_, _, 0, _⟩) (Nat.zero_lt_succ 3)
        rw [hcount, hlen]
        simp only [List.length_append, List.length_cons, List.length_nil]
        constructor <;> omega
      · obtain ⟨hcount, hlen⟩ := ih (s := ⟨_, _, s.count + 1, s.out⟩) (by dsimp only; omega)
        rw [hcount, hlen]
        dsimp only
        constructor <;> omega

/-! ## Results -/

/-- Whatever was encoded is decoded again, line feeds and padding included. -/
theorem base64Decode_base64Encode (inn block : ℕ → UInt8) (src : List UInt8) :
    base64Decode inn block (base64Encode src) = some src := by
  unfold base64Encode
  obtain ⟨hcount, hout, hpad, -⟩ := decodes_encodeFrom src 0 (s := ⟨inn, block, 0, []⟩) rfl
  have hcounted : counted (encodeFrom src 0) % 4 = 0 := by
    have h := (foldl_decodeByte (encodeFrom src 0) (s := ⟨inn, block, 0, []⟩) (Nat.zero_lt_succ 3)).1
    rw [hcount] at h
    dsimp only at h
    omega
  unfold base64Decode
  dsimp only
  unfold counted at hcounted
  rw [if_neg (not_not.2 hcounted)]
  rw [List.nil_append] at hout
  by_cases hnil : src = []
  · subst hnil
    rw [hout]
    rfl
  have hpad := hpad hnil
  have hlen := List.length_pos_iff.2 hnil
  rw [hout, if_pos (by rw [List.length_append]; omega)]
  have hmissing : missing src = 0 ∨ missing src = 1 ∨ missing src = 2 := by
    unfold missing
    omega
  rcases hmissing with hm | hm | hm <;> rw [hm] at hpad ⊢
  · rw [if_neg hpad.1, if_neg hpad.2, List.replicate_zero, List.append_nil]
  · rw [if_neg hpad.1, if_pos hpad.2]
    simp
  · have htwo : src ++ List.replicate 2 (0 : UInt8) = src ++ [0] ++ [0] := by simp
    have hlast : (((encodeFrom src 0).foldl decodeByte ⟨inn, block, 0, []⟩).inn 2) = 61 := hpad
    rw [if_pos hlast, htwo, List.dropLast_concat, List.dropLast_concat]

/-- Both functions stay in the buffers that they allocate: the encoder for every length whose product
with 4 does not overflow, the decoder for every text. -/
theorem base64_fits (src : List UInt8) :
    (src.length < 2 ^ 29 →
      (base64Encode src).length + 1 ≤ (encodeSize (UInt32.ofNat src.length)).toNat) ∧
    ∀ inn block, (src.foldl decodeByte ⟨inn, block, 0, []⟩).out.length ≤ counted src := by
  constructor
  · intro hlt
    have hlen := length_encodeFrom src 0 (by decide) rfl
    have hsize : (encodeSize (UInt32.ofNat src.length)).toNat =
        src.length * 4 / 3 + 4 + (src.length * 4 / 3 + 4) / 72 + 1 := by
      have h : (UInt32.ofNat src.length).toNat = src.length :=
        UInt32.toNat_ofNat_of_lt' (lt_trans hlt (by decide))
      unfold encodeSize
      dsimp only
      simp only [UInt32.toNat_add, UInt32.toNat_mul, UInt32.toNat_div, h, UInt32.reduceToNat]
      simp (disch := omega) only [Nat.mod_eq_of_lt]
    unfold base64Encode
    rw [hlen, hsize]
    have hblocks : 4 * ((src.length + 2) / 3) ≤ src.length * 4 / 3 + 3 := by omega
    have hlines : (src.length + 2) / 3 / 18 ≤ (src.length * 4 / 3 + 4) / 72 := by omega
    omega
  · intro inn block
    have h := (foldl_decodeByte src (s := ⟨inn, block, 0, []⟩) (Nat.zero_lt_succ 3)).2
    rw [h]
    simp only [List.length_nil]
    omega

theorem base64_fits_three :
    (base64Encode [77, 97, 110]).length + 1 ≤ (encodeSize (UInt32.ofNat 3)).toNat :=
  (base64_fits [77, 97, 110]).1 (by decide)

end NuAgent.Text
