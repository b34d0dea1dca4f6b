import Mathlib.Tactic.IntervalCases
import NuAgent.Crypto.Aes
import NuAgent.Crypto.Rijndael

/-!
# The block cipher computes the abstract one

`Rep s m` says that the sixteen bytes `s` hold the block `m`, column by column. Every function on bytes
computes the step of the abstract cipher that it is for, so `BlockEncrypt` enciphers, `BlockDecrypt`
deciphers, and the second undoes the first. The tables are the substitution by the affine image of the
inverse, and `AES_Init` lays out the key schedule.
-/

namespace NuAgent.Crypto

open Gf256 Serial Block4

/-! ## Loops over bytes -/

/-- A loop that replaces byte after byte. -/
theorem foldl_set (f : ℕ → UInt8 → UInt8) (l : List UInt8) {n : ℕ} (hn : n ≤ l.length) :
    ((List.range n).foldl (fun l i => l.set i (f i (l.getD i 0))) l).length = l.length ∧
      ∀ j, ((List.range n).foldl (fun l i => l.set i (f i (l.getD i 0))) l).getD j 0 =
        if j < n then f j (l.getD j 0) else l.getD j 0 := by
  induction n with
  | zero => exact ⟨rfl, fun j => (if_neg (Nat.not_lt_zero j)).symm⟩
  | succ n ih =>
    obtain ⟨hlen, hget⟩ := ih (by omega)
    rw [List.range_succ, List.foldl_append, List.foldl_cons, List.foldl_nil]
    refine ⟨List.length_set.trans hlen, fun j => ?_⟩
    rw [hget n, if_neg (Nat.lt_irrefl n), List.getD_eq_getElem?_getD, List.getElem?_set]
    by_cases hj : n = j
    · subst hj
      rw [if_pos rfl, if_pos (by omega), if_pos (by omega)]
      rfl
    · rw [if_neg hj, ← List.getD_eq_getElem?_getD, hget j]
      by_cases hlt : j < n
      · rw [if_pos hlt, if_pos (by omega)]
      · rw [if_neg hlt, if_neg (by omega)]

theorem xorBytes_spec {l : List UInt8} (k : List UInt8) {n : ℕ} (hn : n ≤ l.length) :
    (xorBytes l k n).length = l.length ∧ ∀ j, (xorBytes l k n).getD j 0 =
      if j < n then l.getD j 0 ^^^ k.getD j 0 else l.getD j 0 :=
  foldl_set (fun i b => b ^^^ k.getD i 0) l hn

theorem subBytes_spec {l : List UInt8} (bInvert : Bool) {n : ℕ} (hn : n ≤ l.length) :
    (subBytes l n bInvert).length = l.length ∧ ∀ j, (subBytes l n bInvert).getD j 0 =
      if j < n then (if bInvert then invSBox else sBox).getD (l.getD j 0).toNat 0
      else l.getD j 0 :=
  foldl_set (fun _ b => (if bInvert then invSBox else sBox).getD b.toNat 0) l hn

/-! ## The substitution -/

/-- `SBox` and `InvSBox`, which undoes it. -/
def aesBox : SubBox where
  box b := sBox.getD b.toNat 0
  unbox b := invSBox.getD b.toNat 0
  unbox_box := by
    apply forall_byte
    decide +kernel

/-- The affine map on the bits of a byte. -/
def affine (b : UInt8) : UInt8 :=
  b ^^^ (b <<< 1 ||| b >>> 7) ^^^ (b <<< 2 ||| b >>> 6) ^^^ (b <<< 3 ||| b >>> 5) ^^^
    (b <<< 4 ||| b >>> 4) ^^^ 0x63

/-- Its inverse. -/
def unaffine (b : UInt8) : UInt8 :=
  (b <<< 1 ||| b >>> 7) ^^^ (b <<< 3 ||| b >>> 5) ^^^ (b <<< 6 ||| b >>> 2) ^^^ 0x05

/-- `SBox` is the affine image of the inverse. -/
theorem aesBox_spec (b : UInt8) : ∃ c, IsInv b c ∧ aesBox.box b = affine c := by
  refine ⟨unaffine (aesBox.box b), ?_⟩
  revert b
  apply forall_byte
  decide +kernel

/-! ## Blocks in bytes -/

/-- The block that sixteen bytes hold, column by column. -/
def toBlock (s : List UInt8) : Block4 := fun r c => s.getD (r + 4 * c) 0

structure Rep (s : List UInt8) (m : Block4) : Prop where
  length : s.length = 16
  block : toBlock s = m

theorem index_lt (r c : Fin 4) : (r : ℕ) + 4 * (c : ℕ) < 16 := by omega

/-- Sixteen bytes are determined by their block. -/
theorem Rep.ext {s s' : List UInt8} {m : Block4} (h : Rep s m) (h' : Rep s' m) : s = s' := by
  apply List.ext_getElem (h.length.trans h'.length.symm)
  intro i hi hi'
  have hlt : i < 16 := h.length ▸ hi
  have hcell : toBlock s ⟨i % 4, by omega⟩ ⟨i / 4, by omega⟩ =
      toBlock s' ⟨i % 4, by omega⟩ ⟨i / 4, by omega⟩ := by rw [h.block, h'.block]
  unfold toBlock at hcell
  rw [show i % 4 + 4 * (i / 4) = i by omega, List.getD_eq_getElem?_getD,
    List.getD_eq_getElem?_getD, List.getElem?_eq_getElem hi, List.getElem?_eq_getElem hi'] at hcell
  exact hcell

theorem Rep.addRoundKey {s : List UInt8} {m : Block4} (h : Rep s m) (k : List UInt8) :
    Rep (addRoundKey s k) (.add (toBlock k) m) := by
  obtain ⟨hlen, hget⟩ := xorBytes_spec k h.length.ge
  refine ⟨hlen.trans h.length, ?_⟩
  funext r c
  rw [← h.block]
  exact (hget _).trans (if_pos (index_lt r c))

theorem Rep.subBytes {s : List UInt8} {m : Block4} (h : Rep s m) :
    Rep (subBytes s 16 false) (.sub aesBox.box m) ∧
      Rep (subBytes s 16 true) (.sub aesBox.unbox m) := by
  constructor
  · obtain ⟨hlen, hget⟩ := subBytes_spec false h.length.ge
    refine ⟨hlen.trans h.length, ?_⟩
    funext r c
    rw [← h.block]
    exact (hget _).trans (if_pos (index_lt r c))
  · obtain ⟨hlen, hget⟩ := subBytes_spec true h.length.ge
    refine ⟨hlen.trans h.length, ?_⟩
    funext r c
    rw [← h.block]
    exact (hget _).trans (if_pos (index_lt r c))

/-- The bytes of a block one by one. -/
theorem exists_bytes {s : List UInt8} (h : s.length = 16) :
    ∃ a0 a1 a2 a3 b0 b1 b2 b3 c0 c1 c2 c3 d0 d1 d2 d3,
      s = [a0, a1, a2, a3, b0, b1, b2, b3, c0, c1, c2, c3, d0, d1, d2, d3] := by
  match s, h with
  | [a0, a1, a2, a3, b0, b1, b2, b3, c0, c1, c2, c3, d0, d1, d2, d3], _ =>
    exact ⟨a0, a1, a2, a3, b0, b1, b2, b3, c0, c1, c2, c3, d0, d1, d2, d3, rfl⟩

section Bytes

variable (a0 a1 a2 a3 b0 b1 b2 b3 c0 c1 c2 c3 d0 d1 d2 d3 : UInt8)

/-- One row after the other. -/
theorem shiftRow_bytes (bInvert : Bool) :
    shiftRow bInvert [a0, a1, a2, a3, b0, b1, b2, b3, c0, c1, c2, c3, d0, d1, d2, d3] 1 =
        (if bInvert then [a0, d1, a2, a3, b0, a1, b2, b3, c0, b1, c2, c3, d0, c1, d2, d3]
        else [a0, b1, a2, a3, b0, c1, b2, b3, c0, d1, c2, c3, d0, a1, d2, d3]) ∧
      shiftRow bInvert [a0, a1, a2, a3, b0, b1, b2, b3, c0, c1, c2, c3, d0, d1, d2, d3] 2 =
        [a0, a1, c2, a3, b0, b1, d2, b3, c0, c1, a2, c3, d0, d1, b2, d3] ∧
      shiftRow bInvert [a0, a1, a2, a3, b0, b1, b2, b3, c0, c1, c2, c3, d0, d1, d2, d3] 3 =
        (if bInvert then [a0, a1, a2, b3, b0, b1, b2, c3, c0, c1, c2, d3, d0, d1, d2, a3]
        else [a0, a1, a2, d3, b0, b1, b2, a3, c0, c1, c2, b3, d0, d1, d2, c3]) := by
  cases bInvert <;> exact ⟨rfl, rfl, rfl⟩

end Bytes

theorem Rep.shiftRows {s : List UInt8} {m : Block4} (h : Rep s m) :
    Rep (shiftRows s false) m.shift ∧ Rep (shiftRows s true) m.unshift := by
  obtain ⟨hlen, rfl⟩ := h
  obtain ⟨a0, a1, a2, a3, b0, b1, b2, b3, c0, c1, c2, c3, d0, d1, d2, d3, rfl⟩ := exists_bytes hlen
  constructor
  · rw [Crypto.shiftRows, List.foldl_cons, (shiftRow_bytes _ _ _ _ _ _ _ _ _ _ _ _ _ _ _ _ _).1,
      List.foldl_cons, if_neg Bool.noConfusion, (shiftRow_bytes _ _ _ _ _ _ _ _ _ _ _ _ _ _ _ _ _).2.1,
      List.foldl_cons, (shiftRow_bytes _ _ _ _ _ _ _ _ _ _ _ _ _ _ _ _ _).2.2,
      if_neg Bool.noConfusion, List.foldl_nil]
    refine ⟨rfl, ?_⟩
    funext ⟨r, hr⟩ ⟨c, hc⟩
    interval_cases r <;> interval_cases c <;> rfl
  · rw [Crypto.shiftRows, List.foldl_cons, (shiftRow_bytes _ _ _ _ _ _ _ _ _ _ _ _ _ _ _ _ _).1,
      List.foldl_cons, if_pos rfl, (shiftRow_bytes _ _ _ _ _ _ _ _ _ _ _ _ _ _ _ _ _).2.1,
      List.foldl_cons, (shiftRow_bytes _ _ _ _ _ _ _ _ _ _ _ _ _ _ _ _ _).2.2,
      if_pos rfl, List.foldl_nil]
    refine ⟨rfl, ?_⟩
    funext ⟨r, hr⟩ ⟨c, hc⟩
    interval_cases r <;> interval_cases c <;> rfl

/-- One column after the other: a column is read before it is written. -/
theorem columns_bytes (f : List UInt8 → List UInt8)
    {a0 a1 a2 a3 b0 b1 b2 b3 c0 c1 c2 c3 d0 d1 d2 d3 : UInt8}
    {w0 w1 w2 w3 x0 x1 x2 x3 y0 y1 y2 y3 z0 z1 z2 z3 : UInt8}
    (ha : f [a0, a1, a2, a3, b0, b1, b2, b3, c0, c1, c2, c3, d0, d1, d2, d3] = [w0, w1, w2, w3])
    (hb : f [b0, b1, b2, b3, c0, c1, c2, c3, d0, d1, d2, d3] = [x0, x1, x2, x3])
    (hc : f [c0, c1, c2, c3, d0, d1, d2, d3] = [y0, y1, y2, y3])
    (hd : f [d0, d1, d2, d3] = [z0, z1, z2, z3]) :
    [0, 1, 2, 3].foldl (fun p i => Block.splice p (4 * i) (f (p.drop (4 * i))))
        [a0, a1, a2, a3, b0, b1, b2, b3, c0, c1, c2, c3, d0, d1, d2, d3] =
      [w0, w1, w2, w3, x0, x1, x2, x3, y0, y1, y2, y3, z0, z1, z2, z3] := by
  rw [List.foldl_cons]
  show List.foldl _ (Block.splice _ 0 (f [a0, a1, a2, a3, b0, b1, b2, b3, c0, c1, c2, c3, d0, d1, d2,
    d3])) _ = _
  rw [ha, List.foldl_cons]
  show List.foldl _ (Block.splice [w0, w1, w2, w3, b0, b1, b2, b3, c0, c1, c2, c3, d0, d1, d2, d3] 4
    (f [b0, b1, b2, b3, c0, c1, c2, c3, d0, d1, d2, d3])) _ = _
  rw [hb, List.foldl_cons]
  show List.foldl _ (Block.splice [w0, w1, w2, w3, x0, x1, x2, x3, c0, c1, c2, c3, d0, d1, d2, d3] 8
    (f [c0, c1, c2, c3, d0, d1, d2, d3])) _ = _
  rw [hc, List.foldl_cons]
  show List.foldl _ (Block.splice [w0, w1, w2, w3, x0, x1, x2, x3, y0, y1, y2, y3, d0, d1, d2, d3] 12
    (f [d0, d1, d2, d3])) _ = _
  rw [hd]
  rfl

/-- The array `result`, for the column at the pointer. -/
theorem mixColumn_bytes (m : Block4) (c : Fin 4) (rest : List UInt8) :
    mixColumn (m 0 c :: m 1 c :: m 2 c :: m 3 c :: rest) false =
        [m.mix mixPoly 0 c, m.mix mixPoly 1 c, m.mix mixPoly 2 c, m.mix mixPoly 3 c] ∧
      mixColumn (m 0 c :: m 1 c :: m 2 c :: m 3 c :: rest) true =
        [m.mix unmixPoly 0 c, m.mix unmixPoly 1 c, m.mix unmixPoly 2 c, m.mix unmixPoly 3 c] := by
  have htemp : xtime (xtime (xtime (m 0 c ^^^ m 2 c)) ^^^ xtime (xtime (m 1 c ^^^ m 3 c))) =
      xtime (xtime (xtime (colSum m c))) := by
    rw [← xtime_xor, ← xtime_xor]
    congr 3
    unfold colSum
    ac_rfl
  have h2 : mix unmixPoly m 2 c = mix mixPoly m 2 c ^^^
      (xtime (xtime (xtime (colSum m c))) ^^^ xtime (xtime (m 0 c ^^^ m 2 c))) := by
    rw [mix_unmixPoly, UInt8.xor_comm (m 0 c)]
    rfl
  have h3 : mix unmixPoly m 3 c = mix mixPoly m 3 c ^^^
      (xtime (xtime (xtime (colSum m c))) ^^^ xtime (xtime (m 1 c ^^^ m 3 c))) := by
    rw [mix_unmixPoly, UInt8.xor_comm (m 1 c)]
    rfl
  constructor
  · simp only [mix_mixPoly]
    rfl
  · rw [mix_unmixPoly m 0, mix_unmixPoly m 1, h2, h3, ← htemp]
    simp only [mix_mixPoly]
    rfl

theorem Rep.mixColumns {s : List UInt8} {m : Block4} (h : Rep s m) :
    Rep (mixColumns s false) (.mix mixPoly m) ∧ Rep (mixColumns s true) (.mix unmixPoly m) := by
  obtain ⟨hlen, rfl⟩ := h
  obtain ⟨a0, a1, a2, a3, b0, b1, b2, b3, c0, c1, c2, c3, d0, d1, d2, d3, rfl⟩ := exists_bytes hlen
  generalize hm : toBlock _ = m
  have hcol : ∀ c : Fin 4, ∀ p0 p1 p2 p3 rest, m 0 c = p0 → m 1 c = p1 → m 2 c = p2 → m 3 c = p3 →
      mixColumn (p0 :: p1 :: p2 :: p3 :: rest) false =
          [m.mix mixPoly 0 c, m.mix mixPoly 1 c, m.mix mixPoly 2 c, m.mix mixPoly 3 c] ∧
        mixColumn (p0 :: p1 :: p2 :: p3 :: rest) true =
          [m.mix unmixPoly 0 c, m.mix unmixPoly 1 c, m.mix unmixPoly 2 c, m.mix unmixPoly 3 c] := by
    rintro c _ _ _ _ rest rfl rfl rfl rfl
    exact mixColumn_bytes m c rest
  subst hm
  have h0 := hcol 0 a0 a1 a2 a3 [b0, b1, b2, b3, c0, c1, c2, c3, d0, d1, d2, d3] rfl rfl rfl rfl
  have h1 := hcol 1 b0 b1 b2 b3 [c0, c1, c2, c3, d0, d1, d2, d3] rfl rfl rfl rfl
  have h2 := hcol 2 c0 c1 c2 c3 [d0, d1, d2, d3] rfl rfl rfl rfl
  have h3 := hcol 3 d0 d1 d2 d3 [] rfl rfl rfl rfl
  constructor
  · have hbytes := columns_bytes (mixColumn · false) h0.1 h1.1 h2.1 h3.1
    rw [Crypto.mixColumns, show List.range 4 = [0, 1, 2, 3] from rfl, hbytes]
    refine ⟨rfl, ?_⟩
    funext ⟨r, hr⟩ ⟨c, hc⟩
    interval_cases r <;> interval_cases c <;> rfl
  · have hbytes := columns_bytes (mixColumn · true) h0.2 h1.2 h2.2 h3.2
    rw [Crypto.mixColumns, show List.range 4 = [0, 1, 2, 3] from rfl, hbytes]
    refine ⟨rfl, ?_⟩
    funext ⟨r, hr⟩ ⟨c, hc⟩
    interval_cases r <;> interval_cases c <;> rfl

/-! ## Rounds -/

/-- The round keys in the table. -/
def tableKey (gRoundKeyTable : List UInt8) (i : ℕ) : Block4 := toBlock (roundKey gRoundKeyTable i)

theorem Rep.encryptRounds {s : List UInt8} {m : Block4} (h : Rep s m) (table : List UInt8) {n : ℕ}
    (hn : n < nr) :
    Rep ((List.range' 1 n).foldl (encryptRound table) (Crypto.addRoundKey s (roundKey table 0)))
      (rounds aesBox (tableKey table) n m) := by
  induction n with
  | zero =>
    rw [List.range'_zero, List.foldl_nil, rounds]
    exact h.addRoundKey (roundKey table 0)
  | succ n ih =>
    rw [List.range'_concat, List.foldl_append, List.foldl_cons, List.foldl_nil, encryptRound,
      if_pos (by omega), show 1 + 1 * n = n + 1 by omega]
    exact ((ih (by omega)).subBytes.1.shiftRows.1.mixColumns.1).addRoundKey _

/-- `BlockEncrypt` enciphers. -/
theorem Rep.blockEncrypt {s : List UInt8} {m : Block4} (h : Rep s m) (table : List UInt8) :
    Rep (blockEncrypt table s) (encipher aesBox (tableKey table) 9 m) := by
  have hlast : List.range' 1 nr = List.range' 1 9 ++ [10] := rfl
  rw [Crypto.blockEncrypt, hlast, List.foldl_append, List.foldl_cons, List.foldl_nil, encryptRound,
    if_neg (not_not.2 rfl)]
  exact ((h.encryptRounds table (Nat.lt_succ_self 9)).subBytes.1.shiftRows.1).addRoundKey _

/-- One block with its key. -/
example : blockEncrypt (aesInit (List.replicate 176 0)
      [0x2b, 0x7e, 0x15, 0x16, 0x28, 0xae, 0xd2, 0xa6, 0xab, 0xf7, 0x15, 0x88, 0x09, 0xcf, 0x4f, 0x3c])
    [0x32, 0x43, 0xf6, 0xa8, 0x88, 0x5a, 0x30, 0x8d, 0x31, 0x31, 0x98, 0xa2, 0xe0, 0x37, 0x07, 0x34] =
    [0x39, 0x25, 0x84, 0x1d, 0x02, 0xdc, 0x09, 0xfb, 0xdc, 0x11, 0x85, 0x97, 0x19, 0x6a, 0x0b,
      0x32] := by
  decide +kernel

theorem Rep.decryptRounds {s : List UInt8} {m : Block4} (h : Rep s m) (table : List UInt8) (n : ℕ) :
    Rep ((List.range' 1 (n + 1)).reverse.foldl (decryptRound table) s)
      (unrounds aesBox (tableKey table) n (.sub aesBox.unbox m.unshift)) := by
  induction n generalizing s m with
  | zero =>
    have hone : (List.range' 1 (0 + 1)).reverse = [1] := rfl
    rw [hone, List.foldl_cons, List.foldl_nil, decryptRound, if_neg (not_not.2 rfl), unrounds]
    exact h.shiftRows.2.subBytes.2.addRoundKey (roundKey table 0)
  | succ n ih =>
    rw [List.range'_concat, List.reverse_append, List.reverse_singleton, List.singleton_append,
      List.foldl_cons, decryptRound, if_pos (by omega), show 1 + 1 * (n + 1) - 1 = n + 1 by omega]
    exact ih (h.shiftRows.2.subBytes.2.addRoundKey (roundKey table (n + 1))).mixColumns.2

/-- `BlockDecrypt` deciphers. -/
theorem Rep.blockDecrypt {s : List UInt8} {m : Block4} (h : Rep s m) (table : List UInt8) :
    Rep (blockDecrypt table s) (decipher aesBox (tableKey table) 9 m) := by
  have hlast : tableKey table (9 + 1) = toBlock (roundKey table nr) := rfl
  rw [Crypto.blockDecrypt, decipher, hlast]
  exact (h.addRoundKey (roundKey table nr)).decryptRounds table 9

/-- Sixteen bytes hold their block. -/
theorem rep_toBlock {s : List UInt8} (h : s.length = 16) : Rep s (toBlock s) := ⟨h, rfl⟩

/-- `BlockDecrypt` undoes `BlockEncrypt`, with any table of round keys. -/
theorem blockDecrypt_blockEncrypt (table : List UInt8) {s : List UInt8} (h : s.length = 16) :
    blockDecrypt table (blockEncrypt table s) = s := by
  have hboth := ((rep_toBlock h).blockEncrypt table).blockDecrypt table
  rw [decipher_encipher] at hboth
  exact hboth.ext (rep_toBlock h)

/-! ## The key schedule -/

/-- Word `i` of a table. -/
def tableWord (table : List UInt8) (i : ℕ) : Word := fun r => table.getD (4 * i + r) 0

/-- The state of the loop of `AES_Init` before word `i`. -/
structure Expanding (key : List UInt8) (i : ℕ) (s : Expansion) : Prop where
  length : s.gRoundKeyTable.length = 176
  rcon : s.rcon = xtime^[(i - 1) / 4] 1
  schedule : IsSchedule aesBox (tableWord key) i (tableWord s.gRoundKeyTable)

/-- Word `i` after it is stored, and the other words. -/
theorem tableWord_splice {table word : List UInt8} {i : ℕ} (hlen : table.length = 176)
    (hword : word.length = 4) (hi : i < 44) (j : ℕ) :
    tableWord (Block.splice table (4 * i) word) j =
      if j = i then (fun r : Fin 4 => word.getD r 0) else tableWord table j := by
  funext r
  unfold tableWord
  have hin : 4 * i + word.length ≤ table.length := by omega
  rw [List.getD_eq_getElem?_getD, Block.getElem?_splice hin, hword]
  have hr := r.isLt
  by_cases hj : j = i
  · subst hj
    rw [if_pos (by omega), if_pos rfl, Nat.add_sub_cancel_left, List.getD_eq_getElem?_getD]
  · rw [if_neg (by omega), if_neg hj, List.getD_eq_getElem?_getD]

theorem word_take (table : List UInt8) (j : ℕ) (r : Fin 4) :
    ((table.drop (4 * j)).take 4).getD r 0 = tableWord table j r := by
  rw [List.getD_eq_getElem?_getD, List.getElem?_take_of_lt r.isLt, List.getElem?_drop,
    ← List.getD_eq_getElem?_getD]
  rfl

theorem rotationWord_spec {w : List UInt8} (h : w.length = 4) :
    (rotationWord w).length = 4 ∧ ∀ r : Fin 4, (rotationWord w).getD r 0 = w.getD (r + 1 : Fin 4) 0 := by
  match w, h with
  | [a, b, c, d], _ =>
    refine ⟨rfl, fun r => ?_⟩
    match r with
    | 0 => rfl
    | 1 => rfl
    | 2 => rfl
    | 3 => rfl

/-- One word more. -/
theorem Expanding.expandWord {key : List UInt8} {i : ℕ} {s : Expansion} (h : Expanding key i s)
    (hi : 4 ≤ i) (hlt : i < 44) : Expanding key (i + 1) (expandWord s i) := by
  obtain ⟨hlen, hrcon, hsched⟩ := h
  -- the new word, in both branches
  have hnew : ∀ temp : List UInt8, temp.length = 4 →
      (∀ r : Fin 4, temp.getD r 0 = scheduleTemp aesBox (tableWord s.gRoundKeyTable (i - 1)) i r) →
      (Block.splice s.gRoundKeyTable (4 * i)
        (xorBytes temp ((s.gRoundKeyTable.drop (4 * (i - 4))).take 4) 4)).length = 176 ∧
      IsSchedule aesBox (tableWord key) (i + 1) (tableWord (Block.splice s.gRoundKeyTable (4 * i)
        (xorBytes temp ((s.gRoundKeyTable.drop (4 * (i - 4))).take 4) 4))) := by
    intro temp htemp hval
    obtain ⟨hxlen, hxget⟩ := xorBytes_spec ((s.gRoundKeyTable.drop (4 * (i - 4))).take 4) htemp.ge
    rw [htemp] at hxlen
    have hword := tableWord_splice hlen hxlen hlt
    refine ⟨?_, ⟨fun j hj => ?_, fun j hj hji => ?_⟩⟩
    · rw [Block.length_splice (by omega), hlen]
    · rw [hword, if_neg (by omega), hsched.first j hj]
    · rw [hword, hword, hword, if_neg (by omega : ¬ j - 4 = i), if_neg (by omega : ¬ j - 1 = i)]
      by_cases hji' : j = i
      · subst hji'
        rw [if_pos rfl]
        funext r
        rw [hxget, if_pos r.isLt, hval r, word_take, UInt8.xor_comm]
      · rw [if_neg hji', hsched.next j hj (by omega)]
  have hprev : ((s.gRoundKeyTable.drop (4 * (i - 1))).take 4).length = 4 := by
    rw [List.length_take, List.length_drop]
    omega
  unfold Crypto.expandWord
  dsimp only
  split
  · rename_i hmod
    obtain ⟨hrlen, hrget⟩ := rotationWord_spec hprev
    obtain ⟨hslen, hsget⟩ := subBytes_spec false hrlen.ge
    rw [hrlen] at hslen
    obtain ⟨hclen, hcget⟩ := xorBytes_spec [s.rcon, 0, 0, 0] hslen.ge
    rw [hslen] at hclen
    obtain ⟨hlen', hsched'⟩ := hnew _ hclen fun r => by
      rw [hcget, if_pos r.isLt, hsget, if_pos r.isLt, hrget, word_take, scheduleTemp, if_pos hmod,
        hrcon, show (i - 1) / 4 = i / 4 - 1 by omega]
      match r with
      | 0 => rfl
      | 1 => rfl
      | 2 => rfl
      | 3 => rfl
    refine ⟨hlen', ?_, hsched'⟩
    show gfMultBy02 s.rcon = _
    rw [hrcon, show (i + 1 - 1) / 4 = (i - 1) / 4 + 1 by omega, Function.iterate_succ_apply']
    rfl
  · rename_i hmod
    obtain ⟨hlen', hsched'⟩ := hnew _ hprev fun r => by
      rw [word_take, scheduleTemp, if_neg hmod]
    refine ⟨hlen', ?_, hsched'⟩
    show s.rcon = _
    rw [hrcon, show (i + 1 - 1) / 4 = (i - 1) / 4 by omega]

/-- `AES_Init` lays out the key schedule of the key. -/
theorem aesInit_schedule {table key : List UInt8} (htable : table.length = 176)
    (hkey : 16 ≤ key.length) :
    (aesInit table key).length = 176 ∧
      IsSchedule aesBox (tableWord key) 44 (tableWord (aesInit table key)) := by
  have htake : (key.take 16).length = 16 := by
    rw [List.length_take]
    omega
  have hstart : Expanding key 4 ⟨Block.splice table 0 (key.take 16), 1⟩ := by
    refine ⟨?_, rfl, fun i hi => ?_, fun i h4 hi => by omega⟩
    · rw [Block.length_splice (by omega), htable]
    · funext r
      have hr := r.isLt
      unfold tableWord
      rw [List.getD_eq_getElem?_getD, Block.getElem?_splice (by omega), if_pos (by omega),
        Nat.sub_zero, List.getElem?_take_of_lt (by omega), ← List.getD_eq_getElem?_getD]
  have hrun : ∀ n ≤ 40, Expanding key (4 + n)
      ((List.range' 4 n).foldl expandWord ⟨Block.splice table 0 (key.take 16), 1⟩) := by
    intro n
    induction n with
    | zero => exact fun _ => hstart
    | succ n ih =>
      intro hn
      rw [List.range'_concat, List.foldl_append, List.foldl_cons, List.foldl_nil,
        show 4 + 1 * n = 4 + n by omega]
      exact (ih (by omega)).expandWord (by omega) (by omega)
  exact ⟨(hrun 40 le_rfl).length, (hrun 40 le_rfl).schedule⟩

end NuAgent.Crypto
