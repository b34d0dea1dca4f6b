import NuAgent.Crypto.AesCipher
import NuAgent.Lib.Cbc
import NuAgent.Lib.Overlay

/-!
# Chaining in memory

Reference: `AES_Encrypt` and `AES_Decrypt` of `Lib/AES.c`, with `AES_MODE_CBC`, and their callers in
`Sample/aesdemo.c`.

Memory is a function from addresses to bytes; the table of round keys is a variable of its own. Both
functions work in place on the output buffer, the second from the last block down, where the block
before is still ciphertext.
-/

namespace NuAgent.Crypto

open Memory

/-! ## The source -/

/-- The loop of `AES_Encrypt`, with the blocks still to be done. -/
def encryptLoop (table : List UInt8) : ℕ → (ℕ → UInt8) → ℕ → ℕ → ℕ → UInt8
  | 0, mem, _, _ => mem
  | i + 1, mem, pCipherText, pIV =>
    let mem := overlay mem pCipherText (xorBytes (window mem pCipherText 16) (window mem pIV 16) 16)
    let mem := overlay mem pCipherText (blockEncrypt table (window mem pCipherText 16))
    encryptLoop table i mem (pCipherText + 16) pCipherText

/-- `AES_Encrypt`. -/
def aesEncrypt (table : List UInt8) (mem : ℕ → UInt8) (pPlainText pCipherText nDataLen pIV : ℕ) :
    ℕ → UInt8 :=
  let mem := if pPlainText ≠ pCipherText then copy mem pCipherText pPlainText nDataLen else mem
  encryptLoop table (nDataLen / 16) mem pCipherText pIV

/-- The loop of `AES_Decrypt`, with the value of `i`. -/
def decryptLoop (table : List UInt8) (pIV : ℕ) : ℕ → (ℕ → UInt8) → ℕ → ℕ → UInt8
  | 0, mem, _ => mem
  | i + 1, mem, pPlainText =>
    let mem := overlay mem pPlainText (blockDecrypt table (window mem pPlainText 16))
    let prev := if i + 1 = 1 then pIV else pPlainText - 16
    let mem := overlay mem pPlainText (xorBytes (window mem pPlainText 16) (window mem prev 16) 16)
    decryptLoop table pIV i mem (pPlainText - 16)

/-- `AES_Decrypt`. -/
def aesDecrypt (table : List UInt8) (mem : ℕ → UInt8) (pPlainText pCipherText nDataLen pIV : ℕ) :
    ℕ → UInt8 :=
  let mem := if pPlainText ≠ pCipherText then copy mem pPlainText pCipherText nDataLen else mem
  decryptLoop table pIV (nDataLen / 16) mem (pPlainText + nDataLen - 16)

/-- The exclusive or of two blocks. -/
def xorBlock (b c : List UInt8) : List UInt8 := xorBytes b c 16

/-- The `k` blocks from `p` on. -/
def blocks (mem : ℕ → UInt8) (p k : ℕ) : List (List UInt8) :=
  (List.range k).map fun i => window mem (p + 16 * i) 16

theorem length_of_mem_blocks {mem : ℕ → UInt8} {p k : ℕ} {b : List UInt8} (h : b ∈ blocks mem p k) :
    b.length = 16 := by
  obtain ⟨i, -, rfl⟩ := List.mem_map.1 h
  exact length_window

theorem blocks_succ (mem : ℕ → UInt8) (p k : ℕ) :
    blocks mem p (k + 1) = blocks mem p k ++ [window mem (p + 16 * k) 16] := by
  unfold blocks
  rw [List.range_succ, List.map_append, List.map_singleton]

theorem blocks_cons (mem : ℕ → UInt8) (p k : ℕ) :
    blocks mem p (k + 1) = window mem p 16 :: blocks mem (p + 16) k := by
  unfold blocks
  rw [List.range_succ_eq_map, List.map_cons, List.map_map]
  refine congrArg₂ List.cons rfl (List.map_congr_left fun i _ => ?_)
  show window mem (p + 16 * (i + 1)) 16 = window mem (p + 16 + 16 * i) 16
  rw [show p + 16 * (i + 1) = p + 16 + 16 * i by omega]

/-- Blocks in memory that is the same. -/
theorem blocks_congr {mem mem' : ℕ → UInt8} {p k : ℕ}
    (h : ∀ a, p ≤ a → a < p + 16 * k → mem' a = mem a) : blocks mem' p k = blocks mem p k := by
  unfold blocks
  refine List.map_congr_left fun i hi => ?_
  rw [List.mem_range] at hi
  rw [window_eq_iff]
  exact fun j hj => h _ (by omega) (by omega)

/-- Two buffers hold the same bytes when they hold the same blocks. -/
theorem window_eq_of_blocks {mem mem' : ℕ → UInt8} {p p' k : ℕ}
    (h : blocks mem p k = blocks mem' p' k) : window mem p (16 * k) = window mem' p' (16 * k) := by
  rw [window_mul, window_mul]
  unfold blocks at h
  rw [List.flatMap_def, List.flatMap_def, h]

theorem xorBlock_spec {b c : List UInt8} (hb : b.length = 16) :
    (xorBlock b c).length = 16 ∧ xorBlock (xorBlock b c) c = b := by
  unfold xorBlock
  obtain ⟨hlen, hget⟩ := xorBytes_spec c hb.ge
  rw [hb] at hlen
  obtain ⟨hlen', hget'⟩ := xorBytes_spec c hlen.ge
  rw [hlen] at hlen'
  refine ⟨hlen, List.ext_getElem (hlen'.trans hb.symm) fun i hi hi' => ?_⟩
  have hcell := hget' i
  rw [if_pos (by omega), hget i, if_pos (by omega), UInt8.xor_assoc, UInt8.xor_self, UInt8.xor_zero,
    List.getD_eq_getElem?_getD, List.getD_eq_getElem?_getD, List.getElem?_eq_getElem hi',
    List.getElem?_eq_getElem hi] at hcell
  exact hcell

/-! ## The loops -/

theorem overlay_block {mem : ℕ → UInt8} {p : ℕ} {b : List UInt8} (hb : b.length = 16) :
    window (overlay mem p b) p 16 = b := by
  have h : window (overlay mem p b) p b.length = b := window_overlay
  rwa [hb] at h

theorem window_overlay_of_disjoint {mem : ℕ → UInt8} {p q : ℕ} {b : List UInt8} (hb : b.length = 16)
    (h : q + 16 ≤ p ∨ p + 16 ≤ q) : window (overlay mem p b) q 16 = window mem q 16 := by
  rw [window_eq_iff]
  intro j hj
  rcases h with h | h
  · exact overlay_of_lt (by omega)
  · exact overlay_of_ge (by omega)

theorem blockEncrypt_length (table : List UInt8) {s : List UInt8} (h : s.length = 16) :
    (blockEncrypt table s).length = 16 := ((rep_toBlock h).blockEncrypt table).length

theorem blockDecrypt_length (table : List UInt8) {s : List UInt8} (h : s.length = 16) :
    (blockDecrypt table s).length = 16 := ((rep_toBlock h).blockDecrypt table).length

/-- `AES_Encrypt` chains the blocks of the buffer, and touches nothing else. -/
theorem encryptLoop_spec (table : List UInt8) (k : ℕ) {mem : ℕ → UInt8} {p iv : ℕ}
    (hiv : iv + 16 ≤ p ∨ p + 16 * k ≤ iv) :
    blocks (encryptLoop table k mem p iv) p k =
        Cbc.encrypt xorBlock (blockEncrypt table) (window mem iv 16) (blocks mem p k) ∧
      ∀ a, a < p ∨ p + 16 * k ≤ a → encryptLoop table k mem p iv a = mem a := by
  induction k generalizing mem p iv with
  | zero => exact ⟨rfl, fun _ _ => rfl⟩
  | succ k ih =>
    rw [encryptLoop]
    have hx : (xorBlock (window mem p 16) (window mem iv 16)).length = 16 :=
      (xorBlock_spec length_window).1
    rw [show xorBytes (window mem p 16) (window mem iv 16) 16 =
      xorBlock (window mem p 16) (window mem iv 16) from rfl, overlay_block hx]
    have hc := blockEncrypt_length table hx
    obtain ⟨x, hxdef⟩ : ∃ x, xorBlock (window mem p 16) (window mem iv 16) = x := ⟨_, rfl⟩
    rw [hxdef] at hx hc ⊢
    have hsame : overlay (overlay mem p x) p (blockEncrypt table x) =
        overlay mem p (blockEncrypt table x) := overlay_overlay (by omega)
    rw [hsame]
    obtain ⟨mem', hmem'⟩ : ∃ mem', overlay mem p (blockEncrypt table x) = mem' := ⟨_, rfl⟩
    rw [hmem']
    have hout : ∀ a, a < p ∨ p + 16 ≤ a → mem' a = mem a := by
      intro a ha
      rw [← hmem']
      rcases ha with ha | ha
      · exact overlay_of_lt ha
      · exact overlay_of_ge (by omega)
    have hblock : window mem' p 16 = blockEncrypt table x := hmem' ▸ overlay_block hc
    obtain ⟨hblocks, hframe⟩ := @ih mem' (p + 16) p (Or.inl le_rfl)
    constructor
    · rw [blocks_cons, blocks_cons, Cbc.encrypt, hxdef, hblocks, hblock,
        blocks_congr fun a h1 _ => hout a (Or.inr h1)]
      refine congrArg₂ List.cons ?_ rfl
      rw [← hblock, window_eq_iff]
      exact fun j hj => hframe _ (Or.inl (by omega))
    · intro a ha
      rw [hframe a (by omega), hout a (by omega)]

/-- `AES_Decrypt` unchains the blocks of the buffer, and touches nothing else. -/
theorem decryptLoop_spec (table : List UInt8) (k : ℕ) {mem : ℕ → UInt8} {p iv : ℕ}
    (hiv : iv + 16 ≤ p ∨ p + 16 * k ≤ iv) :
    blocks (decryptLoop table iv k mem (p + 16 * k - 16)) p k =
        Cbc.decrypt xorBlock (blockDecrypt table) (window mem iv 16) (blocks mem p k) ∧
      ∀ a, a < p ∨ p + 16 * k ≤ a → decryptLoop table iv k mem (p + 16 * k - 16) a = mem a := by
  induction k generalizing mem with
  | zero => exact ⟨rfl, fun _ _ => rfl⟩
  | succ k ih =>
    rw [decryptLoop]
    have hlast : p + 16 * (k + 1) - 16 = p + 16 * k := by omega
    rw [hlast]
    have hd : (blockDecrypt table (window mem (p + 16 * k) 16)).length = 16 :=
      blockDecrypt_length table length_window
    rw [overlay_block hd]
    obtain ⟨d, hddef⟩ : ∃ d, blockDecrypt table (window mem (p + 16 * k) 16) = d := ⟨_, rfl⟩
    rw [hddef] at hd ⊢
    -- the block before, or the start value, is not touched by the first store
    obtain ⟨prev, hprev⟩ : ∃ prev, (if k + 1 = 1 then iv else p + 16 * k - 16) = prev := ⟨_, rfl⟩
    rw [hprev]
    have hdisj : prev + 16 ≤ p + 16 * k ∨ p + 16 * k + 16 ≤ prev := by
      rw [← hprev]
      split <;> omega
    rw [window_overlay_of_disjoint hd hdisj]
    have hx := (xorBlock_spec (c := window mem prev 16) hd).1
    rw [show xorBytes d (window mem prev 16) 16 = xorBlock d (window mem prev 16) from rfl,
      overlay_overlay (by omega)]
    obtain ⟨x, hxdef⟩ : ∃ x, xorBlock d (window mem prev 16) = x := ⟨_, rfl⟩
    rw [hxdef] at hx ⊢
    obtain ⟨mem', hmem'⟩ : ∃ mem', overlay mem (p + 16 * k) x = mem' := ⟨_, rfl⟩
    rw [hmem']
    have hout : ∀ a, a < p + 16 * k ∨ p + 16 * k + 16 ≤ a → mem' a = mem a := by
      intro a ha
      rw [← hmem']
      rcases ha with ha | ha
      · exact overlay_of_lt ha
      · exact overlay_of_ge (by omega)
    have hblock : window mem' (p + 16 * k) 16 = x := hmem' ▸ overlay_block hx
    obtain ⟨hblocks, hframe⟩ := @ih mem' (by omega)
    have hivsame : window mem' iv 16 = window mem iv 16 := by
      rw [window_eq_iff]
      exact fun j hj => hout _ (by omega)
    have hbefore : window mem prev 16 =
        (window mem iv 16 :: blocks mem p k).getLast (List.cons_ne_nil _ _) := by
      rw [← hprev]
      cases k with
      | zero => rfl
      | succ k =>
        rw [if_neg (by omega), List.getLast_cons (by rw [blocks_succ]; simp)]
        simp only [blocks_succ, List.getLast_append_singleton]
        rw [show p + 16 * (k + 1) - 16 = p + 16 * k by omega]
    constructor
    · rw [blocks_succ, blocks_succ, Cbc.decrypt_concat, hblocks, hivsame, hddef, ← hbefore, hxdef,
        blocks_congr fun a _ h2 => hout a (Or.inl h2)]
      refine congrArg₂ List.append rfl (congrArg (List.cons · []) ?_)
      rw [← hblock, window_eq_iff]
      exact fun j hj => hframe _ (Or.inr (by omega))
    · intro a ha
      rw [hframe a (by omega), hout a (by omega)]

/-! ## Buffers -/

/-- Two buffers of `n` bytes are one, or do not overlap. -/
def SameOrApart (p q n : ℕ) : Prop := p = q ∨ p + n ≤ q ∨ q + n ≤ p

/-- The sixteen bytes at `iv` are outside of a buffer. -/
def IvApart (iv p n : ℕ) : Prop := iv + 16 ≤ p ∨ p + n ≤ iv

/-- The copy that both functions begin with. -/
theorem copied {mem : ℕ → UInt8} {p q n : ℕ} (h : SameOrApart p q n) :
    let mem' := if p ≠ q then copy mem q p n else mem
    (∀ i < n, mem' (q + i) = mem (p + i)) ∧ ∀ a, a < q ∨ q + n ≤ a → mem' a = mem a := by
  intro mem'
  by_cases hpq : p = q
  · subst hpq
    have hsame : mem' = mem := if_neg (not_not.2 rfl)
    exact ⟨fun _ _ => by rw [hsame], fun _ _ => by rw [hsame]⟩
  · have hcopy : mem' = copy mem q p n := if_pos hpq
    exact ⟨fun i hi => by rw [hcopy, copy_inside hi], fun a ha => by rw [hcopy, copy_outside ha]⟩

theorem blocks_copied {mem mem' : ℕ → UInt8} {p q k : ℕ}
    (h : ∀ i < 16 * k, mem' (q + i) = mem (p + i)) : blocks mem' q k = blocks mem p k := by
  unfold blocks
  refine List.map_congr_left fun i hi => ?_
  rw [List.mem_range] at hi
  rw [window_eq_iff]
  intro j hj
  rw [Nat.add_assoc, Nat.add_assoc]
  exact h (16 * i + j) (by omega)

/-- `AES_Encrypt` leaves the chained blocks of the plain text in the output buffer. -/
theorem aesEncrypt_spec (table : List UInt8) {mem : ℕ → UInt8} {p c k iv : ℕ}
    (hpc : SameOrApart p c (16 * k)) (hiv : IvApart iv c (16 * k)) :
    blocks (aesEncrypt table mem p c (16 * k) iv) c k =
        Cbc.encrypt xorBlock (blockEncrypt table) (window mem iv 16) (blocks mem p k) ∧
      ∀ a, a < c ∨ c + 16 * k ≤ a → aesEncrypt table mem p c (16 * k) iv a = mem a := by
  unfold aesEncrypt
  rw [Nat.mul_div_cancel_left k (by omega)]
  obtain ⟨hin, hout⟩ := @copied mem _ _ _ hpc
  obtain ⟨hblocks, hframe⟩ := encryptLoop_spec table k hiv
  refine ⟨hblocks.trans ?_, fun a ha => (hframe a ha).trans (hout a ha)⟩
  rw [blocks_copied hin]
  congr 1
  rw [window_eq_iff]
  exact fun j hj => hout _ (by rcases hiv with hiv | hiv <;> omega)

theorem aesDecrypt_spec (table : List UInt8) {mem : ℕ → UInt8} {q c k iv : ℕ}
    (hqc : SameOrApart c q (16 * k)) (hiv : IvApart iv q (16 * k)) :
    blocks (aesDecrypt table mem q c (16 * k) iv) q k =
        Cbc.decrypt xorBlock (blockDecrypt table) (window mem iv 16) (blocks mem c k) ∧
      ∀ a, a < q ∨ q + 16 * k ≤ a → aesDecrypt table mem q c (16 * k) iv a = mem a := by
  unfold aesDecrypt
  rw [Nat.mul_div_cancel_left k (by omega)]
  obtain ⟨hin, hout⟩ := @copied mem _ _ _ hqc
  obtain ⟨hblocks, hframe⟩ := decryptLoop_spec table k hiv
  simp only [ne_comm (a := q)]
  refine ⟨hblocks.trans ?_, fun a ha => (hframe a ha).trans (hout a ha)⟩
  rw [blocks_copied hin]
  congr 1
  rw [window_eq_iff]
  exact fun j hj => hout _ (by rcases hiv with hiv | hiv <;> omega)

/-- The chained blocks unchained. -/
theorem chain_unchain (table : List UInt8) (mem : ℕ → UInt8) (p k iv : ℕ) :
    Cbc.decrypt xorBlock (blockDecrypt table) (window mem iv 16)
      (Cbc.encrypt xorBlock (blockEncrypt table) (window mem iv 16) (blocks mem p k)) =
        blocks mem p k :=
  Cbc.decrypt_encrypt (P := fun b => b.length = 16) (fun _ _ hb _ => xorBlock_spec hb)
    (fun _ hb => ⟨blockEncrypt_length table hb, blockDecrypt_blockEncrypt table hb⟩) length_window
    fun _ hb => length_of_mem_blocks hb

/-- Deciphering what was enciphered gives the plain text back, in place or not, and no byte outside of
the two output buffers changes. -/
theorem aesDecrypt_aesEncrypt (table : List UInt8) (mem : ℕ → UInt8) {p c q n iv : ℕ}
    (hn : n % 16 = 0) (hpc : SameOrApart p c n) (hcq : SameOrApart c q n) (hivc : IvApart iv c n)
    (hivq : IvApart iv q n) :
    let mem' := aesDecrypt table (aesEncrypt table mem p c n iv) q c n iv
    window mem' q n = window mem p n ∧
      ∀ a, a < c ∨ c + n ≤ a → a < q ∨ q + n ≤ a → mem' a = mem a := by
  obtain ⟨k, rfl⟩ : ∃ k, n = 16 * k := ⟨n / 16, by omega⟩
  intro mem'
  obtain ⟨henc, heframe⟩ := @aesEncrypt_spec table mem _ _ _ _ hpc hivc
  obtain ⟨hdec, hdframe⟩ :=
    @aesDecrypt_spec table (aesEncrypt table mem p c (16 * k) iv) _ _ _ _ hcq hivq
  have hivsame : window (aesEncrypt table mem p c (16 * k) iv) iv 16 = window mem iv 16 := by
    rw [window_eq_iff]
    exact fun j hj => heframe _ (by rcases hivc with h | h <;> omega)
  constructor
  · apply window_eq_of_blocks
    rw [hdec, henc, hivsame, chain_unchain]
  · exact fun a hc hq => (hdframe a hq).trans (heframe a hc)

theorem aesDecrypt_aesEncrypt_zeros :
    let mem := aesDecrypt (List.replicate 176 0)
      (aesEncrypt (List.replicate 176 0) (fun _ => 0) 0 100 32 200) 100 100 32 200
    window mem 100 32 = window (fun _ => 0) 0 32 ∧
      ∀ a, a < 100 ∨ 100 + 32 ≤ a → a < 100 ∨ 100 + 32 ≤ a → mem a = 0 :=
  aesDecrypt_aesEncrypt (List.replicate 176 0) (fun _ => 0) rfl (Or.inr (Or.inl (by decide)))
    (Or.inl rfl) (Or.inr (by decide)) (Or.inr (by decide))

/-- The round keys in the words of a key schedule. -/
def blockKey (w : ℕ → Word) (i : ℕ) : Block4 := fun r c => w (4 * i + c) r

theorem tableKey_eq (table : List UInt8) : tableKey table = blockKey (tableWord table) := by
  funext i r c
  show (table.drop (16 * i)).getD (r + 4 * c) 0 = table.getD (4 * (4 * i + c) + r) 0
  rw [List.getD_eq_getElem?_getD, List.getElem?_drop, ← List.getD_eq_getElem?_getD]
  congr 1
  omega

/-- `AES_Init` and `AES_Encrypt` chain the cipher with the key schedule of the key. -/
theorem aesEncrypt_enciphers {table key : List UInt8} (htable : table.length = 176)
    (hkey : 16 ≤ key.length) (mem : ℕ → UInt8) {p c n iv : ℕ} (hn : n % 16 = 0)
    (hpc : SameOrApart p c n) (hiv : IvApart iv c n) :
    ∃ w : ℕ → Word, IsSchedule aesBox (tableWord key) 44 w ∧
      (blocks (aesEncrypt (aesInit table key) mem p c n iv) c (n / 16)).map toBlock =
        Cbc.encrypt (fun b c => c.add b) (encipher aesBox (blockKey w) 9)
          (toBlock (window mem iv 16)) ((blocks mem p (n / 16)).map toBlock) := by
  obtain ⟨k, rfl⟩ : ∃ k, n = 16 * k := ⟨n / 16, by omega⟩
  rw [Nat.mul_div_cancel_left k (by omega)]
  refine ⟨tableWord (aesInit table key), (aesInit_schedule htable hkey).2, ?_⟩
  rw [(aesEncrypt_spec _ hpc hiv).1, ← tableKey_eq]
  refine Cbc.encrypt_map (P := fun b => b.length = 16) (fun b c hb hc => ?_) (fun b hb => ?_)
    length_window fun _ hb => length_of_mem_blocks hb
  · exact ⟨(xorBlock_spec hb).1, ((rep_toBlock hb).addRoundKey c).block⟩
  · have hrep := (rep_toBlock hb).blockEncrypt (aesInit table key)
    exact ⟨hrep.length, hrep.block⟩

theorem aesEncrypt_enciphers_zeros :
    ∃ w : ℕ → Word, IsSchedule aesBox (tableWord (List.replicate 16 0)) 44 w ∧
      (blocks (aesEncrypt (aesInit (List.replicate 176 0) (List.replicate 16 0)) (fun _ => 0) 0 100
          32 200) 100 (32 / 16)).map toBlock =
        Cbc.encrypt (fun b c => c.add b) (encipher aesBox (blockKey w) 9)
          (toBlock (window (fun _ => 0) 200 16)) ((blocks (fun _ => 0) 0 (32 / 16)).map toBlock) :=
  aesEncrypt_enciphers rfl le_rfl (fun _ => 0) rfl (Or.inr (Or.inl (by decide)))
    (Or.inr (by decide))

/-! ## Padding -/

/-- A text whose length is not a multiple of sixteen, behind it zeros. -/
theorem padded {mem : ℕ → UInt8} {tempbuf plaintext len : ℕ} (hlen : len < 1024)
    (hapart : plaintext + len ≤ tempbuf ∨ tempbuf + 1024 ≤ plaintext) :
    let mem' := copy (overlay mem tempbuf (List.replicate 1024 0)) tempbuf plaintext len
    (∀ i < len, mem' (tempbuf + i) = mem (plaintext + i)) ∧
      (∀ i, len ≤ i → i < 1024 → mem' (tempbuf + i) = 0) ∧
      ∀ a, a < tempbuf ∨ tempbuf + 1024 ≤ a → mem' a = mem a := by
  intro mem'
  have hzeros : ∀ a, a < tempbuf ∨ tempbuf + 1024 ≤ a →
      overlay mem tempbuf (List.replicate 1024 0) a = mem a := by
    intro a ha
    rcases ha with ha | ha
    · exact overlay_of_lt ha
    · exact overlay_of_ge (by rw [List.length_replicate]; exact ha)
  refine ⟨fun i hi => ?_, fun i hi hlt => ?_, fun a ha => ?_⟩
  · exact (copy_inside hi).trans (hzeros _ (by omega))
  · exact (copy_outside (Or.inr (by omega))).trans (overlay_replicate hlt)
  · exact (copy_outside (by omega)).trans (hzeros a ha)

end NuAgent.Crypto
