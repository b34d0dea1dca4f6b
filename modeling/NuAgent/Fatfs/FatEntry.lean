import Mathlib.Tactic.IntervalCases
import NuAgent.Fatfs.Window
import NuAgent.Lib.Serial

/-!
# The table is an array

`entry fs c` is what the table holds for cluster `c`, in any of the three formats. `get_fat` reads it
(`getFat_spec`) and `put_fat` replaces it (`putFat_spec`), across sector boundaries and next to an entry
that shares a byte with it. When the drive fails, `put_fat` may spoil the entry that it was to change, and
no other.
-/

namespace NuAgent.Fat

open CInt Serial

/-- The entry of cluster `c` in the bytes of a table. -/
def entryOf : FsType → Sector → ℕ → ℕ
  | .fat12, m, c =>
    if c % 2 = 1 then ldWord m (c + c / 2) / 16 else ldWord m (c + c / 2) % 4096
  | .fat16, m, c => ldWord m (2 * c)
  | .fat32, m, c => ldDword m (4 * c) % 2 ^ 28
  | .unmounted, _, _ => 0

/-- The entry of cluster `c`. -/
def entry (fs : FatFs) (c : ℕ) : ℕ := entryOf fs.fsType (fatByte fs) c

variable {fs fs' : FatFs} {t : FsType} {m m' : Sector} {c i v : ℕ}

/-- An entry reads its own bytes only. -/
theorem entryOf_congr (h : ∀ i ≤ lastByte t c, m' i = m i) : entryOf t m' c = entryOf t m c := by
  cases t with
  | unmounted => rfl
  | fat12 =>
    simp only [entryOf, ldWord]
    rw [h (c + c / 2) (Nat.le_succ _), h (c + c / 2 + 1) le_rfl]
  | fat16 =>
    simp only [entryOf, ldWord]
    rw [h (2 * c) (Nat.le_succ _), h (2 * c + 1) le_rfl]
  | fat32 =>
    simp only [entryOf, ldDword, ldWord]
    rw [h (4 * c) (Nat.le_add_right _ 3), h (4 * c + 1) (Nat.add_le_add_left (by decide) _),
      h (4 * c + 2) (Nat.add_le_add_left (by decide) _), h (4 * c + 2 + 1) le_rfl]

/-! ## Writing bytes -/

theorem nibbles_or {a b : UInt8} (ha : a.toNat < 16) (hb : b.toNat % 16 = 0) :
    (a ||| b).toNat = a.toNat + b.toNat := by
  obtain ⟨k, hk⟩ : ∃ k, b.toNat = k * 16 := ⟨b.toNat / 16, by omega⟩
  have hor := Nat.shiftLeft_add_eq_or_of_lt (i := 4) ha k
  rw [Nat.shiftLeft_eq] at hor
  rw [UInt8.toNat_or, hk, Nat.or_comm, Nat.add_comm]
  exact hor.symm

theorem low_nibble (p : UInt8) : (p &&& 0x0F).toNat = p.toNat % 16 := by
  revert p
  apply forall_byte
  decide +kernel

theorem high_nibble (p : UInt8) : (p &&& 0xF0).toNat = p.toNat / 16 * 16 := by
  revert p
  apply forall_byte
  decide +kernel

theorem shifted_nibble (p : UInt8) : (p <<< (4 : UInt8)).toNat = p.toNat % 16 * 16 := by
  revert p
  apply forall_byte
  decide +kernel

/-- The first byte of an entry of twelve bits, and the second one. -/
def lowByte (c : ℕ) (p : UInt8) (v : ℕ) : UInt8 :=
  if c % 2 = 1 then (p &&& 0x0F) ||| (UInt8.ofNat v <<< (4 : UInt8)) else UInt8.ofNat v

def highByte (c : ℕ) (p : UInt8) (v : ℕ) : UInt8 :=
  if c % 2 = 1 then UInt8.ofNat (v / 16) else (p &&& 0xF0) ||| (UInt8.ofNat (v / 256) &&& 0x0F)

theorem toNat_lowByte (c : ℕ) (p : UInt8) (v : ℕ) : (lowByte c p v).toNat =
    if c % 2 = 1 then p.toNat % 16 + v % 16 * 16 else v % 256 := by
  unfold lowByte
  split
  · rw [nibbles_or (by rw [low_nibble]; omega) (by rw [shifted_nibble]; omega), low_nibble,
      shifted_nibble, UInt8.toNat_ofNat']
    have hmod : v % 2 ^ 8 % 16 = v % 16 := Nat.mod_mod_of_dvd v (by decide)
    rw [hmod]
  · exact UInt8.toNat_ofNat' ..

theorem toNat_highByte (c : ℕ) (p : UInt8) (v : ℕ) : (highByte c p v).toNat =
    if c % 2 = 1 then v / 16 % 256 else v / 256 % 16 + p.toNat / 16 * 16 := by
  unfold highByte
  split
  · exact UInt8.toNat_ofNat' ..
  · rw [UInt8.or_comm, nibbles_or (by rw [low_nibble]; omega) (by rw [high_nibble]; omega),
      low_nibble, high_nibble, UInt8.toNat_ofNat']
    have hmod : v / 256 % 2 ^ 8 % 16 = v / 256 % 16 := Nat.mod_mod_of_dvd _ (by decide)
    rw [hmod]

/-- The bytes of the table after an entry is put. -/
def putOf : FsType → Sector → ℕ → ℕ → Sector
  | .fat12, m, c, v =>
    let bc := c + c / 2
    Function.update (Function.update m bc (lowByte c (m bc) v)) (bc + 1)
      (highByte c (m (bc + 1)) v)
  | .fat16, m, c, v => stWord m (2 * c) v
  | .fat32, m, c, v => stDword m (4 * c) (v ||| (ldDword m (4 * c) &&& 0xF0000000))
  | .unmounted, m, _, _ => m

theorem stWord_other (m : Sector) (v : ℕ) {i j : ℕ} (h : j ≠ i) (h' : j ≠ i + 1) :
    stWord m i v j = m j := by
  unfold stWord
  rw [Function.update_of_ne h', Function.update_of_ne h]

theorem ldWord_stWord (m : Sector) (i v : ℕ) : ldWord (stWord m i v) i = v % 65536 := by
  have h0 : stWord m i v i = UInt8.ofNat v := by
    unfold stWord
    rw [Function.update_of_ne (by omega), Function.update_self]
  have h1 : stWord m i v (i + 1) = UInt8.ofNat (v / 256) := Function.update_self ..
  unfold ldWord
  rw [h0, h1, UInt8.toNat_ofNat', UInt8.toNat_ofNat']
  omega

theorem ldDword_stDword (m : Sector) (i v : ℕ) : ldDword (stDword m i v) i = v % 2 ^ 32 := by
  have hlow : ldWord (stDword m i v) i = v % 65536 := by
    have h0 : stDword m i v i = stWord m i v i := stWord_other _ _ (by omega) (by omega)
    have h1 : stDword m i v (i + 1) = stWord m i v (i + 1) :=
      stWord_other _ _ (by omega) (by omega)
    rw [← ldWord_stWord m i v, ldWord, h0, h1]
    rfl
  have hhigh : ldWord (stDword m i v) (i + 2) = v / 65536 % 65536 := ldWord_stWord _ _ _
  unfold ldDword
  rw [hlow, hhigh]
  omega

/-- The entry put is read back. -/
theorem entryOf_putOf_self (ht : t ≠ .unmounted) (m : Sector) (c v : ℕ) :
    entryOf t (putOf t m c v) c = v % (endMark t + 1) := by
  cases t with
  | unmounted => exact absurd rfl ht
  | fat16 => exact ldWord_stWord _ _ _
  | fat32 =>
    simp only [entryOf, putOf, endMark]
    rw [ldDword_stDword, Nat.mod_mod_of_dvd _ (by decide), Nat.or_mod_two_pow,
      Nat.and_mod_two_pow]
    have hzero : 0xF0000000 % 2 ^ 28 = 0 := by decide
    rw [hzero, Nat.and_zero, Nat.or_zero]
  | fat12 =>
    simp only [entryOf, ldWord, putOf, endMark]
    rw [Function.update_of_ne (by omega), Function.update_self, Function.update_self,
      toNat_lowByte, toNat_highByte]
    by_cases hodd : c % 2 = 1
    · rw [if_pos hodd, if_pos hodd, if_pos hodd]
      omega
    · rw [if_neg hodd, if_neg hodd, if_neg hodd]
      omega

/-- An entry of twelve bits is the same when only the bits of another one were changed. -/
theorem entryOf_beside {c c' : ℕ} (hne : c' ≠ c)
    (hout : ∀ i, i ≠ c + c / 2 → i ≠ c + c / 2 + 1 → m' i = m i)
    (hlow : c % 2 = 1 → (m' (c + c / 2)).toNat % 16 = (m (c + c / 2)).toNat % 16)
    (hhigh : c % 2 = 0 → (m' (c + c / 2 + 1)).toNat / 16 = (m (c + c / 2 + 1)).toNat / 16) :
    entryOf .fat12 m' c' = entryOf .fat12 m c' := by
  simp only [entryOf, ldWord]
  by_cases hnext : c' = c + 1 ∧ c % 2 = 0
  · obtain ⟨rfl, heven⟩ := hnext
    have hshared : c + 1 + (c + 1) / 2 = c + c / 2 + 1 := by omega
    have hhigh := hhigh heven
    have hodd : (c + 1) % 2 = 1 := by omega
    rw [hshared, if_pos hodd, if_pos hodd, hout (c + c / 2 + 1 + 1) (by omega) (by omega)]
    omega
  · by_cases hprev : c = c' + 1 ∧ c' % 2 = 0
    · obtain ⟨rfl, heven⟩ := hprev
      have hshared : c' + 1 + (c' + 1) / 2 = c' + c' / 2 + 1 := by omega
      rw [hshared] at hlow hout
      have hlow := hlow (by omega)
      have hodd : ¬c' % 2 = 1 := by omega
      rw [if_neg hodd, if_neg hodd, hout (c' + c' / 2) (by omega) (by omega)]
      omega
    · rw [hout (c' + c' / 2) (by omega) (by omega), hout (c' + c' / 2 + 1) (by omega) (by omega)]

/-- The first byte of an entry of twelve bits keeps what belongs to the entry before it, and the second
one what belongs to the entry behind it. -/
theorem lowByte_beside (p : UInt8) (v : ℕ) (hodd : c % 2 = 1) :
    (lowByte c p v).toNat % 16 = p.toNat % 16 := by
  rw [toNat_lowByte, if_pos hodd]
  omega

theorem highByte_beside (p : UInt8) (v : ℕ) (heven : c % 2 = 0) :
    (highByte c p v).toNat / 16 = p.toNat / 16 := by
  rw [toNat_highByte, if_neg (by omega)]
  omega

/-- The other entries are the same, also next to the entry put. -/
theorem entryOf_putOf_other (m : Sector) (v : ℕ) {c c' : ℕ} (hne : c' ≠ c) :
    entryOf t (putOf t m c v) c' = entryOf t m c' := by
  cases t with
  | unmounted => rfl
  | fat16 =>
    simp only [entryOf, ldWord, putOf]
    rw [stWord_other _ _ (by omega) (by omega), stWord_other _ _ (by omega) (by omega)]
  | fat32 =>
    simp only [entryOf, ldDword, ldWord, putOf, stDword]
    simp (disch := omega) only [stWord_other]
  | fat12 =>
    refine entryOf_beside hne (fun i h0 h1 => ?_) (fun hodd => ?_) fun heven => ?_
    · simp only [putOf]
      rw [Function.update_of_ne h1, Function.update_of_ne h0]
    · simp only [putOf]
      rw [Function.update_of_ne (by omega), Function.update_self]
      exact lowByte_beside _ _ hodd
    · simp only [putOf]
      rw [Function.update_self]
      exact highByte_beside _ _ heven

/-! ## The table in the window -/

/-- From `fs` to `fs'` nothing changed that is seen of the table. -/
structure Shows (fs fs' : FatFs) : Prop where
  same : SameState fs fs'
  legal : Legal fs'
  bytes : ∀ i < ss * fs.fsize, fatByte fs' i = fatByte fs i

theorem Shows.refl (h : Legal fs) : Shows fs fs := ⟨.refl, h, fun _ _ => rfl⟩

theorem Shows.trans {fs'' : FatFs} (h : Shows fs fs') (h' : Shows fs' fs'') : Shows fs fs'' where
  same := h.same.trans h'.same
  legal := h'.legal
  bytes i hi := by
    have hi' : i < ss * fs'.fsize := by rw [h.same.fsize]; exact hi
    rw [h'.bytes i hi', h.bytes i hi]

/-- The bytes of an entry lie in the table. -/
theorem Legal.byte_lt (h : Legal fs) (hc : c < fs.nFatent) (hi : i ≤ lastByte fs.fsType c) :
    i < ss * fs.fsize :=
  hi.trans_lt (h.room c hc)

theorem Shows.entry_eq (h : Shows fs fs') (hfs : Legal fs) (hc : c < fs.nFatent) :
    entry fs' c = entry fs c := by
  unfold entry
  rw [h.same.fsType]
  exact entryOf_congr fun i hi => h.bytes i (hfs.byte_lt hc hi)

/-- The entries are the same. -/
structure Keeps (fs fs' : FatFs) : Prop where
  volume : SameVolume fs fs'
  legal : Legal fs'
  entries : ∀ e < fs.nFatent, entry fs' e = entry fs e

theorem Shows.keeps (h : Legal fs) (hshow : Shows fs fs') : Keeps fs fs' :=
  ⟨hshow.same.toSameVolume, hshow.legal, fun _ he => hshow.entry_eq h he⟩

/-- The sector of a byte of the table. -/
theorem inFat_byte (hi : i < ss * fs.fsize) : InFat fs (fs.fatbase + i / ss) := by
  have hdiv : i / ss < fs.fsize := Nat.div_lt_of_lt_mul hi
  exact ⟨Nat.le_add_right _ _, Nat.add_lt_add_left hdiv _⟩

theorem sector_eq (h : Legal fs) (hi : i < ss * fs.fsize) :
    u32 ((fs.fatbase : ℤ) + (i : ℤ) / (ss : ℤ)) = fs.fatbase + i / ss := by
  have hlt := h.inFat_lt (inFat_byte hi)
  have hcast : (fs.fatbase : ℤ) + (i : ℤ) / (ss : ℤ) = ((fs.fatbase + i / ss : ℕ) : ℤ) := by
    push_cast
    rfl
  rw [hcast, u32_of_lt (Int.natCast_nonneg _) (by exact_mod_cast (by omega : _ < 2 ^ 32))]
  exact Int.toNat_natCast _

/-- What is seen of the sectors of the table is the same. -/
theorem Shows.of_view (hsame : SameState fs fs') (hlegal : Legal fs')
    (hview : ∀ s, InFat fs s → view fs' s = view fs s) : Shows fs fs' := by
  refine ⟨hsame, hlegal, fun i hi => ?_⟩
  unfold fatByte
  rw [hsame.fatbase, hview _ (inFat_byte hi)]

/-- What the window holds, where it lies. -/
theorem win_eq (hw : fs.winsect = fs.fatbase + i / ss) : fs.win (i % ss) = fatByte fs i := by
  unfold fatByte view
  rw [if_pos hw.symm]

/-- The window moved to a byte of the table. -/
theorem moveTo_spec (h : Legal fs) (hi : i < ss * fs.fsize) {s : ℕ} (hs : s = fs.fatbase + i / ss) :
    Shows fs (moveWindow fs s).1 ∧
      ((moveWindow fs s).2 = .frOk ∨ (moveWindow fs s).2 = .frDiskErr) ∧
      ((moveWindow fs s).2 = .frOk →
        (moveWindow fs s).1.winsect = (moveWindow fs s).1.fatbase + i / ss) := by
  have hlt := h.inFat_lt (inFat_byte hi)
  obtain ⟨hsame, hlegal, hres, hwin, hview⟩ := @moveWindow_spec fs s h (by omega)
  refine ⟨.of_view hsame hlegal hview, hres, fun hok => ?_⟩
  rw [hwin hok, hsame.fatbase, hs]

/-- A word of the table in the window. -/
theorem ldWord_win (h : Shows fs fs') (hw : fs'.winsect = fs'.fatbase + 2 * c / ss)
    (h1 : 2 * c + 1 < ss * fs.fsize) :
    ldWord fs'.win (2 * c % ss) = ldWord (fatByte fs) (2 * c) := by
  have hnext : (2 * c + 1) / ss = 2 * c / ss := by unfold ss; omega
  have hoff : 2 * c % ss + 1 = (2 * c + 1) % ss := by unfold ss; omega
  have hw' : fs'.winsect = fs'.fatbase + (2 * c + 1) / ss := by rw [hnext]; exact hw
  unfold ldWord
  rw [hoff, win_eq hw, win_eq hw', h.bytes _ (Nat.lt_of_succ_lt h1), h.bytes _ h1]

/-- A double word of the table in the window. -/
theorem ldDword_win (h : Shows fs fs') (hw : fs'.winsect = fs'.fatbase + 4 * c / ss)
    (h3 : 4 * c + 3 < ss * fs.fsize) :
    ldDword fs'.win (4 * c % ss) = ldDword (fatByte fs) (4 * c) := by
  have hnext : ∀ k < 4, (4 * c + k) / ss = 4 * c / ss := fun k hk => by unfold ss; omega
  have hoff : ∀ k < 4, 4 * c % ss + k = (4 * c + k) % ss := fun k hk => by unfold ss; omega
  have hbyte : ∀ k < 4, fs'.win (4 * c % ss + k) = fatByte fs (4 * c + k) := fun k hk => by
    rw [hoff k hk, win_eq (by rw [hnext k hk]; exact hw), h.bytes _ (by omega)]
  have hzero : fs'.win (4 * c % ss) = fatByte fs (4 * c) := hbyte 0 (by decide)
  unfold ldDword ldWord
  rw [hzero, hbyte 1 (by decide), hbyte 2 (by decide), Nat.add_assoc _ 2 1, Nat.add_assoc _ 2 1,
    hbyte 3 (by decide)]

/-! ## Reading and writing an entry -/

/-- Where the entries lie, as `get_fat` and `put_fat` compute it. -/
theorem byte_index (hends : fs.nFatent ≤ endMark .fat12) (hn : c < fs.nFatent) :
    u32 ((c : ℤ) + (c : ℤ) / 2) = c + c / 2 := by
  have hends : fs.nFatent ≤ 0xFFF := hends
  rw [u32_of_lt (by omega) (by omega)]
  omega

theorem dword_index (hends : fs.nFatent ≤ endMark .fat32) (hn : c < fs.nFatent) :
    u32 ((c : ℤ) * 4) = 4 * c := by
  have hends : fs.nFatent ≤ 0x0FFFFFFF := hends
  rw [u32_of_lt (by omega) (by omega)]
  omega

theorem word_sector (h : Legal fs) (h0 : 2 * c < ss * fs.fsize) :
    u32 ((fs.fatbase : ℤ) + (c : ℤ) / ((ss : ℤ) / 2)) = fs.fatbase + 2 * c / ss := by
  rw [← sector_eq h h0]
  congr 2
  unfold ss
  omega

theorem dword_sector (h : Legal fs) (h0 : 4 * c < ss * fs.fsize) :
    u32 ((fs.fatbase : ℤ) + (c : ℤ) / ((ss : ℤ) / 4)) = fs.fatbase + 4 * c / ss := by
  rw [← sector_eq h h0]
  congr 2
  unfold ss
  omega

/-- `get_fat` changes nothing of the table, and returns the entry or the code of a disk error. -/
def Gets (fs : FatFs) (c : ℕ) : Prop :=
  Shows fs (getFat fs c).1 ∧ ((getFat fs c).2 = 0xFFFFFFFF ∨ (getFat fs c).2 = entry fs c)

theorem getFat_fat12 (h : Legal fs) (hc : 2 ≤ c) (hn : c < fs.nFatent) (ht : fs.fsType = .fat12) :
    Gets fs c := by
  have hbytes := h.room c hn
  have hends := h.ends
  rw [ht] at hbytes hends
  have h1 : c + c / 2 + 1 < ss * fs.fsize := hbytes
  have h0 : c + c / 2 < ss * fs.fsize := Nat.lt_of_succ_lt h1
  unfold Gets getFat entry
  rw [if_neg (by omega), ht]
  dsimp only
  rw [byte_index hends hn, sector_eq h h0]
  obtain ⟨hshow, -, hwin⟩ := moveTo_spec h h0 rfl
  generalize moveWindow fs (fs.fatbase + (c + c / 2) / ss) = r at hshow hwin ⊢
  obtain ⟨fs₁, res₁⟩ := r
  dsimp only at hshow hwin ⊢
  by_cases hok : res₁ = .frOk
  · rw [if_neg (not_not.2 hok), win_eq (hwin hok), hshow.bytes _ h0]
    have h1' : c + c / 2 + 1 < ss * fs₁.fsize := by rw [hshow.same.fsize]; exact h1
    have hsec := sector_eq hshow.legal h1'
    push_cast at hsec ⊢
    rw [hsec]
    obtain ⟨hshow₂, -, hwin₂⟩ := moveTo_spec hshow.legal h1' rfl
    generalize moveWindow fs₁ (fs₁.fatbase + (c + c / 2 + 1) / ss) = r at hshow₂ hwin₂ ⊢
    obtain ⟨fs₂, res₂⟩ := r
    dsimp only at hshow₂ hwin₂ ⊢
    by_cases hok₂ : res₂ = .frOk
    · rw [if_neg (not_not.2 hok₂), win_eq (hwin₂ hok₂), hshow₂.bytes _ h1', hshow.bytes _ h1]
      exact ⟨hshow.trans hshow₂, .inr rfl⟩
    · rw [if_pos hok₂]
      exact ⟨hshow.trans hshow₂, .inl rfl⟩
  · rw [if_pos hok]
    exact ⟨hshow, .inl rfl⟩

theorem getFat_fat16 (h : Legal fs) (hc : 2 ≤ c) (hn : c < fs.nFatent) (ht : fs.fsType = .fat16) :
    Gets fs c := by
  have hbytes := h.room c hn
  rw [ht] at hbytes
  have h1 : 2 * c + 1 < ss * fs.fsize := hbytes
  have h0 : 2 * c < ss * fs.fsize := Nat.lt_of_succ_lt h1
  unfold Gets getFat entry
  rw [if_neg (by omega), ht]
  dsimp only
  rw [word_sector h h0, Nat.mul_comm c 2]
  obtain ⟨hshow, -, hwin⟩ := moveTo_spec h h0 rfl
  generalize moveWindow fs (fs.fatbase + 2 * c / ss) = r at hshow hwin ⊢
  obtain ⟨fs₁, res₁⟩ := r
  dsimp only at hshow hwin ⊢
  by_cases hok : res₁ = .frOk
  · rw [if_neg (not_not.2 hok), ldWord_win hshow (hwin hok) h1]
    exact ⟨hshow, .inr rfl⟩
  · rw [if_pos hok]
    exact ⟨hshow, .inl rfl⟩

theorem getFat_fat32 (h : Legal fs) (hc : 2 ≤ c) (hn : c < fs.nFatent) (ht : fs.fsType = .fat32) :
    Gets fs c := by
  have hbytes := h.room c hn
  have hends := h.ends
  rw [ht] at hbytes hends
  have h3 : 4 * c + 3 < ss * fs.fsize := hbytes
  have h0 : 4 * c < ss * fs.fsize := by omega
  unfold Gets getFat entry
  rw [if_neg (by omega), ht]
  dsimp only
  rw [dword_sector h h0, dword_index hends hn]
  obtain ⟨hshow, -, hwin⟩ := moveTo_spec h h0 rfl
  generalize moveWindow fs (fs.fatbase + 4 * c / ss) = r at hshow hwin ⊢
  obtain ⟨fs₁, res₁⟩ := r
  dsimp only at hshow hwin ⊢
  by_cases hok : res₁ = .frOk
  · rw [if_neg (not_not.2 hok), ldDword_win hshow (hwin hok) h3]
    exact ⟨hshow, .inr (Nat.and_two_pow_sub_one_eq_mod (ldDword (fatByte fs) (4 * c)) 28)⟩
  · rw [if_pos hok]
    exact ⟨hshow, .inl rfl⟩

theorem getFat_spec (h : Legal fs) (hc : 2 ≤ c) (hn : c < fs.nFatent) : Gets fs c := by
  cases ht : fs.fsType with
  | unmounted => exact absurd ht h.mounted
  | fat12 => exact getFat_fat12 h hc hn ht
  | fat16 => exact getFat_fat16 h hc hn ht
  | fat32 => exact getFat_fat32 h hc hn ht

/-- A byte of the table is stored through the window. -/
def poke (fs : FatFs) (i : ℕ) (b : UInt8) : FatFs :=
  { fs with win := Function.update fs.win (i % ss) b, wflag := true }

/-- `fs'` is `fs` with the bytes `m` in the table, under the same window. -/
structure Pokes (fs fs' : FatFs) (m : Sector) : Prop where
  same : SameState fs fs'
  legal : Legal fs'
  winsect : fs'.winsect = fs.winsect
  bytes : fatByte fs' = m

theorem poke_spec (h : Legal fs) (hi : i < ss * fs.fsize) (hw : fs.winsect = fs.fatbase + i / ss)
    (b : UInt8) :
    Pokes fs (poke fs i b) (Function.update (fatByte fs) i b) where
  same := ⟨⟨⟨rfl, rfl, rfl, rfl, rfl, rfl⟩, rfl, fun _ => id⟩, id, rfl⟩
  legal := h.of_same ⟨⟨⟨rfl, rfl, rfl, rfl, rfl, rfl⟩, rfl, fun _ => id⟩, id, rfl⟩ h.winsect_lt
    (fun hclean => Bool.noConfusion hclean) fun _ _ => hw ▸ inFat_byte hi
  winsect := rfl
  bytes := by
    funext j
    show (if fs.fatbase + j / ss = fs.winsect then Function.update fs.win (i % ss) b
      else fs.drive.sector (fs.fatbase + j / ss)) (j % ss) = _
    by_cases hj : j = i
    · rw [hj, if_pos hw.symm, Function.update_self, Function.update_self]
    · rw [Function.update_of_ne hj]
      unfold fatByte view
      by_cases hsec : fs.fatbase + j / ss = fs.winsect
      · have hoff : j % ss ≠ i % ss := fun hoff => hj <| by
          have hdiv : j / ss = i / ss := by omega
          rw [← Nat.div_add_mod j ss, hdiv, hoff, Nat.div_add_mod]
        rw [if_pos hsec, if_pos hsec, Function.update_of_ne hoff]
      · rw [if_neg hsec, if_neg hsec]

/-- A word that does not cross the end of the sector. -/
theorem pokeWord_spec (h : Legal fs) (hi : i + 1 < ss * fs.fsize)
    (hw : fs.winsect = fs.fatbase + i / ss) (hfit : i % ss + 1 < ss) (v : ℕ) :
    Pokes fs { fs with win := stWord fs.win (i % ss) v, wflag := true }
      (stWord (fatByte fs) i v) := by
  have hdiv : (i + 1) / ss = i / ss := by unfold ss at hfit ⊢; omega
  have hoff : (i + 1) % ss = i % ss + 1 := by unfold ss at hfit ⊢; omega
  have h0 := poke_spec h (Nat.lt_of_succ_lt hi) hw (UInt8.ofNat v)
  have h1 := poke_spec h0.legal (i := i + 1) (by rw [h0.same.fsize]; exact hi)
    (by rw [h0.winsect, hw, h0.same.fatbase, hdiv]) (UInt8.ofNat (v / 256))
  have heq : poke (poke fs i (UInt8.ofNat v)) (i + 1) (UInt8.ofNat (v / 256)) =
      { fs with win := stWord fs.win (i % ss) v, wflag := true } := by
    unfold poke stWord
    rw [hoff]
  rw [heq, h0.bytes] at h1
  exact ⟨h0.same.trans h1.same, h1.legal, h1.winsect.trans h0.winsect, h1.bytes⟩

theorem pokeDword_spec (h : Legal fs) (hi : i + 3 < ss * fs.fsize)
    (hw : fs.winsect = fs.fatbase + i / ss) (hfit : i % ss + 3 < ss) (v : ℕ) :
    Pokes fs { fs with win := stDword fs.win (i % ss) v, wflag := true }
      (stDword (fatByte fs) i v) := by
  have hdiv : (i + 2) / ss = i / ss := by unfold ss at hfit ⊢; omega
  have hoff : (i + 2) % ss = i % ss + 2 := by unfold ss at hfit ⊢; omega
  have h0 := pokeWord_spec h (by omega) hw (by omega) v
  have h1 := pokeWord_spec h0.legal (i := i + 2) (by rw [h0.same.fsize]; exact hi)
    (by rw [h0.winsect, hw, h0.same.fatbase, hdiv]) (by rw [hoff]; exact hfit) (v / 65536)
  rw [h0.bytes, hoff] at h1
  exact ⟨h0.same.trans h1.same, h1.legal, h1.winsect.trans h0.winsect, h1.bytes⟩

theorem update_congr {j : ℕ} {b : UInt8} (h : m' i = m i) :
    Function.update m' j b i = Function.update m j b i := by
  unfold Function.update
  rw [h]

/-- The entry `c` is replaced, or spoiled when the drive fails, and no other one is changed. -/
structure Puts (fs fs' : FatFs) (c v : ℕ) (res : FResult) : Prop where
  same : SameState fs fs'
  legal : Legal fs'
  result : res = .frOk ∨ res = .frDiskErr
  others : ∀ d < fs.nFatent, d ≠ c → entry fs' d = entry fs d
  stored : res = .frOk → entry fs' c = v % (endMark fs.fsType + 1)

theorem Shows.puts (h : Shows fs fs') (hfs : Legal fs) {res : FResult} (hres : res = .frDiskErr) :
    Puts fs fs' c v res :=
  ⟨h.same, h.legal, .inr hres, fun _ hd _ => h.entry_eq hfs hd, fun hok =>
    FResult.noConfusion (hres.symm.trans hok)⟩

/-- The bytes of the table decide. -/
theorem Puts.of_bytes (h : Legal fs) (hsame : SameState fs fs') (hlegal : Legal fs')
    (hn : c < fs.nFatent)
    (hbytes : ∀ i < ss * fs.fsize, fatByte fs' i = putOf fs.fsType (fatByte fs) c v i) :
    Puts fs fs' c v .frOk := by
  have hentry : ∀ d < fs.nFatent,
      entry fs' d = entryOf fs.fsType (putOf fs.fsType (fatByte fs) c v) d := fun d hd => by
    unfold entry
    rw [hsame.fsType]
    exact entryOf_congr fun i hi => hbytes i (h.byte_lt hd hi)
  refine ⟨hsame, hlegal, .inl rfl, fun d hd hne => ?_, fun _ => ?_⟩
  · rw [hentry d hd, entryOf_putOf_other _ _ hne]
    rfl
  · rw [hentry c hn, entryOf_putOf_self h.mounted]

theorem putFat_fat12 (h : Legal fs) (hc : 2 ≤ c) (hn : c < fs.nFatent) (v : ℕ)
    (ht : fs.fsType = .fat12) : Puts fs (putFat fs c v).1 c v (putFat fs c v).2 := by
  have hbytes := h.room c hn
  have hends := h.ends
  rw [ht] at hbytes hends
  have h1 : c + c / 2 + 1 < ss * fs.fsize := hbytes
  have h0 : c + c / 2 < ss * fs.fsize := Nat.lt_of_succ_lt h1
  unfold putFat
  rw [if_neg (by omega), ht]
  dsimp only
  rw [byte_index hends hn, sector_eq h h0]
  obtain ⟨hshow, hres, hwin⟩ := moveTo_spec h h0 rfl
  generalize moveWindow fs (fs.fatbase + (c + c / 2) / ss) = r at hshow hres hwin ⊢
  obtain ⟨fs₁, res₁⟩ := r
  dsimp only at hshow hres hwin ⊢
  by_cases hok : res₁ = .frOk
  · have hsec := sector_eq hshow.legal (show c + c / 2 + 1 < ss * fs₁.fsize by rwa [hshow.same.fsize])
    push_cast at hsec ⊢
    rw [if_neg (not_not.2 hok), win_eq (hwin hok), hshow.bytes _ h0, hsec]
    -- the first byte is stored
    have hlow := poke_spec hshow.legal (by rwa [hshow.same.fsize]) (hwin hok)
      (lowByte c (fatByte fs (c + c / 2)) v)
    unfold lowByte poke at hlow
    generalize ({ fs₁ with
        win := Function.update fs₁.win ((c + c / 2) % ss)
          (if c % 2 = 1 then (fatByte fs (c + c / 2) &&& 0x0F) ||| (UInt8.ofNat v <<< (4 : UInt8))
            else UInt8.ofNat v)
        wflag := true } : FatFs) = fs₂ at hlow ⊢
    have hsame := hshow.same.trans hlow.same
    have hbytes₂ : ∀ i < ss * fs.fsize, fatByte fs₂ i =
        Function.update (fatByte fs) (c + c / 2) (lowByte c (fatByte fs (c + c / 2)) v) i :=
      fun i hi => by
        rw [hlow.bytes]
        exact update_congr (hshow.bytes i hi)
    obtain ⟨hshow₃, hres₃, hwin₃⟩ := moveTo_spec hlow.legal
      (show c + c / 2 + 1 < ss * fs₂.fsize by rwa [hsame.fsize])
      (show fs₁.fatbase + (c + c / 2 + 1) / ss = _ by rw [hlow.same.fatbase])
    generalize moveWindow fs₂ (fs₁.fatbase + (c + c / 2 + 1) / ss) = r at hshow₃ hres₃ hwin₃ ⊢
    obtain ⟨fs₃, res₃⟩ := r
    dsimp only at hshow₃ hres₃ hwin₃ ⊢
    have hbytes₃ : ∀ i < ss * fs.fsize, fatByte fs₃ i =
        Function.update (fatByte fs) (c + c / 2) (lowByte c (fatByte fs (c + c / 2)) v) i :=
      fun i hi => by rw [hshow₃.bytes i (by rwa [hsame.fsize]), hbytes₂ i hi]
    by_cases hok₃ : res₃ = .frOk
    · rw [if_neg (not_not.2 hok₃), win_eq (hwin₃ hok₃), hbytes₃ _ h1,
        Function.update_of_ne (Nat.succ_ne_self _)]
      have hhigh := poke_spec hshow₃.legal (by rwa [hshow₃.same.fsize, hsame.fsize]) (hwin₃ hok₃)
        (highByte c (fatByte fs (c + c / 2 + 1)) v)
      unfold highByte poke at hhigh
      refine Puts.of_bytes h (hsame.trans (hshow₃.same.trans hhigh.same)) hhigh.legal hn
        fun i hi => ?_
      rw [hhigh.bytes, ht]
      exact update_congr (hbytes₃ i hi)
    · rw [if_pos hok₃]
      -- only the first byte was stored
      refine ⟨hsame.trans hshow₃.same, hshow₃.legal, hres₃, fun d hd hne => ?_, fun hres =>
        absurd hres hok₃⟩
      have hstored : ∀ i ≤ lastByte .fat12 d, fatByte fs₃ i =
          Function.update (fatByte fs) (c + c / 2) (lowByte c (fatByte fs (c + c / 2)) v) i :=
        fun i hi => hbytes₃ i (h.byte_lt hd (by rw [ht]; exact hi))
      unfold entry
      rw [(hsame.trans hshow₃.same).fsType, ht, entryOf_congr hstored]
      refine entryOf_beside hne (fun i h0 _ => Function.update_of_ne h0 ..) (fun hodd => ?_)
        fun heven => ?_
      · rw [Function.update_self]
        exact lowByte_beside _ _ hodd
      · rw [Function.update_of_ne (Nat.succ_ne_self _)]
  · rw [if_pos hok]
    exact hshow.puts h (hres.resolve_left hok)

theorem putFat_fat16 (h : Legal fs) (hc : 2 ≤ c) (hn : c < fs.nFatent) (v : ℕ)
    (ht : fs.fsType = .fat16) : Puts fs (putFat fs c v).1 c v (putFat fs c v).2 := by
  have hbytes := h.room c hn
  rw [ht] at hbytes
  have h1 : 2 * c + 1 < ss * fs.fsize := hbytes
  have h0 : 2 * c < ss * fs.fsize := Nat.lt_of_succ_lt h1
  unfold putFat
  rw [if_neg (by omega), ht]
  dsimp only
  rw [word_sector h h0, Nat.mul_comm c 2]
  obtain ⟨hshow, hres, hwin⟩ := moveTo_spec h h0 rfl
  generalize moveWindow fs (fs.fatbase + 2 * c / ss) = r at hshow hres hwin ⊢
  obtain ⟨fs₁, res₁⟩ := r
  dsimp only at hshow hres hwin ⊢
  by_cases hok : res₁ = .frOk
  · rw [if_neg (not_not.2 hok)]
    have hword := pokeWord_spec hshow.legal (by rwa [hshow.same.fsize]) (hwin hok) (by unfold ss; omega) v
    refine Puts.of_bytes h (hshow.same.trans hword.same) hword.legal hn fun i hi => ?_
    rw [hword.bytes, ht]
    exact update_congr (update_congr (hshow.bytes i hi))
  · rw [if_pos hok]
    exact hshow.puts h (hres.resolve_left hok)

theorem putFat_fat32 (h : Legal fs) (hc : 2 ≤ c) (hn : c < fs.nFatent) (v : ℕ)
    (ht : fs.fsType = .fat32) : Puts fs (putFat fs c v).1 c v (putFat fs c v).2 := by
  have hbytes := h.room c hn
  have hends := h.ends
  rw [ht] at hbytes hends
  have h3 : 4 * c + 3 < ss * fs.fsize := hbytes
  have h0 : 4 * c < ss * fs.fsize := by omega
  unfold putFat
  rw [if_neg (by omega), ht]
  dsimp only
  rw [dword_sector h h0, dword_index hends hn]
  obtain ⟨hshow, hres, hwin⟩ := moveTo_spec h h0 rfl
  generalize moveWindow fs (fs.fatbase + 4 * c / ss) = r at hshow hres hwin ⊢
  obtain ⟨fs₁, res₁⟩ := r
  dsimp only at hshow hres hwin ⊢
  by_cases hok : res₁ = .frOk
  · rw [if_neg (not_not.2 hok), ldDword_win hshow (hwin hok) h3]
    have hdword := pokeDword_spec hshow.legal (by rwa [hshow.same.fsize]) (hwin hok) (by unfold ss; omega)
      (v ||| (ldDword (fatByte fs) (4 * c) &&& 0xF0000000))
    refine Puts.of_bytes h (hshow.same.trans hdword.same) hdword.legal hn fun i hi => ?_
    rw [hdword.bytes, ht]
    exact update_congr (update_congr (update_congr (update_congr (hshow.bytes i hi))))
  · rw [if_pos hok]
    exact hshow.puts h (hres.resolve_left hok)

/-- `put_fat` replaces one entry. -/
theorem putFat_spec (h : Legal fs) (hc : 2 ≤ c) (hn : c < fs.nFatent) (v : ℕ) :
    Puts fs (putFat fs c v).1 c v (putFat fs c v).2 := by
  cases ht : fs.fsType with
  | unmounted => exact absurd ht h.mounted
  | fat12 => exact putFat_fat12 h hc hn v ht
  | fat16 => exact putFat_fat16 h hc hn v ht
  | fat32 => exact putFat_fat32 h hc hn v ht

end NuAgent.Fat
