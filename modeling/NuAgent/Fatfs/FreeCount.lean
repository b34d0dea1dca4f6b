import NuAgent.Fatfs.ClusterChain

/-!
# Counting the free clusters

`f_getfree` returns `free_clust` when it is in range, and counts otherwise: entry by entry through
`get_fat` for twelve bits, or sector by sector in the window. Both counts are the number of free clusters
(`countEntries_spec`, `scanSectors_spec`); the second one also passes the two reserved entries.
-/

namespace NuAgent.Fat

open CInt

variable {fs fs' fs'' : FatFs} {c n : ℕ}

/-- The number of zero entries below `m`. -/
def zeros (fs : FatFs) (m : ℕ) : ℕ := ((Finset.range m).filter fun c => entry fs c = 0).card

theorem zeros_succ (fs : FatFs) (m : ℕ) :
    zeros fs (m + 1) = if entry fs m = 0 then zeros fs m + 1 else zeros fs m := by
  unfold zeros
  rw [Finset.range_add_one, Finset.filter_insert]
  split
  · exact Finset.card_insert_of_notMem fun hm =>
      absurd (Finset.mem_range.1 (Finset.mem_filter.1 hm).1) (lt_irrefl m)
  · rfl

/-- The two reserved entries are not free. -/
def Reserved (fs : FatFs) : Prop := entry fs 0 ≠ 0 ∧ entry fs 1 ≠ 0

theorem zeros_two (h : Reserved fs) : zeros fs 2 = 0 := by
  rw [zeros_succ, if_neg h.2, zeros_succ, if_neg h.1]
  rfl

theorem freeCount_eq_zeros (h : Reserved fs) : freeCount fs = zeros fs fs.nFatent := by
  unfold freeCount zeros
  congr 1
  ext c
  rw [Finset.mem_filter, Finset.mem_filter, Finset.mem_Ico, Finset.mem_range]
  constructor
  · rintro ⟨⟨-, hc⟩, hzero⟩
    exact ⟨hc, hzero⟩
  · rintro ⟨hc, hzero⟩
    refine ⟨⟨?_, hc⟩, hzero⟩
    by_contra hlt
    interval_cases c
    · exact h.1 hzero
    · exact h.2 hzero

/-- The count with `get_fat`. -/
theorem countEntries_spec (h : Legal fs) (n : ℕ) : ∀ fs' clst nfree, Shows fs fs' → 2 ≤ clst →
    clst < fs.nFatent → fs.nFatent ≤ n + clst → nfree + zeros fs 2 = zeros fs clst →
    ∃ fs'' res k, countEntries n fs' clst nfree = some (fs'', res, k) ∧ Shows fs fs'' ∧
      (res = .frOk → k + zeros fs 2 = zeros fs fs.nFatent) := by
  have hmax := h.nFatent_lt
  induction n with
  | zero =>
    intro fs' clst nfree _ _ hn hfuel _
    omega
  | succ n ih =>
    intro fs' clst nfree hshow hc hn hfuel hfree
    rw [countEntries]
    obtain ⟨hshow', hget⟩ := getFat_spec hshow.legal hc (by rw [hshow.same.nFatent]; exact hn)
    rw [hshow.entry_eq h hn] at hget
    generalize getFat fs' clst = r at hshow' hget ⊢
    obtain ⟨fs'', stat⟩ := r
    dsimp only at hshow' hget ⊢
    have hshow'' := hshow.trans hshow'
    by_cases hfault : stat = 0xFFFFFFFF
    · rw [if_pos hfault]
      exact ⟨fs'', _, _, rfl, hshow'', fun hok => FResult.noConfusion hok⟩
    rw [if_neg hfault]
    by_cases hbad : stat = 1
    · rw [if_pos hbad]
      exact ⟨fs'', _, _, rfl, hshow'', fun hok => FResult.noConfusion hok⟩
    rw [if_neg hbad, hget.resolve_left hfault, hshow''.same.nFatent]
    have hinc : u32 ((clst : ℤ) + 1) = clst + 1 := by
      rw [u32_of_lt (by omega) (by omega)]
      omega
    have hfree' : (if entry fs clst = 0 then nfree + 1 else nfree) + zeros fs 2 =
        zeros fs (clst + 1) := by
      rw [zeros_succ fs clst]
      split <;> omega
    rw [hinc]
    by_cases hmore : clst + 1 < fs.nFatent
    · rw [if_pos hmore]
      exact ih fs'' (clst + 1) _ hshow'' (by omega) hmore (by omega) hfree'
    · rw [if_neg hmore]
      refine ⟨fs'', _, _, rfl, hshow'', fun _ => ?_⟩
      rw [hfree']
      congr 1
      omega

/-- The bytes of an entry that does not cross a sector. -/
def width (t : FsType) : ℕ := if t = .fat16 then 2 else 4

/-- Where the search in the window is, at entry `m`, for entries of `w` bytes. -/
structure At (fs : FatFs) (w m sect i p : ℕ) : Prop where
  boundary : w * m % ss = 0 → i = 0 ∧ sect = fs.fatbase + w * m / ss
  inside : w * m % ss ≠ 0 → i = ss - w * m % ss ∧ p = w * m % ss ∧
    sect = fs.fatbase + w * m / ss + 1 ∧ fs.winsect = fs.fatbase + w * m / ss

theorem width_eq (t : FsType) : width t = 2 ∨ width t = 4 := by
  unfold width
  split
  · exact .inl rfl
  · exact .inr rfl

theorem At.next {w m : ℕ} (hw : w = 2 ∨ w = 4) (hwin : fs.winsect = fs.fatbase + w * m / ss) :
    At fs w (m + 1) (fs.fatbase + w * m / ss + 1) (ss - w * m % ss - w) (w * m % ss + w) := by
  unfold ss at hwin
  constructor
  all_goals
    intro hoff
    unfold ss at hoff ⊢
    rcases hw with rfl | rfl <;> omega

/-- The window is moved when it is used up. -/
theorem moveScan_spec (h : Legal fs) (hshow : Shows fs fs') {m sect i p : ℕ}
    (hbyte : width fs.fsType * m < ss * fs.fsize) (hat : At fs' (width fs.fsType) m sect i p) :
    ∃ fs'' res, (if i = 0 then moveWindow fs' sect else (fs', .frOk)) = (fs'', res) ∧
      Shows fs fs'' ∧ (res = .frOk →
        (if i = 0 then ss else i) = ss - width fs.fsType * m % ss ∧
        (if i = 0 then 0 else p) = width fs.fsType * m % ss ∧
        (if i = 0 then u32 ((sect : ℤ) + 1) else sect) =
          fs.fatbase + width fs.fsType * m / ss + 1 ∧
        fs''.winsect = fs.fatbase + width fs.fsType * m / ss) := by
  have hlt : width fs.fsType * m % ss < ss := Nat.mod_lt _ (by decide)
  have hmax := h.inFat_lt (inFat_byte hbyte)
  by_cases hoff : width fs.fsType * m % ss = 0
  · obtain ⟨rfl, hsect⟩ := hat.boundary hoff
    rw [hshow.same.fatbase] at hsect
    obtain ⟨hshow', -, hwin⟩ := moveTo_spec hshow.legal
      (show width fs.fsType * m < ss * fs'.fsize by rw [hshow.same.fsize]; exact hbyte)
      (show sect = _ by rw [hshow.same.fatbase]; exact hsect)
    generalize moveWindow fs' sect = r at hshow' hwin ⊢
    obtain ⟨fs'', res⟩ := r
    refine ⟨fs'', res, if_pos rfl, hshow.trans hshow', fun hok => ⟨?_, ?_, ?_, ?_⟩⟩
    · rw [if_pos rfl, hoff]
      rfl
    · rw [if_pos rfl, hoff]
    · rw [if_pos rfl, u32_of_lt (by omega) (by omega)]
      omega
    · rw [hwin hok, hshow'.same.fatbase, hshow.same.fatbase]
  · obtain ⟨hi, hp, hsect, hwin⟩ := hat.inside hoff
    rw [hshow.same.fatbase] at hsect hwin
    have hi0 : i ≠ 0 := by omega
    refine ⟨_, _, if_neg hi0, hshow, fun _ => ⟨?_, ?_, ?_, hwin⟩⟩
    · rw [if_neg hi0, hi]
    · rw [if_neg hi0, hp]
    · rw [if_neg hi0, hsect]

/-- The count in the window. -/
theorem scanSectors_spec (h : Legal fs) (h12 : fs.fsType ≠ .fat12) (k : ℕ) :
    ∀ m fs' sect i p nfree, Shows fs fs' → k + m = fs.nFatent → At fs' (width fs.fsType) m sect i p →
      nfree = zeros fs m → ∃ fs'' res n, scanSectors k fs' sect i p nfree = (fs'', res, n) ∧
        Shows fs fs'' ∧ (res = .frOk → n = zeros fs fs.nFatent) := by
  induction k with
  | zero =>
    intro m fs' sect i p nfree hshow hm _ hfree
    refine ⟨fs', _, _, rfl, hshow, fun _ => ?_⟩
    rw [hfree, ← hm, Nat.zero_add]
  | succ k ih =>
    intro m fs' sect i p nfree hshow hm hat hfree
    have hlt : m < fs.nFatent := by omega
    have hroom := h.room m hlt
    have hbyte : width fs.fsType * m < ss * fs.fsize := by
      have hmounted := h.mounted
      cases ht : fs.fsType with
      | unmounted => exact absurd ht hmounted
      | fat12 => exact absurd ht h12
      | fat16 => rw [ht] at hroom; exact Nat.lt_of_succ_lt hroom
      | fat32 =>
        rw [ht] at hroom
        have hroom : 4 * m + 3 < ss * fs.fsize := hroom
        exact (Nat.lt_add_of_pos_right (by decide)).trans hroom
    obtain ⟨fs'', res, hmove, hshow', hnext⟩ := moveScan_spec h hshow hbyte hat
    rw [scanSectors, hmove]
    dsimp only
    by_cases hok : res = .frOk
    · obtain ⟨hi, hp, hsect, hwin⟩ := hnext hok
      rw [if_neg (not_not.2 hok), hi, hp, hsect]
      have hwin' : fs''.winsect = fs''.fatbase + width fs.fsType * m / ss := by
        rw [hwin, hshow'.same.fatbase]
      have hat' := At.next (width_eq fs.fsType) hwin'
      rw [hshow'.same.fatbase] at hat'
      rw [hshow'.same.fsType]
      have hgo : ∀ n, n = zeros fs (m + 1) → ∃ fs₃ res₃ n₃,
          scanSectors k fs'' (fs.fatbase + width fs.fsType * m / ss + 1)
            (ss - width fs.fsType * m % ss - width fs.fsType)
            (width fs.fsType * m % ss + width fs.fsType) n = (fs₃, res₃, n₃) ∧ Shows fs fs₃ ∧
            (res₃ = .frOk → n₃ = zeros fs fs.nFatent) := fun n hn =>
        ih (m + 1) fs'' _ _ _ n hshow' (by omega) hat' hn
      by_cases ht : fs.fsType = .fat16
      · have hw : width fs.fsType = 2 := if_pos ht
        rw [ht] at hroom
        rw [hw] at hgo hwin' ⊢
        rw [if_pos ht, ldWord_win hshow' hwin' hroom]
        refine hgo _ ?_
        rw [zeros_succ, hfree]
        have hentry : entry fs m = ldWord (fatByte fs) (2 * m) := by
          unfold entry
          rw [ht]
          rfl
        rw [hentry]
      · have hw : width fs.fsType = 4 := if_neg ht
        have ht32 : fs.fsType = .fat32 := by
          have hmounted := h.mounted
          cases hfs : fs.fsType with
          | unmounted => exact absurd hfs hmounted
          | fat12 => exact absurd hfs h12
          | fat16 => exact absurd hfs ht
          | fat32 => rfl
        rw [ht32] at hroom
        rw [hw] at hgo hwin' ⊢
        rw [if_neg ht, ldDword_win hshow' hwin' hroom]
        refine hgo _ ?_
        have hentry : entry fs m = ldDword (fatByte fs) (4 * m) &&& 0x0FFFFFFF := by
          unfold entry
          rw [ht32]
          exact (Nat.and_two_pow_sub_one_eq_mod _ 28).symm
        rw [zeros_succ, hfree, hentry]
    · rw [if_pos hok]
      exact ⟨fs'', _, _, rfl, hshow', fun hres => absurd hres hok⟩

/-- `f_getfree` changes nothing of the table. When it succeeds and the counter was unknown or right, it
returns the number of free clusters, and the counter is right from then on. -/
theorem getFree_spec (h : Legal fs) :
    ∃ fs' res k, getFree fs = some (fs', res, k) ∧ Keeps fs fs' ∧
      (res = .frOk → Reserved fs → Exact fs → k = freeCount fs ∧ Exact fs') := by
  have hclusters := h.clusters
  have hmax := h.nFatent_lt
  unfold getFree
  by_cases hknown : fs.freeClust ≤ fs.nFatent - 2
  · rw [if_pos hknown]
    refine ⟨fs, _, _, rfl, ⟨.refl, h, fun _ _ => rfl⟩, fun _ _ hexact => ⟨?_, hexact⟩⟩
    exact hexact.resolve_left (by omega)
  rw [if_neg hknown]
  have hset : ∀ fs₁ k, Shows fs fs₁ →
      Keeps fs { fs₁ with freeClust := k, fsiFlag := fs₁.fsiFlag ||| 1 } ∧
      (k = freeCount fs → Exact { fs₁ with freeClust := k, fsiFlag := fs₁.fsiFlag ||| 1 }) := by
    intro fs₁ k hshow
    obtain ⟨hvol, hlegal⟩ := counters_legal hshow.legal k fs₁.lastClust
    refine ⟨⟨hshow.same.toSameVolume.trans hvol, hlegal, fun e he => hshow.entry_eq h he⟩, fun hk =>
      .inr ?_⟩
    rw [hk]
    have hsame : freeCount fs₁ = freeCount fs :=
      freeCount_congr hshow.same.nFatent fun e _ he => by rw [hshow.entry_eq h he]
    exact hsame.symm
  by_cases ht : fs.fsType = .fat12
  · rw [if_pos ht]
    obtain ⟨fs₁, res, k, heq, hshow, hk⟩ := countEntries_spec h fs.nFatent fs 2 0 (.refl h) le_rfl
      hclusters (by omega) (Nat.zero_add _)
    rw [heq]
    obtain ⟨hkeeps, hcount⟩ := hset fs₁ k hshow
    refine ⟨_, _, _, rfl, hkeeps, fun hok hreserved _ => ?_⟩
    have hk' : k = freeCount fs := by
      have hk := hk hok
      rw [zeros_two hreserved] at hk
      rw [freeCount_eq_zeros hreserved, ← hk]
      rfl
    exact ⟨hk', hcount hk'⟩
  · rw [if_neg ht]
    have hat : At fs (width fs.fsType) 0 fs.fatbase 0 0 :=
      ⟨fun _ => ⟨rfl, by rw [Nat.mul_zero]; rfl⟩, fun hoff => absurd (by rw [Nat.mul_zero]; rfl) hoff⟩
    obtain ⟨fs₁, res, k, heq, hshow, hk⟩ := scanSectors_spec h ht fs.nFatent 0 fs fs.fatbase 0 0 0
      (.refl h) rfl hat rfl
    rw [heq]
    obtain ⟨hkeeps, hcount⟩ := hset fs₁ k hshow
    refine ⟨_, _, _, rfl, hkeeps, fun hok hreserved _ => ?_⟩
    have hk' : k = freeCount fs := (hk hok).trans (freeCount_eq_zeros hreserved).symm
    exact ⟨hk', hcount hk'⟩

end NuAgent.Fat
