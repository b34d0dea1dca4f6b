import NuAgent.Fatfs.Files

/-!
# What the calls do to the volume

Whatever the calls for files do, they do it by moving the window, by storing into it where it shows
the table, and by setting the counters (`Acts`). A step of a run does this, or syncs, or accesses a
sector outside of the table (`step_cases`). What no move, store or counter changes is the same after
every run.
-/

namespace NuAgent.Fat

open CInt

variable {w w' : World} {fs fs₀ fs' : FatFs} {res : FResult} {c d n : ℕ}

/-- What the calls for files do to a volume, one thing after the other: they move the window, they
store into it where it shows the table, and they set the counters. -/
inductive Acts (fs : FatFs) : FatFs → Prop
  | refl : Acts fs fs
  | move {fs' : FatFs} (s : ℕ) (hs : s < 2 ^ 32) (h : Acts fs fs') : Acts fs (moveWindow fs' s).1
  | store {fs' : FatFs} (win : Sector) (hin : InFat fs fs'.winsect) (h : Acts fs fs') :
    Acts fs { fs' with win, wflag := true }
  | count {fs' : FatFs} (freeClust lastClust : ℕ) (fsiFlag : UInt8)
    (hflag : fsiFlag &&& 0x80 = 0 → fs'.fsiFlag &&& 0x80 = 0) (h : Acts fs fs') :
    Acts fs { fs' with freeClust, lastClust, fsiFlag }

/-- The volume stays legal, where it is. -/
theorem Acts.keeps (hfs : Legal fs) (h : Acts fs fs') : SamePlace fs fs' ∧ Legal fs' := by
  induction h with
  | refl => exact ⟨.refl, hfs⟩
  | move s hs _ ih =>
    obtain ⟨hsame, hlegal, -⟩ := moveWindow_spec ih.2 hs
    exact ⟨ih.1.trans hsame.toSamePlace, hlegal⟩
  | @store fs₁ win hin _ ih =>
    have hplace : SamePlace fs { fs₁ with win, wflag := true } :=
      ih.1.trans ⟨rfl, rfl, rfl, rfl, rfl, rfl⟩
    exact ⟨hplace, ih.2.of_place ⟨rfl, rfl, rfl, rfl, rfl, rfl⟩ id ih.2.winsect_lt
      (fun hclean => Bool.noConfusion hclean) fun _ _ => hplace.inFat.2 hin⟩
  | @count fs₁ freeClust lastClust fsiFlag hflag _ ih =>
    exact ⟨ih.1.trans ⟨rfl, rfl, rfl, rfl, rfl, rfl⟩,
      ih.2.of_place ⟨rfl, rfl, rfl, rfl, rfl, rfl⟩ hflag ih.2.winsect_lt ih.2.clean ih.2.dirty⟩

theorem u32_lt (x : ℤ) : u32 x < 2 ^ 32 := by
  unfold u32 unsigned
  omega

/-- The window moved to a byte of the table. -/
theorem Acts.moveTo (hfs : Legal fs₀) (h : Acts fs₀ fs) {b : ℕ} (hb : b < ss * fs.fsize) :
    Acts fs₀ (moveWindow fs (u32 ((fs.fatbase : ℤ) + (b : ℤ) / (ss : ℤ)))).1 ∧
      ((moveWindow fs (u32 ((fs.fatbase : ℤ) + (b : ℤ) / (ss : ℤ)))).2 = .frOk →
        InFat fs₀ (moveWindow fs (u32 ((fs.fatbase : ℤ) + (b : ℤ) / (ss : ℤ)))).1.winsect) := by
  obtain ⟨hplace, hlegal⟩ := h.keeps hfs
  obtain ⟨-, -, -, hwin, -⟩ :=
    moveWindow_spec hlegal (u32_lt ((fs.fatbase : ℤ) + (b : ℤ) / (ss : ℤ)))
  refine ⟨h.move _ (u32_lt _), fun hok => ?_⟩
  rw [hwin hok, sector_eq hlegal hb, ← hplace.inFat]
  exact inFat_byte hb

theorem getFat_acts (h : Acts fs₀ fs) (c : ℕ) : Acts fs₀ (getFat fs c).1 := by
  unfold getFat
  split
  · exact h
  · cases fs.fsType with
    | unmounted => exact h
    | fat12 =>
      have hmove := h.move _
        (u32_lt ((fs.fatbase : ℤ) + (u32 ((c : ℤ) + (c : ℤ) / 2) : ℕ) / (ss : ℤ)))
      dsimp only
      generalize moveWindow fs (u32 (fs.fatbase + (u32 (c + c / 2) : ℕ) / ss)) = r at hmove ⊢
      split
      · exact hmove
      · split
        · exact hmove.move _ (u32_lt _)
        · exact hmove.move _ (u32_lt _)
    | fat16 =>
      dsimp only
      split
      · exact h.move _ (u32_lt _)
      · exact h.move _ (u32_lt _)
    | fat32 =>
      dsimp only
      split
      · exact h.move _ (u32_lt _)
      · exact h.move _ (u32_lt _)

theorem putFat_acts (hfs : Legal fs₀) (h : Acts fs₀ fs) (c v : ℕ) :
    Acts fs₀ (putFat fs c v).1 := by
  obtain ⟨hplace, hlegal⟩ := h.keeps hfs
  unfold putFat
  by_cases hc : c < 2 ∨ c ≥ fs.nFatent
  · rw [if_pos hc]
    exact h
  rw [if_neg hc]
  have hn : c < fs.nFatent := by omega
  have hroom := hlegal.room c hn
  have hends := hlegal.ends
  cases ht : fs.fsType with
  | unmounted => exact h
  | fat12 =>
    rw [ht] at hroom hends
    have hroom : c + c / 2 + 1 < ss * fs.fsize := hroom
    dsimp only
    rw [byte_index hends hn]
    have hmove := h.moveTo hfs (Nat.lt_of_succ_lt hroom)
    obtain ⟨hplace₁, -⟩ := hmove.1.keeps hfs
    generalize moveWindow fs (u32 (fs.fatbase + (c + c / 2 : ℕ) / ss)) = r at hmove hplace₁ ⊢
    by_cases hok : r.2 = .frOk
    · rw [if_neg (not_not.2 hok)]
      generalize Function.update r.1.win _ _ = win
      have hstore := hmove.1.store win (hmove.2 hok)
      have hnext := hstore.moveTo hfs (show c + c / 2 + 1 < ss * r.1.fsize by
        rw [hplace₁.fsize, ← hplace.fsize]
        exact hroom)
      generalize moveWindow { r.1 with win, wflag := true } _ = r' at hnext ⊢
      by_cases hok' : r'.2 = .frOk
      · rw [if_neg (not_not.2 hok')]
        exact hnext.1.store _ (hnext.2 hok')
      · rw [if_pos hok']
        exact hnext.1
    · rw [if_pos hok]
      exact hmove.1
  | fat16 =>
    rw [ht] at hroom
    have hroom : 2 * c + 1 < ss * fs.fsize := hroom
    have hmove := h.moveTo hfs (Nat.lt_of_succ_lt hroom)
    dsimp only
    rw [word_sector hlegal (Nat.lt_of_succ_lt hroom), ← sector_eq hlegal (Nat.lt_of_succ_lt hroom)]
    generalize moveWindow fs _ = r at hmove ⊢
    by_cases hok : r.2 = .frOk
    · rw [if_neg (not_not.2 hok)]
      exact hmove.1.store _ (hmove.2 hok)
    · rw [if_pos hok]
      exact hmove.1
  | fat32 =>
    rw [ht] at hroom
    have hroom : 4 * c + 3 < ss * fs.fsize := hroom
    have hfirst : 4 * c < ss * fs.fsize := by omega
    have hmove := h.moveTo hfs hfirst
    dsimp only
    rw [dword_sector hlegal hfirst, ← sector_eq hlegal hfirst]
    generalize moveWindow fs _ = r at hmove ⊢
    by_cases hok : r.2 = .frOk
    · rw [if_neg (not_not.2 hok)]
      exact hmove.1.store _ (hmove.2 hok)
    · rw [if_pos hok]
      exact hmove.1

/-- The counter of free clusters is set where it is known. -/
theorem Acts.counted (h : Acts fs₀ fs) (free : ℕ) :
    Acts fs₀ (if fs.freeClust ≠ 0xFFFFFFFF then
      { fs with freeClust := free, fsiFlag := fs.fsiFlag ||| 1 } else fs) := by
  split
  · exact h.count free fs.lastClust _ bit_or
  · exact h

theorem removeLoop_acts (hfs : Legal fs₀) (h : Acts fs₀ fs)
    (hloop : removeLoop n fs c = some (fs', res)) : Acts fs₀ fs' := by
  induction n generalizing fs c with
  | zero =>
    unfold removeLoop at hloop
    split at hloop
    · have hloop : none = some (fs', res) := hloop
      exact absurd hloop (Option.some_ne_none _).symm
    · obtain ⟨rfl, -⟩ := Prod.mk.inj (Option.some.inj hloop)
      exact h
  | succ n ih =>
    have hget := getFat_acts h c
    unfold removeLoop at hloop
    generalize getFat fs c = r at hget hloop
    have hput := putFat_acts hfs hget c 0
    dsimp only at hloop
    generalize putFat r.1 c 0 = r' at hput hloop
    split at hloop
    · split at hloop
      · obtain ⟨rfl, -⟩ := Prod.mk.inj (Option.some.inj hloop)
        exact hget
      · split at hloop
        · obtain ⟨rfl, -⟩ := Prod.mk.inj (Option.some.inj hloop)
          exact hget
        · split at hloop
          · obtain ⟨rfl, -⟩ := Prod.mk.inj (Option.some.inj hloop)
            exact hget
          · by_cases hok : r'.2 = .frOk
            · rw [if_neg (not_not.2 hok)] at hloop
              exact ih (hput.counted _) hloop
            · rw [if_pos hok] at hloop
              obtain ⟨rfl, -⟩ := Prod.mk.inj (Option.some.inj hloop)
              exact hput
    · obtain ⟨rfl, -⟩ := Prod.mk.inj (Option.some.inj hloop)
      exact h

theorem removeChain_acts (hfs : Legal fs₀) (h : Acts fs₀ fs)
    (hremove : removeChain fs c = some (fs', res)) : Acts fs₀ fs' := by
  unfold removeChain at hremove
  split at hremove
  · obtain ⟨rfl, -⟩ := Prod.mk.inj (Option.some.inj hremove)
    exact h
  · exact removeLoop_acts hfs h hremove

theorem truncateAt_acts (hfs : Legal fs) (htruncate : truncateAt fs c = some (fs', res)) :
    Acts fs fs' := by
  have hget := getFat_acts (.refl : Acts fs fs) c
  unfold truncateAt at htruncate
  generalize getFat fs c = r at hget htruncate
  have hput := putFat_acts hfs hget c 0x0FFFFFFF
  dsimp only at htruncate
  generalize putFat r.1 c 0x0FFFFFFF = r' at hput htruncate
  split at htruncate
  · obtain ⟨rfl, -⟩ := Prod.mk.inj (Option.some.inj htruncate)
    exact hget
  · split at htruncate
    · obtain ⟨rfl, -⟩ := Prod.mk.inj (Option.some.inj htruncate)
      exact hget
    · split at htruncate
      · split at htruncate
        · exact removeChain_acts hfs hput htruncate
        · obtain ⟨rfl, -⟩ := Prod.mk.inj (Option.some.inj htruncate)
          exact hput
      · obtain ⟨rfl, -⟩ := Prod.mk.inj (Option.some.inj htruncate)
        exact hget

theorem findFree_acts {scl : ℕ} {found : ℕ ⊕ ℕ} (h : Acts fs₀ fs)
    (hfind : findFree scl n fs c = some (fs', found)) : Acts fs₀ fs' := by
  induction n generalizing fs c with
  | zero => exact absurd hfind.symm (Option.some_ne_none _)
  | succ n ih =>
    unfold findFree at hfind
    dsimp only at hfind
    generalize (if u32 ((c : ℤ) + 1) ≥ fs.nFatent then 2 else u32 ((c : ℤ) + 1)) = ncl at hfind
    have hget := getFat_acts h ncl
    generalize getFat fs ncl = r at hget hfind
    split at hfind
    · obtain ⟨rfl, -⟩ := Prod.mk.inj (Option.some.inj hfind)
      exact h
    · split at hfind
      · obtain ⟨rfl, -⟩ := Prod.mk.inj (Option.some.inj hfind)
        exact hget
      · split at hfind
        · obtain ⟨rfl, -⟩ := Prod.mk.inj (Option.some.inj hfind)
          exact hget
        · split at hfind
          · obtain ⟨rfl, -⟩ := Prod.mk.inj (Option.some.inj hfind)
            exact hget
          · exact ih hget hfind

theorem linkNew_acts (hfs : Legal fs₀) (h : Acts fs₀ fs) (c d : ℕ) :
    Acts fs₀ (linkNew fs c d).1 := by
  have hput := putFat_acts hfs h d 0x0FFFFFFF
  unfold linkNew
  generalize putFat fs d 0x0FFFFFFF = r at hput ⊢
  dsimp only
  have hlink : Acts fs₀ (if r.2 = .frOk ∧ c ≠ 0 then putFat r.1 c d else (r.1, r.2)).1 := by
    split
    · exact putFat_acts hfs hput c d
    · exact hput
  generalize (if r.2 = .frOk ∧ c ≠ 0 then putFat r.1 c d else (r.1, r.2)) = r' at hlink ⊢
  split
  · exact (hlink.count r'.1.freeClust d r'.1.fsiFlag id).counted _
  · exact hlink

theorem createFrom_acts {scl : ℕ} (hfs : Legal fs₀) (h : Acts fs₀ fs)
    (hcreate : createFrom fs c scl = some (fs', d)) : Acts fs₀ fs' := by
  obtain ⟨⟨fs₁, found⟩, hfind, hcreate⟩ := Option.bind_eq_some_iff.1 hcreate
  have hfound := findFree_acts h hfind
  cases found with
  | inl ncl =>
    have hlink := linkNew_acts hfs hfound c ncl
    have hcreate : some (linkNew fs₁ c ncl) = some (fs', d) := hcreate
    rw [Option.some.inj hcreate] at hlink
    exact hlink
  | inr cs =>
    obtain ⟨rfl, -⟩ := Prod.mk.inj (Option.some.inj hcreate)
    exact hfound

theorem createChain_acts (hfs : Legal fs) (hcreate : createChain fs c = some (fs', d)) :
    Acts fs fs' := by
  have hget := getFat_acts (.refl : Acts fs fs) c
  unfold createChain at hcreate
  generalize getFat fs c = r at hget hcreate
  split at hcreate
  · exact createFrom_acts hfs .refl hcreate
  · dsimp only at hcreate
    split at hcreate
    · obtain ⟨rfl, -⟩ := Prod.mk.inj (Option.some.inj hcreate)
      exact hget
    · split at hcreate
      · obtain ⟨rfl, -⟩ := Prod.mk.inj (Option.some.inj hcreate)
        exact hget
      · split at hcreate
        · obtain ⟨rfl, -⟩ := Prod.mk.inj (Option.some.inj hcreate)
          exact hget
        · exact createFrom_acts hfs hget hcreate

theorem countEntries_acts {k m : ℕ} (h : Acts fs₀ fs)
    (hcount : countEntries n fs c k = some (fs', res, m)) : Acts fs₀ fs' := by
  induction n generalizing fs c k with
  | zero => exact absurd hcount.symm (Option.some_ne_none _)
  | succ n ih =>
    have hget := getFat_acts h c
    unfold countEntries at hcount
    generalize getFat fs c = r at hget hcount
    dsimp only at hcount
    split at hcount
    · obtain ⟨rfl, -⟩ := Prod.mk.inj (Option.some.inj hcount)
      exact hget
    · split at hcount
      · obtain ⟨rfl, -⟩ := Prod.mk.inj (Option.some.inj hcount)
        exact hget
      · split at hcount
        · exact ih hget hcount
        · obtain ⟨rfl, -⟩ := Prod.mk.inj (Option.some.inj hcount)
          exact hget

/-- The sector to scan next is an address. -/
theorem scanSectors_acts (n : ℕ) : ∀ fs sect i p k, sect < 2 ^ 32 → Acts fs₀ fs →
    Acts fs₀ (scanSectors n fs sect i p k).1 := by
  induction n with
  | zero => exact fun _ _ _ _ _ _ h => h
  | succ n ih =>
    intro fs sect i p k hsect h
    have hmove : Acts fs₀ (if i = 0 then moveWindow fs sect else (fs, .frOk)).1 := by
      split
      · exact h.move sect hsect
      · exact h
    have hnext : (if i = 0 then u32 ((sect : ℤ) + 1) else sect) < 2 ^ 32 := by
      split
      · exact u32_lt _
      · exact hsect
    unfold scanSectors
    generalize (if i = 0 then moveWindow fs sect else (fs, .frOk)) = r at hmove ⊢
    dsimp only
    split
    · exact hmove
    · split
      · exact ih r.1 _ _ _ _ hnext hmove
      · exact ih r.1 _ _ _ _ hnext hmove

theorem getFree_acts {m : ℕ} (hfs : Legal fs) (hget : getFree fs = some (fs', res, m)) :
    Acts fs fs' := by
  unfold getFree at hget
  split at hget
  · obtain ⟨rfl, -⟩ := Prod.mk.inj (Option.some.inj hget)
    exact .refl
  · split at hget
    · obtain ⟨⟨fs₁, res₁, k⟩, hcount, hget⟩ := Option.bind_eq_some_iff.1 hget
      obtain ⟨rfl, -⟩ := Prod.mk.inj (Option.some.inj hget)
      exact (countEntries_acts .refl hcount).count k fs₁.lastClust _ bit_or
    · have hrange := hfs.range
      have hscan := scanSectors_acts fs.nFatent fs fs.fatbase 0 0 0 (by omega) (.refl : Acts fs fs)
      obtain ⟨r, hcount, hget⟩ := Option.bind_eq_some_iff.1 hget
      rw [Option.some.inj hcount] at hscan
      obtain ⟨rfl, -⟩ := Prod.mk.inj (Option.some.inj hget)
      exact hscan.count r.2.2 r.1.lastClust _ bit_or

/-! ## Steps -/

/-- What a step does. -/
theorem step_cases {op : Call} (hfs : Legal w.fs) (h : step w op = some w') :
    Acts w.fs w'.fs ∨ w'.fs = (syncFs w.fs).1 ∨
      (∃ data, op = .edit data ∧ w'.fs = { w.fs with win := data, wflag := true }) ∨
      (∃ s data, op = .write s data ∧ w'.fs = { w.fs with drive := (w.fs.drive.write s data).1 }) ∨
      ∃ s, w'.fs = { w.fs with drive := (w.fs.drive.read s).1 } := by
  have hsame : some w = some w' → Acts w.fs w'.fs := fun heq => by
    rw [Option.some.inj heq]
    exact .refl
  cases op with
  | create i =>
    have h : w.create i = some w' := h
    unfold World.create at h
    split at h
    · exact .inl (hsame h)
    · obtain ⟨r, hcreate, h⟩ := Option.bind_eq_some_iff.1 h
      rw [← Option.some.inj h]
      exact .inl (createChain_acts hfs hcreate)
  | follow i k =>
    have h : w.follow i k = some w' := h
    unfold World.follow at h
    split at h
    · exact .inl (hsame h)
    · obtain ⟨r, hcreate, h⟩ := Option.bind_eq_some_iff.1 h
      rw [← Option.some.inj h]
      exact .inl (createChain_acts hfs hcreate)
  | remove i =>
    have h : w.remove i = some w' := h
    unfold World.remove at h
    split at h
    · exact .inl (hsame h)
    · obtain ⟨r, hremove, h⟩ := Option.bind_eq_some_iff.1 h
      rw [← Option.some.inj h]
      exact .inl (removeChain_acts hfs .refl hremove)
  | truncate i k =>
    have h : w.truncate i k = some w' := h
    unfold World.truncate at h
    split at h
    · exact .inl (hsame h)
    · obtain ⟨r, htruncate, h⟩ := Option.bind_eq_some_iff.1 h
      rw [← Option.some.inj h]
      exact .inl (truncateAt_acts hfs htruncate)
  | getfree =>
    obtain ⟨r, hget, h⟩ := Option.bind_eq_some_iff.1 h
    rw [← Option.some.inj h]
    exact .inl (getFree_acts hfs hget)
  | sync =>
    rw [← Option.some.inj h]
    exact .inr (.inl rfl)
  | look s =>
    rw [← Option.some.inj h]
    exact .inl (.move _ (Nat.mod_lt _ (by decide)) .refl)
  | edit data =>
    simp only [step] at h
    split at h
    · exact .inl (hsame h)
    · rw [← Option.some.inj h]
      exact .inr (.inr (.inl ⟨data, rfl, rfl⟩))
  | write s data =>
    simp only [step] at h
    split at h
    · exact .inl (hsame h)
    · rw [← Option.some.inj h]
      exact .inr (.inr (.inr (.inl ⟨s, data, rfl, rfl⟩)))
  | read s =>
    rw [← Option.some.inj h]
    exact .inr (.inr (.inr (.inr ⟨s, rfl⟩)))

theorem goes_of_step {op : Call} (h : Sound w) (hstep : step w op = some w') : Goes w w' := by
  obtain ⟨w₁, hstep₁, hgoes⟩ := step_goes h op
  rw [Option.some.inj (hstep.symm.trans hstep₁)]
  exact hgoes

end NuAgent.Fat
