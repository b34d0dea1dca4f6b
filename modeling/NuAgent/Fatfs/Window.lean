import NuAgent.Fatfs.Volume

/-!
# The window shows the drive

`view fs s` is what sector `s` holds for the file system: the window, when it lies there, and the drive
otherwise. `Legal` says where the table lies and that a clean window holds what the drive holds. Then a
move of the window, with its write back, changes nothing of the table that is seen (`moveWindow_spec`),
also when the drive fails.
-/

namespace NuAgent.Fat

open CInt

/-- The contents of a sector, as the file system sees them. -/
def view (fs : FatFs) (s : ℕ) : Sector := if s = fs.winsect then fs.win else fs.drive.sector s

/-- A sector of the first copy of the table. -/
def InFat (fs : FatFs) (s : ℕ) : Prop := fs.fatbase ≤ s ∧ s < fs.fatbase + fs.fsize

/-- A sector of any copy of the table. -/
def InFats (fs : FatFs) (s : ℕ) : Prop := fs.fatbase ≤ s ∧ s < fs.fatbase + fs.nFats * fs.fsize

instance decidableInFats (fs : FatFs) (s : ℕ) : Decidable (InFats fs s) :=
  inferInstanceAs (Decidable (_ ∧ _))

/-- A byte of the table. -/
def fatByte (fs : FatFs) (i : ℕ) : UInt8 := view fs (fs.fatbase + i / ss) (i % ss)

/-- The last byte of an entry. -/
def lastByte : FsType → ℕ → ℕ
  | .fat12, c => c + c / 2 + 1
  | .fat16, c => 2 * c + 1
  | .fat32, c => 4 * c + 3
  | .unmounted, _ => 0

/-- The end mark of a chain. -/
def endMark : FsType → ℕ
  | .fat12 => 0xFFF
  | .fat16 => 0xFFFF
  | .fat32 => 0x0FFFFFFF
  | .unmounted => 0

/-- A mounted volume: the table has room for its entries, which are below the end mark, its copies lie in
the range of the drive, the sector of `FSINFO` is not among them, a clean window holds what the drive
holds, and a dirty one is not in a second copy. -/
structure Legal (fs : FatFs) : Prop where
  mounted : fs.fsType ≠ .unmounted
  copies : 1 ≤ fs.nFats
  clusters : 2 < fs.nFatent
  room : ∀ c < fs.nFatent, lastByte fs.fsType c < ss * fs.fsize
  ends : fs.nFatent ≤ endMark fs.fsType
  range : fs.fatbase + fs.nFats * fs.fsize < 2 ^ 32
  fsinfo : fs.fsiFlag &&& 0x80 = 0 → fs.volbase + 1 < fs.fatbase
  winsect_lt : fs.winsect < 2 ^ 32
  clean : fs.wflag = false → InFat fs fs.winsect → fs.win = fs.drive.sector fs.winsect
  dirty : fs.wflag = true → InFats fs fs.winsect → InFat fs fs.winsect

/-- Every copy of the table is the same on the drive. -/
def Copies (fs : FatFs) : Prop :=
  ∀ s, InFat fs s → ∀ k < fs.nFats, fs.drive.sector (s + k * fs.fsize) = fs.drive.sector s

/-- The volume lies where it lay. -/
structure SamePlace (fs fs' : FatFs) : Prop where
  fsType : fs'.fsType = fs.fsType
  nFats : fs'.nFats = fs.nFats
  nFatent : fs'.nFatent = fs.nFatent
  fsize : fs'.fsize = fs.fsize
  fatbase : fs'.fatbase = fs.fatbase
  volbase : fs'.volbase = fs.volbase

/-- The volume is the same, and its copies stay the same on a drive that does not fail. -/
structure SameVolume (fs fs' : FatFs) : Prop extends SamePlace fs fs' where
  fails : fs'.drive.fails = fs.drive.fails
  copies : (∀ n, fs.drive.fails n = false) → Copies fs → Copies fs'

/-- The volume is the same, and so is the counter of free clusters. -/
structure SameState (fs fs' : FatFs) : Prop extends SameVolume fs fs' where
  fsiFlag : fs'.fsiFlag &&& 0x80 = 0 → fs.fsiFlag &&& 0x80 = 0
  freeClust : fs'.freeClust = fs.freeClust

variable {fs fs' fs'' : FatFs} {s sector : ℕ}

theorem SamePlace.refl : SamePlace fs fs := ⟨rfl, rfl, rfl, rfl, rfl, rfl⟩

theorem SamePlace.trans (h : SamePlace fs fs') (h' : SamePlace fs' fs'') : SamePlace fs fs'' where
  fsType := h'.fsType.trans h.fsType
  nFats := h'.nFats.trans h.nFats
  nFatent := h'.nFatent.trans h.nFatent
  fsize := h'.fsize.trans h.fsize
  fatbase := h'.fatbase.trans h.fatbase
  volbase := h'.volbase.trans h.volbase

theorem SamePlace.symm (h : SamePlace fs fs') : SamePlace fs' fs :=
  ⟨h.fsType.symm, h.nFats.symm, h.nFatent.symm, h.fsize.symm, h.fatbase.symm, h.volbase.symm⟩

theorem SameVolume.refl : SameVolume fs fs := ⟨.refl, rfl, fun _ => id⟩

theorem SameVolume.trans (h : SameVolume fs fs') (h' : SameVolume fs' fs'') : SameVolume fs fs'' where
  toSamePlace := h.toSamePlace.trans h'.toSamePlace
  fails := h'.fails.trans h.fails
  copies hfails hcopies := h'.copies (by rw [h.fails]; exact hfails) (h.copies hfails hcopies)

theorem SameState.refl : SameState fs fs := ⟨.refl, id, rfl⟩

theorem SameState.trans (h : SameState fs fs') (h' : SameState fs' fs'') : SameState fs fs'' where
  toSameVolume := h.toSameVolume.trans h'.toSameVolume
  fsiFlag hbit := h.fsiFlag (h'.fsiFlag hbit)
  freeClust := h'.freeClust.trans h.freeClust

theorem SamePlace.inFat (h : SamePlace fs fs') : InFat fs' s ↔ InFat fs s := by
  unfold InFat
  rw [h.fatbase, h.fsize]

theorem SamePlace.inFats (h : SamePlace fs fs') : InFats fs' s ↔ InFats fs s := by
  unfold InFats
  rw [h.fatbase, h.nFats, h.fsize]

/-- The bit of `fsi_flag` that says that the volume has no `FSINFO` is the same. -/
theorem Legal.of_place (h : Legal fs) (hsame : SamePlace fs fs')
    (hflag : fs'.fsiFlag &&& 0x80 = 0 → fs.fsiFlag &&& 0x80 = 0) (hwinsect : fs'.winsect < 2 ^ 32)
    (hclean : fs'.wflag = false → InFat fs' fs'.winsect → fs'.win = fs'.drive.sector fs'.winsect)
    (hdirty : fs'.wflag = true → InFats fs' fs'.winsect → InFat fs' fs'.winsect) : Legal fs' where
  mounted := by rw [hsame.fsType]; exact h.mounted
  copies := by rw [hsame.nFats]; exact h.copies
  clusters := by rw [hsame.nFatent]; exact h.clusters
  room := by rw [hsame.nFatent, hsame.fsType, hsame.fsize]; exact h.room
  ends := by rw [hsame.nFatent, hsame.fsType]; exact h.ends
  range := by rw [hsame.fatbase, hsame.nFats, hsame.fsize]; exact h.range
  fsinfo hbit := by rw [hsame.volbase, hsame.fatbase]; exact h.fsinfo (hflag hbit)
  winsect_lt := hwinsect
  clean := hclean
  dirty := hdirty

theorem Legal.of_same (h : Legal fs) (hsame : SameState fs fs') (hwinsect : fs'.winsect < 2 ^ 32)
    (hclean : fs'.wflag = false → InFat fs' fs'.winsect → fs'.win = fs'.drive.sector fs'.winsect)
    (hdirty : fs'.wflag = true → InFats fs' fs'.winsect → InFat fs' fs'.winsect) : Legal fs' :=
  h.of_place hsame.toSamePlace hsame.fsiFlag hwinsect hclean hdirty

/-- A sector of the first copy is one of the table. -/
theorem Legal.inFats (h : Legal fs) (hs : InFat fs s) : InFats fs s := by
  have hle : fs.fsize ≤ fs.nFats * fs.fsize := Nat.le_mul_of_pos_left _ h.copies
  exact ⟨hs.1, by have := hs.2; omega⟩

theorem Legal.inFat_lt (h : Legal fs) (hs : InFat fs s) : s < 2 ^ 32 - 1 := by
  have hin := (h.inFats hs).2
  have hrange := h.range
  omega

/-! ## The drive -/

theorem Drive.write_other (d : Drive) (data : Sector) (hs : s ≠ sector) :
    (d.write sector data).1.sector s = d.sector s :=
  Function.update_of_ne hs ..

theorem Drive.write_self (d : Drive) (data : Sector) (hok : (d.write sector data).2 = true) :
    (d.write sector data).1.sector sector = data := by
  have hfails : d.fails d.accesses = false := by
    have hok : (!d.fails d.accesses) = true := hok
    rwa [Bool.not_eq_true'] at hok
  show Function.update d.sector sector (if d.fails d.accesses then _ else data) sector = data
  rw [Function.update_self, hfails]
  rfl

/-- One turn of the writes to the copies. -/
theorem writeCopies_succ (n wsect : ℕ) (d : Drive) (hn : wsect + (n + 1) * fs.fsize < 2 ^ 32) :
    writeCopies fs (n + 1) wsect d =
      writeCopies fs n (wsect + fs.fsize) (d.write (wsect + fs.fsize) fs.win).1 := by
  have hstep : u32 ((wsect : ℤ) + fs.fsize) = wsect + fs.fsize := by
    rw [Nat.succ_mul] at hn
    rw [u32_of_lt (by omega) (by omega)]
    omega
  rw [writeCopies, hstep]

theorem writeCopies_fails (n wsect : ℕ) (d : Drive) :
    (writeCopies fs n wsect d).fails = d.fails := by
  induction n generalizing wsect d with
  | zero => rfl
  | succ n ih => exact ih _ _

/-- The other sectors are the same. -/
theorem writeCopies_other (n wsect : ℕ) (d : Drive) (hn : wsect + n * fs.fsize < 2 ^ 32)
    (hs : ∀ k, 1 ≤ k → k ≤ n → s ≠ wsect + k * fs.fsize) :
    (writeCopies fs n wsect d).sector s = d.sector s := by
  induction n generalizing wsect d with
  | zero => rfl
  | succ n ih =>
    have hone : s ≠ wsect + fs.fsize := by simpa using hs 1 le_rfl (Nat.le_add_left 1 n)
    rw [writeCopies_succ n wsect d hn, ih _ _ (by rw [Nat.succ_mul] at hn; omega) fun k hk hkn => ?_]
    · exact Drive.write_other d _ hone
    · have hnext := hs (k + 1) (Nat.le_add_left 1 k) (Nat.succ_le_succ hkn)
      rw [Nat.succ_mul] at hnext
      omega

/-- The copies hold the window. -/
theorem writeCopies_copy (n wsect : ℕ) (d : Drive) (hn : wsect + n * fs.fsize < 2 ^ 32)
    (hfails : ∀ n, d.fails n = false) (hsize : 0 < fs.fsize) {k : ℕ} (hk : 1 ≤ k) (hkn : k ≤ n) :
    (writeCopies fs n wsect d).sector (wsect + k * fs.fsize) = fs.win := by
  induction n generalizing wsect d k with
  | zero => omega
  | succ n ih =>
    rw [writeCopies_succ n wsect d hn]
    have hn' : wsect + fs.fsize + n * fs.fsize < 2 ^ 32 := by rw [Nat.succ_mul] at hn; omega
    obtain ⟨k, rfl⟩ : ∃ j, k = j + 1 := ⟨k - 1, by omega⟩
    have hplace : wsect + (k + 1) * fs.fsize = wsect + fs.fsize + k * fs.fsize := by
      rw [Nat.succ_mul]
      omega
    rw [hplace]
    cases k with
    | zero =>
      rw [Nat.zero_mul, Nat.add_zero, writeCopies_other _ _ _ hn' fun k hk _ => ?_]
      · exact Drive.write_self d _ (by simp [Drive.write, hfails])
      · have hpos : 0 < k * fs.fsize := Nat.mul_pos hk hsize
        omega
    | succ k =>
      exact ih _ (d.write (wsect + fs.fsize) fs.win).1 hn' hfails (Nat.le_add_left 1 k)
        (Nat.le_of_succ_le_succ hkn)

/-! ## The write back -/

/-- Whether the window lies in the first copy, as `sync_window` computes it. -/
theorem inFat_iff (h : Legal fs) :
    u32 ((fs.winsect : ℤ) - fs.fatbase) < fs.fsize ↔ InFat fs fs.winsect := by
  have hwin := h.winsect_lt
  have hrange := h.range
  have hle : fs.fsize ≤ fs.nFats * fs.fsize := Nat.le_mul_of_pos_left _ h.copies
  unfold InFat
  by_cases hge : fs.fatbase ≤ fs.winsect
  · rw [u32_of_lt (by omega) (by omega)]
    omega
  · have hwrap : u32 ((fs.winsect : ℤ) - fs.fatbase) = 2 ^ 32 + fs.winsect - fs.fatbase := by
      have hmod : u32 ((fs.winsect : ℤ) - fs.fatbase) =
          u32 (((2 ^ 32 + fs.winsect - fs.fatbase : ℕ) : ℤ)) := by
        unfold u32 unsigned
        have hcast : ((2 ^ 32 + fs.winsect - fs.fatbase : ℕ) : ℤ) =
            (fs.winsect : ℤ) - fs.fatbase + 2 ^ 32 := by omega
        rw [hcast, Int.add_emod_right]
      rw [hmod, u32_of_lt (by omega) (by omega)]
      omega
    rw [hwrap]
    omega

/-- The drive after a write back that succeeds. -/
def syncDrive (fs : FatFs) : Drive :=
  if u32 ((fs.winsect : ℤ) - fs.fatbase) < fs.fsize then
    writeCopies fs (fs.nFats - 1) fs.winsect (fs.drive.write fs.winsect fs.win).1
  else (fs.drive.write fs.winsect fs.win).1

theorem syncDrive_fails (fs : FatFs) : (syncDrive fs).fails = fs.drive.fails := by
  unfold syncDrive
  split
  · exact writeCopies_fails _ _ _
  · rfl

/-- The last copy ends in the range of the drive. -/
theorem Legal.last_copy (h : Legal fs) (hs : InFat fs s) :
    s + (fs.nFats - 1) * fs.fsize < fs.fatbase + fs.nFats * fs.fsize := by
  obtain ⟨k, hk⟩ : ∃ k, fs.nFats = k + 1 := ⟨fs.nFats - 1, by have := h.copies; omega⟩
  have hlt := hs.2
  rw [hk, Nat.succ_mul, Nat.add_sub_cancel]
  omega

/-- In the first copy only the sector of the window is written. -/
theorem syncDrive_table (h : Legal fs) (hs : InFat fs s) :
    (syncDrive fs).sector s = (fs.drive.write fs.winsect fs.win).1.sector s := by
  unfold syncDrive
  by_cases hin : InFat fs fs.winsect
  · have hlast := h.last_copy hin
    have hrange := h.range
    rw [if_pos ((inFat_iff h).2 hin)]
    refine writeCopies_other _ _ _ (by omega) fun k hk _ => ?_
    have hle : fs.fsize ≤ k * fs.fsize := Nat.le_mul_of_pos_left _ hk
    have hwin := hin.1
    have hlt := hs.2
    omega
  · rw [if_neg fun hc => hin ((inFat_iff h).1 hc)]

/-- Places of different sectors are different in all copies. -/
theorem copy_ne {s' : ℕ} (hs : InFat fs s) (hs' : InFat fs s') (hne : s ≠ s') (j k : ℕ) :
    s + j * fs.fsize ≠ s' + k * fs.fsize := fun heq => by
  obtain ⟨a, rfl⟩ := Nat.exists_eq_add_of_le hs.1
  obtain ⟨b, rfl⟩ := Nat.exists_eq_add_of_le hs'.1
  have ha : a < fs.fsize := Nat.lt_of_add_lt_add_left hs.2
  have hb : b < fs.fsize := Nat.lt_of_add_lt_add_left hs'.2
  have hmod : (a + j * fs.fsize) % fs.fsize = (b + k * fs.fsize) % fs.fsize := by
    rw [Nat.add_assoc, Nat.add_assoc] at heq
    rw [Nat.add_left_cancel heq]
  rw [Nat.add_mul_mod_self_right, Nat.add_mul_mod_self_right, Nat.mod_eq_of_lt ha,
    Nat.mod_eq_of_lt hb] at hmod
  exact hne (by rw [hmod])

/-- A write back keeps the copies the same. -/
theorem syncDrive_copies (h : Legal fs) (hdirty : fs.wflag = true)
    (hfails : ∀ n, fs.drive.fails n = false) (hcopies : Copies fs) (hs : InFat fs s) {k : ℕ}
    (hk : k < fs.nFats) : (syncDrive fs).sector (s + k * fs.fsize) = (syncDrive fs).sector s := by
  have hok : (fs.drive.write fs.winsect fs.win).2 = true := by simp [Drive.write, hfails]
  have hrange := h.range
  have hle : (k + 1) * fs.fsize ≤ fs.nFats * fs.fsize := Nat.mul_le_mul_right _ hk
  rw [Nat.succ_mul] at hle
  rw [syncDrive_table h hs]
  by_cases hin : InFat fs fs.winsect
  · have hlast := h.last_copy hin
    have hsize : 0 < fs.fsize := by have := hs.1; have := hs.2; omega
    have hdrive : syncDrive fs = writeCopies fs (fs.nFats - 1) fs.winsect
        (fs.drive.write fs.winsect fs.win).1 := if_pos ((inFat_iff h).2 hin)
    by_cases heq : s = fs.winsect
    · subst heq
      cases k with
      | zero => rw [Nat.zero_mul, Nat.add_zero, syncDrive_table h hs]
      | succ k =>
        rw [hdrive, Drive.write_self _ _ hok]
        exact writeCopies_copy (fs.nFats - 1) fs.winsect (fs.drive.write fs.winsect fs.win).1 (by omega)
          hfails hsize (Nat.le_add_left 1 k) (by omega)
    · rw [hdrive, writeCopies_other _ _ _ (by omega) fun j _ _ => copy_ne hs hin heq k j]
      have hfar : s + k * fs.fsize ≠ fs.winsect := by simpa using copy_ne hs hin heq k 0
      rw [Drive.write_other _ _ hfar, Drive.write_other _ _ heq, hcopies s hs k hk]
  · have hout : ∀ s', InFats fs s' → s' ≠ fs.winsect := fun s' hs' heq =>
      hin (h.dirty hdirty (heq ▸ hs'))
    have hfar : InFats fs (s + k * fs.fsize) := by
      have hlow := hs.1
      have hhigh := hs.2
      exact ⟨by omega, by omega⟩
    unfold syncDrive
    rw [if_neg fun hc => hin ((inFat_iff h).1 hc), Drive.write_other _ _ (hout _ hfar),
      Drive.write_other _ _ (hout _ (h.inFats hs)), hcopies s hs k hk]

/-- A drive in place of another one. -/
theorem SameVolume.of_drive {drive : Drive} (hplace : SamePlace fs fs') (hdrive : fs'.drive = drive)
    (hfails : drive.fails = fs.drive.fails)
    (hcopies : (∀ n, fs.drive.fails n = false) → Copies fs → ∀ s, InFat fs s → ∀ k < fs.nFats,
      drive.sector (s + k * fs.fsize) = drive.sector s) : SameVolume fs fs' where
  toSamePlace := hplace
  fails := by rw [hdrive, hfails]
  copies hnever hsame s hs k hk := by
    rw [hdrive, hplace.fsize]
    exact hcopies hnever hsame s (hplace.inFat.1 hs) k (by rw [← hplace.nFats]; exact hk)

/-- `sync_window` writes the window back, or leaves it dirty. What is seen of the sectors outside of the
copies stays. -/
theorem syncWindow_spec (h : Legal fs) :
    SameState fs (syncWindow fs).1 ∧ (syncWindow fs).1.winsect = fs.winsect ∧
      (syncWindow fs).1.win = fs.win ∧ Legal (syncWindow fs).1 ∧
      ((syncWindow fs).2 = .frOk ∨ (syncWindow fs).2 = .frDiskErr) ∧
      ((syncWindow fs).2 = .frOk → (syncWindow fs).1.wflag = false) ∧
      ∀ s, InFat fs s → view (syncWindow fs).1 s = view fs s := by
  unfold syncWindow
  cases hdirty : fs.wflag with
  | false =>
    rw [if_neg (by decide)]
    exact ⟨.refl, rfl, rfl, h, .inl rfl, fun _ => hdirty, fun _ _ => rfl⟩
  | true =>
    rw [if_pos rfl]
    have hview : ∀ (s : ℕ) (d : Drive), InFat fs s →
        (s ≠ fs.winsect → d.sector s = fs.drive.sector s) →
        ∀ wflag, view { fs with drive := d, wflag } s = view fs s := fun s d _ hd wflag => by
      show (if s = fs.winsect then fs.win else d.sector s) = if s = fs.winsect then _ else _
      by_cases hs : s = fs.winsect
      · rw [if_pos hs, if_pos hs]
      · rw [if_neg hs, if_neg hs, hd hs]
    dsimp only
    cases hok : (fs.drive.write fs.winsect fs.win).2 with
    | false =>
      have hfault : ¬∀ n, fs.drive.fails n = false := fun hnever => by
        rw [Drive.write, hnever] at hok
        exact Bool.noConfusion hok
      have hsame : SameState fs
          { fs with wflag := true, drive := (fs.drive.write fs.winsect fs.win).1 } :=
        ⟨.of_drive ⟨rfl, rfl, rfl, rfl, rfl, rfl⟩ rfl rfl fun hnever => absurd hnever hfault, id, rfl⟩
      rw [if_neg (by decide)]
      refine ⟨hsame, rfl, rfl, ?_, .inr rfl, fun hres => FResult.noConfusion hres, fun s hs => ?_⟩
      · exact h.of_same hsame h.winsect_lt (fun hclean => Bool.noConfusion hclean) fun _ =>
          h.dirty hdirty
      · exact hview s _ hs (fun hne => Drive.write_other _ _ hne) true
    | true =>
      rw [if_pos rfl]
      have hsame : SameState fs { fs with wflag := false, drive := syncDrive fs } :=
        ⟨.of_drive ⟨rfl, rfl, rfl, rfl, rfl, rfl⟩ rfl (syncDrive_fails fs) fun hnever hcopies s hs k hk =>
          syncDrive_copies h hdirty hnever hcopies hs hk, id, rfl⟩
      refine ⟨hsame, rfl, rfl, ?_, .inl rfl, fun _ => rfl, fun s hs => ?_⟩
      · refine h.of_same hsame h.winsect_lt (fun _ hin => ?_) fun hd => Bool.noConfusion hd
        exact ((syncDrive_table h hin).trans (Drive.write_self _ _ hok)).symm
      · refine hview s (syncDrive fs) hs (fun hne => ?_) false
        exact (syncDrive_table h hs).trans (Drive.write_other _ _ hne)

/-- What is seen of the table under a clean window is on the drive. -/
theorem Legal.on_drive (h : Legal fs) (hclean : fs.wflag = false) (hs : InFat fs s) :
    fs.drive.sector s = view fs s := by
  unfold view
  by_cases hs' : s = fs.winsect
  · rw [if_pos hs', h.clean hclean (hs' ▸ hs), hs']
  · rw [if_neg hs']

/-- `move_window` changes nothing that is seen of the table. -/
theorem moveWindow_spec (h : Legal fs) (hsector : sector < 2 ^ 32) :
    SameState fs (moveWindow fs sector).1 ∧ Legal (moveWindow fs sector).1 ∧
      ((moveWindow fs sector).2 = .frOk ∨ (moveWindow fs sector).2 = .frDiskErr) ∧
      ((moveWindow fs sector).2 = .frOk → (moveWindow fs sector).1.winsect = sector) ∧
      ∀ s, InFat fs s → view (moveWindow fs sector).1 s = view fs s := by
  unfold moveWindow
  by_cases hsame : sector = fs.winsect
  · rw [if_neg (not_not.2 hsame)]
    exact ⟨.refl, h, .inl rfl, fun _ => hsame.symm, fun _ _ => rfl⟩
  rw [if_pos hsame]
  obtain ⟨hvol, hwinsect, hwin, hlegal, hres, hflag, hview⟩ := syncWindow_spec h
  generalize hsync : syncWindow fs = r at hvol hwinsect hwin hlegal hres hflag hview
  obtain ⟨fs₁, res⟩ := r
  dsimp only at hvol hwinsect hwin hlegal hres hflag hview ⊢
  by_cases hok : res = .frOk
  · rw [if_pos hok]
    -- the window is clean, so the drive holds all that is seen
    have hdrive : ∀ s, InFat fs s → fs₁.drive.sector s = view fs s := fun s hs => by
      rw [← hview s hs, hlegal.on_drive (hflag hok) (hvol.inFat.2 hs)]
    unfold Drive.read
    cases hfails : fs₁.drive.fails fs₁.drive.accesses with
    | true =>
      have hsame : SameState fs₁ { fs₁ with
          drive := { fs₁.drive with accesses := fs₁.drive.accesses + 1 }
          winsect := 0xFFFFFFFF
          win := fs₁.drive.damage (fs₁.drive.accesses + 1) } :=
        ⟨⟨⟨rfl, rfl, rfl, rfl, rfl, rfl⟩, rfl, fun _ => id⟩, id, rfl⟩
      refine ⟨hvol.trans hsame, ?_, .inr rfl, fun hres => FResult.noConfusion hres,
        fun s hs => ?_⟩
      · refine hlegal.of_same hsame (show (0xFFFFFFFF : ℕ) < 2 ^ 32 by decide) (fun _ hin => ?_)
          fun hd => Bool.noConfusion (hd.symm.trans (hflag hok))
        have hlt : (0xFFFFFFFF : ℕ) < 2 ^ 32 - 1 := hlegal.inFat_lt hin
        exact absurd hlt (by decide)
      · rw [← hdrive s hs]
        have hlt := h.inFat_lt hs
        exact if_neg (show ¬s = 0xFFFFFFFF by omega)
    | false =>
      have hsame : SameState fs₁ { fs₁ with
          drive := { fs₁.drive with accesses := fs₁.drive.accesses + 1 }
          winsect := sector
          win := fs₁.drive.sector sector } :=
        ⟨⟨⟨rfl, rfl, rfl, rfl, rfl, rfl⟩, rfl, fun _ => id⟩, id, rfl⟩
      refine ⟨hvol.trans hsame, ?_, .inl rfl, fun _ => rfl, fun s hs => ?_⟩
      · exact hlegal.of_same hsame hsector (fun _ _ => rfl) fun hd =>
          Bool.noConfusion (hd.symm.trans (hflag hok))
      · rw [← hdrive s hs]
        show (if s = sector then fs₁.drive.sector sector else fs₁.drive.sector s) = _
        by_cases hs' : s = sector
        · rw [if_pos hs', hs']
        · rw [if_neg hs']
  · rw [if_neg hok]
    exact ⟨hvol, hlegal, hres, fun hres => absurd hres hok, hview⟩

/-- `sync_fs` changes nothing that is seen of the table, and when it succeeds the drive holds it. -/
theorem syncFs_spec (h : Legal fs) :
    SameState fs (syncFs fs).1 ∧ Legal (syncFs fs).1 ∧
      ((syncFs fs).2 = .frOk ∨ (syncFs fs).2 = .frDiskErr) ∧
      ((syncFs fs).2 = .frOk → (syncFs fs).1.wflag = false) ∧
      ∀ s, InFat fs s → view (syncFs fs).1 s = view fs s := by
  unfold syncFs
  obtain ⟨hvol, -, -, hlegal, hres, hflag, hview⟩ := syncWindow_spec h
  generalize syncWindow fs = r at hvol hlegal hres hflag hview ⊢
  obtain ⟨fs₁, res⟩ := r
  dsimp only at hvol hlegal hres hflag hview ⊢
  by_cases hok : res = .frOk
  · rw [if_pos hok]
    have hclean := hflag hok
    have hflush : ∀ b : Bool, (if b then FResult.frDiskErr else .frOk) = .frOk ∨
        (if b then FResult.frDiskErr else .frOk) = .frDiskErr := by decide
    by_cases hinfo : fs₁.fsType = .fat32 ∧ fs₁.fsiFlag = 1
    · rw [if_pos hinfo]
      have hbase := hlegal.fsinfo (by rw [hinfo.2]; decide)
      have hrange := hlegal.range
      have hle : fs₁.fsize ≤ fs₁.nFats * fs₁.fsize := Nat.le_mul_of_pos_left _ hlegal.copies
      have hsect : u32 ((fs₁.volbase : ℤ) + 1) = fs₁.volbase + 1 := by
        rw [u32_of_lt (by omega) (by omega)]
        omega
      dsimp only
      rw [hsect]
      have hsame : ∀ win : Sector, SameState fs₁ { fs₁ with
          win
          winsect := fs₁.volbase + 1
          drive := { (fs₁.drive.write (fs₁.volbase + 1) win).1 with
            accesses := (fs₁.drive.write (fs₁.volbase + 1) win).1.accesses + 1 }
          fsiFlag := 0 } := fun win => by
        refine ⟨.of_drive ⟨rfl, rfl, rfl, rfl, rfl, rfl⟩ rfl rfl fun _ hcopies s hs k hk => ?_,
          fun _ => by rw [hinfo.2]; decide, rfl⟩
        have hlow := hs.1
        have hfar := hcopies s hs k hk
        exact ((Drive.write_other _ _ (by omega)).trans hfar).trans
          (Drive.write_other _ _ (by omega)).symm
      refine ⟨hvol.trans (hsame _), ?_, hflush _, fun _ => hclean, fun s hs => ?_⟩
      · refine hlegal.of_same (hsame _) (show fs₁.volbase + 1 < 2 ^ 32 by omega) (fun _ hin => ?_)
          fun hd => Bool.noConfusion (hd.symm.trans hclean)
        have hin : fs₁.fatbase ≤ fs₁.volbase + 1 := hin.1
        omega
      · have hs₁ : InFat fs₁ s := hvol.inFat.2 hs
        have hne : s ≠ fs₁.volbase + 1 := by
          have hs₁ := hs₁.1
          omega
        rw [← hview s hs, ← hlegal.on_drive hclean hs₁]
        exact (if_neg hne).trans (Drive.write_other _ _ hne)
    · rw [if_neg hinfo]
      have hsame : SameState fs₁ { fs₁ with
          drive := { fs₁.drive with accesses := fs₁.drive.accesses + 1 } } :=
        ⟨⟨⟨rfl, rfl, rfl, rfl, rfl, rfl⟩, rfl, fun _ => id⟩, id, rfl⟩
      exact ⟨hvol.trans hsame, hlegal.of_same hsame hlegal.winsect_lt hlegal.clean hlegal.dirty,
        hflush _, fun _ => hclean, hview⟩
  · rw [if_neg hok]
    exact ⟨hvol, hlegal, hres, fun hres => absurd hres hok, hview⟩

end NuAgent.Fat
