import NuAgent.Fatfs.FileRun

/-!
# A volume that is accepted

What `find_volume` checks of a boot sector is enough for the table: a volume that it accepts is a
legal one with its clusters behind the table (`mount_is_legal`), if the sizes in the boot sector do
not wrap and it leaves room for `FSINFO` where it says that there is one.
-/

namespace NuAgent.Fat

open CInt

variable {fs fs' fs'' : FatFs} {t : FsType} {bsect sector n c : ℕ}

/-- The clusters lie behind the table, and their sectors have addresses. -/
structure Placed (fs : FatFs) : Prop where
  behind : fs.fatbase + fs.nFats * fs.fsize ≤ fs.database
  range : fs.database + (fs.nFatent - 2) * fs.csize < 2 ^ 32
  csize : 1 ≤ fs.csize

/-- A clean window that shows the drive, over the same layout. -/
structure Looks (fs fs' : FatFs) : Prop where
  wflag : fs'.wflag = false
  winsect_lt : fs'.winsect < 2 ^ 32
  win : fs'.winsect = 0xFFFFFFFF ∨ fs'.win = fs'.drive.sector fs'.winsect
  nFats : fs'.nFats = fs.nFats
  nFatent : fs'.nFatent = fs.nFatent
  fsize : fs'.fsize = fs.fsize
  fatbase : fs'.fatbase = fs.fatbase
  volbase : fs'.volbase = fs.volbase
  csize : fs'.csize = fs.csize
  database : fs'.database = fs.database

theorem moveWindow_looks (h : Looks fs fs) (hsector : sector < 2 ^ 32) :
    Looks fs (moveWindow fs sector).1 := by
  have hsync : syncWindow fs = (fs, .frOk) := by
    unfold syncWindow
    rw [h.wflag]
    rfl
  unfold moveWindow Drive.read
  by_cases hsame : sector = fs.winsect
  · rw [if_neg (not_not.2 hsame)]
    exact h
  · rw [if_pos hsame, hsync]
    dsimp only
    rw [if_pos rfl]
    cases fs.drive.fails fs.drive.accesses with
    | true =>
      have hlost : (0xFFFFFFFF : ℕ) < 2 ^ 32 := by decide
      exact ⟨h.wflag, hlost, .inl rfl, rfl, rfl, rfl, rfl, rfl, rfl, rfl⟩
    | false => exact ⟨h.wflag, hsector, .inr rfl, rfl, rfl, rfl, rfl, rfl, rfl, rfl⟩

theorem readFsinfo_looks (h : Looks fs fs) (hsector : sector < 2 ^ 32) :
    Looks fs (readFsinfo fs sector) := by
  have hmove := moveWindow_looks h hsector
  unfold readFsinfo
  generalize moveWindow fs sector = r at hmove ⊢
  obtain ⟨fs₁, res⟩ := r
  dsimp only at hmove ⊢
  split
  · split
    · exact ⟨hmove.wflag, hmove.winsect_lt, hmove.win, hmove.nFats, hmove.nFatent, hmove.fsize,
        hmove.fatbase, hmove.volbase, hmove.csize, hmove.database⟩
    · exact ⟨hmove.wflag, hmove.winsect_lt, hmove.win, hmove.nFats, hmove.nFatent, hmove.fsize,
        hmove.fatbase, hmove.volbase, hmove.csize, hmove.database⟩
  · exact hmove

/-- A layout that fits makes a legal volume, wherever its clean window is. -/
theorem Looks.legal (h : Looks fs fs') (hmounted : t ≠ .unmounted) (hcopies : 1 ≤ fs.nFats)
    (hclusters : 2 < fs.nFatent) (hroom : ∀ c < fs.nFatent, lastByte t c < ss * fs.fsize)
    (hends : fs.nFatent ≤ endMark t) (hrange : fs.fatbase + fs.nFats * fs.fsize < 2 ^ 32)
    (hinfo : fs'.fsiFlag &&& 0x80 = 0 → fs.volbase + 1 < fs.fatbase) :
    Legal { fs' with fsType := t } where
  mounted := hmounted
  copies := hcopies.trans_eq h.nFats.symm
  clusters := hclusters.trans_eq h.nFatent.symm
  room c hc := by
    show lastByte t c < ss * fs'.fsize
    rw [h.fsize]
    exact hroom c (hc.trans_eq h.nFatent)
  ends := h.nFatent.trans_le hends
  range := by
    show fs'.fatbase + fs'.nFats * fs'.fsize < 2 ^ 32
    rw [h.fatbase, h.nFats, h.fsize]
    exact hrange
  fsinfo hbit := by
    show fs'.volbase + 1 < fs'.fatbase
    rw [h.volbase, h.fatbase]
    exact hinfo hbit
  winsect_lt := h.winsect_lt
  clean _ hin := by
    refine h.win.resolve_left fun hlost => ?_
    have hlt : fs'.winsect < fs'.fatbase + fs'.fsize := hin.2
    have hle : fs.fsize ≤ fs.nFats * fs.fsize := Nat.le_mul_of_pos_left _ hcopies
    rw [hlost, h.fatbase, h.fsize] at hlt
    omega
  dirty hdirty := Bool.noConfusion (h.wflag.symm.trans hdirty)

theorem Looks.placed (h : Looks fs fs') (hplaced : Placed fs) :
    Placed { fs' with fsType := t } where
  behind := by
    show fs'.fatbase + fs'.nFats * fs'.fsize ≤ fs'.database
    rw [h.fatbase, h.nFats, h.fsize, h.database]
    exact hplaced.behind
  range := by
    show fs'.database + (fs'.nFatent - 2) * fs'.csize < 2 ^ 32
    rw [h.database, h.nFatent, h.csize]
    exact hplaced.range
  csize := hplaced.csize.trans_eq h.csize.symm

theorem Looks.mounted (h : Looks fs fs') (hmounted : t ≠ .unmounted) (hcopies : 1 ≤ fs.nFats)
    (hclusters : 2 < fs.nFatent) (hroom : ∀ c < fs.nFatent, lastByte t c < ss * fs.fsize)
    (hends : fs.nFatent ≤ endMark t) (hrange : fs.fatbase + fs.nFats * fs.fsize < 2 ^ 32)
    (hinfo : fs'.fsiFlag &&& 0x80 = 0 → fs.volbase + 1 < fs.fatbase) (hplaced : Placed fs) :
    Legal { fs' with fsType := t } ∧ Placed { fs' with fsType := t } :=
  ⟨h.legal hmounted hcopies hclusters hroom hends hrange hinfo, h.placed hplaced⟩

/-- The size that `find_volume` asks of a copy of the table has room for the entries. -/
theorem lastByte_lt (hc : c < n) (hn : n < 2 ^ 29) {fsize : ℕ}
    (hsize : u32 (((if t = .fat32 then u32 ((n : ℤ) * 4)
      else if t = .fat16 then n * 2 else n * 3 / 2 + n % 2 : ℕ) : ℤ) + ((ss : ℤ) - 1)) / ss ≤ fsize) :
    lastByte t c < ss * fsize := by
  have hbytes : ∀ m : ℕ, m < 2 ^ 31 → u32 ((m : ℤ) + ((ss : ℤ) - 1)) / ss ≤ fsize →
      m ≤ ss * fsize := fun m hm hle => by
    unfold ss at hle ⊢
    rw [u32_of_lt (by omega) (by omega)] at hle
    omega
  cases t with
  | unmounted =>
    have hle := hbytes (n * 3 / 2 + n % 2) (by omega) hsize
    show 0 < ss * fsize
    omega
  | fat12 =>
    have hle := hbytes (n * 3 / 2 + n % 2) (by omega) hsize
    show c + c / 2 + 1 < ss * fsize
    omega
  | fat16 =>
    have hle := hbytes (n * 2) (by omega) hsize
    show 2 * c + 1 < ss * fsize
    omega
  | fat32 =>
    have hmul : u32 ((n : ℤ) * 4) = n * 4 := by
      rw [u32_of_lt (by omega) (by omega)]
      omega
    have hle := hbytes (u32 ((n : ℤ) * 4)) (by omega) hsize
    show 4 * c + 3 < ss * fsize
    omega

theorem le_endMark {nclst : ℕ} (h : nclst + 2 ≤ 0x0FFFFFFF) :
    nclst + 2 ≤ endMark (formatOf nclst) := by
  unfold formatOf
  split
  · exact h
  · split
    · show nclst + 2 ≤ 0xFFFF
      omega
    · show nclst + 2 ≤ 0xFFF
      omega

theorem formatOf_ne (nclst : ℕ) : formatOf nclst ≠ .unmounted := by
  unfold formatOf
  split
  · exact fun h => FsType.noConfusion h
  · split <;> exact fun h => FsType.noConfusion h

theorem ldWord_lt (w : Sector) (i : ℕ) : ldWord w i < 65536 := by
  have h0 := (w i).toNat_lt
  have h1 := (w (i + 1)).toNat_lt
  unfold ldWord
  omega

theorem u32_natCast {m : ℕ} (h : m < 2 ^ 32) : u32 m = m := by
  rw [u32_of_lt (Int.natCast_nonneg m) (by exact_mod_cast h), Int.toNat_natCast]

/-- The sectors before the clusters. -/
theorem sysect_eq {nrsv fasize root : ℕ} (hnrsv : nrsv < 65536) (hfasize : fasize < 2 ^ 31)
    (hroot : root < 65536) :
    u32 ((nrsv : ℤ) + fasize + (root : ℤ) / ((ss : ℤ) / 32)) = nrsv + fasize + root / 16 := by
  unfold ss
  rw [u32_of_lt (by omega) (by omega)]
  omega

/-- A check that is passed. -/
theorem passed {p : Prop} [Decidable p] {a b : FatFs × FResult}
    (h : (if p then a else b).2 = .frOk) (ha : a.2 = .frNoFilesystem) :
    ¬p ∧ (if p then a else b) = b := by
  by_cases hp : p
  · rw [if_pos hp, ha] at h
    exact FResult.noConfusion h
  · exact ⟨hp, if_neg hp⟩

/-- What the first checks leave. -/
structure Fields (fs fs' : FatFs) : Prop where
  win : fs'.win = fs.win
  drive : fs'.drive = fs.drive
  winsect : fs'.winsect = fs.winsect
  wflag : fs'.wflag = fs.wflag
  fsize : fs'.fsize = bpbFatSize fs.win
  nFats : fs'.nFats = (fs.win 16).toNat
  copies : 1 ≤ fs'.nFats
  csize : 1 ≤ fs'.csize
  nRootdir : fs'.nRootdir = ldWord fs.win 17

theorem initFields_spec (hres : (initFields fs).2 = .frOk) : Fields fs (initFields fs).1 := by
  unfold initFields at hres ⊢
  dsimp only at hres ⊢
  obtain ⟨-, heq⟩ := passed hres rfl
  rw [heq] at hres ⊢
  obtain ⟨hcopies, heq⟩ := passed hres rfl
  rw [heq] at hres ⊢
  obtain ⟨hcsize, heq⟩ := passed hres rfl
  rw [heq] at hres ⊢
  obtain ⟨-, heq⟩ := passed hres rfl
  rw [heq]
  have hpos : 1 ≤ (fs.win 16).toNat := by
    by_contra hzero
    exact hcopies ⟨by omega, by omega⟩
  have hcluster : 1 ≤ (fs.win 13).toNat := Nat.pos_of_ne_zero fun hzero => hcsize (.inl hzero)
  exact ⟨rfl, rfl, rfl, rfl, rfl, rfl, hpos, hcluster, rfl⟩

/-- A layout that is accepted is legal, and the clusters lie behind the table. -/
theorem initLayout_legal {nrsv fasize sysect nclst : ℕ} (hclean : fs.wflag = false)
    (hlt : fs.winsect < 2 ^ 32) (hwin : fs.win = fs.drive.sector fs.winsect) (hcopies : 1 ≤ fs.nFats)
    (hcsize : 1 ≤ fs.csize) (hnclst : nclst ≠ 0) (hmany : nclst + 2 ≤ 0x0FFFFFFF) (hnrsv : nrsv ≠ 0)
    (hsysect : nrsv + fs.nFats * fs.fsize ≤ sysect)
    (hrange : bsect + sysect + nclst * fs.csize < 2 ^ 32)
    (hinfo : ldWord fs.win 48 = 1 → 2 ≤ nrsv)
    (hres : (initLayout fs bsect nrsv fasize sysect nclst).2 = .frOk) :
    Legal (initLayout fs bsect nrsv fasize sysect nclst).1 ∧
      Placed (initLayout fs bsect nrsv fasize sysect nclst).1 := by
  have hn : u32 ((nclst : ℤ) + 2) = nclst + 2 := by
    rw [u32_of_lt (by omega) (by omega)]
    omega
  have hbase : u32 ((bsect : ℤ) + nrsv) = bsect + nrsv := by
    rw [u32_of_lt (by omega) (by omega)]
    omega
  have hdata : u32 ((bsect : ℤ) + sysect) = bsect + sysect := by
    rw [u32_of_lt (by omega) (by omega)]
    omega
  have hnext : u32 ((bsect : ℤ) + 1) < 2 ^ 32 := by
    rw [u32_of_lt (by omega) (by omega)]
    omega
  have hends := le_endMark hmany
  have hmounted := formatOf_ne nclst
  unfold initLayout at hres ⊢
  dsimp only at hres ⊢
  rw [hn, hbase, hdata] at hres ⊢
  obtain ⟨-, heq⟩ := passed hres rfl
  rw [heq] at hres ⊢
  obtain ⟨-, heq⟩ := passed hres rfl
  rw [heq] at hres ⊢
  obtain ⟨hsize, heq⟩ := passed hres rfl
  rw [heq]
  have hroom : ∀ c < nclst + 2, lastByte (formatOf nclst) c < ss * fs.fsize := fun c hc =>
    lastByte_lt hc (by omega) (Nat.not_lt.1 hsize)
  have hsome : 2 < nclst + 2 := by omega
  have hbehind : bsect + nrsv + fs.nFats * fs.fsize ≤ bsect + sysect := by omega
  have hspace : bsect + sysect + (nclst + 2 - 2) * fs.csize < 2 ^ 32 := hrange
  have htable : bsect + nrsv + fs.nFats * fs.fsize < 2 ^ 32 := by omega
  by_cases hread : formatOf nclst = .fat32 ∧ ldWord fs.win 48 = 1
  · rw [if_pos hread]
    have htwo := hinfo hread.2
    refine Looks.mounted
      (readFsinfo_looks ⟨hclean, hlt, .inr hwin, rfl, rfl, rfl, rfl, rfl, rfl, rfl⟩ hnext)
      hmounted hcopies hsome hroom hends htable (fun _ => ?_) ⟨hbehind, hspace, hcsize⟩
    show bsect + 1 < bsect + nrsv
    omega
  · rw [if_neg hread]
    exact Looks.mounted ⟨hclean, hlt, .inr hwin, rfl, rfl, rfl, rfl, rfl, rfl, rfl⟩ hmounted hcopies
      hsome hroom hends htable (fun hbit => absurd hbit (show ¬(0x80 : UInt8) &&& 0x80 = 0 by decide))
      ⟨hbehind, hspace, hcsize⟩

/-- A boot sector that is accepted makes a legal volume with its clusters behind the table. -/
theorem mount_is_legal (hclean : fs.wflag = false) (hlt : fs.winsect < 2 ^ 32)
    (hwin : fs.win = fs.drive.sector fs.winsect) (htotal : bpbTotal fs.win < 0x0FFFFFFF)
    (hvolume : bsect + bpbTotal fs.win < 2 ^ 32)
    (htable : bpbFatSize fs.win * (fs.win 16).toNat < 2 ^ 31)
    (hinfo : ldWord fs.win 48 = 1 → 2 ≤ ldWord fs.win 14)
    (hres : (initVolume fs bsect).2 = .frOk) :
    Legal (initVolume fs bsect).1 ∧ Placed (initVolume fs bsect).1 := by
  unfold initVolume at hres ⊢
  have hfields : (initFields fs).2 = .frOk → Fields fs (initFields fs).1 := initFields_spec
  generalize initFields fs = r at hfields hres ⊢
  obtain ⟨fs₁, res⟩ := r
  dsimp only at hfields hres ⊢
  by_cases hok : res = .frOk
  · rw [if_neg (not_not.2 hok)] at hres ⊢
    have h := hfields hok
    have hnrsv_lt := ldWord_lt fs.win 14
    have hroot_lt := ldWord_lt fs.win 17
    rw [h.win, h.fsize, h.nFats, h.nRootdir] at hres ⊢
    have hfasize : u32 ((bpbFatSize fs.win : ℤ) * ((fs.win 16).toNat : ℤ)) =
        bpbFatSize fs.win * (fs.win 16).toNat := by
      rw [← Nat.cast_mul, u32_natCast (by omega)]
    rw [hfasize] at hres ⊢
    rw [sysect_eq hnrsv_lt htable hroot_lt] at hres ⊢
    generalize hsys : ldWord fs.win 14 + bpbFatSize fs.win * (fs.win 16).toNat +
      ldWord fs.win 17 / 16 = sysect at hres ⊢
    obtain ⟨hnrsv, heq⟩ := passed hres rfl
    rw [heq] at hres ⊢
    obtain ⟨htsect, heq⟩ := passed hres rfl
    rw [heq] at hres ⊢
    obtain ⟨hnclst, heq⟩ := passed hres rfl
    rw [heq] at hres ⊢
    have hsize : fs₁.nFats * fs₁.fsize = bpbFatSize fs.win * (fs.win 16).toNat := by
      rw [h.nFats, h.fsize, Nat.mul_comm]
    have hquot : (bpbTotal fs.win - sysect) / fs₁.csize ≤ bpbTotal fs.win - sysect :=
      Nat.div_le_self _ _
    have hmul : (bpbTotal fs.win - sysect) / fs₁.csize * fs₁.csize ≤ bpbTotal fs.win - sysect :=
      Nat.div_mul_le_self _ _
    have hwin₁ : fs₁.win = fs₁.drive.sector fs₁.winsect := by
      rw [h.win, h.drive, h.winsect]
      exact hwin
    have hinfo₁ : ldWord fs₁.win 48 = 1 → 2 ≤ ldWord fs.win 14 := by
      rw [h.win]
      exact hinfo
    exact initLayout_legal (h.wflag.trans hclean) (h.winsect.trans_lt hlt) hwin₁ h.copies
      h.csize hnclst (by omega) hnrsv (by omega) (by omega) hinfo₁ hres
  · rw [if_pos hok] at hres
    exact absurd hres hok

/-- The boot sector of 20 sectors, with one table of one sector and 16 entries in the root. -/
def bootSector : Sector := fun i =>
  if i = 12 then 2
  else if i = 13 ∨ i = 14 ∨ i = 16 ∨ i = 22 then 1
  else if i = 17 then 16
  else if i = 19 then 20
  else 0

/-- It is in the window, and nothing is mounted. -/
def inserted : FatFs :=
  { formatted with
    fsType := .unmounted
    win := bootSector
    drive := { formatted.drive with sector := fun _ => bootSector } }

theorem inserted_is_legal :
    (initVolume inserted 0).2 = .frOk ∧ (initVolume inserted 0).1.nFatent = 19 ∧
      Legal (initVolume inserted 0).1 ∧ Placed (initVolume inserted 0).1 :=
  ⟨by decide, by decide, mount_is_legal rfl (by decide) rfl (by decide) (by decide) (by decide)
    (by decide) (by decide)⟩

end NuAgent.Fat
