import Mathlib.Logic.Function.Basic
import NuAgent.Lib.CInt

/-!
# The allocation table of the file system

Reference: `Fatfs/ff.c`, from `sync_window` to `create_chain`, `find_volume` from the boot sector on,
and the parts of `f_getfree` and `f_truncate` that go over clusters.

The drive is a store of sectors of 512 bytes whose accesses may fail: `fails` says which ones do, and a
write that fails leaves `damage` in the sector. A `DWORD` is a natural number, wrapped where the source
computes with it. A loop has a bound on its turns, and is `none` when it would go on behind it.
-/

namespace NuAgent.Fat

open CInt

/-- The bytes of a sector. -/
abbrev Sector := ℕ → UInt8

/-- The physical drive. -/
structure Drive where
  sector : ℕ → Sector
  fails : ℕ → Bool
  damage : ℕ → Sector
  accesses : ℕ

/-- `disk_read` of one sector. -/
def Drive.read (d : Drive) (sector : ℕ) : Drive × Option Sector :=
  ({ d with accesses := d.accesses + 1 },
    if d.fails d.accesses then none else some (d.sector sector))

/-- `disk_write` of one sector, and whether it succeeds. -/
def Drive.write (d : Drive) (sector : ℕ) (data : Sector) : Drive × Bool :=
  let stored := if d.fails d.accesses then d.damage d.accesses else data
  ({ d with sector := Function.update d.sector sector stored, accesses := d.accesses + 1 },
    !d.fails d.accesses)

/-- `FRESULT`, as far as these functions return it. -/
inductive FResult
  | frOk
  | frDiskErr
  | frIntErr
  | frNoFilesystem
deriving DecidableEq, Repr

/-- `fs_type`. -/
inductive FsType
  | unmounted
  | fat12
  | fat16
  | fat32
deriving DecidableEq, Repr

/-- `SS(fs)`. -/
def ss : ℕ := 512

/-- `FATFS`, with its drive. -/
structure FatFs where
  fsType : FsType
  csize : ℕ
  nFats : ℕ
  wflag : Bool
  fsiFlag : UInt8
  nRootdir : ℕ
  lastClust : ℕ
  freeClust : ℕ
  nFatent : ℕ
  fsize : ℕ
  volbase : ℕ
  fatbase : ℕ
  dirbase : ℕ
  database : ℕ
  winsect : ℕ
  win : Sector
  drive : Drive

/-! ## The window -/

/-- `LD_WORD`, `LD_DWORD`. -/
def ldWord (w : Sector) (i : ℕ) : ℕ := (w i).toNat + 256 * (w (i + 1)).toNat

def ldDword (w : Sector) (i : ℕ) : ℕ := ldWord w i + 65536 * ldWord w (i + 2)

/-- `ST_WORD`, `ST_DWORD`. -/
def stWord (w : Sector) (i val : ℕ) : Sector :=
  Function.update (Function.update w i (UInt8.ofNat val)) (i + 1) (UInt8.ofNat (val / 256))

def stDword (w : Sector) (i val : ℕ) : Sector := stWord (stWord w i val) (i + 2) (val / 65536)

/-- The writes of `sync_window` to the other copies of the FAT, the first to `wsect + fsize`. -/
def writeCopies (fs : FatFs) : ℕ → ℕ → Drive → Drive
  | 0, _, d => d
  | n + 1, wsect, d =>
    let wsect := u32 (wsect + fs.fsize)
    writeCopies fs n wsect (d.write wsect fs.win).1

/-- `sync_window`. -/
def syncWindow (fs : FatFs) : FatFs × FResult :=
  if fs.wflag then
    let wsect := fs.winsect
    let (drive, ok) := fs.drive.write wsect fs.win
    if ok then
      let drive :=
        if u32 ((wsect : ℤ) - fs.fatbase) < fs.fsize then writeCopies fs (fs.nFats - 1) wsect drive
        else drive
      ({ fs with wflag := false, drive }, .frOk)
    else ({ fs with drive }, .frDiskErr)
  else (fs, .frOk)

/-- `move_window`; a read that fails leaves anything in the window. -/
def moveWindow (fs : FatFs) (sector : ℕ) : FatFs × FResult :=
  if sector ≠ fs.winsect then
    let (fs, res) := syncWindow fs
    if res = .frOk then
      match fs.drive.read sector with
      | (drive, some data) => ({ fs with drive, winsect := sector, win := data }, .frOk)
      | (drive, none) =>
        ({ fs with drive, winsect := 0xFFFFFFFF, win := drive.damage drive.accesses }, .frDiskErr)
    else (fs, res)
  else (fs, .frOk)

/-- `sync_fs`; the flush of the drive at its end is `disk_ioctl`, one more access. -/
def syncFs (fs : FatFs) : FatFs × FResult :=
  let (fs, res) := syncWindow fs
  if res = .frOk then
    let fs :=
      if fs.fsType = .fat32 ∧ fs.fsiFlag = 1 then
        let win : Sector := fun _ => 0
        let win := stWord win 510 0xAA55
        let win := stDword win 0 0x41615252
        let win := stDword win 484 0x61417272
        let win := stDword win 488 fs.freeClust
        let win := stDword win 492 fs.lastClust
        let winsect := u32 (fs.volbase + 1)
        { fs with win, winsect, drive := (fs.drive.write winsect win).1, fsiFlag := 0 }
      else fs
    let d := fs.drive
    ({ fs with drive := { d with accesses := d.accesses + 1 } },
      if d.fails d.accesses then .frDiskErr else .frOk)
  else (fs, res)

/-! ## The table -/

/-- `clust2sect`. -/
def clust2sect (fs : FatFs) (clst : ℕ) : ℕ :=
  let clst := u32 ((clst : ℤ) - 2)
  if clst ≥ fs.nFatent - 2 then 0 else u32 (clst * fs.csize + fs.database)

/-- `get_fat`. -/
def getFat (fs : FatFs) (clst : ℕ) : FatFs × ℕ :=
  if clst < 2 ∨ clst ≥ fs.nFatent then (fs, 1)
  else
    match fs.fsType with
    | .fat12 =>
      let bc := u32 (clst + clst / 2)
      let (fs, res) := moveWindow fs (u32 (fs.fatbase + bc / ss))
      if res ≠ .frOk then (fs, 0xFFFFFFFF)
      else
        let lo := (fs.win (bc % ss)).toNat
        let bc := bc + 1
        let (fs, res) := moveWindow fs (u32 (fs.fatbase + bc / ss))
        if res ≠ .frOk then (fs, 0xFFFFFFFF)
        else
          let wc := lo + 256 * (fs.win (bc % ss)).toNat
          (fs, if clst % 2 = 1 then wc / 16 else wc % 4096)
    | .fat16 =>
      let (fs, res) := moveWindow fs (u32 (fs.fatbase + clst / (ss / 2)))
      if res ≠ .frOk then (fs, 0xFFFFFFFF) else (fs, ldWord fs.win (clst * 2 % ss))
    | .fat32 =>
      let (fs, res) := moveWindow fs (u32 (fs.fatbase + clst / (ss / 4)))
      if res ≠ .frOk then (fs, 0xFFFFFFFF)
      else (fs, ldDword fs.win (u32 (clst * 4) % ss) &&& 0x0FFFFFFF)
    | .unmounted => (fs, 1)

/-- `put_fat`. -/
def putFat (fs : FatFs) (clst val : ℕ) : FatFs × FResult :=
  if clst < 2 ∨ clst ≥ fs.nFatent then (fs, .frIntErr)
  else
    match fs.fsType with
    | .fat12 =>
      let bc := u32 (clst + clst / 2)
      let (fs, res) := moveWindow fs (u32 (fs.fatbase + bc / ss))
      if res ≠ .frOk then (fs, res)
      else
        let p := fs.win (bc % ss)
        let b : UInt8 :=
          if clst % 2 = 1 then (p &&& 0x0F) ||| (UInt8.ofNat val <<< (4 : UInt8)) else UInt8.ofNat val
        let fs := { fs with win := Function.update fs.win (bc % ss) b, wflag := true }
        let bc := bc + 1
        let (fs, res) := moveWindow fs (u32 (fs.fatbase + bc / ss))
        if res ≠ .frOk then (fs, res)
        else
          let p := fs.win (bc % ss)
          let b : UInt8 :=
            if clst % 2 = 1 then UInt8.ofNat (val / 16)
            else (p &&& 0xF0) ||| (UInt8.ofNat (val / 256) &&& 0x0F)
          ({ fs with win := Function.update fs.win (bc % ss) b, wflag := true }, .frOk)
    | .fat16 =>
      let (fs, res) := moveWindow fs (u32 (fs.fatbase + clst / (ss / 2)))
      if res ≠ .frOk then (fs, res)
      else ({ fs with win := stWord fs.win (clst * 2 % ss) val, wflag := true }, .frOk)
    | .fat32 =>
      let (fs, res) := moveWindow fs (u32 (fs.fatbase + clst / (ss / 4)))
      if res ≠ .frOk then (fs, res)
      else
        let i := u32 (clst * 4) % ss
        let val := val ||| (ldDword fs.win i &&& 0xF0000000)
        ({ fs with win := stDword fs.win i val, wflag := true }, .frOk)
    | .unmounted => (fs, .frIntErr)

/-! ## Chains of clusters -/

/-- The loop of `remove_chain`. -/
def removeLoop : ℕ → FatFs → ℕ → Option (FatFs × FResult)
  | n, fs, clst =>
    if clst < fs.nFatent then
      match n with
      | 0 => none
      | n + 1 =>
        let (fs, nxt) := getFat fs clst
        if nxt = 0 then some (fs, .frOk)
        else if nxt = 1 then some (fs, .frIntErr)
        else if nxt = 0xFFFFFFFF then some (fs, .frDiskErr)
        else
          let (fs, res) := putFat fs clst 0
          if res ≠ .frOk then some (fs, res)
          else
            let fs :=
              if fs.freeClust ≠ 0xFFFFFFFF then
                { fs with freeClust := u32 (fs.freeClust + 1), fsiFlag := fs.fsiFlag ||| 1 }
              else fs
            removeLoop n fs nxt
    else some (fs, .frOk)

/-- `remove_chain`. -/
def removeChain (fs : FatFs) (clst : ℕ) : Option (FatFs × FResult) :=
  if clst < 2 ∨ clst ≥ fs.nFatent then some (fs, .frIntErr) else removeLoop fs.nFatent fs clst

/-- The search of `create_chain` for a free cluster behind `ncl`; the result is the cluster, or the value
that the function returns. -/
def findFree (scl : ℕ) : ℕ → FatFs → ℕ → Option (FatFs × (ℕ ⊕ ℕ))
  | 0, _, _ => none
  | n + 1, fs, ncl =>
    let ncl := u32 (ncl + 1)
    let wrapped := ncl ≥ fs.nFatent
    let ncl := if wrapped then 2 else ncl
    if wrapped ∧ ncl > scl then some (fs, .inr 0)
    else
      let (fs, cs) := getFat fs ncl
      if cs = 0 then some (fs, .inl ncl)
      else if cs = 0xFFFFFFFF ∨ cs = 1 then some (fs, .inr cs)
      else if ncl = scl then some (fs, .inr 0)
      else findFree scl n fs ncl

/-- The end of `create_chain`: the new cluster is marked and linked. -/
def linkNew (fs : FatFs) (clst ncl : ℕ) : FatFs × ℕ :=
  let (fs, res) := putFat fs ncl 0x0FFFFFFF
  let (fs, res) := if res = .frOk ∧ clst ≠ 0 then putFat fs clst ncl else (fs, res)
  if res = .frOk then
    let fs := { fs with lastClust := ncl }
    (if fs.freeClust ≠ 0xFFFFFFFF then
        { fs with freeClust := u32 ((fs.freeClust : ℤ) - 1), fsiFlag := fs.fsiFlag ||| 1 }
      else fs, ncl)
  else (fs, if res = .frDiskErr then 0xFFFFFFFF else 1)

/-- `create_chain` from the search on. -/
def createFrom (fs : FatFs) (clst scl : ℕ) : Option (FatFs × ℕ) := do
  let (fs, found) ← findFree scl fs.nFatent fs scl
  match found with
  | .inl ncl => some (linkNew fs clst ncl)
  | .inr cs => some (fs, cs)

/-- `create_chain`. -/
def createChain (fs : FatFs) (clst : ℕ) : Option (FatFs × ℕ) :=
  if clst = 0 then
    let scl := fs.lastClust
    createFrom fs clst (if scl = 0 ∨ scl ≥ fs.nFatent then 1 else scl)
  else
    let (fs, cs) := getFat fs clst
    if cs < 2 then some (fs, 1)
    else if cs = 0xFFFFFFFF then some (fs, cs)
    else if cs < fs.nFatent then some (fs, cs)
    else createFrom fs clst clst

/-- `f_truncate` behind the cluster `clust`, when the new size is not zero. -/
def truncateAt (fs : FatFs) (clust : ℕ) : Option (FatFs × FResult) :=
  let (fs, ncl) := getFat fs clust
  if ncl = 0xFFFFFFFF then some (fs, .frDiskErr)
  else if ncl = 1 then some (fs, .frIntErr)
  else if ncl < fs.nFatent then
    let (fs, res) := putFat fs clust 0x0FFFFFFF
    if res = .frOk then removeChain fs ncl else some (fs, res)
  else some (fs, .frOk)

/-! ## Counting -/

/-- The search of `f_getfree` with `get_fat`. -/
def countEntries : ℕ → FatFs → ℕ → ℕ → Option (FatFs × FResult × ℕ)
  | 0, _, _, _ => none
  | n + 1, fs, clst, nfree =>
    let (fs, stat) := getFat fs clst
    if stat = 0xFFFFFFFF then some (fs, .frDiskErr, nfree)
    else if stat = 1 then some (fs, .frIntErr, nfree)
    else
      let nfree := if stat = 0 then nfree + 1 else nfree
      if u32 (clst + 1) < fs.nFatent then countEntries n fs (u32 (clst + 1)) nfree
      else some (fs, .frOk, nfree)

/-- The accelerated search of `f_getfree`, for `clst` entries; `p` is where the next one is in the window,
and `i` how many bytes of the window are left. -/
def scanSectors : ℕ → FatFs → ℕ → ℕ → ℕ → ℕ → FatFs × FResult × ℕ
  | 0, fs, _, _, _, nfree => (fs, .frOk, nfree)
  | clst + 1, fs, sect, i, p, nfree =>
    let (fs, res) := if i = 0 then moveWindow fs sect else (fs, .frOk)
    if res ≠ .frOk then (fs, res, nfree)
    else
      let sect := if i = 0 then u32 (sect + 1) else sect
      let p := if i = 0 then 0 else p
      let i := if i = 0 then ss else i
      if fs.fsType = .fat16 then
        let nfree := if ldWord fs.win p = 0 then nfree + 1 else nfree
        scanSectors clst fs sect (i - 2) (p + 2) nfree
      else
        let nfree := if ldDword fs.win p &&& 0x0FFFFFFF = 0 then nfree + 1 else nfree
        scanSectors clst fs sect (i - 4) (p + 4) nfree

/-- `f_getfree` on a mounted volume. -/
def getFree (fs : FatFs) : Option (FatFs × FResult × ℕ) :=
  if fs.freeClust ≤ fs.nFatent - 2 then some (fs, .frOk, fs.freeClust)
  else do
    let (fs, res, nfree) ←
      if fs.fsType = .fat12 then countEntries fs.nFatent fs 2 0
      else some (scanSectors fs.nFatent fs fs.fatbase 0 0 0)
    some ({ fs with freeClust := nfree, fsiFlag := fs.fsiFlag ||| 1 }, res, nfree)

/-! ## Mounting -/

/-- What `find_volume` takes from `FSINFO`, when it can be read. -/
def readFsinfo (fs : FatFs) (sector : ℕ) : FatFs :=
  let (fs, res) := moveWindow fs sector
  if res = .frOk then
    let fs := { fs with fsiFlag := 0 }
    if ldWord fs.win 510 = 0xAA55 ∧ ldDword fs.win 0 = 0x41615252 ∧
        ldDword fs.win 484 = 0x61417272 then
      { fs with freeClust := ldDword fs.win 488, lastClust := ldDword fs.win 492 }
    else fs
  else fs

/-- `BPB_FATSz16` or `BPB_FATSz32`, and `BPB_TotSec16` or `BPB_TotSec32`. -/
def bpbFatSize (w : Sector) : ℕ := if ldWord w 22 = 0 then ldDword w 36 else ldWord w 22

def bpbTotal (w : Sector) : ℕ := if ldWord w 19 = 0 then ldDword w 32 else ldWord w 19

/-- `find_volume` from the boot sector in the window on: the checks of its fields one by one. -/
def initFields (fs : FatFs) : FatFs × FResult :=
  let w := fs.win
  if ldWord w 11 ≠ ss then (fs, .frNoFilesystem)
  else
    let fs := { fs with fsize := bpbFatSize w, nFats := (w 16).toNat }
    if fs.nFats ≠ 1 ∧ fs.nFats ≠ 2 then (fs, .frNoFilesystem)
    else
      let fs := { fs with csize := (w 13).toNat }
      if fs.csize = 0 ∨ fs.csize &&& (fs.csize - 1) ≠ 0 then (fs, .frNoFilesystem)
      else
        let fs := { fs with nRootdir := ldWord w 17 }
        if fs.nRootdir % (ss / 32) ≠ 0 then (fs, .frNoFilesystem) else (fs, .frOk)

/-- The format of a volume of `nclst` clusters. -/
def formatOf (nclst : ℕ) : FsType :=
  if nclst ≥ 65526 then .fat32 else if nclst ≥ 4086 then .fat16 else .fat12

/-- The boundaries, for `nclst` clusters behind `sysect` sectors. -/
def initLayout (fs : FatFs) (bsect nrsv fasize sysect nclst : ℕ) : FatFs × FResult :=
  let w := fs.win
  let fmt := formatOf nclst
  let n := u32 (nclst + 2)
  let fs :=
    { fs with
      nFatent := n
      volbase := bsect
      fatbase := u32 (bsect + nrsv)
      database := u32 (bsect + sysect) }
  if fmt = .fat32 ∧ fs.nRootdir ≠ 0 then (fs, .frNoFilesystem)
  else if fmt ≠ .fat32 ∧ fs.nRootdir = 0 then (fs, .frNoFilesystem)
  else
    let dirbase := if fmt = .fat32 then ldDword w 44 else u32 (fs.fatbase + fasize)
    let szbfat :=
      if fmt = .fat32 then u32 (n * 4) else if fmt = .fat16 then n * 2 else n * 3 / 2 + n % 2
    let fs := { fs with dirbase }
    if fs.fsize < u32 (szbfat + (ss - 1)) / ss then (fs, .frNoFilesystem)
    else
      let fs := { fs with lastClust := 0xFFFFFFFF, freeClust := 0xFFFFFFFF, fsiFlag := 0x80 }
      let fs := if fmt = .fat32 ∧ ldWord w 48 = 1 then readFsinfo fs (u32 (bsect + 1)) else fs
      ({ fs with fsType := fmt }, .frOk)

/-- `find_volume` from the boot sector in the window on. -/
def initVolume (fs : FatFs) (bsect : ℕ) : FatFs × FResult :=
  let (fs, res) := initFields fs
  if res ≠ .frOk then (fs, res)
  else
    let fasize := u32 (fs.fsize * fs.nFats)
    let tsect := bpbTotal fs.win
    let nrsv := ldWord fs.win 14
    let sysect := u32 (nrsv + fasize + fs.nRootdir / (ss / 32))
    if nrsv = 0 then (fs, .frNoFilesystem)
    else if tsect < sysect then (fs, .frNoFilesystem)
    else
      let nclst := (tsect - sysect) / fs.csize
      if nclst = 0 then (fs, .frNoFilesystem) else initLayout fs bsect nrsv fasize sysect nclst

end NuAgent.Fat
