import NuAgent.Fatfs.Acts
import NuAgent.Fatfs.Mount

/-!
# The sectors of the files

The clusters of a volume lie behind the table, one behind the other, and no call moves them. So what
the table keeps apart is apart on the drive: no two files share a sector, and none lies in the table
(`files_are_apart`).
-/

namespace NuAgent.Fat

open CInt Chains

variable {w w' : World} {fs fs' fs'' : FatFs} {c d i j s : ℕ}

/-! ## Calls do not move the clusters -/

/-- The clusters are where they were. -/
structure SameData (fs fs' : FatFs) : Prop where
  csize : fs'.csize = fs.csize
  database : fs'.database = fs.database

theorem SameData.refl : SameData fs fs := ⟨rfl, rfl⟩

theorem SameData.trans (h : SameData fs fs') (h' : SameData fs' fs'') : SameData fs fs'' :=
  ⟨h'.csize.trans h.csize, h'.database.trans h.database⟩

theorem syncWindow_data (fs : FatFs) : SameData fs (syncWindow fs).1 := by
  unfold syncWindow
  split
  · dsimp only
    split <;> exact ⟨rfl, rfl⟩
  · exact .refl

theorem moveWindow_data (fs : FatFs) (s : ℕ) : SameData fs (moveWindow fs s).1 := by
  have hsync := syncWindow_data fs
  unfold moveWindow
  generalize syncWindow fs = r at hsync ⊢
  split
  · dsimp only
    split
    · split
      · exact ⟨hsync.csize, hsync.database⟩
      · exact ⟨hsync.csize, hsync.database⟩
    · exact hsync
  · exact .refl

theorem syncFs_data (fs : FatFs) : SameData fs (syncFs fs).1 := by
  have hsync := syncWindow_data fs
  unfold syncFs
  generalize syncWindow fs = r at hsync ⊢
  dsimp only
  split
  · split
    · exact ⟨hsync.csize, hsync.database⟩
    · exact ⟨hsync.csize, hsync.database⟩
  · exact hsync

theorem Acts.data (h : Acts fs fs') : SameData fs fs' := by
  induction h with
  | refl => exact .refl
  | @move fs₁ s _ _ ih => exact ih.trans (moveWindow_data fs₁ s)
  | store win _ _ ih => exact ⟨ih.csize, ih.database⟩
  | count _ _ _ _ _ ih => exact ⟨ih.csize, ih.database⟩

theorem step_data {op : Call} (hfs : Legal w.fs) (h : step w op = some w') :
    SameData w.fs w'.fs := by
  rcases step_cases hfs h with h | h | ⟨data, -, h⟩ | ⟨s, data, -, h⟩ | ⟨s, h⟩
  · exact h.data
  · rw [h]
    exact syncFs_data w.fs
  · rw [h]
    exact ⟨rfl, rfl⟩
  · rw [h]
    exact ⟨rfl, rfl⟩
  · rw [h]
    exact ⟨rfl, rfl⟩

theorem run_data {ops : List Call} (h : Sound w) (hrun : run w ops = some w') :
    SameData w.fs w'.fs := by
  induction ops generalizing w with
  | nil =>
    rw [Option.some.inj hrun]
    exact .refl
  | cons op ops ih =>
    obtain ⟨w₁, hstep, hrun⟩ := Option.bind_eq_some_iff.1 hrun
    exact (step_data h.legal hstep).trans (ih (goes_of_step h hstep).sound hrun)

/-! ## Where the clusters are -/

/-- The sectors of a cluster. -/
def sectorsOf (fs : FatFs) (c : ℕ) : Set ℕ :=
  {s | clust2sect fs c ≤ s ∧ s < clust2sect fs c + fs.csize}

theorem Placed.end_lt (h : Placed fs) (hc : 2 ≤ c) (hn : c < fs.nFatent) :
    fs.database + (c - 2) * fs.csize + fs.csize < 2 ^ 32 := by
  have hle : (c - 2 + 1) * fs.csize ≤ (fs.nFatent - 2) * fs.csize :=
    Nat.mul_le_mul_right _ (by omega)
  have hrange := h.range
  rw [Nat.succ_mul] at hle
  omega

theorem clust2sect_eq (h : Placed fs) (hc : 2 ≤ c) (hn : c < fs.nFatent) (hmax : c < 2 ^ 32) :
    clust2sect fs c = fs.database + (c - 2) * fs.csize := by
  have hend := h.end_lt hc hn
  have hcsize := h.csize
  have hpred : u32 ((c : ℤ) - 2) = c - 2 := by
    rw [u32_of_lt (by omega) (by omega)]
    omega
  unfold clust2sect
  dsimp only
  rw [hpred, if_neg (by omega), ← Nat.cast_mul, ← Nat.cast_add, u32_natCast (by omega), Nat.add_comm]

/-- Clusters do not overlap. -/
theorem sectorsOf_lt (h : Placed fs) (hc : 2 ≤ c) (hcd : c < d) (hd : d < fs.nFatent)
    (hmax : d < 2 ^ 32) (hs : s ∈ sectorsOf fs c) : s ∉ sectorsOf fs d := fun hs' => by
  have hhigh := hs.2
  have hlow := hs'.1
  have hle : (c - 2 + 1) * fs.csize ≤ (d - 2) * fs.csize := Nat.mul_le_mul_right _ (by omega)
  rw [clust2sect_eq h hc (by omega) (by omega)] at hhigh
  rw [clust2sect_eq h (by omega) hd hmax] at hlow
  rw [Nat.succ_mul] at hle
  omega

theorem sectorsOf_ne (h : Placed fs) (hc : 2 ≤ c) (hcn : c < fs.nFatent) (hd : 2 ≤ d)
    (hdn : d < fs.nFatent) (hmax : fs.nFatent < 2 ^ 32) (hcd : c ≠ d) (hs : s ∈ sectorsOf fs c) :
    s ∉ sectorsOf fs d := by
  rcases Nat.lt_or_gt_of_ne hcd with hlt | hlt
  · exact sectorsOf_lt h hc hlt hdn (by omega) hs
  · exact fun hs' => sectorsOf_lt h hd hlt hcn (by omega) hs' hs

/-- A cluster lies at the end of the volume. -/
theorem sectorsOf_range (h : Placed fs) (hc : 2 ≤ c) (hn : c < fs.nFatent) (hmax : c < 2 ^ 32)
    (hs : s ∈ sectorsOf fs c) : fs.database ≤ s ∧ s < 2 ^ 32 - 1 := by
  obtain ⟨hlow, hhigh⟩ := hs
  rw [clust2sect_eq h hc hn hmax] at hlow hhigh
  have hend := h.end_lt hc hn
  exact ⟨by omega, by omega⟩

theorem Placed.of_data (h : Placed fs) (hplace : SamePlace fs fs') (hdata : SameData fs fs') :
    Placed fs' := by
  refine ⟨?_, ?_, h.csize.trans_eq hdata.csize.symm⟩
  · rw [hplace.fatbase, hplace.nFats, hplace.fsize, hdata.database]
    exact h.behind
  · rw [hdata.database, hplace.nFatent, hdata.csize]
    exact h.range

theorem sectorsOf_same (hplace : SamePlace fs fs') (hdata : SameData fs fs') (c : ℕ) :
    sectorsOf fs' c = sectorsOf fs c := by
  unfold sectorsOf clust2sect
  rw [hdata.csize, hdata.database, hplace.nFatent]

theorem sound_apart (h : Sound w) (hplaced : Placed w.fs) (hc : c ∈ w.files i) (hd : d ∈ w.files j)
    (hne : i ≠ j ∨ c ≠ d) (hs : s ∈ sectorsOf w.fs c) : s ∉ sectorsOf w.fs d := by
  have hmax := h.legal.nFatent_lt
  obtain ⟨hc2, hcn, -⟩ := h.entry_ne hc
  obtain ⟨hd2, hdn, -⟩ := h.entry_ne hd
  have hcd : c ≠ d := by
    rcases hne with hij | hcd
    · rintro rfl
      exact h.table.apart i j hij hc hd
    · exact hcd
  exact sectorsOf_ne hplaced hc2 hcn hd2 hdn (by omega) hcd hs

/-- In every state of every run, clusters of files are apart on the drive, of one file or of two.
They lie behind the table, and where they lay at the start. -/
theorem files_are_apart (h : Sound w) (hplaced : Placed w.fs) (ops : List Call)
    (hrun : run w ops = some w') (hc : c ∈ w'.files i) (hd : d ∈ w'.files j) (hne : i ≠ j ∨ c ≠ d) :
    (∀ s ∈ sectorsOf w'.fs c, s ∉ sectorsOf w'.fs d ∧ ¬InFats w'.fs s ∧ s < 2 ^ 32) ∧
      sectorsOf w'.fs c = sectorsOf w.fs c := by
  have hgoes := goes_of_run h hrun
  have hdata := run_data h hrun
  have hplaced' := hplaced.of_data hgoes.volume.toSamePlace hdata
  have hmax := hgoes.sound.legal.nFatent_lt
  obtain ⟨hc2, hcn, -⟩ := hgoes.sound.entry_ne hc
  refine ⟨fun s hs => ?_, sectorsOf_same hgoes.volume.toSamePlace hdata c⟩
  obtain ⟨hlow, hhigh⟩ := sectorsOf_range hplaced' hc2 hcn (by omega) hs
  have hbehind := hplaced'.behind
  refine ⟨sound_apart hgoes.sound hplaced' hc hd hne hs, fun hin => ?_, by omega⟩
  have hlt := hin.2
  omega

theorem files_are_apart_two :
    ∃ w', run ⟨formatted, fun _ => [], false⟩ [.create 0, .create 1] = some w' ∧
      (∀ s ∈ sectorsOf w'.fs 2, s ∉ sectorsOf w'.fs 3 ∧ ¬InFats w'.fs s ∧ s < 2 ^ 32) ∧
      sectorsOf w'.fs 2 = sectorsOf formatted 2 :=
  ⟨_, rfl, @files_are_apart _ _ 2 3 0 1 formatted_sound ⟨by decide, by decide, by decide⟩
    [.create 0, .create 1] rfl (by decide) (by decide) (.inl (by decide))⟩

end NuAgent.Fat
