import NuAgent.Fatfs.Sectors

/-!
# What the files hold

`Stores fs s data` says that sector `s` holds `data`: it is seen, and it is on the drive as well when
the window is clean. A sector behind the table holds what it held until somebody writes to it,
whatever the calls do and whatever fails (`step_stores`). As the sectors of the files are apart, a
file keeps its data as long as all calls and accesses are for others (`file_data_survives`).
-/

namespace NuAgent.Fat

variable {w w' : World} {fs fs' : FatFs} {data : Sector} {c i s : ℕ}

/-- What sector `s` holds. -/
structure Stores (fs : FatFs) (s : ℕ) (data : Sector) : Prop where
  seen : view fs s = data
  clean : fs.wflag = false → fs.drive.sector s = data

/-- A sector outside of the table that is not the one of `FSINFO`, nor that of a lost window. -/
structure Outside (fs : FatFs) (s : ℕ) : Prop where
  table : ¬InFats fs s
  lost : s < 0xFFFFFFFF
  fsinfo : s = fs.volbase ∨ fs.fatbase ≤ s

theorem Outside.of_place (hplace : SamePlace fs fs') (h : Outside fs s) : Outside fs' s := by
  refine ⟨fun hin => h.table (hplace.inFats.1 hin), h.lost, ?_⟩
  rw [hplace.volbase, hplace.fatbase]
  exact h.fsinfo

/-! ## The window and the drive -/

/-- Outside of the table only the sector of the window is written. -/
theorem syncDrive_outside (h : Legal fs) (hs : ¬InFats fs s) :
    (syncDrive fs).sector s = (fs.drive.write fs.winsect fs.win).1.sector s := by
  unfold syncDrive
  by_cases hin : InFat fs fs.winsect
  · have hlast := h.last_copy hin
    have hrange := h.range
    rw [if_pos ((inFat_iff h).2 hin)]
    refine writeCopies_other _ _ _ (by omega) fun k _ hk heq => hs ?_
    have hle : k * fs.fsize ≤ (fs.nFats - 1) * fs.fsize := Nat.mul_le_mul_right _ hk
    have hlow := hin.1
    exact ⟨by omega, by omega⟩
  · rw [if_neg fun hc => hin ((inFat_iff h).1 hc)]

/-- A write of the window to its sector. -/
theorem Stores.written (h : Stores fs s data) (hok : (fs.drive.write fs.winsect fs.win).2 = true) :
    (fs.drive.write fs.winsect fs.win).1.sector s = data := by
  have hseen := h.seen
  unfold view at hseen
  by_cases heq : s = fs.winsect
  · rw [if_pos heq] at hseen
    rw [heq, Drive.write_self _ _ hok]
    exact hseen
  · rw [if_neg heq] at hseen
    rw [Drive.write_other _ _ heq]
    exact hseen

theorem syncWindow_stores (h : Legal fs) (hs : ¬InFats fs s) (hdata : Stores fs s data) :
    Stores (syncWindow fs).1 s data := by
  have hseen := hdata.seen
  unfold view at hseen
  unfold syncWindow
  by_cases hdirty : fs.wflag = true
  · rw [if_pos hdirty]
    dsimp only
    by_cases hok : (fs.drive.write fs.winsect fs.win).2 = true
    · have hdrive : (syncDrive fs).sector s = data :=
        (syncDrive_outside h hs).trans (hdata.written hok)
      rw [if_pos hok]
      refine ⟨?_, fun _ => hdrive⟩
      show (if s = fs.winsect then fs.win else (syncDrive fs).sector s) = data
      by_cases heq : s = fs.winsect
      · rw [if_pos heq] at hseen ⊢
        exact hseen
      · rw [if_neg heq]
        exact hdrive
    · rw [if_neg hok]
      refine ⟨?_, fun hclean => Bool.noConfusion (hdirty.symm.trans hclean)⟩
      show (if s = fs.winsect then fs.win else _) = data
      by_cases heq : s = fs.winsect
      · rw [if_pos heq] at hseen ⊢
        exact hseen
      · rw [if_neg heq] at hseen ⊢
        exact (Drive.write_other _ _ heq).trans hseen
  · rw [if_neg hdirty]
    exact hdata

theorem moveWindow_stores {sector : ℕ} (h : Legal fs) (hs : Outside fs s)
    (hdata : Stores fs s data) : Stores (moveWindow fs sector).1 s data := by
  unfold moveWindow
  by_cases hsame : sector = fs.winsect
  · rw [if_neg (not_not.2 hsame)]
    exact hdata
  rw [if_pos hsame]
  obtain ⟨-, -, -, -, -, hflag, -⟩ := syncWindow_spec h
  have hsync := syncWindow_stores h hs.table hdata
  generalize syncWindow fs = r at hflag hsync ⊢
  obtain ⟨fs₁, res⟩ := r
  dsimp only at hflag hsync ⊢
  by_cases hok : res = .frOk
  · rw [if_pos hok]
    have hdrive := hsync.clean (hflag hok)
    unfold Drive.read
    cases fs₁.drive.fails fs₁.drive.accesses with
    | true =>
      have hlost := hs.lost
      exact ⟨(if_neg (show ¬s = 0xFFFFFFFF by omega)).trans hdrive, fun _ => hdrive⟩
    | false =>
      refine ⟨?_, fun _ => hdrive⟩
      show (if s = sector then fs₁.drive.sector sector else fs₁.drive.sector s) = data
      by_cases heq : s = sector
      · rw [if_pos heq, ← heq]
        exact hdrive
      · rw [if_neg heq]
        exact hdrive
  · rw [if_neg hok]
    exact hsync

theorem syncFs_stores (h : Legal fs) (hs : Outside fs s) (hdata : Stores fs s data) :
    Stores (syncFs fs).1 s data := by
  unfold syncFs
  obtain ⟨hvol, -, -, hlegal, -, hflag, -⟩ := syncWindow_spec h
  have hsync := syncWindow_stores h hs.table hdata
  have hs₁ := hs.of_place hvol.toSamePlace
  generalize syncWindow fs = r at hlegal hflag hsync hs₁ ⊢
  obtain ⟨fs₁, res⟩ := r
  dsimp only at hlegal hflag hsync hs₁ ⊢
  by_cases hok : res = .frOk
  · rw [if_pos hok]
    have hdrive := hsync.clean (hflag hok)
    by_cases hinfo : fs₁.fsType = .fat32 ∧ fs₁.fsiFlag = 1
    · rw [if_pos hinfo]
      have hbase := hlegal.fsinfo (by rw [hinfo.2]; decide)
      have hrange := hlegal.range
      have hplace := hs₁.fsinfo
      have hsect : CInt.u32 ((fs₁.volbase : ℤ) + 1) = fs₁.volbase + 1 := by
        rw [CInt.u32_of_lt (by omega) (by omega)]
        omega
      have hne : s ≠ fs₁.volbase + 1 := by omega
      dsimp only
      rw [hsect]
      have hother := fun win => (Drive.write_other fs₁.drive win hne).trans hdrive
      exact ⟨(if_neg hne).trans (hother _), fun _ => hother _⟩
    · rw [if_neg hinfo]
      exact ⟨hsync.seen, hsync.clean⟩
  · rw [if_neg hok]
    exact hsync

/-! ## Steps and runs -/

theorem Acts.stores (hfs : Legal fs) (h : Acts fs fs') (hs : Outside fs s)
    (hdata : Stores fs s data) : Stores fs' s data := by
  induction h with
  | refl => exact hdata
  | move t ht h ih =>
    obtain ⟨hplace, hlegal⟩ := h.keeps hfs
    exact moveWindow_stores hlegal (hs.of_place hplace) ih
  | @store fs₁ win hin h ih =>
    have hne : s ≠ fs₁.winsect := fun heq => hs.table (hfs.inFats (heq ▸ hin))
    have hseen := ih.seen
    unfold view at hseen
    rw [if_neg hne] at hseen
    exact ⟨(if_neg hne).trans hseen, fun hclean => Bool.noConfusion hclean⟩
  | count _ _ _ _ _ ih => exact ⟨ih.seen, ih.clean⟩

/-- The sector that a call accesses directly. -/
def World.touched (w : World) : Call → Option ℕ
  | .edit _ => some w.fs.winsect
  | .write s _ => some s
  | _ => none

theorem step_stores {op : Call} (hfs : Legal w.fs) (h : step w op = some w') (hs : Outside w.fs s)
    (htouched : w.touched op ≠ some s) (hdata : Stores w.fs s data) : Stores w'.fs s data := by
  have hseen := hdata.seen
  unfold view at hseen
  rcases step_cases hfs h with hacts | heq | ⟨win, rfl, heq⟩ | ⟨t, win, rfl, heq⟩ | ⟨t, heq⟩
  · exact hacts.stores hfs hs hdata
  · rw [heq]
    exact syncFs_stores hfs hs hdata
  · have hne : s ≠ w.fs.winsect := fun hat => htouched (congrArg some hat.symm)
    rw [if_neg hne] at hseen
    rw [heq]
    exact ⟨(if_neg hne).trans hseen, fun hclean => Bool.noConfusion hclean⟩
  · have hne : s ≠ t := fun hat => htouched (congrArg some hat.symm)
    have hother := Drive.write_other w.fs.drive win hne
    rw [heq]
    refine ⟨?_, fun hclean => hother.trans (hdata.clean hclean)⟩
    show (if s = w.fs.winsect then w.fs.win else _) = data
    rw [hother]
    exact hseen
  · rw [heq]
    exact ⟨hdata.seen, hdata.clean⟩

/-- Nobody accesses sector `s` directly. -/
def Spares (s : ℕ) : World → List Call → Prop
  | _, [] => True
  | w, op :: ops => w.touched op ≠ some s ∧ ∀ w', step w op = some w' → Spares s w' ops

theorem run_stores {ops : List Call} (h : Sound w) (hs : Outside w.fs s)
    (hrun : run w ops = some w') (hspares : Spares s w ops) (hdata : Stores w.fs s data) :
    Stores w'.fs s data := by
  induction ops generalizing w with
  | nil =>
    rw [← Option.some.inj hrun]
    exact hdata
  | cons op ops ih =>
    obtain ⟨w₁, hstep, hrun⟩ := Option.bind_eq_some_iff.1 hrun
    obtain ⟨htouched, hrest⟩ := hspares
    have hgoes := goes_of_step h hstep
    exact ih hgoes.sound (hs.of_place hgoes.volume.toSamePlace) hrun (hrest w₁ hstep)
      (step_stores h.legal hstep hs htouched hdata)

/-- After a sync that succeeds what is held is on the drive. -/
theorem Stores.synced (h : Legal fs) (hs : Outside fs s) (hdata : Stores fs s data)
    (hok : (syncFs fs).2 = .frOk) : (syncFs fs).1.drive.sector s = data := by
  obtain ⟨-, -, -, hflag, -⟩ := syncFs_spec h
  exact (syncFs_stores h hs hdata).clean (hflag hok)

/-! ## Files -/

/-- No call is for file `i`, and sectors are accessed directly where other files are at that time,
or before the clusters. -/
def ForOthers (i : ℕ) : World → List Call → Prop
  | _, [] => True
  | w, op :: ops =>
    op.file ≠ some i ∧
      (∀ s, w.touched op = some s →
        s < w.fs.database ∨ ∃ j, j ≠ i ∧ ∃ d ∈ w.files j, s ∈ sectorsOf w.fs d) ∧
      ∀ w', step w op = some w' → ForOthers i w' ops

theorem file_outside (h : Sound w) (hplaced : Placed w.fs) (hc : c ∈ w.files i)
    (hs : s ∈ sectorsOf w.fs c) : Outside w.fs s ∧ w.fs.database ≤ s := by
  obtain ⟨hc2, hcn, -⟩ := h.entry_ne hc
  have hmax := h.legal.nFatent_lt
  obtain ⟨hlow, hhigh⟩ := sectorsOf_range hplaced hc2 hcn (by omega) hs
  have hbehind := hplaced.behind
  refine ⟨⟨fun hin => ?_, hhigh, .inr (by omega)⟩, hlow⟩
  have hlt := hin.2
  omega

theorem ForOthers.keeps {ops : List Call} (h : Sound w) (hplaced : Placed w.fs)
    (hothers : ForOthers i w ops) (hc : c ∈ w.files i) (hs : s ∈ sectorsOf w.fs c) :
    Spares s w ops ∧ ∀ op ∈ ops, op.file ≠ some i := by
  induction ops generalizing w with
  | nil => exact ⟨trivial, fun _ hop => absurd hop List.not_mem_nil⟩
  | cons op ops ih =>
    obtain ⟨hfile, htouched, hrest⟩ := hothers
    have hrest' : ∀ w₁, step w op = some w₁ → Spares s w₁ ops ∧ ∀ op ∈ ops, op.file ≠ some i :=
      fun w₁ hstep => by
        have hgoes := goes_of_step h hstep
        have hsame := step_data h.legal hstep
        have hplace := hgoes.volume.toSamePlace
        refine ih hgoes.sound (hplaced.of_data hplace hsame) (hrest w₁ hstep) ?_ ?_
        · rw [step_file hstep hfile]
          exact hc
        · rw [sectorsOf_same hplace hsame]
          exact hs
    obtain ⟨w₁, hstep, -⟩ := step_goes h op
    refine ⟨⟨fun hat => ?_, fun w₁ hstep => (hrest' w₁ hstep).1⟩,
      List.forall_mem_cons.2 ⟨hfile, (hrest' w₁ hstep).2⟩⟩
    rcases htouched s hat with hlt | ⟨j, hj, d, hd, hs'⟩
    · have hlow := (file_outside h hplaced hc hs).2
      omega
    · exact sound_apart h hplaced hc hd (.inl hj.symm) hs hs'

/-- A file keeps its clusters and what they hold as long as all calls and accesses are for others,
also when the drive fails; and after a sync that succeeds it is all on the drive. -/
theorem file_data_survives (h : Sound w) (hplaced : Placed w.fs) (ops : List Call)
    (hrun : run w ops = some w') (hothers : ForOthers i w ops) (hc : c ∈ w.files i)
    (hs : s ∈ sectorsOf w.fs c) (hdata : Stores w.fs s data) :
    w'.files i = w.files i ∧ s ∈ sectorsOf w'.fs c ∧ Stores w'.fs s data ∧
      ((syncFs w'.fs).2 = .frOk → (syncFs w'.fs).1.drive.sector s = data) := by
  have hgoes := goes_of_run h hrun
  have hplace := hgoes.volume.toSamePlace
  obtain ⟨hspares, hfile⟩ := hothers.keeps h hplaced hc hs
  have hout := (file_outside h hplaced hc hs).1
  have hkept := run_stores h hout hrun hspares hdata
  refine ⟨run_file hrun hfile, ?_, hkept, ?_⟩
  · rw [sectorsOf_same hplace (run_data h hrun)]
    exact hs
  · exact hkept.synced hgoes.sound.legal (hout.of_place hplace)

/-- The data of the first file survives a second file that is written. -/
theorem file_data_survives_second :
    ∃ w w', run ⟨formatted, fun _ => [], false⟩ [.create 0, .write 4 fun _ => 7] = some w ∧
      run w [.create 1, .write 5 fun _ => 1] = some w' ∧
      w'.files 0 = w.files 0 ∧ 4 ∈ sectorsOf w'.fs 2 ∧ Stores w'.fs 4 (fun _ => 7) ∧
        ((syncFs w'.fs).2 = .frOk → (syncFs w'.fs).1.drive.sector 4 = fun _ => 7) := by
  refine ⟨_, _, rfl, rfl, @file_data_survives _ _ _ 2 0 4 ?_ ⟨by decide, by decide, by decide⟩
    [.create 1, .write 5 fun _ => 1] rfl ?_ (by decide) ⟨by decide, by decide⟩ ⟨rfl, fun _ => rfl⟩⟩
  · exact (@goes_of_run _ _ formatted_sound [.create 0, .write 4 fun _ => 7] rfl).sound
  · refine ⟨by decide, fun s hs => absurd hs.symm (Option.some_ne_none s), fun w₁ hw₁ => ?_⟩
    rw [← Option.some.inj hw₁]
    refine ⟨by decide, fun s hs => ?_, fun _ _ => trivial⟩
    rw [← Option.some.inj hs]
    exact .inr ⟨1, by decide, 3, by decide, by decide, by decide⟩

end NuAgent.Fat
