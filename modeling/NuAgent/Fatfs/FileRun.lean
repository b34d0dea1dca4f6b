import Mathlib.Data.Set.Card
import NuAgent.Fatfs.Files

/-!
# What the files keep

The results about runs of a volume: files survive the calls for other files and the faults of the drive,
what was synced survives a new mount, the copies of the table agree, and the count of free clusters is the
number of clusters that no file holds.
-/

namespace NuAgent.Fat

open CInt Chains

variable {w w' : World} {fs : FatFs} {i : ℕ}

/-- A small volume that was formatted: four clusters, two copies of a table with entries of twelve bits. -/
def formatted : FatFs where
  fsType := .fat12
  csize := 1
  nFats := 2
  wflag := false
  fsiFlag := 0x80
  nRootdir := 16
  lastClust := 0xFFFFFFFF
  freeClust := 0xFFFFFFFF
  nFatent := 6
  fsize := 1
  volbase := 0
  fatbase := 1
  dirbase := 3
  database := 4
  winsect := 0
  win := fun _ => 0
  drive := {
    sector := fun s i => if (s = 1 ∨ s = 2) ∧ i < 3 then 0xFF else 0
    fails := fun _ => false
    damage := fun _ _ => 0
    accesses := 0 }

theorem formatted_legal : Legal formatted where
  mounted := by decide
  copies := by decide
  clusters := by decide
  room := by decide
  ends := by decide
  range := by decide
  fsinfo hbit := absurd hbit (by decide)
  winsect_lt := by decide
  clean _ hin := absurd hin.1 (by decide)
  dirty hdirty := Bool.noConfusion hdirty

/-- The same volume over another drive. -/
theorem formatted_over (drive : Drive) : Legal { formatted with drive } :=
  formatted_legal.of_place ⟨rfl, rfl, rfl, rfl, rfl, rfl⟩ id formatted_legal.winsect_lt
    (fun _ hin => absurd (show 1 ≤ 0 from hin.1) (by decide)) fun hdirty => Bool.noConfusion hdirty

theorem formatted_copies : Copies formatted := fun s hs k hk => by
  obtain rfl : s = 1 := Nat.le_antisymm (Nat.le_of_lt_succ hs.2) hs.1
  have hk : k < 2 := hk
  funext i
  interval_cases k <;> simp [formatted]

theorem formatted_sound : Sound ⟨formatted, fun _ => [], false⟩ where
  legal := formatted_legal
  table := ⟨fun _ hne => absurd rfl hne, fun _ => List.nodup_nil, fun _ _ _ => List.disjoint_nil_left _⟩

theorem formatted_tidy : Tidy ⟨formatted, fun _ => [], false⟩ where
  reserved := ⟨by decide, by decide⟩
  exact := .inl rfl
  owned c hc hn htaken := by
    have hn : c < 6 := hn
    have hzero : ∀ c < 6, 2 ≤ c → entry formatted c = 0 := by decide
    exact absurd (hzero c hn hc) htaken

/-! ## Calls for other files -/

theorem step_file {op : Call} (hstep : step w op = some w') (hfile : op.file ≠ some i) :
    w'.files i = w.files i := by
  have hset : ∀ j (l : List ℕ), j ≠ i → Function.update w.files j l i = w.files i := fun j l hj =>
    Function.update_of_ne hj.symm l w.files
  cases op with
  | create j =>
    have hj : j ≠ i := fun hj => hfile (congrArg some hj)
    have hstep : w.create j = some w' := hstep
    unfold World.create at hstep
    by_cases hempty : w.files j ≠ []
    · rw [if_pos hempty] at hstep
      rw [Option.some.inj hstep]
    · rw [if_neg hempty] at hstep
      obtain ⟨r, -, hr⟩ := Option.bind_eq_some_iff.1 hstep
      rw [← Option.some.inj hr]
      dsimp only
      split
      · exact hset j _ hj
      · rfl
  | follow j k =>
    have hj : j ≠ i := fun hj => hfile (congrArg some hj)
    have hstep : w.follow j k = some w' := hstep
    unfold World.follow at hstep
    cases hk : (w.files j)[k]? with
    | none =>
      rw [hk] at hstep
      rw [Option.some.inj hstep]
    | some c =>
      rw [hk] at hstep
      obtain ⟨r, -, hr⟩ := Option.bind_eq_some_iff.1 hstep
      rw [← Option.some.inj hr]
      dsimp only
      split
      · exact hset j _ hj
      · split
        · exact hset j _ hj
        · rfl
  | remove j =>
    have hj : j ≠ i := fun hj => hfile (congrArg some hj)
    have hstep : w.remove j = some w' := hstep
    unfold World.remove at hstep
    cases hl : w.files j with
    | nil =>
      rw [hl] at hstep
      rw [Option.some.inj hstep]
    | cons c l =>
      rw [hl] at hstep
      obtain ⟨r, -, hr⟩ := Option.bind_eq_some_iff.1 hstep
      rw [← Option.some.inj hr]
      exact hset j _ hj
  | truncate j k =>
    have hj : j ≠ i := fun hj => hfile (congrArg some hj)
    have hstep : w.truncate j k = some w' := hstep
    unfold World.truncate at hstep
    cases hk : (w.files j)[k]? with
    | none =>
      rw [hk] at hstep
      rw [Option.some.inj hstep]
    | some c =>
      rw [hk] at hstep
      obtain ⟨r, -, hr⟩ := Option.bind_eq_some_iff.1 hstep
      rw [← Option.some.inj hr]
      exact hset j _ hj
  | getfree =>
    obtain ⟨r, -, hr⟩ := Option.bind_eq_some_iff.1 hstep
    rw [← Option.some.inj hr]
  | sync => rw [← Option.some.inj hstep]
  | look s => rw [← Option.some.inj hstep]
  | edit data =>
    simp only [step] at hstep
    split at hstep <;> rw [← Option.some.inj hstep]
  | write s data =>
    simp only [step] at hstep
    split at hstep <;> rw [← Option.some.inj hstep]
  | read s => rw [← Option.some.inj hstep]

theorem run_file {ops : List Call} (hrun : run w ops = some w')
    (hfile : ∀ op ∈ ops, op.file ≠ some i) : w'.files i = w.files i := by
  induction ops generalizing w with
  | nil => rw [Option.some.inj hrun]
  | cons op ops ih =>
    obtain ⟨w₁, hstep, hrun⟩ := Option.bind_eq_some_iff.1 hrun
    rw [ih hrun fun op' hop => hfile op' (List.mem_cons_of_mem op hop),
      step_file hstep (hfile op List.mem_cons_self)]

/-- A run never gets stuck in a loop. The files are chains without a common cluster in its last state, and
a file that no call was for is as it was, whatever the drive did. -/
theorem files_survive (h : Sound w) (ops : List Call) :
    ∃ w', run w ops = some w' ∧ (∀ i, w'.files i ≠ [] → Chain (entry w'.fs) 2 w'.fs.nFatent (w'.files i)) ∧
      (∀ i, (w'.files i).Nodup) ∧ (∀ i j, i ≠ j → (w'.files i).Disjoint (w'.files j)) ∧
      ∀ i, (∀ op ∈ ops, op.file ≠ some i) → w'.files i = w.files i := by
  obtain ⟨w', hrun, hgoes⟩ := run_goes h ops
  have htable := hgoes.sound.table
  exact ⟨w', hrun, htable.chain, htable.nodup, htable.apart, fun i => run_file hrun⟩

theorem files_survive_three : ∃ w', run ⟨formatted, fun _ => [], false⟩
      [.create 0, .create 1, .follow 0 0] = some w' ∧
    (∀ i, w'.files i ≠ [] → Chain (entry w'.fs) 2 w'.fs.nFatent (w'.files i)) ∧
      (∀ i, (w'.files i).Nodup) ∧ (∀ i j, i ≠ j → (w'.files i).Disjoint (w'.files j)) ∧
      ∀ i, (∀ op ∈ [Call.create 0, .create 1, .follow 0 0], op.file ≠ some i) → w'.files i = [] :=
  files_survive formatted_sound [.create 0, .create 1, .follow 0 0]

/-! ## A new mount -/

/-- A clean window of the same volume over the same drive shows the same table. -/
theorem entry_remount {fs' : FatFs} (h : Legal fs) (h' : Legal fs') (hplace : SamePlace fs fs')
    (hclean : fs.wflag = false) (hclean' : fs'.wflag = false)
    (hdrive : fs'.drive.sector = fs.drive.sector) {c : ℕ} (hc : c < fs.nFatent) :
    entry fs' c = entry fs c := by
  unfold entry
  rw [hplace.fsType]
  refine entryOf_congr fun i hi => ?_
  have hin : InFat fs (fs.fatbase + i / ss) := inFat_byte (h.byte_lt hc hi)
  unfold fatByte
  rw [hplace.fatbase, ← h'.on_drive hclean' (hplace.inFat.2 hin), hdrive, h.on_drive hclean hin]

/-- After a sync that succeeds, a clean mount of what is on the drive has the same table and files. -/
theorem Sound.remount (h : Sound w) (hsync : (syncFs w.fs).2 = .frOk) (hfs : Legal fs)
    (hplace : SamePlace w.fs fs) (hclean : fs.wflag = false)
    (hdrive : fs.drive.sector = (syncFs w.fs).1.drive.sector) :
    (∀ c < fs.nFatent, entry fs c = entry w.fs c) ∧ Sound { w with fs } := by
  obtain ⟨hsame, hlegal, -, hflag, hview⟩ := syncFs_spec h.legal
  have hshow := Shows.of_view hsame hlegal hview
  have hplace' : SamePlace (syncFs w.fs).1 fs := hsame.toSamePlace.symm.trans hplace
  have hentry : ∀ c < fs.nFatent, entry fs c = entry w.fs c := fun c hc => by
    have hc' : c < w.fs.nFatent := hplace.nFatent ▸ hc
    rw [entry_remount hlegal hfs hplace' (hflag hsync) hclean hdrive (by rw [hsame.nFatent]; exact hc'),
      hshow.entry_eq h.legal hc']
  refine ⟨hentry, hfs, ?_⟩
  show Table (entry fs) 2 fs.nFatent w.files
  rw [hplace.nFatent]
  exact h.table.congr fun i c hc => hentry c (by rw [hplace.nFatent]; exact (h.entry_ne hc).2.1)

/-- What was synced is found again: after a sync that succeeds, the volume mounted again from the drive
has the same files, whatever happened before, and everything holds of it as before. -/
theorem files_survive_remount (h : Sound w) (ops : List Call) (hrun : run w ops = some w')
    (hsync : (syncFs w'.fs).2 = .frOk) (hfs : Legal fs) (hplace : SamePlace w'.fs fs)
    (hclean : fs.wflag = false) (hdrive : fs.drive.sector = (syncFs w'.fs).1.drive.sector) :
    (∀ c < fs.nFatent, entry fs c = entry w'.fs c) ∧ Sound { w' with fs } :=
  (goes_of_run h hrun).sound.remount hsync hfs hplace hclean hdrive

theorem files_survive_remount_one : ∃ w', run ⟨formatted, fun _ => [], false⟩ [.create 0] = some w' ∧
    (∀ c < 6, entry { formatted with drive := (syncFs w'.fs).1.drive } c = entry w'.fs c) ∧
      Sound { w' with fs := { formatted with drive := (syncFs w'.fs).1.drive } } :=
  ⟨_, rfl, files_survive_remount formatted_sound [.create 0] rfl rfl (formatted_over _)
    ⟨rfl, rfl, rfl, rfl, rfl, rfl⟩ rfl rfl⟩

/-! ## The copies and the count -/

/-- On a drive that does not fail, the copies of the table that were the same at the start are the same in
every state of a run. -/
theorem copies_agree (h : Sound w) (hfails : ∀ n, w.fs.drive.fails n = false) (hcopies : Copies w.fs)
    (ops : List Call) (hrun : run w ops = some w') :
    ∀ s, InFat w'.fs s → ∀ k < w'.fs.nFats,
      w'.fs.drive.sector (s + k * w'.fs.fsize) = w'.fs.drive.sector s :=
  (goes_of_run h hrun).volume.copies hfails hcopies

theorem copies_agree_one : ∃ w', run ⟨formatted, fun _ => [], false⟩ [.create 0, .sync] = some w' ∧
    ∀ s, InFat w'.fs s → ∀ k < w'.fs.nFats,
      w'.fs.drive.sector (s + k * w'.fs.fsize) = w'.fs.drive.sector s :=
  ⟨_, rfl, copies_agree formatted_sound (fun _ => rfl) formatted_copies [.create 0, .sync] rfl⟩

/-- As long as no call has failed, `f_getfree` counts the clusters that no file holds. -/
theorem free_count_exact (h : Sound w) (ht : Tidy w) (ops : List Call) (hrun : run w ops = some w')
    (hok : w'.failed = false) {k : ℕ} (hget : (getFree w'.fs).map Prod.snd = some (.frOk, k)) :
    k = {c | 2 ≤ c ∧ c < w'.fs.nFatent ∧ ∀ i, c ∉ w'.files i}.ncard := by
  have hgoes := goes_of_run h hrun
  have hsound := hgoes.sound
  have htidy := hgoes.tidy hok ht
  obtain ⟨fs, res, n, heq, -, hcount⟩ := getFree_spec hsound.legal
  rw [heq] at hget
  obtain ⟨rfl, rfl⟩ := Prod.mk.inj (Option.some.inj hget)
  rw [(hcount rfl htidy.reserved htidy.exact).1, freeCount, ← Set.ncard_coe_finset]
  congr 1
  ext c
  rw [Finset.mem_coe, Finset.mem_filter, Finset.mem_Ico]
  constructor
  · rintro ⟨⟨hc, hn⟩, hzero⟩
    exact ⟨hc, hn, fun i hi => (hsound.entry_ne hi).2.2 hzero⟩
  · rintro ⟨hc, hn, hnot⟩
    refine ⟨⟨hc, hn⟩, ?_⟩
    by_contra htaken
    obtain ⟨i, hi⟩ := htidy.owned c hc hn htaken
    exact hnot i hi

/-- A file of one cluster: three clusters of four are free. -/
theorem free_count_exact_three : ∃ w', run ⟨formatted, fun _ => [], false⟩ [.create 0] = some w' ∧
    3 = {c | 2 ≤ c ∧ c < w'.fs.nFatent ∧ ∀ i, c ∉ w'.files i}.ncard :=
  ⟨_, rfl, free_count_exact formatted_sound formatted_tidy [.create 0] rfl rfl (by decide)⟩

/-! ## Where a new cluster comes from -/

/-- On a table whose entries all have a meaning, `create_chain` behind the end of a chain, or for a new
chain, takes the first free cluster behind the one it starts from, going around the volume once. It says
that the volume is full only when no cluster is free. -/
theorem create_chain_is_next_fit {fs' : FatFs} {clst r : ℕ} (h : Legal fs)
    (hmeaning : ∀ d, 2 ≤ d → d < fs.nFatent → entry fs d ≠ 1)
    (hclst : clst ≠ 0 → 2 ≤ clst ∧ clst < fs.nFatent ∧ fs.nFatent ≤ entry fs clst)
    (hcreate : createChain fs clst = some (fs', r)) (hok : r ≠ 0xFFFFFFFF) :
    (r = 0 ∧ ∀ d, 2 ≤ d → d < fs.nFatent → entry fs d ≠ 0) ∨
      ∃ j, 1 ≤ j ∧ j ≤ fs.nFatent - 2 ∧ r = behind fs.nFatent (hint fs clst) j ∧ entry fs r = 0 ∧
        ∀ i, 1 ≤ i → i < j → entry fs (behind fs.nFatent (hint fs clst) i) ≠ 0 := by
  have hclusters := h.clusters
  obtain ⟨fs₁, r₁, heq, -, -, hcreated⟩ := @createChain_spec fs clst h fun hc =>
    ⟨(hclst hc).1, (hclst hc).2.1, by have := (hclst hc).2.2; omega⟩
  obtain ⟨rfl, rfl⟩ := Prod.mk.inj (Option.some.inj (heq.symm.trans hcreate))
  cases hcreated with
  | followed hshow hc hn => exact absurd (hclst hc).2.2 (Nat.not_le.2 hn)
  | full hshow hfull => exact .inl ⟨rfl, hfull⟩
  | bad hshow d hd hn hbad => exact absurd hbad (hmeaning d hd hn)
  | fault hothers => exact absurd rfl hok
  | linked _ hfound hlinked hends =>
    cases hfound with
    | free j hj hle hfree hfirst => exact .inr ⟨j, hj, hle, rfl, hfree, hfirst⟩

theorem create_chain_is_next_fit_first : ∃ fs', createChain formatted 0 = some (fs', 2) ∧
    ((2 = 0 ∧ ∀ d, 2 ≤ d → d < formatted.nFatent → entry formatted d ≠ 0) ∨
      ∃ j, 1 ≤ j ∧ j ≤ formatted.nFatent - 2 ∧ 2 = behind formatted.nFatent (hint formatted 0) j ∧
        entry formatted 2 = 0 ∧
        ∀ i, 1 ≤ i → i < j → entry formatted (behind formatted.nFatent (hint formatted 0) i) ≠ 0) :=
  ⟨_, rfl, create_chain_is_next_fit formatted_legal
    (fun d hd hn => by
      have hn : d < 6 := hn
      interval_cases d <;> decide)
    (fun hne => absurd rfl hne) rfl (by decide)⟩

/-! ## The table as an array -/

/-- An access to the table, or one that only moves the window. -/
inductive Access
  | get (c : ℕ)
  | put (c v : ℕ)
  | sync
  | look (s : ℕ)

/-- The table, and what is known of its entries: the last value put, or nothing when that failed. -/
structure Known where
  fs : FatFs
  known : ℕ → Option ℕ

def Known.access (k : Known) : Access → Known
  | .get c => ⟨(getFat k.fs c).1, k.known⟩
  | .put c v =>
    let (fs, res) := putFat k.fs c v
    ⟨fs,
      if 2 ≤ c ∧ c < k.fs.nFatent then
        Function.update k.known c (if res = .frOk then some (v % (endMark k.fs.fsType + 1)) else none)
      else k.known⟩
  | .sync => ⟨(syncFs k.fs).1, k.known⟩
  | .look s => ⟨(moveWindow k.fs (s % 2 ^ 32)).1, k.known⟩

/-- What is known is so. -/
structure Known.Right (k : Known) (n : ℕ) : Prop where
  legal : Legal k.fs
  nFatent : k.fs.nFatent = n
  right : ∀ c < n, ∀ x, k.known c = some x → entry k.fs c = x

theorem Known.Right.shows {k : Known} {n : ℕ} (h : k.Right n) (hshow : Shows k.fs fs) :
    Known.Right ⟨fs, k.known⟩ n where
  legal := hshow.legal
  nFatent := hshow.same.nFatent.trans h.nFatent
  right c hc x hx :=
    (hshow.entry_eq h.legal (by rw [h.nFatent]; exact hc)).trans (h.right c hc x hx)

theorem Known.Right.access {k : Known} {n : ℕ} (h : k.Right n) (a : Access) :
    (k.access a).Right n := by
  cases a with
  | get c =>
    by_cases hrange : c < 2 ∨ c ≥ k.fs.nFatent
    · have hget : getFat k.fs c = (k.fs, 1) := if_pos hrange
      have hsame : k.access (.get c) = k := by
        simp only [Known.access]
        rw [hget]
      rw [hsame]
      exact h
    · exact h.shows (getFat_spec h.legal (by omega) (by omega)).1
  | sync =>
    obtain ⟨hsame, hlegal, -, -, hview⟩ := syncFs_spec h.legal
    exact h.shows (.of_view hsame hlegal hview)
  | look s =>
    obtain ⟨hsame, hlegal, -, -, hview⟩ :=
      @moveWindow_spec k.fs (s % 2 ^ 32) h.legal (Nat.mod_lt _ (by decide))
    exact h.shows (.of_view hsame hlegal hview)
  | put c v =>
    by_cases hrange : 2 ≤ c ∧ c < k.fs.nFatent
    · have hput := putFat_spec h.legal hrange.1 hrange.2 v
      simp only [Known.access]
      generalize putFat k.fs c v = r at hput ⊢
      obtain ⟨fs, res⟩ := r
      dsimp only at hput ⊢
      rw [if_pos hrange]
      refine ⟨hput.legal, hput.same.nFatent.trans h.nFatent, fun d hd x hx => ?_⟩
      have hx : Function.update k.known c
          (if res = .frOk then some (v % (endMark k.fs.fsType + 1)) else none) d = some x := hx
      by_cases hdc : d = c
      · rw [hdc, Function.update_self] at hx
        by_cases hok : res = .frOk
        · rw [if_pos hok] at hx
          rw [hdc]
          exact (hput.stored hok).trans (Option.some.inj hx)
        · rw [if_neg hok] at hx
          exact absurd hx (Option.some_ne_none x).symm
      · rw [Function.update_of_ne hdc] at hx
        exact (hput.others d (by rw [h.nFatent]; exact hd) hdc).trans (h.right d hd x hx)
    · have hput : putFat k.fs c v = (k.fs, .frIntErr) := if_pos (by omega)
      have hsame : k.access (.put c v) = k := by
        simp only [Known.access]
        rw [if_neg hrange, hput]
      rw [hsame]
      exact h

theorem Known.Right.run {k : Known} {n : ℕ} (h : k.Right n) (accesses : List Access) :
    (accesses.foldl Known.access k).Right n := by
  induction accesses generalizing k with
  | nil => exact h
  | cons a accesses ih => exact ih (h.access a)

/-- In all three formats, and whatever the drive does, the table behind its window is an array: `get_fat`
returns what was last put into the entry with success, unless it reports an error of the drive. Only an
entry whose own put failed is not known. -/
theorem table_is_an_array (h : Legal fs) (accesses : List Access) {c x : ℕ} (hc : 2 ≤ c)
    (hn : c < fs.nFatent)
    (hx : (accesses.foldl Known.access ⟨fs, fun c => some (entry fs c)⟩).known c = some x) :
    (getFat (accesses.foldl Known.access ⟨fs, fun c => some (entry fs c)⟩).fs c).2 = x ∨
      (getFat (accesses.foldl Known.access ⟨fs, fun c => some (entry fs c)⟩).fs c).2 =
        0xFFFFFFFF := by
  have hstart : Known.Right ⟨fs, fun c => some (entry fs c)⟩ fs.nFatent :=
    ⟨h, rfl, fun _ _ _ hx => Option.some.inj hx⟩
  have hright := hstart.run accesses
  rcases (getFat_spec hright.legal hc (by rw [hright.nFatent]; exact hn)).2 with hget | hget
  · exact .inr hget
  · exact .inl (hget.trans (hright.right c hn x hx))

/-- Two entries that share a byte. -/
theorem table_is_an_array_shared :
    (getFat ([Access.put 2 0xABC, .put 3 0xDEF, .sync].foldl Known.access
        ⟨formatted, fun c => some (entry formatted c)⟩).fs 2).2 = 0xABC ∨
      (getFat ([Access.put 2 0xABC, .put 3 0xDEF, .sync].foldl Known.access
        ⟨formatted, fun c => some (entry formatted c)⟩).fs 2).2 = 0xFFFFFFFF :=
  table_is_an_array formatted_legal [.put 2 0xABC, .put 3 0xDEF, .sync] (by decide) (by decide)
    (by decide)

end NuAgent.Fat
