import NuAgent.Fatfs.FreeCount
import NuAgent.Fatfs.Release

/-!
# Files on the volume

A run of the calls that file operations make of the table: new chains, writes that follow or stretch a
chain, removal, truncation, counting, syncing, and the accesses to sectors outside of the table. The drive
may fail at any access. `files` is what the callers hold: the clusters of each file. A file is given up
when a call for it fails, as `f_write` does with the error flag of the file object.

In every state of every run the files are chains of the table without a common cluster (`run_sound`). As
long as no call has failed, no cluster is lost, and the count of free clusters is exact (`run_tidy`).
-/

namespace NuAgent.Fat

open CInt Chains

/-- A volume in use. -/
structure World where
  fs : FatFs
  files : ℕ → List ℕ
  failed : Bool

inductive Call
  | create (i : ℕ)
  | follow (i k : ℕ)
  | remove (i : ℕ)
  | truncate (i k : ℕ)
  | getfree
  | sync
  | look (s : ℕ)
  | edit (data : Sector)
  | write (s : ℕ) (data : Sector)
  | read (s : ℕ)

/-- The file a call is for. -/
def Call.file : Call → Option ℕ
  | .create i | .follow i _ | .remove i | .truncate i _ => some i
  | _ => none

/-- `create_chain` for a file without clusters. -/
def World.create (w : World) (i : ℕ) : Option World :=
  if w.files i ≠ [] then some w
  else do
    let (fs, r) ← createChain w.fs 0
    some {
      fs
      files := if 2 ≤ r ∧ r < w.fs.nFatent then Function.update w.files i [r] else w.files
      failed := w.failed || r == 0xFFFFFFFF }

/-- `create_chain` at a cluster of a file, which is followed or stretched. -/
def World.follow (w : World) (i k : ℕ) : Option World :=
  match (w.files i)[k]? with
  | none => some w
  | some c => do
    let (fs, r) ← createChain w.fs c
    some {
      fs
      files :=
        if r = 0xFFFFFFFF then Function.update w.files i []
        else if k + 1 = (w.files i).length ∧ 2 ≤ r then Function.update w.files i (w.files i ++ [r])
        else w.files
      failed := w.failed || r == 0xFFFFFFFF }

/-- `remove_chain` of a file. -/
def World.remove (w : World) (i : ℕ) : Option World :=
  match w.files i with
  | [] => some w
  | c :: _ => do
    let (fs, res) ← removeChain w.fs c
    some { fs, files := Function.update w.files i [], failed := w.failed || res != .frOk }

/-- `f_truncate` behind a cluster of a file. -/
def World.truncate (w : World) (i k : ℕ) : Option World :=
  match (w.files i)[k]? with
  | none => some w
  | some c => do
    let (fs, res) ← truncateAt w.fs c
    some {
      fs
      files := Function.update w.files i (if res = .frOk then (w.files i).take (k + 1) else [])
      failed := w.failed || res != .frOk }

/-- One call. Sectors of the table are not accessed directly. -/
def step (w : World) : Call → Option World
  | .create i => w.create i
  | .follow i k => w.follow i k
  | .remove i => w.remove i
  | .truncate i k => w.truncate i k
  | .getfree => do
    let (fs, res, _) ← getFree w.fs
    some { w with fs, failed := w.failed || res != .frOk }
  | .sync =>
    let (fs, res) := syncFs w.fs
    some { w with fs, failed := w.failed || res != .frOk }
  | .look s =>
    let (fs, res) := moveWindow w.fs (s % 2 ^ 32)
    some { w with fs, failed := w.failed || res != .frOk }
  | .edit data =>
    if InFats w.fs w.fs.winsect then some w
    else some { w with fs := { w.fs with win := data, wflag := true } }
  | .write s data =>
    if InFats w.fs s then some w
    else
      let (drive, ok) := w.fs.drive.write s data
      some { w with fs := { w.fs with drive }, failed := w.failed || !ok }
  | .read s =>
    let (drive, data) := w.fs.drive.read s
    some { w with fs := { w.fs with drive }, failed := w.failed || data.isNone }

/-- A run. -/
def run (w : World) : List Call → Option World
  | [] => some w
  | op :: ops => do run (← step w op) ops

/-- The files are chains of the table without a common cluster. -/
structure Sound (w : World) : Prop where
  legal : Legal w.fs
  table : Table (entry w.fs) 2 w.fs.nFatent w.files

/-- The count of free clusters is exact, and every other cluster is in a file. -/
structure Tidy (w : World) : Prop where
  reserved : Reserved w.fs
  exact : Exact w.fs
  owned : ∀ c, 2 ≤ c → c < w.fs.nFatent → entry w.fs c ≠ 0 → ∃ i, c ∈ w.files i

/-- What a call does to the whole. -/
structure Goes (w w' : World) : Prop where
  sound : Sound w'
  volume : SameVolume w.fs w'.fs
  failed : w'.failed = false → w.failed = false
  tidy : w'.failed = false → Tidy w → Tidy w'

variable {w w' w'' : World} {fs fs' : FatFs} {c d i k n : ℕ} {l l₁ l₂ : List ℕ}

theorem Goes.refl (h : Sound w) : Goes w w := ⟨h, .refl, id, fun _ => id⟩

theorem Goes.trans (h : Goes w w') (h' : Goes w' w'') : Goes w w'' where
  sound := h'.sound
  volume := h.volume.trans h'.volume
  failed hok := h.failed (h'.failed hok)
  tidy hok ht := h'.tidy hok (h.tidy (h'.failed hok) ht)

/-! ## Calls that leave the table as it is -/

theorem Sound.entry_ne (h : Sound w) {j : ℕ} (hc : c ∈ w.files j) :
    2 ≤ c ∧ c < w.fs.nFatent ∧ entry w.fs c ≠ 0 :=
  have hchain := h.table.chain_of_mem hc
  ⟨(hchain.range hc).1, (hchain.range hc).2, hchain.ne_zero (by decide) hc⟩

theorem Reserved.of_entries (h : Reserved fs) (h0 : entry fs' 0 = entry fs 0)
    (h1 : entry fs' 1 = entry fs 1) : Reserved fs' := by
  unfold Reserved
  rw [h0, h1]
  exact h

theorem Keeps.goes (h : Sound w) (hkeeps : Keeps w.fs fs') {failed : Bool}
    (hfailed : failed = false → w.failed = false ∧ (Tidy w → Exact fs')) :
    Goes w { w with fs := fs', failed } := by
  have hclusters := h.legal.clusters
  refine ⟨⟨hkeeps.legal, ?_⟩, hkeeps.volume, fun hok => (hfailed hok).1, fun hok ht => ?_⟩
  · show Table (entry fs') 2 fs'.nFatent w.files
    rw [hkeeps.volume.nFatent]
    exact h.table.congr fun j c hc => hkeeps.entries c (h.entry_ne hc).2.1
  · refine ⟨?_, (hfailed hok).2 ht, fun c hc hn htaken => ht.owned c hc ?_ ?_⟩
    · exact ht.reserved.of_entries (hkeeps.entries 0 (by omega)) (hkeeps.entries 1 (by omega))
    · rwa [← hkeeps.volume.nFatent]
    · rw [← hkeeps.entries c (by rwa [← hkeeps.volume.nFatent])]
      exact htaken

theorem or_ok {b failed : Bool} (h : (failed || b) = false) : failed = false ∧ b = false :=
  Bool.or_eq_false_iff.1 h

theorem Shows.goes (h : Sound w) (hshow : Shows w.fs fs') (b : Bool) :
    Goes w { w with fs := fs', failed := w.failed || b } :=
  (hshow.keeps h.legal).goes h fun hok => ⟨(or_ok hok).1, fun ht => hshow.exact h.legal ht.exact⟩

theorem getfree_goes (h : Sound w) : ∃ w', step w .getfree = some w' ∧ Goes w w' := by
  obtain ⟨fs, res, k, heq, hkeeps, hcount⟩ := getFree_spec h.legal
  refine ⟨{ w with fs, failed := w.failed || res != .frOk }, ?_, hkeeps.goes h fun hok => ?_⟩
  · simp only [step, heq]
    rfl
  · obtain ⟨hfailed, hres⟩ := or_ok hok
    exact ⟨hfailed, fun ht => (hcount (by simpa using hres) ht.reserved ht.exact).2⟩

theorem sync_goes (h : Sound w) : ∃ w', step w .sync = some w' ∧ Goes w w' := by
  obtain ⟨hsame, hlegal, -, -, hview⟩ := syncFs_spec h.legal
  exact ⟨_, rfl, (Shows.of_view hsame hlegal hview).goes h _⟩

theorem look_goes (h : Sound w) (s : ℕ) : ∃ w', step w (.look s) = some w' ∧ Goes w w' := by
  obtain ⟨hsame, hlegal, -, -, hview⟩ :=
    @moveWindow_spec w.fs (s % 2 ^ 32) h.legal (Nat.mod_lt _ (by decide))
  exact ⟨_, rfl, (Shows.of_view hsame hlegal hview).goes h _⟩

theorem edit_goes (h : Sound w) (data : Sector) :
    ∃ w', step w (.edit data) = some w' ∧ Goes w w' := by
  by_cases hin : InFats w.fs w.fs.winsect
  · exact ⟨w, if_pos hin, .refl h⟩
  · have hsame : SameState w.fs { w.fs with win := data, wflag := true } :=
      ⟨⟨⟨rfl, rfl, rfl, rfl, rfl, rfl⟩, rfl, fun _ => id⟩, id, rfl⟩
    have hshow : Shows w.fs { w.fs with win := data, wflag := true } := by
      refine .of_view hsame ?_ fun s hs => ?_
      · exact h.legal.of_same hsame h.legal.winsect_lt (fun hclean => Bool.noConfusion hclean)
          fun _ hin' => absurd hin' hin
      · have hne : s ≠ w.fs.winsect := fun heq => hin (heq ▸ h.legal.inFats hs)
        exact (if_neg hne).trans (if_neg hne).symm
    have hgoes := hshow.goes h false
    rw [Bool.or_false] at hgoes
    exact ⟨_, if_neg hin, hgoes⟩

/-- The drive changed outside of the table. -/
theorem drive_goes (h : Sound w) (drive : Drive) (b : Bool) (hfails : drive.fails = w.fs.drive.fails)
    (hdrive : ∀ s, InFats w.fs s → drive.sector s = w.fs.drive.sector s) :
    Goes w { w with fs := { w.fs with drive }, failed := w.failed || b } := by
  have hplace : SamePlace w.fs { w.fs with drive } := ⟨rfl, rfl, rfl, rfl, rfl, rfl⟩
  have hsame : SameState w.fs { w.fs with drive } := by
    refine ⟨.of_drive hplace rfl hfails fun _ hcopies s hs k hk => ?_, id, rfl⟩
    have hle : (k + 1) * w.fs.fsize ≤ w.fs.nFats * w.fs.fsize := Nat.mul_le_mul_right _ hk
    rw [Nat.succ_mul] at hle
    have hlow := hs.1
    have hhigh := hs.2
    rw [hdrive _ ⟨by omega, by omega⟩, hdrive s (h.legal.inFats hs), hcopies s hs k hk]
  refine (Shows.of_view hsame ?_ fun s hs => ?_).goes h b
  · refine h.legal.of_same hsame h.legal.winsect_lt (fun hclean hin => ?_) h.legal.dirty
    exact (h.legal.clean hclean hin).trans (hdrive _ (h.legal.inFats hin)).symm
  · show (if s = w.fs.winsect then w.fs.win else drive.sector s) = _
    rw [hdrive s (h.legal.inFats hs)]
    rfl

theorem write_goes (h : Sound w) (s : ℕ) (data : Sector) :
    ∃ w', step w (.write s data) = some w' ∧ Goes w w' := by
  by_cases hin : InFats w.fs s
  · exact ⟨w, if_pos hin, .refl h⟩
  · refine ⟨_, if_neg hin, drive_goes h _ _ rfl fun s' hs' => ?_⟩
    exact Drive.write_other _ _ fun heq => hin (heq ▸ hs')

theorem read_goes (h : Sound w) (s : ℕ) : ∃ w', step w (.read s) = some w' ∧ Goes w w' :=
  ⟨_, rfl, drive_goes h _ _ rfl fun _ _ => rfl⟩

/-! ## Calls for a file -/

/-- The clusters of one file are replaced. -/
theorem replace_goes (h : Sound w) {failed : Bool} (hvol : SameVolume w.fs fs) (hlegal : Legal fs)
    (hothers : ∀ e < w.fs.nFatent, 2 ≤ e → entry w.fs e ≠ 0 → e ∉ w.files i → e ∉ l →
      entry fs e = entry w.fs e)
    (hchain : l ≠ [] → Chain (entry fs) 2 w.fs.nFatent l) (hnodup : l.Nodup)
    (hapart : ∀ j, j ≠ i → l.Disjoint (w.files j))
    (hok : failed = false → w.failed = false ∧ (Exact w.fs → Exact fs) ∧
      (∀ e < w.fs.nFatent, e ∉ w.files i → e ∉ l → entry fs e = entry w.fs e) ∧
      ∀ e ∈ w.files i, e ∉ l → entry fs e = 0) :
    Goes w { fs, files := Function.update w.files i l, failed } := by
  have hclusters := h.legal.clusters
  refine ⟨⟨hlegal, ?_⟩, hvol, fun hf => (hok hf).1, fun hf ht => ?_⟩
  · show Table (entry fs) 2 fs.nFatent (Function.update w.files i l)
    rw [hvol.nFatent]
    refine h.table.replace i (fun j hj c hc => ?_) hchain hnodup hapart
    obtain ⟨hc2, hcn, htaken⟩ := h.entry_ne hc
    exact hothers c hcn hc2 htaken (fun hi => h.table.apart j i hj hc hi) fun hl => hapart j hj hl hc
  · obtain ⟨-, hexact, hkeep, hfreed⟩ := hok hf
    have hlow : ∀ e < 2, entry fs e = entry w.fs e := fun e he => by
      refine hkeep e (by omega) (fun hi => ?_) fun hl => ?_
      · have := (h.entry_ne hi).1
        omega
      · have := ((hchain (List.ne_nil_of_mem hl)).range hl).1
        omega
    refine ⟨ht.reserved.of_entries (hlow 0 (by decide)) (hlow 1 (by decide)), hexact ht.exact,
      fun c hc hn htaken => ?_⟩
    have hn : c < w.fs.nFatent := hvol.nFatent ▸ hn
    by_cases hl : c ∈ l
    · refine ⟨i, ?_⟩
      show c ∈ Function.update w.files i l i
      rw [Function.update_self]
      exact hl
    by_cases hi : c ∈ w.files i
    · exact absurd (hfreed c hi hl) htaken
    obtain ⟨j, hj⟩ := ht.owned c hc hn (by rw [← hkeep c hn hi hl]; exact htaken)
    have hji : j ≠ i := fun hji => hi (hji ▸ hj)
    refine ⟨j, ?_⟩
    show c ∈ Function.update w.files i l j
    rw [Function.update_of_ne hji]
    exact hj

/-- A file is given up. -/
theorem fault_goes (h : Sound w) (hvol : SameVolume w.fs fs) (hlegal : Legal fs)
    (hothers : ∀ e < w.fs.nFatent, 2 ≤ e → entry w.fs e ≠ 0 → e ∉ w.files i →
      entry fs e = entry w.fs e) {failed : Bool} (hfailed : failed = true) :
    Goes w { fs, files := Function.update w.files i [], failed } :=
  replace_goes h hvol hlegal (fun e he he2 htaken hi _ => hothers e he he2 htaken hi)
    (fun hne => absurd rfl hne) List.nodup_nil (fun _ _ => List.disjoint_nil_left _) fun hf =>
    Bool.noConfusion (hf.symm.trans hfailed)

theorem create_goes (h : Sound w) (i : ℕ) : ∃ w', w.create i = some w' ∧ Goes w w' := by
  unfold World.create
  by_cases hempty : w.files i ≠ []
  · exact ⟨w, if_pos hempty, .refl h⟩
  have hempty := not_not.1 hempty
  have hclusters := h.legal.clusters
  have hmax := h.legal.nFatent_lt
  obtain ⟨fs, r, heq, hvol, hlegal, hcreated⟩ :=
    @createChain_spec w.fs 0 h.legal fun hne => absurd rfl hne
  rw [if_neg (not_not.2 hempty), heq]
  refine ⟨_, rfl, ?_⟩
  cases hcreated with
  | followed hshow hclst hn => exact absurd rfl hclst
  | full hshow hfull =>
    rw [if_neg (by omega)]
    exact hshow.goes h _
  | bad hshow d hd hn hbad =>
    rw [if_neg (by omega)]
    exact hshow.goes h _
  | fault hothers =>
    have hsame : w.files = Function.update w.files i [] := by
      rw [← hempty]
      exact (Function.update_eq_self i w.files).symm
    rw [if_neg (by omega), hsame]
    exact fault_goes h hvol hlegal (fun e he he2 htaken _ => hothers e he htaken (by omega))
      (Bool.or_true _)
  | linked _ hfound hlinked hends =>
    obtain ⟨hd, hdn, hfree⟩ := hfound.range h.legal (hint_range h.legal fun hne => absurd rfl hne).1
      (hint_range h.legal fun hne => absurd rfl hne).2
    rw [if_pos ⟨hd, hdn⟩]
    refine replace_goes h hvol hlegal (fun e he _ _ _ hl => ?_) (fun _ => ?_) (List.nodup_singleton r)
      (fun j _ => ?_) fun hf => ⟨(or_ok hf).1, hlinked.count, fun e he _ hl => ?_, fun e hi => ?_⟩
    · exact hlinked.others e he (fun hed => hl (List.mem_singleton.2 hed)) fun hne => absurd rfl hne
    · exact ⟨⟨hd, hdn⟩, hlinked.ends⟩
    · rw [List.singleton_disjoint]
      exact h.table.not_mem_of_free (by decide) hfree j
    · exact hlinked.others e he (fun hed => hl (List.mem_singleton.2 hed)) fun hne => absurd rfl hne
    · rw [hempty] at hi
      exact absurd hi List.not_mem_nil

/-- The clusters of a file before the `k`-th one, and behind it. -/
theorem split_at (hk : l[k]? = some c) : l = l.take k ++ c :: l.drop (k + 1) := by
  obtain ⟨hlt, rfl⟩ := List.getElem?_eq_some_iff.1 hk
  rw [← List.drop_eq_getElem_cons hlt, List.take_append_drop]

theorem follow_goes (h : Sound w) (i k : ℕ) : ∃ w', w.follow i k = some w' ∧ Goes w w' := by
  unfold World.follow
  cases hk : (w.files i)[k]? with
  | none => exact ⟨w, rfl, .refl h⟩
  | some c =>
    have hmem : c ∈ w.files i := List.mem_of_getElem? hk
    obtain ⟨hc, hcn, -⟩ := h.entry_ne hmem
    have hsplit := split_at hk
    have hchain := h.table.chain_of_mem hmem
    have hmax := h.legal.nFatent_lt
    have hclusters := h.legal.clusters
    have hlen : (w.files i).length = k + 1 + ((w.files i).drop (k + 1)).length := by
      have hlt := (List.getElem?_eq_some_iff.1 hk).1
      rw [List.length_drop]
      omega
    generalize htail : (w.files i).drop (k + 1) = tail at hsplit hlen
    rw [hsplit] at hchain
    have hnext := hchain.next
    have hentry : 2 ≤ entry w.fs c := by
      rcases hnext with ⟨l, rfl⟩ | ⟨-, hends⟩
      · exact (hchain.range (List.mem_append_right _ (List.mem_cons_of_mem c List.mem_cons_self))).1
      · omega
    obtain ⟨fs, r, heq, hvol, hlegal, hcreated⟩ :=
      @createChain_spec w.fs c h.legal fun _ => ⟨hc, hcn, hentry⟩
    dsimp only
    rw [heq]
    refine ⟨_, rfl, ?_⟩
    cases hcreated with
    | followed hshow hclst hn =>
      rcases hnext with ⟨l, rfl⟩ | ⟨-, hends⟩
      · rw [List.length_cons] at hlen
        rw [if_neg (by omega), if_neg (by omega)]
        exact hshow.goes h _
      · omega
    | full hshow hfull =>
      rw [if_neg (by omega), if_neg (by omega)]
      exact hshow.goes h _
    | bad hshow d hd hn hbad =>
      rw [if_neg (by omega), if_neg (by omega)]
      exact hshow.goes h _
    | fault hothers =>
      rw [if_pos rfl]
      exact fault_goes h hvol hlegal
        (fun e he _ htaken hi => hothers e he htaken fun hec => hi (hec ▸ hmem)) (Bool.or_true _)
    | linked _ hfound hlinked hends =>
      have hne : c ≠ 0 := by omega
      have hhint : hint w.fs c = c := if_neg hne
      rw [hhint] at hfound
      obtain ⟨hd, hdn, hfree⟩ := hfound.range h.legal (by omega) hcn
      -- the cluster is the last one
      have hlast : tail = [] := by
        rcases hnext with ⟨l, rfl⟩ | ⟨htail, -⟩
        · have hrange := hchain.range (List.mem_append_right _
            (List.mem_cons_of_mem c List.mem_cons_self))
          have := hends hne
          omega
        · exact htail
      subst hlast
      rw [List.length_nil] at hlen
      have hdnot : ∀ j, r ∉ w.files j := fun j => h.table.not_mem_of_free (by decide) hfree j
      rw [if_neg (by omega), if_pos ⟨hlen.symm, hd⟩]
      have hothers : ∀ e < w.fs.nFatent, e ∉ w.files i ++ [r] → entry fs e = entry w.fs e :=
        fun e he hl => hlinked.others e he
          (fun hed => hl (List.mem_append_right _ (List.mem_singleton.2 hed)))
          fun _ hec => hl (List.mem_append_left _ (hec ▸ hmem))
      refine replace_goes h hvol hlegal (fun e he _ _ _ hl => hothers e he hl) (fun _ => ?_) ?_
        (fun j hj => ?_) fun hf => ⟨(or_ok hf).1, hlinked.count, fun e he _ hl => hothers e he hl,
          fun e hi hl => absurd (List.mem_append_left _ hi) hl⟩
      · rw [hsplit]
        refine hchain.stretch (fun b hb => ?_) (hlinked.link hne) ⟨hd, hdn⟩ hlinked.ends
        have hb' : b ∈ w.files i := List.mem_of_mem_take hb
        refine hlinked.others b (h.entry_ne hb').2.1 (fun hbd => hdnot i (hbd ▸ hb')) fun _ hbc => ?_
        have hnodup := h.table.nodup i
        rw [hsplit] at hnodup
        exact List.disjoint_of_nodup_append hnodup hb (hbc ▸ List.mem_cons_self)
      · rw [List.nodup_append]
        refine ⟨h.table.nodup i, List.nodup_singleton r, fun a ha b hb hab => ?_⟩
        have hab : a = r := hab.trans (List.mem_singleton.1 hb)
        exact hdnot i (hab ▸ ha)
      · rw [List.disjoint_append_left, List.singleton_disjoint]
        exact ⟨h.table.apart i j hj.symm, hdnot j⟩

theorem remove_goes (h : Sound w) (i : ℕ) : ∃ w', w.remove i = some w' ∧ Goes w w' := by
  unfold World.remove
  cases hfile : w.files i with
  | nil => exact ⟨w, rfl, .refl h⟩
  | cons c l =>
    have hmem : c ∈ w.files i := hfile ▸ List.mem_cons_self
    have hlen := h.table.length_le i
    have hnodup := h.table.nodup i
    have hchain := h.table.chain_of_mem hmem
    rw [hfile] at hlen hnodup hchain
    obtain ⟨fs, res, heq, hrel⟩ := removeChain_spec h.legal (List.cons_ne_nil c l) hchain hnodup hlen
    rw [List.head_cons] at heq
    dsimp only
    rw [heq]
    refine ⟨_, rfl, ?_⟩
    rw [← hfile] at hrel
    refine replace_goes h hrel.volume hrel.legal (fun e he _ _ hi _ => hrel.others e he hi)
      (fun hne => absurd rfl hne) List.nodup_nil (fun _ _ => List.disjoint_nil_left _) fun hf => ?_
    have hok : res = .frOk := by simpa using (or_ok hf).2
    exact ⟨(or_ok hf).1, hrel.count hok, fun e he hi _ => hrel.others e he hi, fun e hi _ =>
      hrel.freed hok e hi⟩

theorem truncate_goes (h : Sound w) (i k : ℕ) : ∃ w', w.truncate i k = some w' ∧ Goes w w' := by
  unfold World.truncate
  cases hk : (w.files i)[k]? with
  | none => exact ⟨w, rfl, .refl h⟩
  | some c =>
    have hmem : c ∈ w.files i := List.mem_of_getElem? hk
    have hsplit := split_at hk
    have hlen := h.table.length_le i
    have hnodup := h.table.nodup i
    have hchain := h.table.chain_of_mem hmem
    have htake : (w.files i).take (k + 1) = (w.files i).take k ++ [c] := by
      rw [List.take_add_one, hk]
      rfl
    rw [hsplit] at hlen hnodup hchain
    obtain ⟨fs, res, heq, hcut⟩ := truncateAt_spec h.legal hchain hnodup hlen
    dsimp only
    rw [heq]
    refine ⟨_, rfl, ?_⟩
    have hothers : ∀ e < w.fs.nFatent, e ∉ w.files i → entry fs e = entry w.fs e := fun e he hi =>
      hcut.others e he (by rw [← hsplit]; exact hi)
    by_cases hok : res = .frOk
    · rw [if_pos hok, htake]
      have hsub : ∀ e ∈ (w.files i).take k ++ [c], e ∈ w.files i := fun e he =>
        List.mem_of_mem_take (htake ▸ he)
      refine replace_goes h hcut.volume hcut.legal (fun e he _ _ hi _ => hothers e he hi) (fun _ => ?_)
        ?_ (fun j hj e he => h.table.apart i j hj.symm (hsub e he)) fun hf =>
        ⟨(or_ok hf).1, hcut.count hok, fun e he hi _ => hothers e he hi, fun e hi hl => ?_⟩
      · rw [← hcut.volume.nFatent]
        exact hcut.chain hok
      · rw [← htake]
        exact (h.table.nodup i).sublist (List.take_sublist _ _)
      · refine hcut.freed hok e ?_
        rw [hsplit, List.append_cons] at hi
        exact (List.mem_append.1 hi).resolve_left hl
    · rw [if_neg hok]
      refine fault_goes h hcut.volume hcut.legal (fun e he _ _ hi => hothers e he hi) ?_
      simpa using Or.inr hok

/-! ## Runs -/

theorem step_goes (h : Sound w) (op : Call) : ∃ w', step w op = some w' ∧ Goes w w' := by
  cases op with
  | create i => exact create_goes h i
  | follow i k => exact follow_goes h i k
  | remove i => exact remove_goes h i
  | truncate i k => exact truncate_goes h i k
  | getfree => exact getfree_goes h
  | sync => exact sync_goes h
  | look s => exact look_goes h s
  | edit data => exact edit_goes h data
  | write s data => exact write_goes h s data
  | read s => exact read_goes h s

theorem run_goes (h : Sound w) (ops : List Call) : ∃ w', run w ops = some w' ∧ Goes w w' := by
  induction ops generalizing w with
  | nil => exact ⟨w, rfl, .refl h⟩
  | cons op ops ih =>
    obtain ⟨w₁, hstep, hgoes⟩ := step_goes h op
    obtain ⟨w', hrun, hgoes'⟩ := ih hgoes.sound
    refine ⟨w', ?_, hgoes.trans hgoes'⟩
    rw [run, hstep]
    exact hrun

theorem goes_of_run (h : Sound w) {ops : List Call} (hrun : run w ops = some w') : Goes w w' := by
  obtain ⟨w₁, hrun₁, hgoes⟩ := run_goes h ops
  rw [Option.some.inj (hrun.symm.trans hrun₁)]
  exact hgoes

end NuAgent.Fat
