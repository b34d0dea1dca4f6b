import Mathlib.Order.Interval.Finset.Nat
import NuAgent.Fatfs.FatEntry
import NuAgent.Lib.Chains

/-!
# Chains of clusters

What `create_chain`, `remove_chain` and the end of `f_truncate` do to the table. The search for a free
cluster goes once around the volume (`findFree_spec`); a new cluster was free (`createChain_spec`); only
the clusters of the chain are released (`removeLoop_spec`). All of this with a drive that may fail at any
access.
-/

namespace NuAgent.Fat

open CInt Chains

variable {fs fs' fs'' : FatFs} {c d n scl : ℕ} {l : List ℕ}

/-! ## The search for a free cluster -/

/-- The cluster that is looked at in the `j`-th place behind `scl`. -/
def behind (n scl j : ℕ) : ℕ := if scl + j < n then scl + j else scl + j - n + 2

theorem behind_range {j : ℕ} (hscl : 1 ≤ scl) (hlt : scl < n) (hn : 2 < n) (hj : 1 ≤ j)
    (hj' : j ≤ n - 2) : 2 ≤ behind n scl j ∧ behind n scl j < n := by
  unfold behind
  split <;> omega

/-- Every cluster is looked at. -/
theorem exists_behind (hscl : 1 ≤ scl) (hlt : scl < n) (hd : 2 ≤ d) (hdn : d < n) :
    ∃ j, 1 ≤ j ∧ j ≤ n - 2 ∧ behind n scl j = d := by
  unfold behind
  by_cases hle : d ≤ scl
  · exact ⟨d + n - 2 - scl, by omega, by omega, by rw [if_neg (by omega)]; omega⟩
  · exact ⟨d - scl, by omega, by omega, by rw [if_pos (by omega)]; omega⟩

/-- What the search finds: the first free cluster behind `scl`, or that there is none, unless the drive
fails or an entry has no meaning. -/
inductive Found (fs : FatFs) (scl : ℕ) : ℕ ⊕ ℕ → Prop
  | free (j : ℕ) (hj : 1 ≤ j) (hle : j ≤ fs.nFatent - 2)
      (hfree : entry fs (behind fs.nFatent scl j) = 0)
      (hfirst : ∀ i, 1 ≤ i → i < j → entry fs (behind fs.nFatent scl i) ≠ 0) :
      Found fs scl (.inl (behind fs.nFatent scl j))
  | full (h : ∀ d, 2 ≤ d → d < fs.nFatent → entry fs d ≠ 0) : Found fs scl (.inr 0)
  | fault : Found fs scl (.inr 0xFFFFFFFF)
  | bad (d : ℕ) (hd : 2 ≤ d) (hn : d < fs.nFatent) (h : entry fs d = 1) : Found fs scl (.inr 1)

/-- One turn goes to the next place. -/
theorem behind_succ {j : ℕ} (hscl : 1 ≤ scl) (hlt : scl < n) (hj : j ≤ n - 2)
    (hturn : 2 ≤ scl → j < n - 2) :
    (if behind n scl j + 1 ≥ n then 2 else behind n scl j + 1) = behind n scl (j + 1) := by
  unfold behind
  split <;> split <;> split <;> omega

theorem Legal.nFatent_lt (h : Legal fs) : fs.nFatent < 2 ^ 28 := by
  have hmark : endMark fs.fsType ≤ 0x0FFFFFFF := by cases fs.fsType <;> decide
  have hends := h.ends
  omega

/-- The search from the `j`-th place on, when the places before it are not free. -/
theorem findFree_spec (hscl : 1 ≤ scl) (hlt : scl < fs.nFatent) (h : Legal fs) (n : ℕ) :
    ∀ fs' j, Shows fs fs' → fs.nFatent - 1 ≤ n + j → j ≤ fs.nFatent - 2 →
      (2 ≤ scl → j < fs.nFatent - 2) →
      (∀ i, 1 ≤ i → i ≤ j → entry fs (behind fs.nFatent scl i) ≠ 0) →
      ∃ fs'' r, findFree scl n fs' (behind fs.nFatent scl j) = some (fs'', r) ∧ Shows fs fs'' ∧
        Found fs scl r := by
  have hmax := h.nFatent_lt
  have hclusters := h.clusters
  induction n with
  | zero =>
    intro fs' j _ hfuel hj hturn _
    omega
  | succ n ih =>
    intro fs' j hshow hfuel hj hturn hnone
    have hlast : behind fs.nFatent scl j < fs.nFatent := by
      unfold behind
      split <;> omega
    have hinc : u32 ((behind fs.nFatent scl j : ℤ) + 1) = behind fs.nFatent scl j + 1 := by
      rw [u32_of_lt (by omega) (by omega)]
      omega
    rw [findFree, hinc, hshow.same.nFatent, behind_succ hscl hlt hj hturn]
    dsimp only
    by_cases hwrap : behind fs.nFatent scl j + 1 ≥ fs.nFatent ∧ behind fs.nFatent scl (j + 1) > scl
    · -- the search from the first cluster on is at its end
      rw [if_pos hwrap]
      refine ⟨fs', .inr 0, rfl, hshow, .full fun d hd hdn => ?_⟩
      obtain ⟨i, hi, hi', rfl⟩ := exists_behind hscl hlt hd hdn
      refine hnone i hi ?_
      have hwrap := hwrap
      unfold behind at hwrap
      split at hwrap <;> split at hwrap <;> omega
    · rw [if_neg hwrap]
      have hj' : j + 1 ≤ fs.nFatent - 2 := by
        unfold behind at hwrap
        split at hwrap <;> split at hwrap <;> omega
      have hrange := behind_range hscl hlt hclusters (Nat.le_add_left 1 j) hj'
      obtain ⟨hshow', hget⟩ := getFat_spec hshow.legal hrange.1
        (by rw [hshow.same.nFatent]; exact hrange.2)
      rw [hshow.entry_eq h hrange.2] at hget
      generalize getFat fs' (behind fs.nFatent scl (j + 1)) = r at hshow' hget ⊢
      obtain ⟨fs'', cs⟩ := r
      dsimp only at hshow' hget ⊢
      have hshow'' := hshow.trans hshow'
      by_cases hzero : cs = 0
      · rw [if_pos hzero]
        refine ⟨fs'', _, rfl, hshow'', .free (j + 1) (Nat.le_add_left 1 j) hj' ?_ fun i hi hij =>
          hnone i hi (Nat.le_of_lt_succ hij)⟩
        rcases hget with hget | hget <;> omega
      rw [if_neg hzero]
      by_cases hfail : cs = 0xFFFFFFFF ∨ cs = 1
      · rw [if_pos hfail]
        refine ⟨fs'', _, rfl, hshow'', ?_⟩
        rcases hfail with rfl | rfl
        · exact .fault
        · refine .bad _ hrange.1 hrange.2 ?_
          rcases hget with hget | hget <;> omega
      rw [if_neg hfail]
      have hnone' : ∀ i, 1 ≤ i → i ≤ j + 1 → entry fs (behind fs.nFatent scl i) ≠ 0 := fun i hi hij => by
        rcases Nat.lt_or_ge j i with hlt' | hge
        · have hi' : i = j + 1 := Nat.le_antisymm hij hlt'
          rw [hi']
          rcases hget with hget | hget <;> omega
        · exact hnone i hi hge
      by_cases hround : behind fs.nFatent scl (j + 1) = scl
      · rw [if_pos hround]
        refine ⟨fs'', _, rfl, hshow'', .full fun d hd hdn => ?_⟩
        obtain ⟨i, hi, hi', rfl⟩ := exists_behind hscl hlt hd hdn
        refine hnone' i hi ?_
        unfold behind at hround
        split at hround <;> omega
      · rw [if_neg hround]
        refine ih fs'' (j + 1) hshow'' (by omega) hj' (fun h2 => ?_) hnone'
        unfold behind at hround
        split at hround <;> omega

/-! ## The count of free clusters -/

/-- The number of free clusters. -/
def freeCount (fs : FatFs) : ℕ :=
  ((Finset.Ico 2 fs.nFatent).filter fun c => entry fs c = 0).card

/-- `free_clust` is unknown, or the number of free clusters. -/
def Exact (fs : FatFs) : Prop := fs.freeClust = 0xFFFFFFFF ∨ fs.freeClust = freeCount fs

theorem freeCount_le (fs : FatFs) : freeCount fs ≤ fs.nFatent - 2 := by
  have hle := Finset.card_filter_le (Finset.Ico 2 fs.nFatent) fun c => entry fs c = 0
  rwa [Nat.card_Ico] at hle

theorem freeCount_congr (hn : fs'.nFatent = fs.nFatent)
    (hsame : ∀ e, 2 ≤ e → e < fs.nFatent → (entry fs' e = 0 ↔ entry fs e = 0)) :
    freeCount fs' = freeCount fs := by
  unfold freeCount
  rw [hn]
  congr 1
  refine Finset.filter_congr fun e he => ?_
  exact hsame e (Finset.mem_Ico.1 he).1 (Finset.mem_Ico.1 he).2

/-- A free cluster is taken. -/
theorem freeCount_take (hn : fs'.nFatent = fs.nFatent) (hd : 2 ≤ d) (hdn : d < fs.nFatent)
    (hfree : entry fs d = 0) (htaken : entry fs' d ≠ 0)
    (hsame : ∀ e, 2 ≤ e → e < fs.nFatent → e ≠ d → (entry fs' e = 0 ↔ entry fs e = 0)) :
    freeCount fs' + 1 = freeCount fs := by
  have herase : (Finset.Ico 2 fs.nFatent).filter (fun c => entry fs' c = 0) =
      ((Finset.Ico 2 fs.nFatent).filter fun c => entry fs c = 0).erase d := by
    ext e
    rw [Finset.mem_erase, Finset.mem_filter, Finset.mem_filter, Finset.mem_Ico]
    by_cases he : e = d
    · subst he
      exact ⟨fun h => absurd h.2 htaken, fun h => absurd rfl h.1⟩
    · constructor
      · rintro ⟨hrange, hzero⟩
        exact ⟨he, hrange, (hsame e hrange.1 hrange.2 he).1 hzero⟩
      · rintro ⟨-, hrange, hzero⟩
        exact ⟨hrange, (hsame e hrange.1 hrange.2 he).2 hzero⟩
  unfold freeCount
  rw [hn, herase]
  exact Finset.card_erase_add_one
    (Finset.mem_filter.2 ⟨Finset.mem_Ico.2 ⟨hd, hdn⟩, hfree⟩)

theorem Shows.exact (h : Legal fs) (hshow : Shows fs fs') (hexact : Exact fs) : Exact fs' := by
  have hcount : freeCount fs' = freeCount fs :=
    freeCount_congr hshow.same.nFatent fun e _ he => by rw [hshow.entry_eq h he]
  unfold Exact
  rw [hcount, hshow.same.freeClust]
  exact hexact

/-- The counter of free clusters is set, when it is known. -/
def counted (fs : FatFs) (free : ℕ) : FatFs :=
  if fs.freeClust ≠ 0xFFFFFFFF then { fs with freeClust := free, fsiFlag := fs.fsiFlag ||| 1 } else fs

theorem bit_or {f : UInt8} (h : (f ||| 1) &&& 0x80 = 0) : f &&& 0x80 = 0 := by
  revert f
  apply Serial.forall_byte
  decide +kernel

/-- The counters are not part of the table. -/
theorem counters_legal (h : Legal fs) (free last : ℕ) :
    SameVolume fs { fs with lastClust := last, freeClust := free, fsiFlag := fs.fsiFlag ||| 1 } ∧
      Legal { fs with lastClust := last, freeClust := free, fsiFlag := fs.fsiFlag ||| 1 } :=
  ⟨⟨⟨rfl, rfl, rfl, rfl, rfl, rfl⟩, rfl, fun _ => id⟩,
    h.of_place ⟨rfl, rfl, rfl, rfl, rfl, rfl⟩ bit_or h.winsect_lt h.clean h.dirty⟩

theorem counted_legal (h : Legal fs) (free : ℕ) :
    SameVolume fs (counted fs free) ∧ Legal (counted fs free) := by
  unfold counted
  split
  · exact counters_legal h free fs.lastClust
  · exact ⟨.refl, h⟩

theorem counted_entry (fs : FatFs) (free : ℕ) : entry (counted fs free) = entry fs := by
  unfold counted
  split <;> rfl

theorem counted_exact {free : ℕ} (h : fs.freeClust ≠ 0xFFFFFFFF → free = freeCount fs) :
    Exact (counted fs free) := by
  unfold counted
  by_cases hknown : fs.freeClust ≠ 0xFFFFFFFF
  · rw [if_pos hknown]
    exact .inr (h hknown)
  · rw [if_neg hknown]
    exact .inl (not_not.1 hknown)

/-! ## A new cluster -/

/-- The cluster `d` was free, and is now the end of a chain, behind `clst` unless that is zero. -/
structure Linked (fs fs' : FatFs) (clst d : ℕ) : Prop where
  others : ∀ e < fs.nFatent, e ≠ d → (clst ≠ 0 → e ≠ clst) → entry fs' e = entry fs e
  ends : fs.nFatent ≤ entry fs' d
  link : clst ≠ 0 → entry fs' clst = d
  count : Exact fs → Exact fs'

theorem end_mark (h : Legal fs) :
    fs.nFatent ≤ 0x0FFFFFFF % (endMark fs.fsType + 1) := by
  have hends := h.ends
  have hmark : 0x0FFFFFFF % (endMark fs.fsType + 1) = endMark fs.fsType := by
    have hmounted := h.mounted
    cases ht : fs.fsType with
    | unmounted => exact absurd ht hmounted
    | fat12 => rfl
    | fat16 => rfl
    | fat32 => rfl
  omega

theorem Puts.entry_mod (h : Legal fs) (hd : d < fs.nFatent) : d % (endMark fs.fsType + 1) = d :=
  Nat.mod_eq_of_lt (Nat.lt_succ_of_le (hd.le.trans h.ends))

theorem linkNew_spec {clst : ℕ} (h : Legal fs) (hd : 2 ≤ d) (hdn : d < fs.nFatent)
    (hfree : entry fs d = 0)
    (hclst : clst ≠ 0 → 2 ≤ clst ∧ clst < fs.nFatent ∧ entry fs clst ≠ 0) :
    SameVolume fs (linkNew fs clst d).1 ∧ Legal (linkNew fs clst d).1 ∧
      ((linkNew fs clst d).2 = d ∧ Linked fs (linkNew fs clst d).1 clst d ∨
        (linkNew fs clst d).2 = 0xFFFFFFFF ∧
          ∀ e < fs.nFatent, e ≠ d → (clst ≠ 0 → e ≠ clst) →
            entry (linkNew fs clst d).1 e = entry fs e) := by
  have hmark := end_mark h
  have hput := putFat_spec h hd hdn 0x0FFFFFFF
  unfold linkNew
  generalize putFat fs d 0x0FFFFFFF = r at hput ⊢
  obtain ⟨fs₁, res₁⟩ := r
  dsimp only at hput ⊢
  have hn₁ := hput.same.nFatent
  -- what both writes do
  have hboth : ∀ fs₂ res₂, (if res₁ = .frOk ∧ clst ≠ 0 then putFat fs₁ clst d else (fs₁, res₁)) =
      (fs₂, res₂) → SameState fs fs₂ ∧ Legal fs₂ ∧ (res₂ = .frOk ∨ res₂ = .frDiskErr) ∧
        (∀ e < fs.nFatent, e ≠ d → (clst ≠ 0 → e ≠ clst) → entry fs₂ e = entry fs e) ∧
        (res₂ = .frOk → fs.nFatent ≤ entry fs₂ d ∧ (clst ≠ 0 → entry fs₂ clst = d)) := by
    intro fs₂ res₂ heq
    by_cases hboth : res₁ = .frOk ∧ clst ≠ 0
    · obtain ⟨hc, hcn, htaken⟩ := hclst hboth.2
      have hne : d ≠ clst := fun hne => htaken (by rw [← hne]; exact hfree)
      have hput₂ := putFat_spec hput.legal hc (by rw [hn₁]; exact hcn) d
      rw [if_pos hboth] at heq
      rw [heq] at hput₂
      refine ⟨hput.same.trans hput₂.same, hput₂.legal, hput₂.result, fun e he hed hec => ?_,
        fun hok => ⟨?_, fun _ => ?_⟩⟩
      · rw [hput₂.others e (by rw [hn₁]; exact he) (hec hboth.2), hput.others e he hed]
      · rw [hput₂.others d (by rw [hn₁]; exact hdn) hne, hput.stored hboth.1]
        exact hmark
      · rw [hput₂.stored hok, hput.same.fsType, Puts.entry_mod h hdn]
    · rw [if_neg hboth] at heq
      obtain ⟨rfl, rfl⟩ := Prod.mk.inj heq
      refine ⟨hput.same, hput.legal, hput.result, fun e he hed _ => hput.others e he hed,
        fun hok => ⟨by rw [hput.stored hok]; exact hmark, fun hc => absurd ⟨hok, hc⟩ hboth⟩⟩
  generalize (if res₁ = .frOk ∧ clst ≠ 0 then putFat fs₁ clst d else (fs₁, res₁)) = r at hboth ⊢
  obtain ⟨fs₂, res₂⟩ := r
  obtain ⟨hsame, hlegal, hres, hothers, hok⟩ := hboth fs₂ res₂ rfl
  dsimp only
  by_cases hres₂ : res₂ = .frOk
  · rw [if_pos hres₂]
    obtain ⟨hends, hlink⟩ := hok hres₂
    have hlast : SameState fs₂ { fs₂ with lastClust := d } :=
      ⟨⟨⟨rfl, rfl, rfl, rfl, rfl, rfl⟩, rfl, fun _ => id⟩, id, rfl⟩
    obtain ⟨hvol, hcounted⟩ := counted_legal
      (hlegal.of_same hlast hlegal.winsect_lt hlegal.clean hlegal.dirty) (u32 ((fs₂.freeClust : ℤ) - 1))
    have hentry : entry (counted { fs₂ with lastClust := d } (u32 ((fs₂.freeClust : ℤ) - 1))) =
        entry fs₂ := counted_entry _ _
    have htake : freeCount fs₂ + 1 = freeCount fs := by
      refine freeCount_take hsame.nFatent hd hdn hfree (by have := h.clusters; omega)
        fun e he2 he hed => ?_
      by_cases hec : e = clst
      · have hc : clst ≠ 0 := by omega
        rw [hec, hlink hc]
        exact ⟨fun hzero => by omega, fun hzero => absurd hzero (hclst hc).2.2⟩
      · rw [hothers e he hed fun _ => hec]
    have hcount (hexact : Exact fs) :
        Exact (counted { fs₂ with lastClust := d } (u32 ((fs₂.freeClust : ℤ) - 1))) := by
      refine counted_exact fun hknown => ?_
      have hknown : fs₂.freeClust ≠ 0xFFFFFFFF := hknown
      rw [hsame.freeClust] at hknown ⊢
      have hcount := hexact.resolve_left hknown
      have hle := freeCount_le fs
      have hmax := h.nFatent_lt
      show _ = freeCount fs₂
      rw [hcount, u32_of_lt (by omega) (by omega)]
      omega
    refine ⟨hsame.toSameVolume.trans (hlast.toSameVolume.trans hvol), hcounted, .inl ⟨rfl, ?_⟩⟩
    refine ⟨fun e he hed hec => ?_, ?_, fun hc => ?_, hcount⟩
    · exact (congrFun hentry e).trans (hothers e he hed hec)
    · exact hends.trans_eq (congrFun hentry d).symm
    · exact (congrFun hentry clst).trans (hlink hc)
  · rw [if_neg hres₂]
    have herr := hres.resolve_left hres₂
    refine ⟨hsame.toSameVolume, hlegal, .inr ⟨if_pos herr, hothers⟩⟩

/-- Where `create_chain` starts to look. -/
def hint (fs : FatFs) (clst : ℕ) : ℕ :=
  if clst = 0 then if fs.lastClust = 0 ∨ fs.lastClust ≥ fs.nFatent then 1 else fs.lastClust else clst

theorem hint_range {clst : ℕ} (h : Legal fs) (hclst : clst ≠ 0 → 2 ≤ clst ∧ clst < fs.nFatent) :
    1 ≤ hint fs clst ∧ hint fs clst < fs.nFatent := by
  have hclusters := h.clusters
  unfold hint
  by_cases hc : clst = 0
  · rw [if_pos hc]
    split <;> omega
  · rw [if_neg hc]
    have := hclst hc
    omega

/-- What `create_chain` does: it gives the cluster behind `clst`, or a new one there, or says that the
volume is full; or the drive fails, or an entry has no meaning. -/
inductive Created (fs fs' : FatFs) (clst : ℕ) : ℕ → Prop
  | followed (hshow : Shows fs fs') (hclst : clst ≠ 0) (hn : entry fs clst < fs.nFatent) :
      Created fs fs' clst (entry fs clst)
  | linked (d : ℕ) (hfound : Found fs (hint fs clst) (.inl d)) (hlinked : Linked fs fs' clst d)
      (hends : clst ≠ 0 → fs.nFatent ≤ entry fs clst) : Created fs fs' clst d
  | full (hshow : Shows fs fs') (h : ∀ d, 2 ≤ d → d < fs.nFatent → entry fs d ≠ 0) :
      Created fs fs' clst 0
  | bad (hshow : Shows fs fs') (d : ℕ) (hd : 2 ≤ d) (hn : d < fs.nFatent) (h : entry fs d = 1) :
      Created fs fs' clst 1
  | fault (h : ∀ e < fs.nFatent, entry fs e ≠ 0 → e ≠ clst → entry fs' e = entry fs e) :
      Created fs fs' clst 0xFFFFFFFF

theorem Found.range (h : Legal fs) (hscl : 1 ≤ scl) (hlt : scl < fs.nFatent)
    (hfound : Found fs scl (.inl d)) : 2 ≤ d ∧ d < fs.nFatent ∧ entry fs d = 0 := by
  cases hfound with
  | free j hj hle hfree hfirst =>
    have hrange := behind_range hscl hlt h.clusters hj hle
    exact ⟨hrange.1, hrange.2, hfree⟩

/-- A view of the table that stayed the same. -/
theorem Shows.linked (h : Legal fs) (hshow : Shows fs fs') {clst : ℕ}
    (hlinked : Linked fs' fs'' clst d) : Linked fs fs'' clst d := by
  have hn := hshow.same.nFatent
  refine ⟨fun e he hed hec => ?_, ?_, hlinked.link, fun hexact => hlinked.count ?_⟩
  · rw [hlinked.others e (by rw [hn]; exact he) hed hec, hshow.entry_eq h he]
  · rw [← hn]
    exact hlinked.ends
  · exact hshow.exact h hexact

/-- `create_chain` from the search on. -/
theorem createFrom_spec {clst : ℕ} (h : Legal fs) (hshow : Shows fs fs') (hscl : 1 ≤ scl)
    (hlt : scl < fs.nFatent) (hhint : hint fs clst = scl)
    (hclst : clst ≠ 0 → 2 ≤ clst ∧ clst < fs.nFatent ∧ fs.nFatent ≤ entry fs clst) :
    ∃ fs'' r, createFrom fs' clst scl = some (fs'', r) ∧ SameVolume fs fs'' ∧ Legal fs'' ∧
      Created fs fs'' clst r := by
  have hclusters := h.clusters
  have hn := hshow.same.nFatent
  have hzero : behind fs.nFatent scl 0 = scl := if_pos hlt
  obtain ⟨fs₁, found, hfind, hshow₁, hfound⟩ := findFree_spec hscl hlt h fs.nFatent fs' 0 hshow
    (by omega) (by omega) (by omega) fun i hi hi0 => by omega
  rw [hzero] at hfind
  unfold createFrom
  rw [hn, hfind]
  cases found with
  | inr r =>
    refine ⟨fs₁, r, rfl, hshow₁.same.toSameVolume, hshow₁.legal, ?_⟩
    cases hfound with
    | full hfull => exact .full hshow₁ hfull
    | fault => exact .fault fun e he _ _ => hshow₁.entry_eq h he
    | bad d hd hdn hbad => exact .bad hshow₁ d hd hdn hbad
  | inl d =>
    obtain ⟨hd, hdn, hfree⟩ := hfound.range h hscl hlt
    have hn₁ := hshow₁.same.nFatent
    have hentry : ∀ e < fs.nFatent, entry fs₁ e = entry fs e := fun e he => hshow₁.entry_eq h he
    obtain ⟨hvol, hlegal, hout⟩ := @linkNew_spec fs₁ d clst hshow₁.legal hd
      (by rw [hn₁]; exact hdn) (by rw [hentry d hdn]; exact hfree) fun hc => by
        obtain ⟨hc2, hcn, hends⟩ := hclst hc
        exact ⟨hc2, by rw [hn₁]; exact hcn, by rw [hentry clst hcn]; omega⟩
    generalize hlink : linkNew fs₁ clst d = out at hvol hlegal hout
    obtain ⟨fs₂, r⟩ := out
    refine ⟨fs₂, r, congrArg some hlink, hshow₁.same.toSameVolume.trans hvol, hlegal, ?_⟩
    rcases hout with ⟨rfl, hlinked⟩ | ⟨rfl, hothers⟩
    · exact .linked _ (by rw [hhint]; exact hfound) (hshow₁.linked h hlinked) fun hc => (hclst hc).2.2
    · refine .fault fun e he htaken hec => ?_
      rw [hothers e (by rw [hn₁]; exact he) (fun hed => htaken (by rw [hed]; exact hfree))
        fun _ => hec, hentry e he]

/-- `create_chain`, at the cluster of a chain, or for a new chain. -/
theorem createChain_spec {clst : ℕ} (h : Legal fs)
    (hclst : clst ≠ 0 → 2 ≤ clst ∧ clst < fs.nFatent ∧ 2 ≤ entry fs clst) :
    ∃ fs' r, createChain fs clst = some (fs', r) ∧ SameVolume fs fs' ∧ Legal fs' ∧
      Created fs fs' clst r := by
  have hclusters := h.clusters
  have hmax := h.nFatent_lt
  unfold createChain
  by_cases hc : clst = 0
  · rw [if_pos hc]
    have hrange := hint_range h fun hne => absurd hc hne
    have hhint : hint fs clst = _ := if_pos hc
    rw [hhint] at hrange
    exact createFrom_spec h (.refl h) hrange.1 hrange.2 hhint fun hne => absurd hc hne
  · rw [if_neg hc]
    obtain ⟨hc2, hcn, hentry⟩ := hclst hc
    obtain ⟨hshow, hget⟩ := getFat_spec h hc2 hcn
    generalize getFat fs clst = r at hshow hget ⊢
    obtain ⟨fs₁, cs⟩ := r
    dsimp only at hshow hget ⊢
    rw [if_neg (by rcases hget with hget | hget <;> omega)]
    by_cases hfault : cs = 0xFFFFFFFF
    · rw [if_pos hfault]
      refine ⟨fs₁, cs, rfl, hshow.same.toSameVolume, hshow.legal, ?_⟩
      rw [hfault]
      exact .fault fun e he _ _ => hshow.entry_eq h he
    rw [if_neg hfault]
    have hcs := hget.resolve_left hfault
    rw [hshow.same.nFatent]
    by_cases hnext : cs < fs.nFatent
    · rw [if_pos hnext, hcs]
      exact ⟨fs₁, _, rfl, hshow.same.toSameVolume, hshow.legal, .followed hshow hc (hcs ▸ hnext)⟩
    · rw [if_neg hnext]
      exact createFrom_spec h hshow (by omega) hcn (if_neg hc) fun _ => ⟨hc2, hcn, by omega⟩

end NuAgent.Fat
