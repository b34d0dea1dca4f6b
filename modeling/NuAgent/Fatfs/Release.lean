import NuAgent.Fatfs.ClusterChain

/-!
# Clusters are released

`remove_chain` walks a chain and zeroes its entries; the end of `f_truncate` marks a cluster as the last
one and releases those behind it. Both stop at the first error of the drive.
-/

namespace NuAgent.Fat

open CInt Chains

variable {fs fs' fs'' : FatFs} {c d n : ℕ} {l l₁ l₂ : List ℕ}

/-- The clusters of `l` are free, unless the drive fails; no other one is changed. -/
structure Released (fs fs' : FatFs) (l : List ℕ) (res : FResult) : Prop where
  volume : SameVolume fs fs'
  legal : Legal fs'
  result : res = .frOk ∨ res = .frDiskErr
  others : ∀ e < fs.nFatent, e ∉ l → entry fs' e = entry fs e
  freed : res = .frOk → ∀ e ∈ l, entry fs' e = 0
  count : res = .frOk → Exact fs → Exact fs'

theorem Shows.released (h : Legal fs) (hshow : Shows fs fs') :
    Released fs fs' l .frDiskErr where
  volume := hshow.same.toSameVolume
  legal := hshow.legal
  result := .inr rfl
  others _ he _ := hshow.entry_eq h he
  freed hok := FResult.noConfusion hok
  count hok := FResult.noConfusion hok

/-- One more cluster is free. -/
theorem Puts.freed (h : Legal fs) (hc : 2 ≤ c) (hcn : c < fs.nFatent) (htaken : entry fs c ≠ 0)
    (hput : Puts fs fs' c 0 .frOk) (hexact : Exact fs) :
    Exact (counted fs' (u32 ((fs'.freeClust : ℤ) + 1))) := by
  have hzero : entry fs' c = 0 := (hput.stored rfl).trans (Nat.zero_mod _)
  have htake : freeCount fs + 1 = freeCount fs' := by
    refine freeCount_take hput.same.nFatent.symm hc (by rw [hput.same.nFatent]; exact hcn) hzero htaken
      fun e _ he hne => ?_
    rw [hput.same.nFatent] at he
    rw [hput.others e he hne]
  refine counted_exact fun hknown => ?_
  rw [hput.same.freeClust] at hknown ⊢
  have hcount := hexact.resolve_left hknown
  have hle := freeCount_le fs
  have hmax := h.nFatent_lt
  rw [hcount, u32_of_lt (by omega) (by omega)]
  omega

/-- The walk along a chain. -/
theorem removeLoop_spec (hne : l ≠ []) : ∀ n fs, Legal fs → Chain (entry fs) 2 fs.nFatent l → l.Nodup →
    l.length ≤ n → ∃ fs' res, removeLoop n fs (l.head hne) = some (fs', res) ∧
      Released fs fs' l res := by
  induction l with
  | nil => exact absurd rfl hne
  | cons c l ih =>
    intro n fs h hchain hnodup hlen
    obtain ⟨hc, hcn⟩ := hchain.range List.mem_cons_self
    have htaken := hchain.ne_zero (by decide) List.mem_cons_self
    obtain ⟨n, rfl⟩ : ∃ k, n = k + 1 := ⟨n - 1, by
      rw [List.length_cons] at hlen
      omega⟩
    have hmax := h.nFatent_lt
    -- the next cluster, or the end mark
    have hentry : 2 ≤ entry fs c := by
      cases l with
      | nil => exact h.clusters.le.trans hchain.2
      | cons d l => rw [hchain.2.1]; exact (hchain.2.2.range List.mem_cons_self).1
    rw [List.head_cons, removeLoop, if_pos hcn]
    dsimp only
    obtain ⟨hshow, hget⟩ := getFat_spec h hc hcn
    generalize getFat fs c = r at hshow hget ⊢
    obtain ⟨fs₁, nxt⟩ := r
    dsimp only at hshow hget ⊢
    rw [if_neg (by rcases hget with hget | hget <;> omega),
      if_neg (by rcases hget with hget | hget <;> omega)]
    by_cases hfault : nxt = 0xFFFFFFFF
    · rw [if_pos hfault]
      exact ⟨fs₁, _, rfl, hshow.released h⟩
    rw [if_neg hfault, hget.resolve_left hfault]
    have hput := putFat_spec hshow.legal hc (by rw [hshow.same.nFatent]; exact hcn) 0
    generalize putFat fs₁ c 0 = r at hput ⊢
    obtain ⟨fs₂, res⟩ := r
    dsimp only at hput ⊢
    have hsame := hshow.same.trans hput.same
    have hothers : ∀ e < fs.nFatent, e ≠ c → entry fs₂ e = entry fs e := fun e he hec => by
      rw [hput.others e (by rw [hshow.same.nFatent]; exact he) hec, hshow.entry_eq h he]
    by_cases hok : res = .frOk
    · rw [if_neg (not_not.2 hok)]
      subst hok
      obtain ⟨hvol, hlegal⟩ := counted_legal hput.legal (u32 ((fs₂.freeClust : ℤ) + 1))
      have hcount := fun hexact : Exact fs => Puts.freed hshow.legal hc
        (by rw [hshow.same.nFatent]; exact hcn) (by rw [hshow.entry_eq h hcn]; exact htaken) hput
        (hshow.exact h hexact)
      have hentry₃ := counted_entry fs₂ (u32 ((fs₂.freeClust : ℤ) + 1))
      have hvol₃ := hsame.toSameVolume.trans hvol
      show ∃ fs' res, removeLoop n (counted fs₂ (u32 ((fs₂.freeClust : ℤ) + 1))) (entry fs c) =
        some (fs', res) ∧ _
      generalize counted fs₂ (u32 ((fs₂.freeClust : ℤ) + 1)) = fs₃ at hvol₃ hlegal hcount hentry₃ ⊢
      have hothers₃ : ∀ e < fs.nFatent, e ≠ c → entry fs₃ e = entry fs e := fun e he hec =>
        (congrFun hentry₃ e).trans (hothers e he hec)
      have hzero : entry fs₃ c = 0 := by
        rw [hentry₃, hput.stored rfl, Nat.zero_mod]
      cases l with
      | nil =>
        have hends : ¬entry fs c < fs₃.nFatent := by
          rw [hvol₃.nFatent]
          exact Nat.not_lt.2 hchain.2
        refine ⟨fs₃, .frOk, ?_, hvol₃, hlegal, .inl rfl, fun e he hec => hothers₃ e he
          (by simpa using hec), fun _ e hec => ?_, fun _ hexact => hcount hexact⟩
        · unfold removeLoop
          rw [if_neg hends]
        · rw [List.mem_singleton.1 hec]
          exact hzero
      | cons d l =>
        rw [hchain.2.1]
        have hrest : Chain (entry fs₃) 2 fs₃.nFatent (d :: l) := by
          rw [hvol₃.nFatent]
          refine hchain.2.2.congr fun e he => hothers₃ e (hchain.2.2.range he).2 fun hec => ?_
          exact (List.nodup_cons.1 hnodup).1 (hec ▸ he)
        obtain ⟨fs', res, heq, hrel⟩ := ih (List.cons_ne_nil d l) n fs₃ hlegal hrest
          (List.nodup_cons.1 hnodup).2 (by rw [List.length_cons] at hlen; omega)
        rw [List.head_cons] at heq
        refine ⟨fs', res, heq, hvol₃.trans hrel.volume, hrel.legal, hrel.result, fun e he hmem => ?_,
          fun hok e hmem => ?_, fun hok hexact => hrel.count hok (hcount hexact)⟩
        · rw [hrel.others e (by rw [hvol₃.nFatent]; exact he) fun hm => hmem (List.mem_cons_of_mem c hm),
            hothers₃ e he fun hec => hmem (hec ▸ List.mem_cons_self)]
        · rcases List.mem_cons.1 hmem with rfl | hmem
          · rw [hrel.others e (by rw [hvol₃.nFatent]; exact hcn) (List.nodup_cons.1 hnodup).1, hzero]
          · exact hrel.freed hok e hmem
    · rw [if_pos hok]
      refine ⟨fs₂, res, rfl, hsame.toSameVolume, hput.legal, hput.result, fun e he hmem => ?_,
        fun hres => absurd hres hok, fun hres => absurd hres hok⟩
      exact hothers e he fun hec => hmem (hec ▸ List.mem_cons_self)

theorem removeChain_spec (h : Legal fs) (hne : l ≠ []) (hchain : Chain (entry fs) 2 fs.nFatent l)
    (hnodup : l.Nodup) (hlen : l.length ≤ fs.nFatent) :
    ∃ fs' res, removeChain fs (l.head hne) = some (fs', res) ∧ Released fs fs' l res := by
  have hrange := hchain.range (List.head_mem hne)
  unfold removeChain
  rw [if_neg (by omega)]
  exact removeLoop_spec hne fs.nFatent fs h hchain hnodup hlen

/-- What is left of a chain is one, and the clusters behind it are free, unless the drive fails. -/
structure Cut (fs fs' : FatFs) (l₁ l₂ : List ℕ) (c : ℕ) (res : FResult) : Prop where
  volume : SameVolume fs fs'
  legal : Legal fs'
  result : res = .frOk ∨ res = .frDiskErr
  others : ∀ e < fs.nFatent, e ∉ l₁ ++ c :: l₂ → entry fs' e = entry fs e
  chain : res = .frOk → Chain (entry fs') 2 fs'.nFatent (l₁ ++ [c])
  freed : res = .frOk → ∀ e ∈ l₂, entry fs' e = 0
  count : res = .frOk → Exact fs → Exact fs'

/-- `f_truncate`, at a cluster of a file. -/
theorem truncateAt_spec (h : Legal fs) (hchain : Chain (entry fs) 2 fs.nFatent (l₁ ++ c :: l₂))
    (hnodup : (l₁ ++ c :: l₂).Nodup) (hlen : (l₁ ++ c :: l₂).length ≤ fs.nFatent) :
    ∃ fs' res, truncateAt fs c = some (fs', res) ∧ Cut fs fs' l₁ l₂ c res := by
  have hmem : c ∈ l₁ ++ c :: l₂ := List.mem_append_right l₁ List.mem_cons_self
  obtain ⟨hc, hcn⟩ := hchain.range hmem
  have hmax := h.nFatent_lt
  have hc₁ : c ∉ l₁ := fun hmem =>
    List.disjoint_of_nodup_append hnodup hmem List.mem_cons_self
  have hentry : 2 ≤ entry fs c := by
    rcases hchain.next with ⟨l, rfl⟩ | ⟨-, hends⟩
    · exact (hchain.range (List.mem_append_right l₁ (List.mem_cons_of_mem c List.mem_cons_self))).1
    · exact h.clusters.le.trans hends
  unfold truncateAt
  obtain ⟨hshow, hget⟩ := getFat_spec h hc hcn
  generalize getFat fs c = r at hshow hget ⊢
  obtain ⟨fs₁, ncl⟩ := r
  dsimp only at hshow hget ⊢
  have hentry₁ : ∀ e < fs.nFatent, entry fs₁ e = entry fs e := fun e he => hshow.entry_eq h he
  by_cases hfault : ncl = 0xFFFFFFFF
  · rw [if_pos hfault]
    exact ⟨fs₁, _, rfl, hshow.same.toSameVolume, hshow.legal, .inr rfl, fun e he _ => hentry₁ e he,
      fun hok => FResult.noConfusion hok, fun hok => FResult.noConfusion hok,
      fun hok => FResult.noConfusion hok⟩
  have hncl := hget.resolve_left hfault
  rw [if_neg hfault, if_neg (by omega), hshow.same.nFatent]
  rcases hchain.next with ⟨l, hl⟩ | ⟨rfl, hends⟩
  · -- there are clusters behind
    have hd := hchain.range (List.mem_append_right l₁ (List.mem_cons_of_mem c
      (hl ▸ List.mem_cons_self : entry fs c ∈ l₂)))
    rw [if_pos (by omega)]
    have hput := putFat_spec hshow.legal hc (by rw [hshow.same.nFatent]; exact hcn) 0x0FFFFFFF
    generalize putFat fs₁ c 0x0FFFFFFF = r at hput ⊢
    obtain ⟨fs₂, res⟩ := r
    dsimp only at hput ⊢
    have hsame := hshow.same.trans hput.same
    have hothers : ∀ e < fs.nFatent, e ≠ c → entry fs₂ e = entry fs e := fun e he hec => by
      rw [hput.others e (by rw [hshow.same.nFatent]; exact he) hec, hentry₁ e he]
    by_cases hok : res = .frOk
    · rw [if_pos hok]
      have hmark : fs.nFatent ≤ entry fs₂ c := by
        rw [hput.stored hok, hshow.same.fsType]
        exact end_mark h
      have hne : l₂ ≠ [] := hl ▸ List.cons_ne_nil _ _
      have hsub : ∀ e ∈ l₂, e ∈ l₁ ++ c :: l₂ := fun e he =>
        List.mem_append_right l₁ (List.mem_cons_of_mem c he)
      have hc₂ : c ∉ l₂ := (List.nodup_cons.1 (List.nodup_append.1 hnodup).2.1).1
      have hchain₂ : Chain (entry fs₂) 2 fs₂.nFatent l₂ := by
        rw [hsame.nFatent]
        have hchain' : Chain (entry fs) 2 fs.nFatent ((l₁ ++ [c]) ++ l₂) := by
          rw [List.append_assoc]
          exact hchain
        exact (hchain'.append_right hne).congr fun e he =>
          hothers e (hchain.range (hsub e he)).2 fun hec => hc₂ (hec ▸ he)
      have hhead : l₂.head hne = ncl := by
        rw [hncl]
        subst hl
        rfl
      obtain ⟨fs', res', heq, hrel⟩ := removeChain_spec hput.legal hne hchain₂
        (List.nodup_cons.1 (List.nodup_append.1 hnodup).2.1).2 (by
          rw [hsame.nFatent]
          rw [List.length_append, List.length_cons] at hlen
          omega)
      rw [hhead] at heq
      have hkeep : ∀ e < fs.nFatent, e ∉ l₂ → entry fs' e = entry fs₂ e := fun e he hmem =>
        hrel.others e (by rw [hsame.nFatent]; exact he) hmem
      refine ⟨fs', res', heq, hsame.toSameVolume.trans hrel.volume, hrel.legal, hrel.result,
        fun e he hmem' => ?_, fun _ => ?_, hrel.freed, fun hok' hexact => hrel.count hok' ?_⟩
      · rw [hkeep e he fun hm => hmem' (hsub e hm), hothers e he fun hec => hmem' (hec ▸ hmem)]
      · rw [(hsame.toSameVolume.trans hrel.volume).nFatent]
        refine hchain.cut (fun e he => ?_) ?_
        · have hen := (hchain.range (List.mem_append_left _ he)).2
          rw [hkeep e hen fun hm => List.disjoint_of_nodup_append hnodup he (List.mem_cons_of_mem c hm),
            hothers e hen fun hec => hc₁ (hec ▸ he)]
        · rw [hkeep c hcn hc₂]
          exact hmark
      · have hcount : freeCount fs₂ = freeCount fs :=
          freeCount_congr hsame.nFatent fun e _ he => by
            by_cases hec : e = c
            · rw [hec]
              omega
            · rw [hothers e he hec]
        unfold Exact
        rw [hcount, hsame.freeClust]
        exact hexact
    · rw [if_neg hok]
      refine ⟨fs₂, res, rfl, hsame.toSameVolume, hput.legal, hput.result, fun e he hmem' => ?_,
        fun hres => absurd hres hok, fun hres => absurd hres hok, fun hres => absurd hres hok⟩
      exact hothers e he fun hec => hmem' (hec ▸ hmem)
  · -- the cluster is the last one
    rw [if_neg (by omega)]
    refine ⟨fs₁, _, rfl, hshow.same.toSameVolume, hshow.legal, .inl rfl, fun e he _ => hentry₁ e he,
      fun _ => ?_, fun _ e he => absurd he List.not_mem_nil, fun _ hexact => hshow.exact h hexact⟩
    rw [hshow.same.nFatent]
    exact hchain.congr fun e he => hentry₁ e (hchain.range he).2

end NuAgent.Fat
