import Mathlib.Algebra.BigOperators.Group.Finset.Basic
import Mathlib.Data.Finset.Max
import Mathlib.Logic.Function.Iterate
import Mathlib.Tactic.Common

/-!
# Tilings of an address range

A range of addresses is tiled by the blocks that start at the addresses of a finite set `H`. Each
block ends where the next one starts, the last block leads back to the first one, and the link back
undoes the link forward. The set says which addresses are linked; the two edits of such a structure
are inserting one address behind another (`Tiling.insert`) and erasing the one behind it
(`Tiling.erase`). `Tiling.rank` counts how far a walk along the links still is from an address, and
so bounds the length of the walk.
-/

/-- The blocks at the addresses in `H`, linked by `nx` and back by `pv`, tile the range from `start`
to `last` with at least `gap` addresses from one to the next. -/
structure Tiling (nx pv : ℕ → ℕ) (start last gap : ℕ) (H : Finset ℕ) : Prop where
  gap_pos : 0 < gap
  start_mem : start ∈ H
  last_mem : last ∈ H
  bounds : ∀ a ∈ H, start ≤ a ∧ a ≤ last
  next_mem : ∀ a ∈ H, nx a ∈ H
  next_last : nx last = start
  next_gap : ∀ a ∈ H, a ≠ last → a + gap ≤ nx a
  next_least : ∀ a ∈ H, ∀ b ∈ H, a < b → nx a ≤ b
  prev_next : ∀ a ∈ H, pv (nx a) = a

namespace Tiling

variable {nx pv : ℕ → ℕ} {start last gap : ℕ} {H : Finset ℕ}

/-- Distinct addresses are at least `gap` apart. -/
theorem apart (h : Tiling nx pv start last gap H) {a b : ℕ} (ha : a ∈ H) (hb : b ∈ H)
    (hne : a ≠ b) : a + gap ≤ b ∨ b + gap ≤ a := by
  have below : ∀ {x y}, x ∈ H → y ∈ H → x < y → x + gap ≤ y := by
    intro x y hx hy hxy
    have hlast : x ≠ last := by
      have := (h.bounds y hy).2
      omega
    have hgap := h.next_gap x hx hlast
    have hleast := h.next_least x hx y hy hxy
    omega
  rcases Nat.lt_or_gt_of_ne hne with hlt | hgt
  · exact .inl (below ha hb hlt)
  · exact .inr (below hb ha hgt)

/-- Links forward are injective. -/
theorem next_inj (h : Tiling nx pv start last gap H) {a b : ℕ} (ha : a ∈ H) (hb : b ∈ H)
    (hab : nx a = nx b) : a = b := by
  rw [← h.prev_next a ha, hab, h.prev_next b hb]

/-- Every address is linked from another one, and the link back leads there. -/
theorem prev_mem (h : Tiling nx pv start last gap H) {a : ℕ} (ha : a ∈ H) :
    pv a ∈ H ∧ nx (pv a) = a := by
  rcases Nat.eq_or_lt_of_le (h.bounds a ha).1 with rfl | hlt
  · have hback := h.prev_next last h.last_mem
    rw [h.next_last] at hback
    rw [hback]
    exact ⟨h.last_mem, h.next_last⟩
  · -- the highest address below `a` is linked to `a`
    have hne : (H.filter (· < a)).Nonempty := ⟨start, Finset.mem_filter.mpr ⟨h.start_mem, hlt⟩⟩
    obtain ⟨hbH, hba⟩ := Finset.mem_filter.mp ((H.filter (· < a)).max'_mem hne)
    set b := (H.filter (· < a)).max' hne with hb
    have hnext : nx b = a := by
      have hle := h.next_least b hbH a ha hba
      have hgap := h.next_gap b hbH (by have := (h.bounds a ha).2; omega)
      have hpos := h.gap_pos
      by_contra hne'
      have hin : nx b ∈ H.filter (· < a) :=
        Finset.mem_filter.mpr ⟨h.next_mem b hbH, by omega⟩
      have := (H.filter (· < a)).le_max' _ hin
      omega
    have hback := h.prev_next b hbH
    rw [hnext] at hback
    rw [hback]
    exact ⟨hbH, hnext⟩

/-- The addresses are the ones a walk from `start` along the links visits. -/
theorem mem_iff_iterate (h : Tiling nx pv start last gap H) (a : ℕ) :
    a ∈ H ↔ ∃ k, nx^[k] start = a := by
  constructor
  · intro ha
    induction a using Nat.strongRecOn with
    | _ a ih =>
      rcases Nat.eq_or_lt_of_le (h.bounds a ha).1 with rfl | hlt
      · exact ⟨0, rfl⟩
      · obtain ⟨hp, hnext⟩ := h.prev_mem ha
        have hpl : pv a ≠ last := by
          intro hpl
          rw [hpl, h.next_last] at hnext
          omega
        have hgap := h.next_gap _ hp hpl
        have hpos := h.gap_pos
        obtain ⟨k, hk⟩ := ih (pv a) (by omega) hp
        refine ⟨k + 1, ?_⟩
        rw [Function.iterate_succ_apply', hk, hnext]
  · rintro ⟨k, rfl⟩
    induction k with
    | zero => exact h.start_mem
    | succ k ih =>
      rw [Function.iterate_succ_apply']
      exact h.next_mem _ ih

/-- The blocks cover the range: the distances from one address to the next add up to its length. -/
theorem sum_gaps (h : Tiling nx pv start last gap H) :
    ∑ a ∈ H.erase last, ((nx a : ℤ) - a) = last - start := by
  -- the links permute the addresses
  have hperm : ∑ a ∈ H, (nx a : ℤ) = ∑ a ∈ H, (a : ℤ) :=
    Finset.sum_nbij' nx pv h.next_mem (fun a ha => (h.prev_mem ha).1) h.prev_next
      (fun a ha => (h.prev_mem ha).2) (fun _ _ => rfl)
  have hall : ∑ a ∈ H, ((nx a : ℤ) - a) = 0 := by
    rw [Finset.sum_sub_distrib, hperm, sub_self]
  rw [← Finset.add_sum_erase H _ h.last_mem, h.next_last] at hall
  omega

/-- One block and the end of the range. -/
theorem pair (hpos : 0 < gap) (hgap : start + gap ≤ last)
    (hns : nx start = last) (hnl : nx last = start) (hps : pv start = last) (hpl : pv last = start) :
    Tiling nx pv start last gap {start, last} := by
  have hmem : ∀ a, a ∈ ({start, last} : Finset ℕ) ↔ a = start ∨ a = last := by
    intro a
    rw [Finset.mem_insert, Finset.mem_singleton]
  refine ⟨hpos, (hmem _).mpr (.inl rfl), (hmem _).mpr (.inr rfl), ?_, ?_, hnl, ?_, ?_, ?_⟩
  · intro a ha
    have := (hmem a).mp ha
    omega
  · intro a ha
    rcases (hmem a).mp ha with rfl | rfl
    · exact (hmem _).mpr (.inr hns)
    · exact (hmem _).mpr (.inl hnl)
  · intro a ha hal
    rcases (hmem a).mp ha with rfl | rfl
    · rwa [hns]
    · exact absurd rfl hal
  · intro a ha b hb hab
    have hb' := (hmem b).mp hb
    rcases (hmem a).mp ha with rfl | rfl <;> omega
  · intro a ha
    rcases (hmem a).mp ha with rfl | rfl
    · rw [hns, hpl]
    · rw [hnl, hps]

/-! ## The two edits -/

/-- A tiling depends on the links of its addresses alone. -/
theorem congr (h : Tiling nx pv start last gap H) {nx' pv' : ℕ → ℕ}
    (hnx : ∀ a ∈ H, nx' a = nx a) (hpv : ∀ a ∈ H, pv' a = pv a) :
    Tiling nx' pv' start last gap H := by
  refine ⟨h.gap_pos, h.start_mem, h.last_mem, h.bounds, ?_, ?_, ?_, ?_, ?_⟩
  · intro a ha
    rw [hnx a ha]
    exact h.next_mem a ha
  · rw [hnx _ h.last_mem, h.next_last]
  · intro a ha hal
    rw [hnx a ha]
    exact h.next_gap a ha hal
  · intro a ha b hb hab
    rw [hnx a ha]
    exact h.next_least a ha b hb hab
  · intro a ha
    rw [hnx a ha, hpv _ (h.next_mem a ha), h.prev_next a ha]

/-- No address lies between one and the next. -/
theorem le_of_lt_next (h : Tiling nx pv start last gap H) {x a : ℕ} (hx : x ∈ H) (ha : a ∈ H)
    (hlt : a < nx x) : a ≤ x := by
  by_contra hgt
  have := h.next_least x hx a ha (by omega)
  omega

/-- Insert `n` behind `x`, inside the block of `x`. -/
theorem insert (h : Tiling nx pv start last gap H) {nx' pv' : ℕ → ℕ} {x n : ℕ} (hx : x ∈ H)
    (hxl : x ≠ last) (hxn : x + gap ≤ n) (hny : n + gap ≤ nx x) (hnx_x : nx' x = n)
    (hnx_n : nx' n = nx x) (hnx : ∀ b ∈ H, b ≠ x → nx' b = nx b) (hpv_n : pv' n = x)
    (hpv_y : pv' (nx x) = n) (hpv : ∀ b ∈ H, b ≠ nx x → pv' b = pv b) :
    Tiling nx' pv' start last gap (insert n H) := by
  have hpos := h.gap_pos
  have hmemx := h.next_mem x hx
  have hbx := h.bounds x hx
  have hby := h.bounds _ hmemx
  -- the new address, the one before it, and the others with their links as they were
  have hcases : ∀ a ∈ Insert.insert n H,
      a = n ∨ a ∈ H ∧ (a = x ∧ nx' a = n ∨ a ≠ x ∧ nx' a = nx a) := by
    intro a ha
    rcases Finset.mem_insert.mp ha with rfl | haH
    · exact .inl rfl
    · by_cases hax : a = x
      · exact .inr ⟨haH, .inl ⟨hax, by rw [hax, hnx_x]⟩⟩
      · exact .inr ⟨haH, .inr ⟨hax, hnx a haH hax⟩⟩
  exact
    { gap_pos := hpos
      start_mem := Finset.mem_insert_of_mem h.start_mem
      last_mem := Finset.mem_insert_of_mem h.last_mem
      bounds := by
        intro a ha
        rcases hcases a ha with rfl | ⟨haH, -⟩
        · omega
        · exact h.bounds a haH
      next_mem := by
        intro a ha
        rcases hcases a ha with rfl | ⟨haH, ⟨-, hn⟩ | ⟨-, hn⟩⟩
        · rw [hnx_n]
          exact Finset.mem_insert_of_mem hmemx
        · rw [hn]
          exact Finset.mem_insert_self n H
        · rw [hn]
          exact Finset.mem_insert_of_mem (h.next_mem a haH)
      next_last := by rw [hnx last h.last_mem (Ne.symm hxl), h.next_last]
      next_gap := by
        intro a ha hal
        rcases hcases a ha with rfl | ⟨haH, ⟨rfl, hn⟩ | ⟨-, hn⟩⟩
        · rwa [hnx_n]
        · rwa [hn]
        · rw [hn]
          exact h.next_gap a haH hal
      next_least := by
        intro a ha b hb hab
        rcases hcases b hb with rfl | ⟨hbH, -⟩
        · rcases hcases a ha with rfl | ⟨haH, ⟨-, hn⟩ | ⟨hax, hn⟩⟩
          · omega
          · exact Nat.le_of_eq hn
          · have hle := h.le_of_lt_next hx haH (by omega)
            have := h.next_least a haH x hx (by omega)
            omega
        · rcases hcases a ha with rfl | ⟨haH, ⟨rfl, hn⟩ | ⟨-, hn⟩⟩
          · rw [hnx_n]
            exact h.next_least x hx b hbH (by omega)
          · have := h.next_least a haH b hbH hab
            omega
          · rw [hn]
            exact h.next_least a haH b hbH hab
      prev_next := by
        intro a ha
        rcases hcases a ha with rfl | ⟨haH, ⟨rfl, hn⟩ | ⟨hax, hn⟩⟩
        · rw [hnx_n, hpv_y]
        · rw [hn, hpv_n]
        · have hne : nx a ≠ nx x := fun heq => hax (h.next_inj haH hx heq)
          rw [hn, hpv _ (h.next_mem a haH) hne, h.prev_next a haH] }

/-- Erase the address behind `x`, joining its block to the block of `x`. -/
theorem erase (h : Tiling nx pv start last gap H) {nx' pv' : ℕ → ℕ} {x : ℕ} (hx : x ∈ H)
    (hxl : x ≠ last) (hyl : nx x ≠ last) (hnx_x : nx' x = nx (nx x))
    (hnx : ∀ b ∈ H, b ≠ x → b ≠ nx x → nx' b = nx b) (hpv_z : pv' (nx (nx x)) = x)
    (hpv : ∀ b ∈ H, b ≠ nx (nx x) → b ≠ nx x → pv' b = pv b) :
    Tiling nx' pv' start last gap (H.erase (nx x)) := by
  have hpos := h.gap_pos
  have hy := h.next_mem x hx
  have hxy := h.next_gap x hx hxl
  have hyz := h.next_gap (nx x) hy hyl
  have hbx := h.bounds x hx
  -- the address before the one that goes, and the others with their links as they were
  have hcases : ∀ a ∈ H.erase (nx x), a ≠ nx x ∧ a ∈ H ∧
      (a = x ∧ nx' a = nx (nx x) ∨ a ≠ x ∧ nx' a = nx a) := by
    intro a ha
    obtain ⟨hay, haH⟩ := Finset.mem_erase.mp ha
    by_cases hax : a = x
    · exact ⟨hay, haH, .inl ⟨hax, by rw [hax, hnx_x]⟩⟩
    · exact ⟨hay, haH, .inr ⟨hax, hnx a haH hax hay⟩⟩
  exact
    { gap_pos := hpos
      start_mem := Finset.mem_erase.mpr ⟨by omega, h.start_mem⟩
      last_mem := Finset.mem_erase.mpr ⟨Ne.symm hyl, h.last_mem⟩
      bounds := fun a ha => h.bounds a (Finset.mem_of_mem_erase ha)
      next_mem := by
        intro a ha
        rcases hcases a ha with ⟨-, haH, ⟨-, hn⟩ | ⟨hax, hn⟩⟩
        · rw [hn]
          exact Finset.mem_erase.mpr ⟨by omega, h.next_mem _ hy⟩
        · rw [hn]
          exact Finset.mem_erase.mpr ⟨fun heq => hax (h.next_inj haH hx heq), h.next_mem a haH⟩
      next_last := by rw [hnx last h.last_mem (Ne.symm hxl) (Ne.symm hyl), h.next_last]
      next_gap := by
        intro a ha hal
        rcases hcases a ha with ⟨-, haH, ⟨rfl, hn⟩ | ⟨-, hn⟩⟩
        · omega
        · rw [hn]
          exact h.next_gap a haH hal
      next_least := by
        intro a ha b hb hab
        obtain ⟨hby, hbH, -⟩ := hcases b hb
        rcases hcases a ha with ⟨-, haH, ⟨rfl, hn⟩ | ⟨-, hn⟩⟩
        · have := h.next_least a haH b hbH hab
          rw [hn]
          exact h.next_least _ hy b hbH (by omega)
        · rw [hn]
          exact h.next_least a haH b hbH hab
      prev_next := by
        intro a ha
        rcases hcases a ha with ⟨hay, haH, ⟨rfl, hn⟩ | ⟨hax, hn⟩⟩
        · rw [hn, hpv_z]
        · have hne : nx a ≠ nx x := fun heq => hax (h.next_inj haH hx heq)
          have hne' : nx a ≠ nx (nx x) := fun heq => hay (h.next_inj haH hy heq)
          rw [hn, hpv _ (h.next_mem a haH) hne' hne, h.prev_next a haH] }

/-! ## Walking -/

/-- How far a walk at `p` is from its target, which it has left when it stands on it. -/
def rank (start last target p : ℕ) : ℕ :=
  if p < target then target - p else target + (last - start) + 1 - p

/-- Unless it leads to the target, a link brings the walk closer to it. -/
theorem rank_next_lt (h : Tiling nx pv start last gap H) {target p : ℕ} (ht : target ∈ H)
    (hp : p ∈ H) (hne : nx p ≠ target) :
    rank start last target (nx p) < rank start last target p := by
  have hpos := h.gap_pos
  have hbp := h.bounds p hp
  have hbt := h.bounds target ht
  have hbn := h.bounds _ (h.next_mem p hp)
  unfold rank
  by_cases hpl : p = last
  · rw [hpl, h.next_last] at hne ⊢
    split_ifs <;> omega
  · have hgap := h.next_gap p hp hpl
    rcases Nat.lt_or_ge p target with hlt | hge
    · have := h.next_least p hp target ht hlt
      split_ifs <;> omega
    · split_ifs <;> omega

/-- What the walk has still ahead of it behind `p` lies at the next address or behind that. -/
theorem rank_le_next_of_lt (h : Tiling nx pv start last gap H) {target p c : ℕ} (ht : target ∈ H)
    (hp : p ∈ H) (hc : c ∈ H) (hlt : rank start last target c < rank start last target p) :
    nx p ≠ target ∧ rank start last target c ≤ rank start last target (nx p) := by
  have hpos := h.gap_pos
  have hbp := h.bounds p hp
  have hbt := h.bounds target ht
  have hbc := h.bounds c hc
  have hbn := h.bounds _ (h.next_mem p hp)
  unfold rank at hlt ⊢
  by_cases hpl : p = last
  · rw [hpl] at hlt ⊢
    rw [h.next_last]
    split_ifs at hlt ⊢ <;> omega
  · have hgap := h.next_gap p hp hpl
    have hleast := h.next_least p hp c hc
    split_ifs at hlt ⊢ <;> omega

/-- Two addresses at the same distance are one. -/
theorem rank_inj (h : Tiling nx pv start last gap H) {target p c : ℕ} (ht : target ∈ H)
    (hp : p ∈ H) (hc : c ∈ H) (heq : rank start last target c = rank start last target p) :
    c = p := by
  have hbp := h.bounds p hp
  have hbt := h.bounds target ht
  have hbc := h.bounds c hc
  unfold rank at heq
  split_ifs at heq <;> omega

end Tiling
