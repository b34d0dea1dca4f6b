import Mathlib.Data.List.Nodup
import Mathlib.Data.List.Perm.Basic
import Mathlib.Logic.Function.Basic
import Mathlib.Data.List.Perm.Subperm

/-!
# Lists in an allocation table

A table `F` holds for every cell from `lo` up to `n` what comes behind it: another cell, an end mark (a
value from `n` on), or zero when the cell is free. A chain is a list of cells that leads from cell to cell
to an end mark; `Table F lo n files` says that the lists `files` are chains and have no cell in common. An
edit of the table keeps the chains none of whose cells it changes (`Table.congr`, `Table.replace`).
-/

namespace NuAgent.Chains

variable {ι : Type*} {F F' : ℕ → ℕ} {lo n c d : ℕ} {l l₁ l₂ : List ℕ} {files : ι → List ℕ}

/-- Each cell of the list holds the next one, and the last one an end mark. -/
def Chain (F : ℕ → ℕ) (lo n : ℕ) : List ℕ → Prop
  | [] => False
  | [c] => (lo ≤ c ∧ c < n) ∧ n ≤ F c
  | c :: d :: l => (lo ≤ c ∧ c < n) ∧ F c = d ∧ Chain F lo n (d :: l)

namespace Chain

theorem ne_nil (h : Chain F lo n l) : l ≠ [] := by
  rintro rfl
  exact h

theorem range (h : Chain F lo n l) (hc : c ∈ l) : lo ≤ c ∧ c < n := by
  induction l with
  | nil => exact absurd hc List.not_mem_nil
  | cons a l ih =>
    cases l with
    | nil =>
      rw [List.mem_singleton.1 hc]
      exact h.1
    | cons b l =>
      rcases List.mem_cons.1 hc with rfl | hc
      · exact h.1
      · exact ih h.2.2 hc

theorem append_right (h : Chain F lo n (l₁ ++ l₂)) (hne : l₂ ≠ []) : Chain F lo n l₂ := by
  induction l₁ with
  | nil => exact h
  | cons a l₁ ih =>
    cases hsplit : l₁ ++ l₂ with
    | nil => exact absurd (List.append_eq_nil_iff.1 hsplit).2 hne
    | cons b l =>
      rw [List.cons_append, hsplit] at h
      rw [hsplit] at ih
      exact ih h.2.2

/-- A chain reads the table at its own cells only. -/
theorem congr (h : Chain F lo n l) (hsame : ∀ c ∈ l, F' c = F c) : Chain F' lo n l := by
  induction l with
  | nil => exact h
  | cons a l ih =>
    have ha := hsame a List.mem_cons_self
    cases l with
    | nil => exact ⟨h.1, by rw [ha]; exact h.2⟩
    | cons b l =>
      exact ⟨h.1, by rw [ha]; exact h.2.1, ih h.2.2 fun c hc => hsame c (List.mem_cons_of_mem a hc)⟩

/-- A cell of a chain is not free. -/
theorem ne_zero (h : Chain F lo n l) (hlo : 0 < lo) (hc : c ∈ l) : F c ≠ 0 := by
  induction l with
  | nil => exact absurd hc List.not_mem_nil
  | cons a l ih =>
    cases l with
    | nil =>
      rw [List.mem_singleton.1 hc]
      have := h.1
      have := h.2
      omega
    | cons b l =>
      rcases List.mem_cons.1 hc with rfl | hc
      · rw [h.2.1]
        have := h.2.2.range List.mem_cons_self
        omega
      · exact ih h.2.2 hc

/-- A chain that is cut behind a cell. -/
theorem cut (h : Chain F lo n (l₁ ++ c :: l₂)) (hsame : ∀ b ∈ l₁, F' b = F b) (hend : n ≤ F' c) :
    Chain F' lo n (l₁ ++ [c]) := by
  induction l₁ with
  | nil => exact ⟨h.range List.mem_cons_self, hend⟩
  | cons a l₁ ih =>
    have ha := hsame a List.mem_cons_self
    have hrest : ∀ b ∈ l₁, F' b = F b := fun b hb => hsame b (List.mem_cons_of_mem a hb)
    cases l₁ with
    | nil => exact ⟨h.1, by rw [ha]; exact h.2.1, ih h.2.2 hrest⟩
    | cons b l₁ => exact ⟨h.1, by rw [ha]; exact h.2.1, ih h.2.2 hrest⟩

/-- A chain that goes on behind its last cell. -/
theorem stretch (h : Chain F lo n (l ++ [c])) (hsame : ∀ b ∈ l, F' b = F b) (hc : F' c = d)
    (hd : lo ≤ d ∧ d < n) (hend : n ≤ F' d) : Chain F' lo n (l ++ [c] ++ [d]) := by
  induction l with
  | nil => exact ⟨h.1, hc, hd, hend⟩
  | cons a l ih =>
    have ha := hsame a List.mem_cons_self
    have hrest : ∀ b ∈ l, F' b = F b := fun b hb => hsame b (List.mem_cons_of_mem a hb)
    cases l with
    | nil => exact ⟨h.1, by rw [ha]; exact h.2.1, ih h.2.2 hrest⟩
    | cons b l => exact ⟨h.1, by rw [ha]; exact h.2.1, ih h.2.2 hrest⟩

/-- The cell behind a cell of a chain, or its end mark. -/
theorem next (h : Chain F lo n (l₁ ++ c :: l₂)) :
    (∃ l, l₂ = F c :: l) ∨ l₂ = [] ∧ n ≤ F c := by
  have h := h.append_right (List.cons_ne_nil c l₂)
  cases l₂ with
  | nil => exact .inr ⟨rfl, h.2⟩
  | cons b l => exact .inl ⟨l, by rw [h.2.1]⟩

end Chain

/-- The files that are not empty are chains without a common cell. -/
structure Table (F : ℕ → ℕ) (lo n : ℕ) (files : ι → List ℕ) : Prop where
  chain : ∀ i, files i ≠ [] → Chain F lo n (files i)
  nodup : ∀ i, (files i).Nodup
  apart : ∀ i j, i ≠ j → (files i).Disjoint (files j)

namespace Table

theorem chain_of_mem (h : Table F lo n files) {i : ι} (hc : c ∈ files i) :
    Chain F lo n (files i) :=
  h.chain i (List.ne_nil_of_mem hc)

theorem congr (h : Table F lo n files) (hsame : ∀ i, ∀ c ∈ files i, F' c = F c) :
    Table F' lo n files :=
  ⟨fun i hne => (h.chain i hne).congr (hsame i), h.nodup, h.apart⟩

/-- A free cell is in no file. -/
theorem not_mem_of_free (h : Table F lo n files) (hlo : 0 < lo) (hc : F c = 0) (i : ι) :
    c ∉ files i := fun hmem => (h.chain_of_mem hmem).ne_zero hlo hmem hc

/-- A file has at most as many cells as the table. -/
theorem length_le (h : Table F lo n files) (i : ι) : (files i).length ≤ n := by
  have hsub : files i ⊆ List.range n := fun c hc =>
    List.mem_range.2 ((h.chain_of_mem hc).range hc).2
  have hle := (List.subperm_of_subset (h.nodup i) hsub).length_le
  rwa [List.length_range] at hle

/-- One file is replaced, and the table is the same at the cells of the others. -/
theorem replace [DecidableEq ι] (h : Table F lo n files) (i : ι)
    (hsame : ∀ j, j ≠ i → ∀ c ∈ files j, F' c = F c) (hchain : l ≠ [] → Chain F' lo n l)
    (hnodup : l.Nodup) (hapart : ∀ j, j ≠ i → l.Disjoint (files j)) :
    Table F' lo n (Function.update files i l) where
  chain j hne := by
    by_cases hj : j = i
    · subst hj
      rw [Function.update_self] at hne ⊢
      exact hchain hne
    · rw [Function.update_of_ne hj] at hne ⊢
      exact (h.chain j hne).congr (hsame j hj)
  nodup j := by
    by_cases hj : j = i
    · subst hj
      rw [Function.update_self]
      exact hnodup
    · rw [Function.update_of_ne hj]
      exact h.nodup j
  apart j k hjk := by
    by_cases hj : j = i
    · subst hj
      rw [Function.update_self, Function.update_of_ne hjk.symm]
      exact hapart k hjk.symm
    · rw [Function.update_of_ne hj]
      by_cases hk : k = i
      · subst hk
        rw [Function.update_self]
        exact List.disjoint_comm.1 (hapart j hj)
      · rw [Function.update_of_ne hk]
        exact h.apart j k hjk

/-- One file is no longer looked at. -/
theorem drop [DecidableEq ι] (h : Table F lo n files) (i : ι)
    (hsame : ∀ j, j ≠ i → ∀ c ∈ files j, F' c = F c) :
    Table F' lo n (Function.update files i []) :=
  h.replace i hsame (fun hne => absurd rfl hne) List.nodup_nil fun _ _ => List.disjoint_nil_left _

end Table

end NuAgent.Chains
