import Mathlib.Data.List.Basic
import Mathlib.Data.Nat.Notation

/-!
# Texts with holes

A pattern is a text in which some cells are holes. `Fits` says that a piece of memory agrees with a
pattern outside of its holes, up to a map that forgets what does not matter (the case of a letter,
say); its equations follow the pattern cell by cell and piece by piece, as a loop that compares
does. `map_fill_eq_iff` splits the comparison with a text into what `Fits` sees and what it does
not.
-/

namespace Holes

variable {α β : Type*} {f : α → β} {mem text : List α} {p q : List (Option α)} {c x : α} {m : ℕ}

/-- The cells from `m` on agree with the pattern outside of its holes. -/
def Fits (f : α → β) (mem : List α) (m : ℕ) (p : List (Option α)) : Prop :=
  ∀ (i : ℕ) (c : α), p[i]? = some (some c) → ∃ d, mem[m + i]? = some d ∧ f d = f c

theorem fits_nil : Fits f mem m [] := by
  intro i c h
  cases h

theorem fits_append : Fits f mem m (p ++ q) ↔ Fits f mem m p ∧ Fits f mem (m + p.length) q := by
  constructor
  · intro h
    refine ⟨fun i c hi => h i c ?_, fun i c hi => ?_⟩
    · obtain ⟨hlt, -⟩ := List.getElem?_eq_some_iff.mp hi
      rw [List.getElem?_append_left hlt, hi]
    · have hq := h (p.length + i) c (by
        rw [List.getElem?_append_right (Nat.le_add_right _ _), Nat.add_sub_cancel_left, hi])
      rwa [← Nat.add_assoc] at hq
  · rintro ⟨hp, hq⟩ i c hi
    rcases Nat.lt_or_ge i p.length with hlt | hge
    · rw [List.getElem?_append_left hlt] at hi
      exact hp i c hi
    · rw [List.getElem?_append_right hge] at hi
      have hcell := hq (i - p.length) c hi
      rwa [Nat.add_assoc, Nat.add_sub_cancel' hge] at hcell

theorem fits_some : Fits f mem m [some c] ↔ ∃ d, mem[m]? = some d ∧ f d = f c := by
  constructor
  · exact fun h => h 0 c rfl
  · intro h i c' hi
    cases i with
    | zero =>
      cases hi
      exact h
    | succ i => cases hi

theorem fits_cons_some : Fits f mem m (some c :: p) ↔
    (∃ d, mem[m]? = some d ∧ f d = f c) ∧ Fits f mem (m + 1) p := by
  rw [← List.singleton_append, fits_append, fits_some, List.length_singleton]

theorem fits_cons_none : Fits f mem m (none :: p) ↔ Fits f mem (m + 1) p := by
  have hhole : Fits f mem m [none] := by
    intro i c hi
    cases i with
    | zero => cases hi
    | succ i => cases hi
  rw [← List.singleton_append, fits_append, and_iff_right hhole, List.length_singleton]

/-- What lies behind the cells of the pattern does not matter. -/
theorem fits_append_mem (hlen : m + p.length ≤ mem.length) (t : List α) :
    Fits f (mem ++ t) m p ↔ Fits f mem m p := by
  have hcell : ∀ (i : ℕ) (c : α), p[i]? = some (some c) → (mem ++ t)[m + i]? = mem[m + i]? := by
    intro i c hi
    obtain ⟨hlt, -⟩ := List.getElem?_eq_some_iff.mp hi
    rw [List.getElem?_append_left (by omega)]
  constructor
  · intro h i c hi
    rw [← hcell i c hi]
    exact h i c hi
  · intro h i c hi
    rw [hcell i c hi]
    exact h i c hi

/-! ## Filling the holes -/

/-- The pattern with `x` in its holes. -/
def fill (x : α) (p : List (Option α)) : List α := p.map (·.getD x)

/-- The text has `x`, or what looks like it, where the pattern has its holes. -/
def Filled (f : α → β) (x : α) (text : List α) (p : List (Option α)) : Prop :=
  ∀ i : ℕ, p[i]? = some none → ∃ d, text[i]? = some d ∧ f d = f x

/-- A text is a filled pattern iff it has the length of the pattern, fits it, and has its holes
filled. -/
theorem map_fill_eq_iff : (fill x p).map f = text.map f ↔
    text.length = p.length ∧ Fits f text 0 p ∧ Filled f x text p := by
  have hcell : ∀ i : ℕ, ((fill x p).map f)[i]? = p[i]?.map fun o : Option α => f (o.getD x) := by
    intro i
    rw [fill, List.map_map, List.getElem?_map]
    rfl
  constructor
  · intro h
    have hlen : text.length = p.length := by
      have hlengths := congrArg List.length h
      rw [fill, List.length_map, List.length_map, List.length_map] at hlengths
      exact hlengths.symm
    have hboth : ∀ (i : ℕ) (o : Option α), p[i]? = some o →
        ∃ d, text[i]? = some d ∧ f d = f (o.getD x) := by
      intro i o hi
      have hfi := hcell i
      rw [h, hi, List.getElem?_map, Option.map_some, Option.map_eq_some_iff] at hfi
      exact hfi
    refine ⟨hlen, fun i c hi => ?_, fun i hi => hboth i none hi⟩
    rw [Nat.zero_add]
    exact hboth i (some c) hi
  · rintro ⟨hlen, hfits, hfilled⟩
    apply List.ext_getElem?
    intro i
    rw [hcell, List.getElem?_map]
    cases hi : p[i]? with
    | none =>
      have hge := List.getElem?_eq_none_iff.mp hi
      rw [List.getElem?_eq_none (by omega)]
      rfl
    | some o =>
      cases o with
      | none =>
        obtain ⟨d, hd, hfd⟩ := hfilled i hi
        rw [hd, Option.map_some, Option.map_some, hfd, Option.getD_none]
      | some c =>
        obtain ⟨d, hd, hfd⟩ := hfits i c hi
        rw [Nat.zero_add] at hd
        rw [hd, Option.map_some, Option.map_some, hfd, Option.getD_some]

/-! ## Separated pieces -/

/-- The pieces with a hole between each two. -/
def separated (pieces : List (List α)) : List (Option α) :=
  [none].intercalate (pieces.map (List.map some))

theorem separated_singleton (l : List α) : separated [l] = l.map some := by
  rw [separated, List.map_singleton, List.intercalate_singleton]

theorem separated_cons (l : List α) {pieces : List (List α)} (h : pieces ≠ []) :
    separated (l :: pieces) = l.map some ++ none :: separated pieces := by
  rw [separated, List.map_cons, List.intercalate_cons_of_ne_nil (by simpa using h), separated,
    List.append_assoc, List.singleton_append]

/-- The pieces are in the text that joins them. -/
theorem mem_intercalate {pieces : List (List α)} {l : List α} (hl : l ∈ pieces) (hc : c ∈ l) :
    c ∈ [x].intercalate pieces := by
  induction pieces with
  | nil => cases hl
  | cons l' pieces ih =>
    by_cases h : pieces = []
    · rw [h, List.mem_singleton] at hl
      rw [h, List.intercalate_singleton, ← hl]
      exact hc
    · rw [List.intercalate_cons_of_ne_nil h, List.mem_append, List.mem_append]
      rcases List.mem_cons.mp hl with rfl | hl
      · exact .inl (.inl hc)
      · exact .inr (ih hl)

/-- Filling the holes gives the pieces joined with the separator. -/
theorem fill_separated (x : α) (pieces : List (List α)) :
    fill x (separated pieces) = [x].intercalate pieces := by
  induction pieces with
  | nil => rfl
  | cons l pieces ih =>
    have hl : (l.map some).map (fun o : Option α => o.getD x) = l := by
      rw [List.map_map]
      exact List.map_id l
    by_cases h : pieces = []
    · rw [h, separated_singleton, List.intercalate_singleton, fill, hl]
    · rw [separated_cons l h, List.intercalate_cons_of_ne_nil h, ← ih, fill, List.map_append, hl,
        List.map_cons, fill, Option.getD_none, List.append_assoc, List.singleton_append]

end Holes
