import Mathlib.Data.Nat.Notation
import Mathlib.Data.List.FinRange

/-!
# Searching loops as folds

A loop that walks over a list and updates several findings at once is a `List.foldl` on a record.
Each finding is a projection `g` of that record; the lemmas here describe the final value of a
projection whose one-step behaviour is that of a first-match, a last-match or a flag-raising loop,
whatever the loop does to the other findings. A loop that looks for several things and then takes the
best one it found makes a ranked choice (`FirstOf`).
-/

namespace Search

variable {σ α : Type*} {f : σ → α → σ} {p : α → Prop} [DecidablePred p]

/-- A finding that is set by the first match and then kept. -/
theorem foldl_first {g : σ → Option α}
    (hg : ∀ s x, g (f s x) = if g s = none ∧ p x then some x else g s) (l : List α) (s : σ) :
    g (l.foldl f s) = (g s).or (l.find? fun x => decide (p x)) := by
  induction l generalizing s with
  | nil => simp
  | cons x l ih =>
    rw [List.foldl_cons, ih, hg]
    cases hs : g s <;> by_cases hx : p x <;> simp [hx]

/-- A value that is overwritten at every match. -/
theorem foldl_overwrite {β : Type*} {g : σ → β} {v : α → β}
    (hg : ∀ s x, g (f s x) = if p x then v x else g s) (l : List α) (s : σ) :
    g (l.foldl f s) = (l.reverse.find? fun x => decide (p x)).elim (g s) v := by
  induction l generalizing s with
  | nil => rfl
  | cons x l ih =>
    rw [List.foldl_cons, ih, hg, List.reverse_cons, List.find?_append]
    cases l.reverse.find? fun x => decide (p x) with
    | some y => rfl
    | none => by_cases hx : p x <;> simp [hx]

/-- A finding that is overwritten at every match. -/
theorem foldl_last {g : σ → Option α}
    (hg : ∀ s x, g (f s x) = if p x then some x else g s) (l : List α) (s : σ) :
    g (l.foldl f s) = (l.reverse.find? fun x => decide (p x)).or (g s) := by
  rw [foldl_overwrite hg]
  cases l.reverse.find? fun x => decide (p x) <;> rfl

/-- A flag that a match raises and nothing lowers. -/
theorem foldl_flag {g : σ → Bool}
    (hg : ∀ s x, g (f s x) = (g s || decide (p x))) (l : List α) (s : σ) :
    g (l.foldl f s) = (g s || l.any fun x => decide (p x)) := by
  induction l generalizing s with
  | nil => simp
  | cons x l ih => rw [List.foldl_cons, ih, hg, List.any_cons, Bool.or_assoc]

variable {n : ℕ} {q : Fin n → Prop} [DecidablePred q]

/-- A search over all indices that finds something finds a match. -/
theorem find?_finRange_some {i : Fin n}
    (h : (List.finRange n).find? (fun x => decide (q x)) = some i) : q i := by
  simpa using List.find?_some h

/-- A search over all indices that finds nothing shows that there is no match. -/
theorem find?_finRange_none
    (h : (List.finRange n).find? (fun x => decide (q x)) = none) (i : Fin n) : ¬ q i := by
  simpa using List.find?_eq_none.mp h i (List.mem_finRange i)

/-- As `find?_finRange_some`, for a search from the last index on. -/
theorem find?_finRange_reverse_some {i : Fin n}
    (h : (List.finRange n).reverse.find? (fun x => decide (q x)) = some i) : q i := by
  simpa using List.find?_some h

/-- As `find?_finRange_none`, for a search from the last index on. -/
theorem find?_finRange_reverse_none
    (h : (List.finRange n).reverse.find? (fun x => decide (q x)) = none) (i : Fin n) : ¬ q i := by
  simpa using List.find?_eq_none.mp h i (List.mem_reverse.mpr (List.mem_finRange i))

/-! ## Ranked choices -/

/-- A choice from the first of some classes that is not empty. -/
def FirstOf {β : Type*} : List (β → Prop) → β → Prop
  | [], _ => False
  | P :: Ps, a => P a ∨ (∀ b, ¬ P b) ∧ FirstOf Ps a

section
variable {β : Type*} {P Q : β → Prop} {Ps Qs : List (β → Prop)} {a : β}

/-- Trying a search before the others. -/
theorem FirstOf.or {o o' : Option β} (hsome : ∀ b, o = some b → P b)
    (hnone : o = none → ∀ b, ¬ P b) (h : (∀ b, ¬ P b) → o' = some a → FirstOf Ps a)
    (ha : o.or o' = some a) : FirstOf (P :: Ps) a := by
  cases ho : o with
  | some b =>
    rw [ho, Option.some_or] at ha
    exact .inl (hsome a (ho.trans ha))
  | none =>
    rw [ho, Option.none_or] at ha
    exact .inr ⟨hnone ho, h (hnone ho) ha⟩

/-- An empty class can be put in second place. -/
theorem FirstOf.insert_second (h : FirstOf (P :: Ps) a) (hQ : ∀ b, ¬ Q b) :
    FirstOf (P :: Q :: Ps) a := by
  rcases h with h | ⟨hP, h⟩
  · exact .inl h
  · exact .inr ⟨hP, .inr ⟨hQ, h⟩⟩

/-- The choice is from one of the classes. -/
theorem FirstOf.mem (h : FirstOf Ps a) : ∃ P ∈ Ps, P a := by
  induction Ps with
  | nil => exact h.elim
  | cons P Ps ih =>
    rcases h with h | ⟨-, h⟩
    · exact ⟨P, List.mem_cons_self, h⟩
    · obtain ⟨Q, hQ, ha⟩ := ih h
      exact ⟨Q, List.mem_cons_of_mem P hQ, ha⟩

/-- The classes tried before the one of the choice are empty. -/
theorem FirstOf.empty (h : FirstOf (Ps ++ Qs) a) (ha : ∀ P ∈ Ps, ¬ P a) :
    ∀ P ∈ Ps, ∀ b, ¬ P b := by
  induction Ps with
  | nil => exact fun P hP => absurd hP List.not_mem_nil
  | cons P Ps ih =>
    rcases h with h | ⟨hP, h⟩
    · exact absurd h (ha P List.mem_cons_self)
    · intro Q hQ
      rcases List.mem_cons.mp hQ with rfl | hQ
      · exact hP
      · exact ih h (fun R hR => ha R (List.mem_cons_of_mem P hR)) Q hQ

end

end Search
