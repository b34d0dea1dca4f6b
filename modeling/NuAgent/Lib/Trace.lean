import Mathlib.Data.Nat.Find
import Mathlib.Data.Nat.Notation
import Mathlib.Order.Basic

/-!
# Runs of a state machine and conditions along them

A machine is a step function; a run folds it over a list of events, which is one interleaving of
whatever parties the events belong to. `Along step C` says that every step of a run meets the
condition `C` on the state before it and on its event. The rules are the invariant rule, its
conditional form for runs that stay within a condition, a rule for properties that are lost for good
at the first step that does not meet it, one for properties of every state of the run, and a rule
that bounds the time an infinite run stays within a set of states.
-/

namespace NuAgent.Trace

variable {σ ε : Type*} {step : σ → ε → σ}

/-- The state after a run. -/
def run (step : σ → ε → σ) (s : σ) (evs : List ε) : σ := evs.foldl step s

@[simp] theorem run_nil (s : σ) : run step s [] = s := rfl

@[simp] theorem run_cons (s : σ) (e : ε) (evs : List ε) :
    run step s (e :: evs) = run step (step s e) evs := rfl

theorem run_append (s : σ) (xs ys : List ε) :
    run step s (xs ++ ys) = run step (run step s xs) ys := List.foldl_append

/-- A run of equal blocks, of which each takes a state at level `k + 1` to one at level `k`. -/
theorem run_blocks {P : ℕ → σ → Prop} {block : List ε}
    (hblock : ∀ k s, P (k + 1) s → P k (run step s block)) (n k : ℕ) {s : σ} (h : P (k + n) s) :
    P k (run step s (List.replicate n block).flatten) := by
  induction n generalizing s with
  | zero => exact h
  | succ n ih =>
    rw [List.replicate_succ, List.flatten_cons, run_append]
    exact ih (hblock (k + n) s h)

/-- Every step of the run meets `C`. -/
def Along (step : σ → ε → σ) (C : σ → ε → Prop) : σ → List ε → Prop
  | _, [] => True
  | s, e :: evs => C s e ∧ Along step C (step s e) evs

/-- Being along a run is meeting the condition at each of its steps. -/
theorem along_iff {C : σ → ε → Prop} {s : σ} {evs : List ε} :
    Along step C s evs ↔ ∀ pre e post, evs = pre ++ e :: post → C (run step s pre) e := by
  induction evs generalizing s with
  | nil => simp [Along]
  | cons e evs ih =>
    rw [Along, ih]
    constructor
    · rintro ⟨h0, h⟩ pre e' post heq
      cases pre with
      | nil =>
        obtain ⟨rfl, -⟩ := List.cons.inj heq
        exact h0
      | cons d pre =>
        rw [List.cons_append] at heq
        obtain ⟨rfl, htail⟩ := List.cons.inj heq
        exact h pre e' post htail
    · intro h
      exact ⟨h [] e evs rfl, fun pre e' post heq => h (e :: pre) e' post (by rw [heq]; rfl)⟩

theorem along_append {C : σ → ε → Prop} {s : σ} {xs ys : List ε} :
    Along step C s (xs ++ ys) ↔ Along step C s xs ∧ Along step C (run step s xs) ys := by
  induction xs generalizing s with
  | nil => simp [Along]
  | cons e xs ih => rw [List.cons_append, Along, Along, ih, and_assoc, run_cons]

/-- The invariant rule. -/
theorem run_inv {Inv : σ → Prop} (hstep : ∀ s e, Inv s → Inv (step s e)) {s : σ} (h : Inv s)
    (evs : List ε) : Inv (run step s evs) := by
  induction evs generalizing s with
  | nil => exact h
  | cons e evs ih => exact ih (hstep s e h)

/-- The invariant rule for runs whose steps all meet a condition. -/
theorem run_inv_along {Inv : σ → Prop} {C : σ → ε → Prop}
    (hstep : ∀ s e, C s e → Inv s → Inv (step s e)) {s : σ} (h : Inv s) {evs : List ε}
    (hC : Along step C s evs) : Inv (run step s evs) := by
  induction evs generalizing s with
  | nil => exact h
  | cons e evs ih => exact ih (hstep s e hC.1 h) hC.2

/-- A property that holds at the start, and after a step exactly when it held before and the step
met the condition, holds at the end of a run exactly when all of its steps met the condition. -/
theorem run_iff_along {Inv P : σ → Prop} {C : σ → ε → Prop}
    (hstep : ∀ s e, Inv s → Inv (step s e))
    (hP : ∀ s e, Inv s → (P (step s e) ↔ P s ∧ C s e)) {s : σ} (h : Inv s) (hs : P s)
    (evs : List ε) : P (run step s evs) ↔ Along step C s evs := by
  have hfail : ∀ (evs : List ε) (s : σ), Inv s → ¬ P s → ¬ P (run step s evs) := by
    intro evs
    induction evs with
    | nil => exact fun s _ hs => hs
    | cons e evs ih =>
      exact fun s h hs => ih (step s e) (hstep s e h) fun h' => hs ((hP s e h).mp h').1
  induction evs generalizing s with
  | nil => exact ⟨fun _ => trivial, fun _ => hs⟩
  | cons e evs ih =>
    rw [run_cons, Along]
    by_cases hC : C s e
    · have hrest := ih (hstep s e h) ((hP s e h).mpr ⟨hs, hC⟩)
      exact ⟨fun h' => ⟨hC, hrest.mp h'⟩, fun h' => hrest.mpr h'.2⟩
    · have hnot : ¬ P (step s e) := fun h' => hC ((hP s e h).mp h').2
      exact ⟨fun h' => absurd h' (hfail evs _ (hstep s e h) hnot), fun h' => absurd h'.1 hC⟩

/-- Let the steps of a run meet the condition `E`. If an invariant gives `P`, is kept by the steps
that meet `C`, and is followed by a state without `P` otherwise, then `P` holds in every state of the
run exactly when all of its steps meet `C`. -/
theorem always_iff_along {Inv P : σ → Prop} {E C : σ → ε → Prop} (hP : ∀ s, Inv s → P s)
    (hkeep : ∀ s e, E s e → Inv s → C s e → Inv (step s e))
    (hlose : ∀ s e, E s e → Inv s → ¬ C s e → ¬ P (step s e)) {s : σ} (h : Inv s) {evs : List ε}
    (hE : Along step E s evs) :
    (∀ n ≤ evs.length, P (run step s (evs.take n))) ↔ Along step C s evs := by
  induction evs generalizing s with
  | nil =>
    refine ⟨fun _ => trivial, fun _ n _ => ?_⟩
    rw [List.take_nil]
    exact hP s h
  | cons e evs ih =>
    obtain ⟨he, hE⟩ := hE
    constructor
    · intro hall
      have hC : C s e := by
        by_contra hC
        exact hlose s e he h hC (hall 1 (by simp))
      refine ⟨hC, (ih (hkeep s e he h hC) hE).mp fun n hn => ?_⟩
      exact hall (n + 1) (by simpa using hn)
    · rintro ⟨hC, hrest⟩ n hn
      cases n with
      | zero => exact hP s h
      | succ n => exact (ih (hkeep s e he h hC) hE).mpr hrest n (by simpa using hn)

/-! ## Infinite runs -/

/-- The states of a run over an infinite sequence of events. -/
def states (step : σ → ε → σ) (s : σ) (w : ℕ → ε) : ℕ → σ
  | 0 => s
  | n + 1 => step (states step s w n) (w n)

/-- The run stays within `P` for `n` steps, and the last of them leaves it. -/
def LeavesAfter (step : σ → ε → σ) (P : σ → Prop) (s : σ) (w : ℕ → ε) (n : ℕ) : Prop :=
  (∀ k < n, P (states step s w k)) ∧ ¬ P (states step s w n)

/-- A run that is not always within `P` leaves it for the first time. -/
theorem exists_leavesAfter {P : σ → Prop} {s : σ} {w : ℕ → ε} {m : ℕ}
    (h : ¬ P (states step s w m)) : ∃ n ≤ m, LeavesAfter step P s w n := by
  classical
  have hex : ∃ n, ¬ P (states step s w n) := ⟨m, h⟩
  refine ⟨Nat.find hex, Nat.find_min' hex h, fun k hk => ?_, Nat.find_spec hex⟩
  exact not_not.1 (Nat.find_min hex hk)

/-- The termination rule: a run whose steps within `P` decrease a measure leaves `P`. -/
theorem leavesAfter_of_measure {P : σ → Prop} {μ : σ → ℕ}
    (hstep : ∀ s e, P s → P (step s e) → μ (step s e) < μ s) (s : σ) (w : ℕ → ε) :
    ∃ n ≤ μ s + 1, LeavesAfter step P s w n := by
  by_contra hnone
  have hall : ∀ k ≤ μ s + 1, P (states step s w k) := by
    intro k hk
    by_contra hnot
    obtain ⟨n, hn, hleaves⟩ := exists_leavesAfter hnot
    exact hnone ⟨n, hn.trans hk, hleaves⟩
  have hdec : ∀ k ≤ μ s + 1, μ (states step s w k) + k ≤ μ s := by
    intro k
    induction k with
    | zero => exact fun _ => Nat.le_refl (μ s)
    | succ k ih =>
      intro hk
      have hlt := hstep _ (w k) (hall k (by omega)) (hall (k + 1) hk)
      have hle := ih (by omega)
      rw [states]
      omega
  have := hdec (μ s + 1) (Nat.le_refl _)
  omega

end NuAgent.Trace
