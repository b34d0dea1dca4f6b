import Mathlib.Data.List.Basic
import Mathlib.Data.List.TakeWhile

/-!
# Bounded retries

A task is tried until an attempt succeeds or its attempts are used up. The outcome is the number of
attempts that were left, `none` when the last one failed too. `runAll` tries a list of tasks one
after the other, whatever comes of them; `runUntil` stops behind the first task whose outcome is
bad. The second is a prefix of the first (`runUntil_eq`), so what a stopped run did can be read off
the outcomes of the full one.
-/

namespace Retry

variable {σ τ : Type*} (attempt : τ → σ → σ × Bool)

/-- Up to `n` attempts at the task `t`. -/
def retry (t : τ) : ℕ → σ → σ × Option ℕ
  | 0, s => (s, none)
  | n + 1, s => if (attempt t s).2 then ((attempt t s).1, some n) else retry t n (attempt t s).1

/-- All tasks in order, with up to `n` attempts at each, and their outcomes. -/
def runAll (n : ℕ) : List τ → σ → σ × List (Option ℕ)
  | [], s => (s, [])
  | t :: ts, s =>
      let r := retry attempt t n s
      let rest := runAll n ts r.1
      (rest.1, r.2 :: rest.2)

/-- The tasks in order up to the first one with a bad outcome, and whether there was one. -/
def runUntil (bad : Option ℕ → Bool) (n : ℕ) : List τ → σ → σ × Bool
  | [], s => (s, false)
  | t :: ts, s =>
      let r := retry attempt t n s
      if bad r.2 then (r.1, true) else runUntil bad n ts r.1

/-- The number of attempts, of `n`, that a task with this outcome took. -/
def used (n : ℕ) : Option ℕ → ℕ
  | some j => n - j
  | none => n

variable {attempt} {n : ℕ} {ts : List τ} {s : σ}

/-- A loop that counts its attempts down ends with the attempts that are left, or with what the
counter is after the last one failed too. -/
theorem countdown_eq {t : τ} {wrapped : ℕ} {f : ℕ → σ → σ × ℕ}
    (hzero : ∀ s, f 0 s = (s, wrapped))
    (hsucc : ∀ j s, f (j + 1) s =
      if (attempt t s).2 then ((attempt t s).1, j) else f j (attempt t s).1) :
    f n s = ((retry attempt t n s).1, (retry attempt t n s).2.getD wrapped) := by
  induction n generalizing s with
  | zero => exact hzero s
  | succ n ih =>
    rw [hsucc, retry]
    split_ifs
    · rfl
    · exact ih

/-- At least one attempt is used by a task that succeeds. -/
theorem retry_lt {t : τ} {j : ℕ} (h : (retry attempt t n s).2 = some j) : j < n := by
  induction n generalizing s with
  | zero => cases h
  | succ n ih =>
    rw [retry] at h
    split_ifs at h with hok
    · cases h
      exact Nat.lt_succ_self _
    · exact Nat.lt_succ_of_lt (ih h)

@[simp] theorem length_runAll : (runAll attempt n ts s).2.length = ts.length := by
  induction ts generalizing s with
  | nil => rfl
  | cons t ts ih => exact congrArg (· + 1) ih

/-- Every task of a run takes an attempt. -/
theorem used_pos (hn : 0 < n) {o : Option ℕ} (ho : o ∈ (runAll attempt n ts s).2) :
    0 < used n o := by
  induction ts generalizing s with
  | nil => exact absurd ho List.not_mem_nil
  | cons t ts ih =>
    rcases List.mem_cons.mp ho with rfl | ho
    · cases hr : (retry attempt t n s).2 with
      | none => exact hn
      | some j => exact Nat.sub_pos_of_lt (retry_lt hr)
    · exact ih ho

/-- The outcomes of the first tasks are the first outcomes. -/
theorem runAll_take (k : ℕ) :
    (runAll attempt n (ts.take k) s).2 = (runAll attempt n ts s).2.take k := by
  induction ts generalizing k s with
  | nil => simp [runAll]
  | cons t ts ih =>
    cases k with
    | zero => rfl
    | succ k => exact congrArg (_ :: ·) (ih k)

/-- A stopped run is the run of the tasks up to the first bad outcome. -/
theorem runUntil_eq (bad : Option ℕ → Bool) :
    runUntil attempt bad n ts s =
      ((runAll attempt n (ts.take ((runAll attempt n ts s).2.findIdx bad + 1)) s).1,
        (runAll attempt n ts s).2.any bad) := by
  induction ts generalizing s with
  | nil => rfl
  | cons t ts ih =>
    simp only [runUntil, runAll, List.findIdx_cons, List.any_cons]
    by_cases hbad : bad (retry attempt t n s).2
    · simp [hbad, runAll]
    · rw [if_neg hbad, ih]
      simp [hbad, runAll]

/-! ## The commands of a run -/

section
variable {γ : Type*} (cmd : τ → γ)

/-- An attempt that also records its command. -/
def logging (attempt : τ → σ → σ × Bool) : τ → σ × List γ → (σ × List γ) × Bool :=
  fun t s => (((attempt t s.1).1, s.2 ++ [cmd t]), (attempt t s.1).2)

/-- The commands of tasks with the outcomes `os`: one for each attempt. -/
def sent (n : ℕ) : List τ → List (Option ℕ) → List γ
  | t :: ts, o :: os => List.replicate (used n o) (cmd t) ++ sent n ts os
  | _, _ => []

theorem retry_logging (t : τ) (log : List γ) :
    retry (logging cmd attempt) t n (s, log) =
      (((retry attempt t n s).1, log ++ List.replicate (used n (retry attempt t n s).2) (cmd t)),
        (retry attempt t n s).2) := by
  induction n generalizing s log with
  | zero => simp [retry, used]
  | succ n ih =>
    rw [retry, retry]
    by_cases hok : (attempt t s).2
    · simp [logging, hok, used]
    · have hused : used (n + 1) (retry attempt t n (attempt t s).1).2 =
          used n (retry attempt t n (attempt t s).1).2 + 1 := by
        cases hr : (retry attempt t n (attempt t s).1).2 with
        | none => rfl
        | some j =>
          have := retry_lt hr
          simp only [used]
          omega
      simp [logging, hok, ih, hused, List.replicate_succ]

/-- Recording changes nothing but the record. -/
theorem runAll_logging (log : List γ) :
    runAll (logging cmd attempt) n ts (s, log) =
      (((runAll attempt n ts s).1, log ++ sent cmd n ts (runAll attempt n ts s).2),
        (runAll attempt n ts s).2) := by
  induction ts generalizing s log with
  | nil => simp [runAll, sent]
  | cons t ts ih => simp [runAll, retry_logging, ih, sent]

variable {cmd}

/-- The outcomes of tasks that are not tried do not matter. -/
theorem sent_take (k : ℕ) (os : List (Option ℕ)) :
    sent cmd n (ts.take k) (os.take k) = sent cmd n (ts.take k) os := by
  induction ts generalizing k os with
  | nil => simp [sent]
  | cons t ts ih =>
    cases k with
    | zero => simp [sent]
    | succ k =>
      cases os with
      | nil => rfl
      | cons o os => simp [sent, ih]

/-- The commands of the first `k` tasks begin those of the first `m` iff there are no more of
them. -/
theorem sent_prefix_iff {os : List (Option ℕ)} (hlen : os.length = ts.length)
    (hpos : ∀ o ∈ os, 0 < used n o) {k m : ℕ} (hk : k ≤ ts.length) :
    sent cmd n (ts.take k) os <+: sent cmd n (ts.take m) os ↔ k ≤ m := by
  induction ts generalizing os k m with
  | nil =>
    have hzero : k = 0 := Nat.le_zero.mp hk
    simp [hzero]
  | cons t ts ih =>
    cases os with
    | nil => cases hlen
    | cons o os =>
      cases k with
      | zero => exact iff_of_true List.nil_prefix (Nat.zero_le m)
      | succ k =>
        cases m with
        | zero =>
          refine iff_of_false (fun hpre => ?_) (Nat.not_succ_le_zero k)
          have hnil := List.prefix_nil.mp hpre
          have hused := hpos o List.mem_cons_self
          have hlen := congrArg List.length hnil
          simp only [List.take_succ_cons, sent, List.length_append, List.length_replicate,
            List.length_nil] at hlen
          omega
        | succ m =>
          have hrest : sent cmd n (ts.take k) os <+: sent cmd n (ts.take m) os ↔ k ≤ m :=
            ih (Nat.succ.inj hlen) (fun o ho => hpos o (List.mem_cons_of_mem _ ho))
              (Nat.le_of_succ_le_succ hk)
          simp only [List.take_succ_cons, sent, List.prefix_append_right_inj, hrest,
            Nat.succ_le_succ_iff]

end

end Retry
