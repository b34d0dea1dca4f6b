import Mathlib.Data.List.Basic
import Mathlib.Data.Nat.Notation

/-!
# A store that items pass through

The specification of a queue, a mailbox or a counter of tokens: items arrive at the back or at the
front, leave from the front, and the store may be reset. `run` is the store after a history, `none`
for a history with an item that leaves and was not in front. Without resets no item is lost or
duplicated, and without arrivals at the front the items leave in the order of their arrival.
-/

namespace Broker

variable {α : Type*}

inductive Op (α : Type*) where
  | back (a : α)
  | front (a : α)
  | out (a : α)
  | reset (l : List α)

variable [DecidableEq α]

/-- The store after one operation. -/
def apply : List α → Op α → Option (List α)
  | l, .back a => some (l ++ [a])
  | l, .front a => some (a :: l)
  | b :: l, .out a => if b = a then some l else none
  | [], .out _ => none
  | _, .reset l => some l

/-- The store after a history. -/
def run (l : List α) : List (Op α) → Option (List α)
  | [] => some l
  | op :: ops => (apply l op).bind fun l' => run l' ops

@[simp] theorem run_nil (l : List α) : run l [] = some l := rfl

theorem run_cons (l : List α) (op : Op α) (ops : List (Op α)) :
    run l (op :: ops) = (apply l op).bind fun l' => run l' ops := rfl

theorem run_append (l : List α) (xs ys : List (Op α)) :
    run l (xs ++ ys) = (run l xs).bind fun l' => run l' ys := by
  induction xs generalizing l with
  | nil => rfl
  | cons op xs ih =>
    rw [List.cons_append, run_cons, run_cons]
    cases apply l op with
    | none => rfl
    | some l' => exact ih l'

/-- Histories one after the other. -/
theorem run_trans {l l' l'' : List α} {xs ys : List (Op α)} (hx : run l xs = some l')
    (hy : run l' ys = some l'') : run l (xs ++ ys) = some l'' := by
  rw [run_append, hx]
  exact hy

/-- An item that arrives at an empty store and leaves at once. -/
theorem run_pass (a : α) :
    run [] [.back a, .out a] = some [] ∧ run [] [.front a, .out a] = some [] := by
  constructor <;> simp [run, apply]

/-! ## What has arrived and what has left -/

/-- The items that arrived. -/
def arrived : List (Op α) → List α := List.filterMap fun
  | .back a => some a
  | .front a => some a
  | _ => none

/-- The items that left. -/
def left : List (Op α) → List α := List.filterMap fun
  | .out a => some a
  | _ => none

def Op.IsReset : Op α → Prop
  | .reset _ => True
  | _ => False

def Op.IsFront : Op α → Prop
  | .front _ => True
  | _ => False

/-- No item is lost or duplicated. -/
theorem run_perm {l l' : List α} {ops : List (Op α)} (hrun : run l ops = some l')
    (hreset : ∀ op ∈ ops, ¬ op.IsReset) : List.Perm (l ++ arrived ops) (left ops ++ l') := by
  induction ops generalizing l with
  | nil =>
    rw [run_nil] at hrun
    cases hrun
    simp [arrived, left]
  | cons op ops ih =>
    have hrest : ∀ op ∈ ops, ¬ op.IsReset := fun o ho => hreset o (List.mem_cons_of_mem op ho)
    rw [run_cons] at hrun
    cases op with
    | back a =>
      have h := ih hrun hrest
      rwa [List.append_assoc] at h
    | front a =>
      have h := ih hrun hrest
      exact List.perm_middle.trans h
    | out a =>
      cases l with
      | nil => cases hrun
      | cons b l =>
        by_cases hb : b = a
        · subst hb
          rw [apply, if_pos rfl] at hrun
          exact (ih hrun hrest).cons b
        · rw [apply, if_neg hb] at hrun
          cases hrun
    | reset l0 => exact absurd trivial (hreset _ List.mem_cons_self)

/-- Without arrivals at the front, items leave in the order of their arrival. -/
theorem run_fifo {l l' : List α} {ops : List (Op α)} (hrun : run l ops = some l')
    (hreset : ∀ op ∈ ops, ¬ op.IsReset) (hfront : ∀ op ∈ ops, ¬ op.IsFront) :
    l ++ arrived ops = left ops ++ l' := by
  induction ops generalizing l with
  | nil =>
    rw [run_nil] at hrun
    cases hrun
    simp [arrived, left]
  | cons op ops ih =>
    have hrest : ∀ op ∈ ops, ¬ op.IsReset := fun o ho => hreset o (List.mem_cons_of_mem op ho)
    have hback : ∀ op ∈ ops, ¬ op.IsFront := fun o ho => hfront o (List.mem_cons_of_mem op ho)
    rw [run_cons] at hrun
    cases op with
    | back a =>
      have h := ih hrun hrest hback
      rwa [List.append_assoc] at h
    | front a => exact absurd trivial (hfront _ List.mem_cons_self)
    | out a =>
      cases l with
      | nil => cases hrun
      | cons b l =>
        by_cases hb : b = a
        · subst hb
          rw [apply, if_pos rfl] at hrun
          exact congrArg (List.cons b) (ih hrun hrest hback)
        · rw [apply, if_neg hb] at hrun
          cases hrun
    | reset l0 => exact absurd trivial (hreset _ List.mem_cons_self)

end Broker
