import Mathlib.Algebra.Order.Ring.Nat
import NuAgent.Lib.DList

/-!
# Cell queues

The linked lists of `util.h` and the cell queues of `task_util.h`. List heads and cells begin with
the same two pointers, so a pointer may lead to either; a null pointer is `none`, and an operation
that follows one has no result. Critical sections are left out: one operation runs at a time.

Reference: `NL6621-Dev/Source/Include/util.h`, `util_init_list` to `util_dequeue_list`;
`NL6621-Dev/Source/Include/task_util.h`, `NST_GetCell` to `NST_InsertCellQue`.
-/

namespace NuAgent.Queue

open NuAgent.DList

/-- What an `NST_linked_list` pointer leads to: the head of a queue or a cell. -/
inductive Node (Q C : Type*) where
  | head (phead : Q)
  | cell (pCell : C)
deriving DecidableEq

/-- The list heads and the cells: their pointers, and the heads' other fields. -/
structure Mem (Q C : Type*) where
  links : Links (Node Q C)
  count : Q → UInt16
  lockRequired : Q → Bool

variable {Q C : Type*}

namespace Mem

section Pointers

variable [DecidableEq Q] [DecidableEq C] {m : Mem Q C} {n : Node Q C} {v : Option (Node Q C)}

def setPprev (m : Mem Q C) (n : Node Q C) (v : Option (Node Q C)) : Mem Q C :=
  { m with links := m.links.setPprev n v }

def setPnext (m : Mem Q C) (n : Node Q C) (v : Option (Node Q C)) : Mem Q C :=
  { m with links := m.links.setPnext n v }

@[simp] theorem setPprev_links : (m.setPprev n v).links = m.links.setPprev n v := rfl
@[simp] theorem setPprev_count : (m.setPprev n v).count = m.count := rfl
@[simp] theorem setPnext_links : (m.setPnext n v).links = m.links.setPnext n v := rfl
@[simp] theorem setPnext_count : (m.setPnext n v).count = m.count := rfl

end Pointers

section Heads

variable [DecidableEq Q] {m : Mem Q C} {phead q : Q} {k : UInt16} {b : Bool}

def setCount (m : Mem Q C) (phead : Q) (k : UInt16) : Mem Q C :=
  { m with count := Function.update m.count phead k }

def setLockRequired (m : Mem Q C) (phead : Q) (lockRequired : Bool) : Mem Q C :=
  { m with lockRequired := Function.update m.lockRequired phead lockRequired }

@[simp] theorem setCount_links : (m.setCount phead k).links = m.links := rfl
@[simp] theorem setCount_count :
    (m.setCount phead k).count q = if q = phead then k else m.count q := Function.update_apply ..
@[simp] theorem setLockRequired_links : (m.setLockRequired phead b).links = m.links := rfl
@[simp] theorem setLockRequired_count : (m.setLockRequired phead b).count = m.count := rfl

end Heads

end Mem

variable [DecidableEq Q] [DecidableEq C]

/-! ## `util.h` -/

/-- `util_init_list`. -/
def utilInitList (m : Mem Q C) (phead : Node Q C) : Mem Q C :=
  (m.setPnext phead (some phead)).setPprev phead (some phead)

/-- `util_init_list_head`. -/
def utilInitListHead (m : Mem Q C) (phead : Q) (lockRequired : Bool) : Mem Q C :=
  let m := utilInitList m (.head phead)
  let m := m.setCount phead 0
  m.setLockRequired phead lockRequired

/-- `util_peek_list`: the node returned. -/
def utilPeekList (m : Mem Q C) (phead : Q) : Option (Node Q C) :=
  if m.links.pnext (.head phead) ≠ some (.head phead) then m.links.pnext (.head phead) else none

/-- `util_enqueue_list_tail`. -/
def utilEnqueueListTail (m : Mem Q C) (phead : Q) (pnode : Node Q C) : Option (Mem Q C) := do
  let poldLast := m.links.pprev (.head phead)
  let m := m.setPprev pnode poldLast
  let m := m.setPnext pnode (some (.head phead))
  let old ← poldLast
  let m := m.setPnext old (some pnode)
  let m := m.setPprev (.head phead) (some pnode)
  some (m.setCount phead (m.count phead + 1))

/-- `util_enqueue_list_head`. -/
def utilEnqueueListHead (m : Mem Q C) (phead : Q) (pnode : Node Q C) : Option (Mem Q C) := do
  let poldFirst := m.links.pnext (.head phead)
  let m := m.setPprev pnode (some (.head phead))
  let m := m.setPnext pnode poldFirst
  let old ← poldFirst
  let m := m.setPprev old (some pnode)
  let m := m.setPnext (.head phead) (some pnode)
  some (m.setCount phead (m.count phead + 1))

/-- `util_unlink_list`. -/
def utilUnlinkList (m : Mem Q C) (phead : Q) (pnode : Node Q C) : Option (Mem Q C) := do
  let pmyPrev := m.links.pprev pnode
  let pmyNext := m.links.pnext pnode
  let next ← pmyNext
  let m := m.setPprev next pmyPrev
  let prev ← pmyPrev
  let m := m.setPnext prev pmyNext
  let m := m.setCount phead (m.count phead - 1)
  let m := m.setPprev pnode none
  some (m.setPnext pnode none)

/-- `util_dequeue_list`: the lists after it and the node returned. -/
def utilDequeueList (m : Mem Q C) (phead : Q) : Option (Mem Q C × Option (Node Q C)) :=
  match m.links.pnext (.head phead) with
  | none => some (m, none)
  | some pnode =>
    if pnode ≠ .head phead then (utilUnlinkList m phead pnode).map fun m => (m, some pnode)
    else some (m, none)

/-! ## `task_util.h` -/

/-- `NST_GetCell`. -/
def nstGetCell (m : Mem Q C) (pQueHead : Q) : Option (Mem Q C × Option (Node Q C)) :=
  utilDequeueList m pQueHead

/-- `NST_PeekCell`. -/
def nstPeekCell (m : Mem Q C) (pQueHead : Q) : Option (Node Q C) := utilPeekList m pQueHead

/-- `NST_FreeCell`. -/
def nstFreeCell (m : Mem Q C) (pFreeQueHead : Q) (pCell : C) : Option (Mem Q C) :=
  utilEnqueueListTail m pFreeQueHead (.cell pCell)

/-- `NST_RemoveCell`; the cell is `none` for a null pointer. -/
def nstRemoveCell (m : Mem Q C) (pQueHead : Q) (pCell : Option C) : Option (Mem Q C) :=
  match pCell with
  | none => some m
  | some c =>
    if m.links.pnext (.cell c) ≠ none ∧ m.links.pprev (.cell c) ≠ none then
      utilUnlinkList m pQueHead (.cell c)
    else some m

/-- `NST_InsertCell`. -/
def nstInsertCell (m : Mem Q C) (pQueHead : Q) (pCell : C) (addTail : Bool) : Option (Mem Q C) :=
  if addTail then utilEnqueueListTail m pQueHead (.cell pCell)
  else utilEnqueueListHead m pQueHead (.cell pCell)

/-- `NST_QueSize`. -/
def nstQueSize (m : Mem Q C) (pQueHead : Q) : UInt16 := m.count pQueHead

/-- `NST_IsQueEmpty`. -/
def nstIsQueEmpty (m : Mem Q C) (pQueHead : Q) : Bool := m.count pQueHead = 0

/-- The end of `NST_InsertCellQue`: the counts are added and the inserted queue is emptied. -/
def nstInsertCellQueEnd (m : Mem Q C) (pQueHead pInsertedQueHead : Q) : Mem Q C :=
  let m := m.setCount pQueHead (m.count pQueHead + m.count pInsertedQueHead)
  let m := m.setPprev (.head pInsertedQueHead) (some (.head pInsertedQueHead))
  let m := m.setPnext (.head pInsertedQueHead) (some (.head pInsertedQueHead))
  m.setCount pInsertedQueHead 0

/-- `NST_InsertCellQue`. -/
def nstInsertCellQue (m : Mem Q C) (pQueHead pInsertedQueHead : Q) (addTail : Bool) :
    Option (Mem Q C) :=
  if m.count pInsertedQueHead = 0 then some m
  else if addTail then do
    let pQueLastCell ← m.links.pprev (.head pQueHead)
    let pInsertedQueFirstCell := m.links.pnext (.head pInsertedQueHead)
    let pInsertedQueLastCell := m.links.pprev (.head pInsertedQueHead)
    let m := m.setPnext pQueLastCell pInsertedQueFirstCell
    let first ← pInsertedQueFirstCell
    let m := m.setPprev first (some pQueLastCell)
    let m := m.setPprev (.head pQueHead) pInsertedQueLastCell
    let last ← pInsertedQueLastCell
    let m := m.setPnext last (some (.head pQueHead))
    some (nstInsertCellQueEnd m pQueHead pInsertedQueHead)
  else do
    let pQueFirstCell := m.links.pnext (.head pQueHead)
    let pInsertedQueLastCell ← m.links.pprev (.head pInsertedQueHead)
    let pInsertedQueFirstCell := m.links.pnext (.head pInsertedQueHead)
    let m := m.setPnext pInsertedQueLastCell pQueFirstCell
    let old ← pQueFirstCell
    let m := m.setPprev old (some pInsertedQueLastCell)
    let m := m.setPnext (.head pQueHead) pInsertedQueFirstCell
    let first ← pInsertedQueFirstCell
    let m := m.setPprev first (some (.head pQueHead))
    some (nstInsertCellQueEnd m pQueHead pInsertedQueHead)

end NuAgent.Queue
