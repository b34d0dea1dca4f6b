import Mathlib.Data.Nat.Notation
import Mathlib.Logic.Function.Basic
import NuAgent.Lib.Bitmap

/-!
# The kernel's tables

Reference: `uCOS-II/os_core.c`, with the types of `ucos_ii.h` and the settings of `os_cfg.h`.

Without `OSTaskChangePrio` and the mutexes, of which the source calls the first nowhere, a task keeps
the priority it was created with, so the task control blocks are named by `OSTCBPrio`. The bits of a
task (`OSTCBX`, `OSTCBY`, `OSTCBBitX`, `OSTCBBitY`) are computed from its priority where
`OS_TCBInit` stores them.
-/

namespace NuAgent.Rtos

open Bitmap

/-! ## The source -/

/-- `OS_TASK_IDLE_PRIO`, which is `OS_LOWEST_PRIO`. -/
abbrev osTaskIdlePrio : ℕ := 63

abbrev osStatRdy : UInt8 := 0x00
abbrev osStatSem : UInt8 := 0x01
abbrev osStatMbox : UInt8 := 0x02
abbrev osStatQ : UInt8 := 0x04
abbrev osStatSuspend : UInt8 := 0x08
abbrev osStatMutex : UInt8 := 0x10
abbrev osStatFlag : UInt8 := 0x20

abbrev osStatPendAny : UInt8 :=
  osStatSem ||| osStatMbox ||| osStatQ ||| osStatMutex ||| osStatFlag

/-- `OSTCBStatPend`. -/
inductive StatPend where
  | ok
  | timeout
  | abort
deriving DecidableEq

/-- `OSEventType`. -/
inductive EventType where
  | unused
  | mbox
  | q
  | sem
  | mutex
  | flag
deriving DecidableEq

/-- `OS_TCB`; a message is a pointer, 0 for none, and `osTcbEventPtr` names the event. -/
structure OsTcb where
  osTcbStat : UInt8
  osTcbStatPend : StatPend
  osTcbDly : ℕ
  osTcbMsg : ℕ
  osTcbEventPtr : Option ℕ

/-- `OS_Q`: the cells from `OSQStart` to `OSQEnd`, with the indices of `OSQIn` and `OSQOut`. -/
structure OsQ where
  osqIn : ℕ
  osqOut : ℕ
  osqSize : ℕ
  osqEntries : ℕ
  cells : ℕ → ℕ

/-- `OS_EVENT`; `OSEventGrp` and `OSEventTbl` are the table `wait`, `OSEventPtr` is the queue. -/
structure OsEvent where
  osEventType : EventType
  osEventCnt : ℕ
  osEventPtr : OsQ
  wait : Table 8

/-- The kernel's globals; `OSRdyGrp` and `OSRdyTbl` are the table `rdy`, `tcb` is `OSTCBPrioTbl`. -/
structure Kernel where
  osIntNesting : ℕ
  osLockNesting : ℕ
  osPrioCur : ℕ
  osTime : UInt32
  rdy : Table 8
  tcb : ℕ → Option OsTcb
  osTcbList : List ℕ
  event : ℕ → OsEvent

/-- `OSUnMapTbl`. -/
def osUnMapTbl : List ℕ :=
  [0, 0, 1, 0, 2, 0, 1, 0, 3, 0, 1, 0, 2, 0, 1, 0,
   4, 0, 1, 0, 2, 0, 1, 0, 3, 0, 1, 0, 2, 0, 1, 0,
   5, 0, 1, 0, 2, 0, 1, 0, 3, 0, 1, 0, 2, 0, 1, 0,
   4, 0, 1, 0, 2, 0, 1, 0, 3, 0, 1, 0, 2, 0, 1, 0,
   6, 0, 1, 0, 2, 0, 1, 0, 3, 0, 1, 0, 2, 0, 1, 0,
   4, 0, 1, 0, 2, 0, 1, 0, 3, 0, 1, 0, 2, 0, 1, 0,
   5, 0, 1, 0, 2, 0, 1, 0, 3, 0, 1, 0, 2, 0, 1, 0,
   4, 0, 1, 0, 2, 0, 1, 0, 3, 0, 1, 0, 2, 0, 1, 0,
   7, 0, 1, 0, 2, 0, 1, 0, 3, 0, 1, 0, 2, 0, 1, 0,
   4, 0, 1, 0, 2, 0, 1, 0, 3, 0, 1, 0, 2, 0, 1, 0,
   5, 0, 1, 0, 2, 0, 1, 0, 3, 0, 1, 0, 2, 0, 1, 0,
   4, 0, 1, 0, 2, 0, 1, 0, 3, 0, 1, 0, 2, 0, 1, 0,
   6, 0, 1, 0, 2, 0, 1, 0, 3, 0, 1, 0, 2, 0, 1, 0,
   4, 0, 1, 0, 2, 0, 1, 0, 3, 0, 1, 0, 2, 0, 1, 0,
   5, 0, 1, 0, 2, 0, 1, 0, 3, 0, 1, 0, 2, 0, 1, 0,
   4, 0, 1, 0, 2, 0, 1, 0, 3, 0, 1, 0, 2, 0, 1, 0]

/-- `OSUnMapTbl[v]`. -/
def osUnMap (v : BitVec 8) : ℕ := osUnMapTbl.getD v.toNat 0

/-- The search of `OS_SchedNew` and `OS_EventTaskRdy`: `(y << 3) + x` of the two lowest bits. -/
def highest (t : Table 8) : ℕ :=
  let y := osUnMap t.grp
  let x := osUnMap (t.tbl y)
  8 * y + x

namespace Kernel

def setTcb (k : Kernel) (prio : ℕ) (t : OsTcb) : Kernel :=
  { k with tcb := Function.update k.tcb prio (some t) }

def setEvent (k : Kernel) (e : ℕ) (v : OsEvent) : Kernel :=
  { k with event := Function.update k.event e v }

/-- `OSRdyGrp |= OSTCBBitY; OSRdyTbl[OSTCBY] |= OSTCBBitX`. -/
def setRdy (k : Kernel) (prio : ℕ) : Kernel :=
  { k with rdy := k.rdy.set (prio / 8) (prio % 8) }

/-- `OSRdyTbl[y] &= ~OSTCBBitX; if (OSRdyTbl[y] == 0) OSRdyGrp &= ~OSTCBBitY`. -/
def clearRdy (k : Kernel) (prio : ℕ) : Kernel :=
  { k with rdy := k.rdy.clear (prio / 8) (prio % 8) }

/-- Stores a task's block, `if ((OSTCBStat & OS_STAT_SUSPEND) == OS_STAT_RDY)` made ready. -/
def wake (k : Kernel) (prio : ℕ) (ptcb : OsTcb) : Kernel :=
  let k := k.setTcb prio ptcb
  if ptcb.osTcbStat &&& osStatSuspend = osStatRdy then k.setRdy prio else k

end Kernel

/-- The waiters of an event, written by `OS_EventTaskWait`. -/
def OsEvent.addWaiter (v : OsEvent) (prio : ℕ) : OsEvent :=
  { v with wait := v.wait.set (prio / 8) (prio % 8) }

/-- `OS_EventTaskRemove`. -/
def osEventTaskRemove (k : Kernel) (prio e : ℕ) : Kernel :=
  let v := k.event e
  k.setEvent e { v with wait := v.wait.clear (prio / 8) (prio % 8) }

/-- `OS_EventTaskRdy`: the highest waiter of `e` is given `pmsg` and made ready unless suspended. -/
def osEventTaskRdy (k : Kernel) (e pmsg : ℕ) (msk : UInt8) (pendStat : StatPend) : Kernel :=
  let prio := highest (k.event e).wait
  match k.tcb prio with
  | none => k -- a waiter without a task, which a run never meets
  | some ptcb =>
    let k :=
      k.wake prio
        { ptcb with
          osTcbDly := 0
          osTcbMsg := pmsg
          osTcbStat := ptcb.osTcbStat &&& ~~~ msk
          osTcbStatPend := pendStat }
    osEventTaskRemove k prio e

/-- `OS_EventTaskWait`, for the current task. -/
def osEventTaskWait (k : Kernel) (e : ℕ) : Kernel :=
  let k := match k.tcb k.osPrioCur with
    | none => k
    | some cur => k.setTcb k.osPrioCur { cur with osTcbEventPtr := some e }
  let k := k.setEvent e ((k.event e).addWaiter k.osPrioCur)
  k.clearRdy k.osPrioCur

/-- `OS_Sched`. -/
def osSched (k : Kernel) : Kernel :=
  if k.osIntNesting = 0 ∧ k.osLockNesting = 0 then
    { k with osPrioCur := highest k.rdy }
  else k

/-- `OSIntEnter`, with `OSRunning`. -/
def osIntEnter (k : Kernel) : Kernel :=
  if k.osIntNesting < 255 then { k with osIntNesting := k.osIntNesting + 1 } else k

/-- `OSIntExit`, with `OSRunning`. -/
def osIntExit (k : Kernel) : Kernel :=
  osSched { k with osIntNesting := k.osIntNesting - 1 }

/-- `OSSchedLock`. -/
def osSchedLock (k : Kernel) : Kernel :=
  if k.osIntNesting = 0 ∧ k.osLockNesting < 255 then
    { k with osLockNesting := k.osLockNesting + 1 }
  else k

/-- `OSSchedUnlock`; the flag says that `OS_Sched` is called. -/
def osSchedUnlock (k : Kernel) : Kernel × Bool :=
  if k.osLockNesting > 0 then
    let k := { k with osLockNesting := k.osLockNesting - 1 }
    (k, k.osLockNesting = 0 ∧ k.osIntNesting = 0)
  else (k, false)

/-- What `OSTimeTick` and `OSTimeDlyResume` do with a task whose delay has come to 0. -/
def delayOver (ptcb : OsTcb) : OsTcb :=
  if ptcb.osTcbStat &&& osStatPendAny ≠ osStatRdy then
    { ptcb with
      osTcbDly := 0
      osTcbStat := ptcb.osTcbStat &&& ~~~ osStatPendAny
      osTcbStatPend := .timeout }
  else { ptcb with osTcbDly := 0, osTcbStatPend := .ok }

/-- The body of the loop of `OSTimeTick`. -/
def tickTask (k : Kernel) (prio : ℕ) : Kernel :=
  match k.tcb prio with
  | none => k
  | some ptcb =>
    if ptcb.osTcbDly ≠ 0 then
      if ptcb.osTcbDly - 1 = 0 then k.wake prio (delayOver ptcb)
      else k.setTcb prio { ptcb with osTcbDly := ptcb.osTcbDly - 1 }
    else k

/-- The loop of `OSTimeTick`, which ends at the idle task. -/
def tickLoop : List ℕ → Kernel → Kernel
  | [], k => k
  | prio :: rest, k => if prio = osTaskIdlePrio then k else tickLoop rest (tickTask k prio)

/-- `OSTimeTick`, with `OSRunning` and tick stepping disabled. -/
def osTimeTick (k : Kernel) : Kernel :=
  tickLoop k.osTcbList { k with osTime := k.osTime + 1 }

/-! ## The tables as sets -/

/-- `OSUnMapTbl` finds the lowest bit. -/
theorem findsLowest_osUnMap : FindsLowest osUnMap := by
  have hall : ∀ n < 256, BitVec.ofNat 8 n ≠ 0 →
      (BitVec.ofNat 8 n).getLsbD (osUnMap (BitVec.ofNat 8 n)) = true ∧
        ∀ i < osUnMap (BitVec.ofNat 8 n), (BitVec.ofNat 8 n).getLsbD i = false := by
    decide +kernel
  intro v hv
  have := hall v.toNat v.isLt
  rw [BitVec.ofNat_toNat, BitVec.setWidth_eq] at this
  exact this hv

/-- The scheduler's search gives the least member of a table that is not empty. -/
theorem isLeast_highest {t : Table 8} (h : t.Wf) (hne : t.toSet.Nonempty) :
    IsLeast t.toSet (highest t) := by
  obtain ⟨p, hp⟩ := hne
  exact Table.isLeast_least findsLowest_osUnMap h (h.grp_ne_zero hp)

end NuAgent.Rtos
