import NuAgent.Rtos.State

/-!
# Semaphores, queues and task services

Reference: `uCOS-II/os_sem.c`, `os_q.c`, `os_time.c` and `os_task.c`; the settings leave the argument
checks out.

A call runs up to its `OS_Sched`: it gives the new tables, whether `OS_Sched` follows, and what it
returns. A pend that blocks gives the event instead, and its second half runs when the task is
current again. The functions on semaphores and on queues differ in what they take from the event and
put into it, so a family of them is one definition with the type, the status bit and the operation.
-/

namespace NuAgent.Rtos

/-- The error codes `OS_ERR_*` of the modelled calls. -/
inductive OsErr where
  | none
  | eventType
  | pendIsr
  | pendLocked
  | timeout
  | pendAbort
  | semOvf
  | qFull
  | qEmpty
  | taskWaiting
  | taskSuspendPrio
  | taskResumePrio
  | taskNotSuspended
  | prioInvalid
  | taskNotExist
  | timeNotDly
deriving DecidableEq

/-- What a call hands back when it does not block: an error, and a message or a number. -/
structure Ret where
  perr : OsErr
  val : ℕ

/-- A call up to its `OS_Sched`: the tables, whether `OS_Sched` follows, what it returns. -/
structure Called where
  kernel : Kernel
  sched : Bool := false
  ret : Ret

/-! ## What an event holds -/

/-- `OSQOut++`, with the wrap, and the entry. -/
def OsQ.pop (pq : OsQ) : ℕ × OsQ :=
  (pq.cells pq.osqOut,
    { pq with
      osqOut := if pq.osqOut + 1 = pq.osqSize then 0 else pq.osqOut + 1
      osqEntries := pq.osqEntries - 1 })

/-- `*OSQIn++ = pmsg`, with the wrap, and the entry. -/
def OsQ.push (pq : OsQ) (pmsg : ℕ) : OsQ :=
  { pq with
    cells := Function.update pq.cells pq.osqIn pmsg
    osqIn := if pq.osqIn + 1 = pq.osqSize then 0 else pq.osqIn + 1
    osqEntries := pq.osqEntries + 1 }

/-- `OSQOut--`, with the wrap, and the entry. -/
def OsQ.pushFront (pq : OsQ) (pmsg : ℕ) : OsQ :=
  let osqOut := (if pq.osqOut = 0 then pq.osqSize else pq.osqOut) - 1
  { pq with
    cells := Function.update pq.cells osqOut pmsg
    osqOut
    osqEntries := pq.osqEntries + 1 }

/-- `if (OSEventCnt > 0) OSEventCnt--`. -/
def takeSem (v : OsEvent) : Option (ℕ × OsEvent) :=
  if v.osEventCnt > 0 then some (0, { v with osEventCnt := v.osEventCnt - 1 }) else none

/-- `if (OSQEntries > 0)`, the entry at `OSQOut`. -/
def takeQ (v : OsEvent) : Option (ℕ × OsEvent) :=
  if v.osEventPtr.osqEntries > 0 then
    some (v.osEventPtr.pop.1, { v with osEventPtr := v.osEventPtr.pop.2 })
  else none

/-- `if (OSEventCnt < 65535) OSEventCnt++`. -/
def putSem (_pmsg : ℕ) (v : OsEvent) : Option OsEvent :=
  if v.osEventCnt < 65535 then some { v with osEventCnt := v.osEventCnt + 1 } else none

/-- `if (OSQEntries >= OSQSize)` the queue is full. -/
def putQ (pmsg : ℕ) (v : OsEvent) : Option OsEvent :=
  if v.osEventPtr.osqEntries ≥ v.osEventPtr.osqSize then none
  else some { v with osEventPtr := v.osEventPtr.push pmsg }

def putQFront (pmsg : ℕ) (v : OsEvent) : Option OsEvent :=
  if v.osEventPtr.osqEntries ≥ v.osEventPtr.osqSize then none
  else some { v with osEventPtr := v.osEventPtr.pushFront pmsg }

/-! ## Pending -/

/-- The two kinds of events that are modelled. -/
inductive Kind where
  | sem
  | q
deriving DecidableEq

namespace Kind

/-- The type that the functions of a kind check. -/
def type : Kind → EventType
  | sem => .sem
  | q => .q

/-- The bit in `OSTCBStat` of a task that is pending. -/
def stat : Kind → UInt8
  | sem => osStatSem
  | q => osStatQ

/-- What a pend takes from the event. -/
def take : Kind → OsEvent → Option (ℕ × OsEvent)
  | sem => takeSem
  | q => takeQ

end Kind

/-- How the first half of a pend ends. -/
inductive Pended where
  | returned (k : Kernel) (r : Ret)
  | blocked (k : Kernel)

/-- `OSSemPend` and `OSQPend` up to `OS_Sched`. -/
def pend (kind : Kind) (k : Kernel) (e timeout : ℕ) : Pended :=
  if (k.event e).osEventType ≠ kind.type then .returned k ⟨.eventType, 0⟩
  else if k.osIntNesting > 0 then .returned k ⟨.pendIsr, 0⟩
  else if k.osLockNesting > 0 then .returned k ⟨.pendLocked, 0⟩
  else
    match kind.take (k.event e) with
    | some (pmsg, v) => .returned (k.setEvent e v) ⟨.none, pmsg⟩
    | none =>
      let k := match k.tcb k.osPrioCur with
        | none => k
        | some cur =>
          k.setTcb k.osPrioCur
            { cur with
              osTcbStat := cur.osTcbStat ||| kind.stat
              osTcbStatPend := .ok
              osTcbDly := timeout }
      .blocked (osEventTaskWait k e)

/-- `OSSemPend` up to `OS_Sched`. -/
def osSemPend : Kernel → ℕ → ℕ → Pended := pend .sem

/-- `OSQPend` up to `OS_Sched`. -/
def osQPend : Kernel → ℕ → ℕ → Pended := pend .q

/-- `OSSemPend` and `OSQPend` after `OS_Sched`, for the current task; only the pend on a queue reads
and clears `OSTCBMsg`. -/
def pendResume (kind : Kind) (k : Kernel) (e : ℕ) : Kernel × Ret :=
  match k.tcb k.osPrioCur with
  | none => (k, ⟨.none, 0⟩)
  | some cur =>
    let done : OsTcb :=
      { osTcbStat := osStatRdy
        osTcbStatPend := .ok
        osTcbDly := cur.osTcbDly
        osTcbMsg := if kind = .q then 0 else cur.osTcbMsg
        osTcbEventPtr := none }
    match cur.osTcbStatPend with
    | .ok => (k.setTcb k.osPrioCur done, ⟨.none, if kind = .q then cur.osTcbMsg else 0⟩)
    | .abort => (k.setTcb k.osPrioCur done, ⟨.pendAbort, 0⟩)
    | .timeout => ((osEventTaskRemove k k.osPrioCur e).setTcb k.osPrioCur done, ⟨.timeout, 0⟩)

/-- `OSSemAccept`, which returns the count it found. -/
def osSemAccept (k : Kernel) (e : ℕ) : Called :=
  let v := k.event e
  if v.osEventType ≠ .sem then { kernel := k, ret := ⟨.none, 0⟩ }
  else
    match takeSem v with
    | some (_, v') => { kernel := k.setEvent e v', ret := ⟨.none, v.osEventCnt⟩ }
    | none => { kernel := k, ret := ⟨.none, v.osEventCnt⟩ }

/-- `OSQAccept`. -/
def osQAccept (k : Kernel) (e : ℕ) : Called :=
  let v := k.event e
  if v.osEventType ≠ .q then { kernel := k, ret := ⟨.eventType, 0⟩ }
  else
    match takeQ v with
    | some (pmsg, v') => { kernel := k.setEvent e v', ret := ⟨.none, pmsg⟩ }
    | none => { kernel := k, ret := ⟨.qEmpty, 0⟩ }

/-- `OSSemAccept` and `OSQAccept`. -/
def accept : Kind → Kernel → ℕ → Called
  | .sem => osSemAccept
  | .q => osQAccept

/-! ## Posting -/

/-- `OSSemPost`, `OSQPost` and `OSQPostFront`. -/
def post (kind : Kind) (put : ℕ → OsEvent → Option OsEvent) (full : OsErr) (k : Kernel)
    (e pmsg : ℕ) : Called :=
  if (k.event e).osEventType ≠ kind.type then { kernel := k, ret := ⟨.eventType, 0⟩ }
  else if (k.event e).wait.grp ≠ 0 then
    { kernel := osEventTaskRdy k e pmsg kind.stat .ok, sched := true, ret := ⟨.none, 0⟩ }
  else
    match put pmsg (k.event e) with
    | some v => { kernel := k.setEvent e v, ret := ⟨.none, 0⟩ }
    | none => { kernel := k, ret := ⟨full, 0⟩ }

def osSemPost (k : Kernel) (e : ℕ) : Called := post .sem putSem .semOvf k e 0

def osQPost : Kernel → ℕ → ℕ → Called := post .q putQ .qFull

def osQPostFront : Kernel → ℕ → ℕ → Called := post .q putQFront .qFull

/-- The loop `while (OSEventGrp != 0)` of an abort with `OS_PEND_OPT_BROADCAST`, and `nbr_tasks`; a
round removes a waiter, so that there are at most 64. -/
def abortLoop (kind : Kind) (e : ℕ) : ℕ → Kernel → Kernel × ℕ
  | 0, k => (k, 0)
  | n + 1, k =>
    if (k.event e).wait.grp ≠ 0 then
      let r := abortLoop kind e n (osEventTaskRdy k e 0 kind.stat .abort)
      (r.1, r.2 + 1)
    else (k, 0)

/-- `OSSemPendAbort` and `OSQPendAbort`. -/
def pendAbort (kind : Kind) (k : Kernel) (e : ℕ) (broadcast : Bool) : Called :=
  if (k.event e).osEventType ≠ kind.type then { kernel := k, ret := ⟨.eventType, 0⟩ }
  else if (k.event e).wait.grp ≠ 0 then
    let r := abortLoop kind e (if broadcast then 64 else 1) k
    { kernel := r.1, sched := true, ret := ⟨.pendAbort, r.2⟩ }
  else { kernel := k, ret := ⟨.none, 0⟩ }

/-- `OSSemSet`. -/
def osSemSet (k : Kernel) (e : ℕ) (cnt : UInt16) : Called :=
  let v := k.event e
  if v.osEventType ≠ .sem then { kernel := k, ret := ⟨.eventType, 0⟩ }
  else if v.osEventCnt > 0 ∨ v.wait.grp = 0 then
    { kernel := k.setEvent e { v with osEventCnt := cnt.toNat }, ret := ⟨.none, 0⟩ }
  else { kernel := k, ret := ⟨.taskWaiting, 0⟩ }

/-- `OSQFlush`, which checks nothing; on an event that is not a queue it is a program error. -/
def osQFlush (k : Kernel) (e : ℕ) : Called :=
  let v := k.event e
  { kernel :=
      k.setEvent e
        { v with osEventPtr := { v.osEventPtr with osqIn := 0, osqOut := 0, osqEntries := 0 } }
    ret := ⟨.none, 0⟩ }

/-! ## Delays and suspension -/

/-- `OSTimeDly`. -/
def osTimeDly (k : Kernel) (ticks : ℕ) : Called :=
  if k.osIntNesting > 0 ∨ k.osLockNesting > 0 ∨ ticks = 0 then { kernel := k, ret := ⟨.none, 0⟩ }
  else
    let k := k.clearRdy k.osPrioCur
    match k.tcb k.osPrioCur with
    | none => { kernel := k, ret := ⟨.none, 0⟩ }
    | some cur =>
      { kernel := k.setTcb k.osPrioCur { cur with osTcbDly := ticks }
        sched := true
        ret := ⟨.none, 0⟩ }

/-- `OSTimeDlyResume`. -/
def osTimeDlyResume (k : Kernel) (prio : ℕ) : Called :=
  if prio ≥ osTaskIdlePrio then { kernel := k, ret := ⟨.prioInvalid, 0⟩ }
  else
    match k.tcb prio with
    | none => { kernel := k, ret := ⟨.taskNotExist, 0⟩ }
    | some ptcb =>
      if ptcb.osTcbDly = 0 then { kernel := k, ret := ⟨.timeNotDly, 0⟩ }
      else
        let ptcb' := delayOver ptcb
        { kernel := k.wake prio ptcb'
          sched := ptcb'.osTcbStat &&& osStatSuspend = osStatRdy
          ret := ⟨.none, 0⟩ }

/-- `OSTaskSuspend`; `OS_PRIO_SELF` is the priority of the current task. -/
def osTaskSuspend (k : Kernel) (prio : ℕ) : Called :=
  let prio := if prio = 0xff then k.osPrioCur else prio
  match k.tcb prio with
  | none => { kernel := k, ret := ⟨.taskSuspendPrio, 0⟩ }
  | some ptcb =>
    { kernel :=
        (k.clearRdy prio).setTcb prio
          { ptcb with osTcbStat := ptcb.osTcbStat ||| osStatSuspend }
      sched := prio = k.osPrioCur
      ret := ⟨.none, 0⟩ }

/-- `OSTaskResume`. -/
def osTaskResume (k : Kernel) (prio : ℕ) : Called :=
  match k.tcb prio with
  | none => { kernel := k, ret := ⟨.taskResumePrio, 0⟩ }
  | some ptcb =>
    if ptcb.osTcbStat &&& osStatSuspend ≠ osStatRdy then
      let ptcb' := { ptcb with osTcbStat := ptcb.osTcbStat &&& ~~~ osStatSuspend }
      let k := k.setTcb prio ptcb'
      if ptcb'.osTcbStat = osStatRdy ∧ ptcb'.osTcbDly = 0 then
        { kernel := k.setRdy prio, sched := true, ret := ⟨.none, 0⟩ }
      else { kernel := k, ret := ⟨.none, 0⟩ }
    else { kernel := k, ret := ⟨.taskNotSuspended, 0⟩ }

end NuAgent.Rtos
