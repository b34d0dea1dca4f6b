import NuAgent.Lib.Trace
import NuAgent.Rtos.Services

/-!
# Tasks and interrupts

The current task runs with interrupts enabled outside the critical sections of a call, so a run
interleaves the steps of the current task with those of interrupt routines. A task is in its own code,
before the `OS_Sched` at the end of a call, or before the second half of a pend; the routines run to
their end with `OSIntNesting` raised, and may nest.
-/

namespace NuAgent.Rtos

/-- Where a task is: before an `OS_Sched`, and in a pend on an event. -/
structure Cont where
  sched : Bool
  pending : Option (Kind × ℕ)

/-- A task in its own code. -/
def Cont.own : Cont := ⟨false, none⟩

structure Machine where
  k : Kernel
  cont : ℕ → Cont

/-- The calls of tasks and interrupt routines. -/
inductive Call where
  | pend (kind : Kind) (e timeout : ℕ)
  | accept (kind : Kind) (e : ℕ)
  | semPost (e : ℕ)
  | qPost (e pmsg : ℕ)
  | qPostFront (e pmsg : ℕ)
  | pendAbort (kind : Kind) (e : ℕ) (broadcast : Bool)
  | semSet (e : ℕ) (cnt : UInt16)
  | qFlush (e : ℕ)
  | timeDly (ticks : ℕ)
  | timeDlyResume (prio : ℕ)
  | suspend (prio : ℕ)
  | resume (prio : ℕ)
  | schedLock
  | schedUnlock

inductive Action where
  /-- The current task makes a call. -/
  | task (c : Call)
  /-- The current task goes on with the call it is in. -/
  | go
  | intEnter
  /-- An interrupt routine makes a call. -/
  | isr (c : Call)
  /-- The tick interrupt's routine calls `OSTimeTick`. -/
  | tick
  | intExit

/-- A call as far as it goes without `OS_Sched`. -/
inductive Outcome where
  | returned (c : Called)
  | blocked (k : Kernel) (kind : Kind) (e : ℕ)

/-- A call that is not a pend. -/
def Call.simple (k : Kernel) : Call → Called
  | .pend _ _ _ => { kernel := k, ret := ⟨.none, 0⟩ } -- has its own case in `Call.run`
  | .accept kind e => Rtos.accept kind k e
  | .semPost e => osSemPost k e
  | .qPost e pmsg => osQPost k e pmsg
  | .qPostFront e pmsg => osQPostFront k e pmsg
  | .pendAbort kind e broadcast => Rtos.pendAbort kind k e broadcast
  | .semSet e cnt => osSemSet k e cnt
  | .qFlush e => osQFlush k e
  | .timeDly ticks => osTimeDly k ticks
  | .timeDlyResume prio => osTimeDlyResume k prio
  | .suspend prio => osTaskSuspend k prio
  | .resume prio => osTaskResume k prio
  | .schedLock => { kernel := osSchedLock k, ret := ⟨.none, 0⟩ }
  | .schedUnlock =>
    { kernel := (osSchedUnlock k).1, sched := (osSchedUnlock k).2, ret := ⟨.none, 0⟩ }

def Call.run (k : Kernel) (c : Call) : Outcome :=
  match c with
  | .pend kind e timeout =>
    match Rtos.pend kind k e timeout with
    | .returned k ret => .returned { kernel := k, ret }
    | .blocked k => .blocked k kind e
  | c => .returned (c.simple k)

/-- The current task makes a call. -/
def taskCall (m : Machine) (c : Call) : Machine :=
  match c.run m.k with
  | .returned r =>
    { k := r.kernel, cont := Function.update m.cont m.k.osPrioCur ⟨r.sched, none⟩ }
  | .blocked k kind e =>
    { k, cont := Function.update m.cont m.k.osPrioCur ⟨true, some (kind, e)⟩ }

/-- An interrupt routine makes a call; a pend does not block there. -/
def isrCall (m : Machine) (c : Call) : Machine :=
  match c.run m.k with
  | .returned r => { m with k := if r.sched then osSched r.kernel else r.kernel }
  | .blocked _ _ _ => m

/-- The current task runs its `OS_Sched`, after which it may not be current, or the second half of
its pend. -/
def taskGo (m : Machine) : Machine :=
  let cur := m.k.osPrioCur
  let c := m.cont cur
  if c.sched then
    { k := osSched m.k, cont := Function.update m.cont cur { c with sched := false } }
  else
    match c.pending with
    | none => m
    | some (kind, e) =>
      { k := (pendResume kind m.k e).1, cont := Function.update m.cont cur .own }

/-- One step; an action that is not possible leaves the machine as it is. -/
def step (m : Machine) : Action → Machine
  | .task c =>
    if m.k.osIntNesting = 0 ∧ (m.cont m.k.osPrioCur).sched = false ∧
        (m.cont m.k.osPrioCur).pending = none then
      taskCall m c
    else m
  | .go => if m.k.osIntNesting = 0 then taskGo m else m
  | .intEnter => { m with k := osIntEnter m.k }
  | .isr c => if m.k.osIntNesting > 0 then isrCall m c else m
  | .tick => if m.k.osIntNesting > 0 then { m with k := osTimeTick m.k } else m
  | .intExit => if m.k.osIntNesting > 0 then { m with k := osIntExit m.k } else m

/-- What the program keeps to: nobody suspends the idle task, which the settings leave unchecked, and
only queues are flushed. -/
def Call.Legal (k : Kernel) : Call → Prop
  | .suspend prio => (if prio = 0xff then k.osPrioCur else prio) ≠ osTaskIdlePrio
  | .qFlush e => (k.event e).osEventType = .q
  | _ => True

/-- The idle task only counts: it makes no calls. -/
def Legal (m : Machine) : Action → Prop
  | .task c => m.k.osPrioCur ≠ osTaskIdlePrio ∧ c.Legal m.k
  | .isr c => c.Legal m.k
  | _ => True

end NuAgent.Rtos
