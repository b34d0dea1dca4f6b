import NuAgent.Rtos.Delay

/-!
# The start of the kernel

Reference: `OSInit`, `OS_TCBInit` and `OSStart` of `uCOS-II/os_core.c`, with `OSTaskCreate`,
`OSSemCreate` and `OSQCreate` before the start.

Nothing is deleted before `OSStart`, so the free lists of the event and queue control blocks are given
by how many have been taken. `OS_TASK_TMR_PRIO` is the build's.
-/

namespace NuAgent.Rtos

open Bitmap

/-! ## The source -/

/-- `OS_MAX_TASKS + OS_N_SYS_TASKS`. -/
abbrev osTcbs : ℕ := 22

/-- `OS_MAX_EVENTS`, which is also `OS_MAX_QS`. -/
abbrev osMaxEvents : ℕ := 20

/-- `OS_TASK_STAT_PRIO`. -/
abbrev osTaskStatPrio : ℕ := 62

/-- What is created before `OSStart`; a queue with the array of its messages. -/
inductive Setup where
  | task (prio : ℕ)
  | sem (cnt : UInt16)
  | queue (start : ℕ → ℕ) (size : UInt16)

/-- The kernel before `OSStart`, and the control blocks taken from `OSEventFreeList` and
`OSQFreeList`. -/
structure Boot where
  k : Kernel
  events : ℕ
  queues : ℕ

/-- The variables that `OS_InitMisc`, `OS_InitRdyList`, `OS_InitTCBList`, `OS_InitEventList` and
`OS_QInit` clear. -/
def cleared : Boot where
  k :=
    { osIntNesting := 0
      osLockNesting := 0
      osPrioCur := 0
      osTime := 0
      rdy := .empty
      tcb := fun _ => none
      osTcbList := []
      event := fun _ => ⟨.unused, 0, ⟨0, 0, 0, 0, fun _ => 0⟩, .empty⟩ }
  events := 0
  queues := 0

/-- A task's control block, linked into `OSTCBList`, and the task made ready. -/
def Kernel.addTask (k : Kernel) (prio : ℕ) : Kernel :=
  ({ k with osTcbList := prio :: k.osTcbList }.setTcb prio ⟨osStatRdy, .ok, 0, 0, none⟩).setRdy prio

/-- `OS_TCBInit`; `none` is `OS_ERR_TASK_NO_MORE_TCB`. -/
def osTcbInit (k : Kernel) (prio : ℕ) : Option Kernel :=
  if k.osTcbList.length < osTcbs then some (k.addTask prio) else none

/-- `OSTaskCreate` before `OSStart`; a priority that is taken gives `OS_ERR_PRIO_EXIST`. -/
def osTaskCreate (k : Kernel) (prio : ℕ) : Kernel :=
  match k.tcb prio with
  | none => (osTcbInit k prio).getD k
  | some _ => k

/-- `OSSemCreate`. -/
def osSemCreate (b : Boot) (cnt : UInt16) : Boot :=
  if b.events < osMaxEvents then
    { b with
      k := b.k.setEvent b.events ⟨.sem, cnt.toNat, ⟨0, 0, 0, 0, fun _ => 0⟩, .empty⟩
      events := b.events + 1 }
  else b

/-- `OSQCreate`; without a queue control block the event goes back. -/
def osQCreate (b : Boot) (start : ℕ → ℕ) (size : UInt16) : Boot :=
  if b.events < osMaxEvents then
    if b.queues < osMaxEvents then
      { k := b.k.setEvent b.events ⟨.q, 0, ⟨0, 0, size.toNat, 0, start⟩, .empty⟩
        events := b.events + 1
        queues := b.queues + 1 }
    else b
  else b

def setUp (b : Boot) : Setup → Boot
  | .task prio => { b with k := osTaskCreate b.k prio }
  | .sem cnt => osSemCreate b cnt
  | .queue start size => osQCreate b start size

/-- What `OSInit` creates: the idle task, the statistic task, and the semaphores and the task of
`OSTmr_Init`. -/
def osInitSetup (osTaskTmrPrio : ℕ) : List Setup :=
  [.task osTaskIdlePrio, .task osTaskStatPrio, .sem 1, .sem 0, .task osTaskTmrPrio]

def osInit (osTaskTmrPrio : ℕ) : Boot := (osInitSetup osTaskTmrPrio).foldl setUp cleared

/-- `OSStart`: `OS_SchedNew`, and the first task is current. -/
def osStart (b : Boot) : Machine where
  k := { b.k with osPrioCur := highest b.k.rdy }
  cont _ := .own

/-- A priority is within the tables, which `OSTaskCreate` does not check. -/
def Setup.Legal : Setup → Prop
  | .task prio => prio ≤ osTaskIdlePrio
  | _ => True

/-- A program: the priority of the timer task, and what it creates before `OSStart`. -/
structure Program where
  osTaskTmrPrio : ℕ
  setup : List Setup
  tmr_le : osTaskTmrPrio ≤ osTaskIdlePrio
  legal : ∀ s ∈ setup, s.Legal

/-- The machine that `main` starts. -/
def Program.boot (P : Program) : Machine := osStart (P.setup.foldl setUp (osInit P.osTaskTmrPrio))

/-! ## What is created -/

/-- What holds before `OSStart`, once the idle task exists. -/
structure Booting (k : Kernel) : Prop where
  nesting : k.osIntNesting = 0 ∧ k.osLockNesting = 0
  wf : TablesWf k
  tcb : ∀ p, p ∈ k.rdy.toSet ↔ k.tcb p ≠ none
  fresh : ∀ p t, k.tcb p = some t → t = ⟨osStatRdy, .ok, 0, 0, none⟩
  list : ∀ p, p ∈ k.osTcbList ↔ k.tcb p ≠ none
  listed : TasksListed k.osTcbList
  wait : ∀ e, (k.event e).wait = .empty
  ok : ∀ e, (k.event e).Ok

section AddTask

variable (k : Kernel) {prio : ℕ} (p : ℕ)

theorem addTask_tcb : (k.addTask prio).tcb p =
    if p = prio then some ⟨osStatRdy, .ok, 0, 0, none⟩ else k.tcb p := by
  split
  · rename_i hp
    rw [hp]
    exact setTcb_tcb _ _ _
  · rename_i hp
    exact Function.update_of_ne hp _ _

theorem mem_rdy_addTask (hprio : prio < 64) :
    p ∈ (k.addTask prio).rdy.toSet ↔ p = prio ∨ p ∈ k.rdy.toSet := by
  show p ∈ (k.rdy.set (prio / 8) (prio % 8)).toSet ↔ _
  rw [Table.toSet_set _ (by omega) (by omega), Set.mem_insert_iff]

theorem addTask_tcb_ne_none :
    (k.addTask prio).tcb p ≠ none ↔ p = prio ∨ k.tcb p ≠ none := by
  rw [addTask_tcb]
  split <;> simp [*]

theorem addTask_fresh (hfresh : ∀ p t, k.tcb p = some t → t = ⟨osStatRdy, .ok, 0, 0, none⟩)
    {t : OsTcb} (htcb : (k.addTask prio).tcb p = some t) : t = ⟨osStatRdy, .ok, 0, 0, none⟩ := by
  rw [addTask_tcb] at htcb
  split at htcb
  · exact (Option.some.inj htcb).symm
  · exact hfresh p t htcb

end AddTask

/-- The idle task, which `OSInit` creates first. -/
theorem booting_idle : Booting (cleared.k.addTask osTaskIdlePrio) where
  nesting := ⟨rfl, rfl⟩
  wf := ⟨Table.wf_empty.set (Nat.lt_succ_self 7) (Nat.lt_succ_self 7), fun _ => Table.wf_empty⟩
  tcb p := by
    rw [mem_rdy_addTask _ _ (Nat.lt_succ_self 63), addTask_tcb_ne_none]
    have hempty : cleared.k.rdy.toSet = ∅ := Table.toSet_empty
    rw [hempty]
    exact or_congr_right ⟨fun hp => hp.elim, fun hp => absurd rfl hp⟩
  fresh p _ := addTask_fresh _ p fun _ _ ht => by cases ht
  list p := by
    rw [addTask_tcb_ne_none]
    show p ∈ [osTaskIdlePrio] ↔ _
    rw [List.mem_singleton]
    exact (or_iff_left fun hp => hp rfl).symm
  listed := ⟨[], rfl, List.nodup_nil, List.not_mem_nil⟩
  wait _ := rfl
  ok _ hq := EventType.noConfusion hq

variable {k : Kernel}

theorem Booting.addTask (h : Booting k) {prio : ℕ} (hprio : prio ≤ osTaskIdlePrio)
    (hnone : k.tcb prio = none) : Booting (k.addTask prio) where
  nesting := h.nesting
  wf := by
    have hlt : prio < 64 := Nat.lt_succ_of_le hprio
    exact ⟨h.wf.rdy.set (by omega) (by omega), h.wf.wait⟩
  tcb p := by rw [mem_rdy_addTask k p (Nat.lt_succ_of_le hprio), addTask_tcb_ne_none, h.tcb p]
  fresh p _ := addTask_fresh k p h.fresh
  list p := by
    rw [addTask_tcb_ne_none, ← h.list p]
    exact List.mem_cons
  listed := by
    have hnew : prio ∉ k.osTcbList := fun hin => (h.list prio).1 hin hnone
    obtain ⟨l, hl, hnodup, hidle⟩ := h.listed
    rw [hl, List.mem_append, List.mem_singleton, not_or] at hnew
    refine ⟨prio :: l, congrArg (prio :: ·) hl, List.nodup_cons.2 ⟨hnew.1, hnodup⟩, ?_⟩
    rw [List.mem_cons, not_or]
    exact ⟨fun hp => hnew.2 hp.symm, hidle⟩
  wait := h.wait
  ok := h.ok

theorem Booting.osTaskCreate (h : Booting k) {prio : ℕ} (hprio : prio ≤ osTaskIdlePrio) :
    Booting (osTaskCreate k prio) := by
  unfold Rtos.osTaskCreate
  split
  · rename_i hnone
    unfold osTcbInit
    split
    · exact h.addTask hprio hnone
    · exact h
  · exact h

/-- A new event has no waiters. -/
theorem Booting.setEvent (h : Booting k) {v : OsEvent} (hwait : v.wait = .empty) (hok : v.Ok) (e : ℕ) :
    Booting (k.setEvent e v) := by
  have hevent : ∀ e', (k.setEvent e v).event e' = v ∨ (k.setEvent e v).event e' = k.event e' := by
    intro e'
    by_cases he : e' = e
    · exact Or.inl (he ▸ setEvent_event k e v)
    · exact Or.inr (setEvent_event_of_ne k v he)
  refine ⟨h.nesting, ⟨h.wf.rdy, fun e' => ?_⟩, h.tcb, h.fresh, h.list, h.listed, fun e' => ?_,
    fun e' => ?_⟩ <;> rcases hevent e' with he | he <;> rw [he]
  · exact hwait ▸ Table.wf_empty
  · exact h.wf.wait e'
  · exact hwait
  · exact h.wait e'
  · exact hok
  · exact h.ok e'

theorem Booting.setUp {b : Boot} (h : Booting b.k) {s : Setup} (hs : s.Legal) :
    Booting (setUp b s).k := by
  cases s with
  | task prio => exact h.osTaskCreate hs
  | sem cnt =>
    rw [Rtos.setUp, osSemCreate]
    split
    · exact h.setEvent rfl (fun hq => EventType.noConfusion hq) _
    · exact h
  | queue start size =>
    rw [Rtos.setUp, osQCreate]
    split
    · split
      · refine h.setEvent rfl (fun _ => ⟨Nat.zero_le _, id, fun hsize => ?_⟩) _
        show 0 = Circular.slot size.toNat 0 0
        rw [Circular.slot, if_pos hsize]
      · exact h
    · exact h

theorem Booting.foldl {b : Boot} (h : Booting b.k) {setup : List Setup}
    (hlegal : ∀ s ∈ setup, s.Legal) : Booting (setup.foldl Rtos.setUp b).k := by
  induction setup generalizing b with
  | nil => exact h
  | cons s setup ih =>
    exact ih (h.setUp (hlegal s List.mem_cons_self)) fun s' hs' =>
      hlegal s' (List.mem_cons_of_mem s hs')

/-! ## `OSStart` -/

theorem booting_osInit {osTaskTmrPrio : ℕ} (htmr : osTaskTmrPrio ≤ osTaskIdlePrio) :
    Booting (osInit osTaskTmrPrio).k := by
  have hidle : setUp cleared (.task osTaskIdlePrio) =
      { cleared with k := cleared.k.addTask osTaskIdlePrio } := rfl
  unfold osInit osInitSetup
  rw [List.foldl_cons, hidle]
  refine Booting.foldl booting_idle fun s hs => ?_
  simp only [List.mem_cons, List.not_mem_nil, or_false] at hs
  rcases hs with rfl | rfl | rfl | rfl
  · exact Nat.le_succ 62
  · exact trivial
  · exact trivial
  · exact htmr

/-- Whatever the program creates, `OSStart` leaves the kernel started: with at most one task for each
priority, all ready and listed once with the idle task last, and events without waiters. -/
theorem Program.started (P : Program) :
    Started P.boot ∧ TasksListed P.boot.k.osTcbList ∧ ∀ e, (P.boot.k.event e).Ok := by
  have h := (booting_osInit P.tmr_le).foldl P.legal
  refine ⟨⟨h.nesting, ⟨h.wf.rdy, h.wf.wait⟩, h.tcb, h.fresh, fun e => ?_, ?_, rfl, fun _ => rfl⟩,
    h.listed, h.ok⟩
  · show ((P.setup.foldl setUp (osInit P.osTaskTmrPrio)).k.event e).wait.toSet = ∅
    rw [h.wait e, Table.toSet_empty]
  · refine (h.list _).1 ?_
    obtain ⟨l, hl, -, -⟩ := h.listed
    rw [hl]
    exact List.mem_append_right l (List.mem_singleton_self _)

end NuAgent.Rtos
