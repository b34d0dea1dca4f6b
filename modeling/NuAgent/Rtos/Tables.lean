import NuAgent.Rtos.Machine

/-!
# The tables of a task

A task is in its own code, blocked on an event, expired (its timeout has passed, and it stays among the
waiters until it runs) or woken. `HasPhase` says how the fields of its control block encode the phase
and whether it is suspended, and `TaskAt` that the ready table and the waiters of every event agree
with that. Each primitive of the kernel changes what the tables say of one task only (`OnlyTask`).
-/

namespace NuAgent.Rtos

open Bitmap

/-! ## Phases -/

inductive Phase where
  | own
  | blocked (kind : Kind) (e : ℕ)
  | expired (kind : Kind) (e : ℕ)
  | woken (kind : Kind) (e : ℕ)

namespace Phase

/-- The pend that a task is in. -/
def pending : Phase → Option (Kind × ℕ)
  | own => none
  | blocked kind e | expired kind e | woken kind e => some (kind, e)

/-- The pend status bits. -/
def stat : Phase → UInt8
  | blocked kind _ => kind.stat
  | _ => osStatRdy

def Blocked : Phase → Prop
  | blocked _ _ => True
  | _ => False

/-- The event among whose waiters the task is. -/
def waitsOn : Phase → Option ℕ
  | blocked _ e | expired _ e => some e
  | _ => none

def StatPendOk : Phase → StatPend → Prop
  | blocked _ _, s => s = .ok
  | expired _ _, s => s = .timeout
  | _, s => s ≠ .timeout

end Phase

/-- `OS_STAT_SUSPEND` of a suspended task. -/
def suspendBit (s : Bool) : UInt8 := if s then osStatSuspend else osStatRdy

/-- A control block of a task in a phase. -/
structure HasPhase (t : OsTcb) (φ : Phase) (s : Bool) : Prop where
  stat : t.osTcbStat = φ.stat ||| suspendBit s
  ptr : t.osTcbEventPtr = φ.pending.map Prod.snd
  statPend : φ.StatPendOk t.osTcbStatPend
  dly : φ.pending ≠ none → ¬ φ.Blocked → t.osTcbDly = 0

/-- A task can run: it is not blocked, not suspended and not delayed. -/
def CanRun (t : OsTcb) (φ : Phase) (s : Bool) : Prop := ¬ φ.Blocked ∧ s = false ∧ t.osTcbDly = 0

/-- What the tables say of a task that exists. -/
structure TaskOk (k : Kernel) (p : ℕ) (t : OsTcb) (φ : Phase) (s : Bool) : Prop where
  lt : p < 64
  phase : HasPhase t φ s
  kind : ∀ kind e, φ.pending = some (kind, e) → (k.event e).osEventType = kind.type
  rdy : p ∈ k.rdy.toSet ↔ CanRun t φ s
  wait : ∀ e, p ∈ (k.event e).wait.toSet ↔ φ.waitsOn = some e

/-- What the tables say of the task with priority `p`, if there is one. -/
def TaskAt (k : Kernel) (pending : Option (Kind × ℕ)) (p : ℕ) : Prop :=
  match k.tcb p with
  | none => p ∉ k.rdy.toSet ∧ ∀ e, p ∉ (k.event e).wait.toSet
  | some t => ∃ φ s, φ.pending = pending ∧ TaskOk k p t φ s

/-! ## Status bytes -/

/-- Only the status of a blocked task has a pend bit. -/
theorem Phase.stat_cases (φ : Phase) :
    (φ.stat = osStatRdy ∧ ¬ φ.Blocked) ∨ ∃ kind : Kind, φ.stat = kind.stat ∧ φ.Blocked := by
  cases φ with
  | blocked kind e => exact Or.inr ⟨kind, rfl, trivial⟩
  | own => exact Or.inl ⟨rfl, id⟩
  | expired kind e => exact Or.inl ⟨rfl, id⟩
  | woken kind e => exact Or.inl ⟨rfl, id⟩

/-- A status byte is `OS_STAT_RDY` for a task that is neither blocked nor suspended. -/
theorem stat_eq_rdy (φ : Phase) (s : Bool) :
    φ.stat ||| suspendBit s = osStatRdy ↔ ¬ φ.Blocked ∧ s = false := by
  obtain ⟨hstat, hb⟩ | ⟨kind, hstat, hb⟩ := φ.stat_cases <;> rw [hstat]
  · simp only [hb, not_false_eq_true, true_and]
    cases s <;> decide
  · simp only [hb, not_true, false_and, iff_false]
    cases s <;> cases kind <;> decide

/-- The test of `OS_STAT_PEND_ANY`. -/
theorem stat_pendAny (φ : Phase) (s : Bool) :
    (φ.stat ||| suspendBit s) &&& osStatPendAny ≠ osStatRdy ↔ φ.Blocked := by
  obtain ⟨hstat, hb⟩ | ⟨kind, hstat, hb⟩ := φ.stat_cases <;> rw [hstat]
  · simp only [hb, iff_false]
    cases s <;> decide
  · simp only [hb, iff_true]
    cases s <;> cases kind <;> decide

/-- The test of `OS_STAT_SUSPEND`. -/
theorem stat_suspend (φ : Phase) (s : Bool) :
    (φ.stat ||| suspendBit s) &&& osStatSuspend = osStatRdy ↔ s = false := by
  obtain ⟨hstat, -⟩ | ⟨kind, hstat, -⟩ := φ.stat_cases <;> rw [hstat]
  · cases s <;> decide
  · cases s <;> cases kind <;> decide

/-- The update that ends a pend by its timeout. -/
theorem stat_clear_pendAny (φ : Phase) (s : Bool) :
    (φ.stat ||| suspendBit s) &&& ~~~ osStatPendAny = suspendBit s := by
  obtain ⟨hstat, -⟩ | ⟨kind, hstat, -⟩ := φ.stat_cases <;> rw [hstat]
  · cases s <;> decide
  · cases s <;> cases kind <;> decide

/-- The updates of a suspension and of its end. -/
theorem stat_set_suspend (φ : Phase) (s : Bool) :
    φ.stat ||| suspendBit s ||| osStatSuspend = φ.stat ||| suspendBit true ∧
      (φ.stat ||| suspendBit s) &&& ~~~ osStatSuspend = φ.stat ||| suspendBit false := by
  obtain ⟨hstat, -⟩ | ⟨kind, hstat, -⟩ := φ.stat_cases <;> rw [hstat]
  · cases s <;> decide
  · cases s <;> cases kind <;> decide

/-- The update of a post, for a waiter of the kind: it is blocked or expired. -/
theorem stat_clear_kind (kind : Kind) (s : Bool) :
    (kind.stat ||| suspendBit s) &&& ~~~ kind.stat = suspendBit s ∧
      suspendBit s &&& ~~~ kind.stat = suspendBit s := by
  cases s <;> cases kind <;> decide

/-! ## Primitives -/

/-- The tables are well formed. -/
structure TablesWf (k : Kernel) : Prop where
  rdy : k.rdy.Wf
  wait : ∀ e, (k.event e).wait.Wf

/-- The event keeps what it holds. -/
def SameHeld (v v' : OsEvent) : Prop :=
  v'.osEventType = v.osEventType ∧ v'.osEventCnt = v.osEventCnt ∧ v'.osEventPtr = v.osEventPtr

/-- From `k` to `k'` only what the tables say of task `p` changes. -/
structure OnlyTask (p : ℕ) (k k' : Kernel) : Prop where
  tcb : ∀ q ≠ p, k'.tcb q = k.tcb q
  rdy : ∀ q ≠ p, (q ∈ k'.rdy.toSet ↔ q ∈ k.rdy.toSet)
  wait : ∀ q ≠ p, ∀ e, (q ∈ (k'.event e).wait.toSet ↔ q ∈ (k.event e).wait.toSet)
  held : ∀ e, SameHeld (k.event e) (k'.event e)
  wf : TablesWf k → TablesWf k'
  cur : k'.osPrioCur = k.osPrioCur
  nesting : k'.osIntNesting = k.osIntNesting ∧ k'.osLockNesting = k.osLockNesting
  list : k'.osTcbList = k.osTcbList

namespace OnlyTask

variable {p : ℕ} {k k' k'' : Kernel}

theorem refl (p : ℕ) (k : Kernel) : OnlyTask p k k where
  tcb _ _ := rfl
  rdy _ _ := Iff.rfl
  wait _ _ _ := Iff.rfl
  held _ := ⟨rfl, rfl, rfl⟩
  wf := id
  cur := rfl
  nesting := ⟨rfl, rfl⟩
  list := rfl

theorem trans (h : OnlyTask p k k') (h' : OnlyTask p k' k'') : OnlyTask p k k'' where
  tcb q hq := (h'.tcb q hq).trans (h.tcb q hq)
  rdy q hq := (h'.rdy q hq).trans (h.rdy q hq)
  wait q hq e := (h'.wait q hq e).trans (h.wait q hq e)
  held e :=
    ⟨(h'.held e).1.trans (h.held e).1, (h'.held e).2.1.trans (h.held e).2.1,
      (h'.held e).2.2.trans (h.held e).2.2⟩
  wf h0 := h'.wf (h.wf h0)
  cur := h'.cur.trans h.cur
  nesting := ⟨h'.nesting.1.trans h.nesting.1, h'.nesting.2.trans h.nesting.2⟩
  list := h'.list.trans h.list

theorem setTcb (k : Kernel) (p : ℕ) (t : OsTcb) : OnlyTask p k (k.setTcb p t) where
  tcb _ hq := Function.update_of_ne hq _ _
  rdy _ _ := Iff.rfl
  wait _ _ _ := Iff.rfl
  held _ := ⟨rfl, rfl, rfl⟩
  wf h := ⟨h.rdy, h.wait⟩
  cur := rfl
  nesting := ⟨rfl, rfl⟩
  list := rfl

theorem setRdy (k : Kernel) (hp : p < 64) : OnlyTask p k (k.setRdy p) where
  tcb _ _ := rfl
  rdy q hq := by
    rw [Kernel.setRdy, Table.toSet_set k.rdy (by omega) (by omega), Set.mem_insert_iff]
    exact ⟨fun h => h.resolve_left hq, Or.inr⟩
  wait _ _ _ := Iff.rfl
  held _ := ⟨rfl, rfl, rfl⟩
  wf h := ⟨h.rdy.set (by omega) (by omega), h.wait⟩
  cur := rfl
  nesting := ⟨rfl, rfl⟩
  list := rfl

theorem clearRdy (k : Kernel) (p : ℕ) : OnlyTask p k (k.clearRdy p) where
  tcb _ _ := rfl
  rdy q hq := by
    rw [Kernel.clearRdy, Table.toSet_clear]
    exact ⟨And.left, fun h => ⟨h, hq⟩⟩
  wait _ _ _ := Iff.rfl
  held _ := ⟨rfl, rfl, rfl⟩
  wf h := ⟨h.rdy.clear _ _, h.wait⟩
  cur := rfl
  nesting := ⟨rfl, rfl⟩
  list := rfl

end OnlyTask

@[simp] theorem setTcb_tcb (k : Kernel) (p : ℕ) (t : OsTcb) : (k.setTcb p t).tcb p = some t :=
  Function.update_self _ _ _

theorem mem_setRdy (k : Kernel) {p : ℕ} (hp : p < 64) : p ∈ (k.setRdy p).rdy.toSet := by
  rw [Kernel.setRdy, Table.toSet_set k.rdy (by omega) (by omega)]
  exact Set.mem_insert p _

theorem notMem_clearRdy (k : Kernel) (p : ℕ) : p ∉ (k.clearRdy p).rdy.toSet := by
  rw [Kernel.clearRdy, Table.toSet_clear]
  exact fun h => h.2 rfl

@[simp] theorem setEvent_event (k : Kernel) (e : ℕ) (v : OsEvent) : (k.setEvent e v).event e = v :=
  Function.update_self _ _ _

theorem setEvent_event_of_ne (k : Kernel) {e e' : ℕ} (v : OsEvent) (h : e' ≠ e) :
    (k.setEvent e v).event e' = k.event e' := Function.update_of_ne h _ _

/-- A change to the waiters of one event, of one task. -/
theorem OnlyTask.setWait (k : Kernel) {p e : ℕ} {w : Table 8}
    (hw : (k.event e).wait.Wf → w.Wf)
    (hset : ∀ q ≠ p, (q ∈ w.toSet ↔ q ∈ (k.event e).wait.toSet)) :
    OnlyTask p k (k.setEvent e { k.event e with wait := w }) where
  tcb _ _ := rfl
  rdy _ _ := Iff.rfl
  wait q hq e' := by
    by_cases he : e' = e
    · subst he
      rw [setEvent_event]
      exact hset q hq
    · rw [setEvent_event_of_ne k _ he]
  held e' := by
    by_cases he : e' = e
    · subst he
      rw [setEvent_event]
      exact ⟨rfl, rfl, rfl⟩
    · rw [setEvent_event_of_ne k _ he]
      exact ⟨rfl, rfl, rfl⟩
  wf h := by
    refine ⟨h.rdy, fun e' => ?_⟩
    by_cases he : e' = e
    · subst he
      rw [setEvent_event]
      exact hw (h.wait e')
    · rw [setEvent_event_of_ne k _ he]
      exact h.wait e'
  cur := rfl
  nesting := ⟨rfl, rfl⟩
  list := rfl

theorem OnlyTask.remove (k : Kernel) (p e : ℕ) : OnlyTask p k (osEventTaskRemove k p e) := by
  refine OnlyTask.setWait k (fun h => h.clear _ _) fun q hq => ?_
  rw [Table.toSet_clear]
  exact ⟨And.left, fun h => ⟨h, hq⟩⟩

theorem OnlyTask.addWaiter (k : Kernel) {p : ℕ} (hp : p < 64) (e : ℕ) :
    OnlyTask p k (k.setEvent e ((k.event e).addWaiter p)) := by
  refine OnlyTask.setWait k (fun h => h.set (by omega) (by omega)) fun q hq => ?_
  rw [Table.toSet_set _ (by omega) (by omega), Set.mem_insert_iff]
  exact ⟨fun h => h.resolve_left hq, Or.inr⟩

theorem mem_osEventTaskRemove (k : Kernel) (p e e' : ℕ) :
    p ∈ ((osEventTaskRemove k p e).event e').wait.toSet ↔
      p ∈ (k.event e').wait.toSet ∧ e' ≠ e := by
  by_cases he : e' = e
  · subst he
    rw [osEventTaskRemove, setEvent_event, Table.toSet_clear]
    simp
  · rw [osEventTaskRemove, setEvent_event_of_ne k _ he]
    exact ⟨fun h => ⟨h, he⟩, And.left⟩

theorem mem_addWaiter (k : Kernel) {p : ℕ} (hp : p < 64) (e e' : ℕ) :
    p ∈ ((k.setEvent e ((k.event e).addWaiter p)).event e').wait.toSet ↔
      p ∈ (k.event e').wait.toSet ∨ e' = e := by
  by_cases he : e' = e
  · subst he
    rw [setEvent_event, OsEvent.addWaiter, Table.toSet_set _ (by omega) (by omega)]
    simp
  · rw [setEvent_event_of_ne k _ he]
    exact ⟨Or.inl, fun h => h.resolve_right he⟩

/-- The other tasks are as they were. -/
theorem TaskAt.of_onlyTask {p q : ℕ} {k k' : Kernel} {pending : Option (Kind × ℕ)}
    (h : TaskAt k pending q) (ho : OnlyTask p k k') (hq : q ≠ p) : TaskAt k' pending q := by
  unfold TaskAt at h ⊢
  rw [ho.tcb q hq]
  split at h
  · exact ⟨fun hr => h.1 ((ho.rdy q hq).1 hr), fun e he => h.2 e ((ho.wait q hq e).1 he)⟩
  · obtain ⟨φ, s, hpending, ht⟩ := h
    refine ⟨φ, s, hpending, ht.lt, ht.phase, fun kind e he => ?_, ?_, fun e => ?_⟩
    · rw [(ho.held e).1]
      exact ht.kind kind e he
    · rw [ho.rdy q hq]
      exact ht.rdy
    · rw [ho.wait q hq e]
      exact ht.wait e

end NuAgent.Rtos
