import NuAgent.Rtos.Tables

/-!
# The kernel invariant

`KernelInv` is what every critical section keeps: the tables are well formed, they agree on every task,
the idle task is ready, and an event that holds something has no waiters. One lemma for each service
says what it does to the phase of its task.
-/

namespace NuAgent.Rtos

open Bitmap

/-- The event holds something that a pend would take. -/
def Available (v : OsEvent) : Prop :=
  (v.osEventType = .sem ∧ 0 < v.osEventCnt) ∨ (v.osEventType = .q ∧ 0 < v.osEventPtr.osqEntries)

/-- What every critical section keeps; `pending` gives the pends that the tasks are in. -/
structure KernelInv (k : Kernel) (pending : ℕ → Option (Kind × ℕ)) : Prop where
  wf : TablesWf k
  task : ∀ p, TaskAt k (pending p) p
  idle : osTaskIdlePrio ∈ k.rdy.toSet
  waiting : ∀ e, Available (k.event e) → (k.event e).wait.toSet = ∅

theorem take_eq_none_iff {kind : Kind} {v : OsEvent} (h : v.osEventType = kind.type) :
    kind.take v = none ↔ ¬ Available v := by
  cases kind with
  | sem =>
    rw [Kind.take, takeSem, Available, h]
    by_cases hc : v.osEventCnt > 0 <;> simp [hc, Kind.type]
  | q =>
    rw [Kind.take, takeQ, Available, h]
    by_cases hc : v.osEventPtr.osqEntries > 0 <;> simp [hc, Kind.type]

theorem SameHeld.available_iff {v v' : OsEvent} (h : SameHeld v v') :
    Available v' ↔ Available v := by
  rw [Available, Available, h.1, h.2.1, h.2.2]

/-- A ready task exists. -/
theorem KernelInv.exists_tcb {k : Kernel} {pending : ℕ → Option (Kind × ℕ)} (h : KernelInv k pending)
    {p : ℕ} (hp : p ∈ k.rdy.toSet) :
    ∃ t φ s, k.tcb p = some t ∧ φ.pending = pending p ∧ TaskOk k p t φ s := by
  have ht := h.task p
  unfold TaskAt at ht
  split at ht
  · exact absurd hp ht.1
  · rename_i t htcb
    obtain ⟨φ, s, hpending, hok⟩ := ht
    exact ⟨t, φ, s, htcb, hpending, hok⟩

/-- A task that waits exists. -/
theorem KernelInv.exists_waiter {k : Kernel} {pending : ℕ → Option (Kind × ℕ)}
    (h : KernelInv k pending) {p e : ℕ} (hp : p ∈ (k.event e).wait.toSet) :
    ∃ t φ s, k.tcb p = some t ∧ φ.pending = pending p ∧ TaskOk k p t φ s := by
  have ht := h.task p
  unfold TaskAt at ht
  split at ht
  · exact absurd hp (ht.2 e)
  · rename_i t htcb
    obtain ⟨φ, s, hpending, hok⟩ := ht
    exact ⟨t, φ, s, htcb, hpending, hok⟩

theorem TaskOk.taskAt {k : Kernel} {p : ℕ} {t : OsTcb} {φ : Phase} {s : Bool} (h : TaskOk k p t φ s)
    (htcb : k.tcb p = some t) : TaskAt k φ.pending p := by
  unfold TaskAt
  rw [htcb]
  exact ⟨φ, s, rfl, h⟩

/-- A change to one task keeps the invariant if the task is right again, the idle task stays ready, and
the task joins only the waiters of an event that holds nothing. -/
theorem KernelInv.of_onlyTask {k k' : Kernel} {pending : ℕ → Option (Kind × ℕ)}
    (h : KernelInv k pending) {p : ℕ} {c : Option (Kind × ℕ)} (ho : OnlyTask p k k')
    (ht : TaskAt k' c p) (hidle : p = osTaskIdlePrio → p ∈ k'.rdy.toSet)
    (hwait : ∀ e, p ∈ (k'.event e).wait.toSet → p ∈ (k.event e).wait.toSet ∨
      ¬ Available (k.event e)) :
    KernelInv k' (Function.update pending p c) where
  wf := ho.wf h.wf
  task q := by
    by_cases hq : q = p
    · subst hq
      rw [Function.update_self]
      exact ht
    · rw [Function.update_of_ne hq]
      exact (h.task q).of_onlyTask ho hq
  idle := by
    by_cases hp : p = osTaskIdlePrio
    · exact hp ▸ hidle hp
    · exact (ho.rdy _ (fun h' => hp h'.symm)).2 h.idle
  waiting e hav := by
    rw [(ho.held e).available_iff] at hav
    have hempty := h.waiting e hav
    ext q
    refine ⟨fun hq => ?_, fun hq => absurd hq (Set.notMem_empty q)⟩
    by_cases hqp : q = p
    · subst hqp
      rcases hwait e hq with hq' | hnot
      · rwa [hempty] at hq'
      · exact absurd hav hnot
    · rw [ho.wait q hqp e, hempty] at hq
      exact hq

/-- A task that stays in its pend. -/
theorem KernelInv.of_onlyTask_same {k k' : Kernel} {pending : ℕ → Option (Kind × ℕ)}
    (h : KernelInv k pending) {p : ℕ} (ho : OnlyTask p k k') (ht : TaskAt k' (pending p) p)
    (hidle : p = osTaskIdlePrio → p ∈ k'.rdy.toSet)
    (hwait : ∀ e, p ∈ (k'.event e).wait.toSet → p ∈ (k.event e).wait.toSet) :
    KernelInv k' pending := by
  have h' := h.of_onlyTask ho ht hidle fun e he => Or.inl (hwait e he)
  rwa [Function.update_eq_self] at h'

/-! ## Waking a task -/

section Wake

variable {k : Kernel} {p : ℕ} {t t' : OsTcb} {φ φ' : Phase} {s : Bool}

theorem OnlyTask.wake (k : Kernel) (hp : p < 64) (t' : OsTcb) : OnlyTask p k (k.wake p t') := by
  unfold Kernel.wake
  dsimp only
  split
  · exact (OnlyTask.setTcb k p t').trans (OnlyTask.setRdy _ hp)
  · exact OnlyTask.setTcb k p t'

theorem wake_tcb (k : Kernel) (p : ℕ) (t' : OsTcb) : (k.wake p t').tcb p = some t' := by
  unfold Kernel.wake
  dsimp only
  split <;> exact setTcb_tcb k p t'

theorem wake_event (k : Kernel) (p : ℕ) (t' : OsTcb) : (k.wake p t').event = k.event := by
  unfold Kernel.wake
  dsimp only
  split <;> rfl

/-- A task whose block says that it is not blocked and not delayed is ready unless it is suspended. -/
theorem mem_rdy_wake (h : TaskOk k p t φ s) (h' : HasPhase t' φ' s) :
    p ∈ (k.wake p t').rdy.toSet ↔ s = false := by
  unfold Kernel.wake
  dsimp only
  rw [h'.stat]
  by_cases hs : s = false
  · rw [if_pos ((stat_suspend φ' s).2 hs)]
    exact ⟨fun _ => hs, fun _ => mem_setRdy _ h.lt⟩
  · rw [if_neg (fun hc => hs ((stat_suspend φ' s).1 hc))]
    exact ⟨fun hr => absurd (h.rdy.1 hr).2.1 hs, fun hs' => absurd hs' hs⟩

/-- Waking a task that stays among the waiters it is among. -/
theorem TaskOk.wake (h : TaskOk k p t φ s) (h' : HasPhase t' φ' s) (hb : ¬ φ'.Blocked)
    (hdly : t'.osTcbDly = 0) (hpending : φ'.pending = φ.pending) (hwait : φ'.waitsOn = φ.waitsOn) :
    TaskOk (k.wake p t') p t' φ' s where
  lt := h.lt
  phase := h'
  kind kind e he := by
    rw [wake_event]
    exact h.kind kind e (hpending ▸ he)
  rdy := by
    rw [mem_rdy_wake h h', CanRun]
    exact ⟨fun hs => ⟨hb, hs, hdly⟩, fun hc => hc.2.1⟩
  wait e := by
    rw [wake_event, hwait]
    exact h.wait e

end Wake

/-! ## The end of a delay -/

/-- The phase after a timeout. -/
def Phase.over : Phase → Phase
  | blocked kind e => expired kind e
  | φ => φ

theorem Phase.over_spec (φ : Phase) :
    ¬ φ.over.Blocked ∧ φ.over.pending = φ.pending ∧ φ.over.waitsOn = φ.waitsOn := by
  cases φ <;> exact ⟨id, rfl, rfl⟩

theorem HasPhase.delayOver {t : OsTcb} {φ : Phase} {s : Bool} (h : HasPhase t φ s)
    (hdly : t.osTcbDly ≠ 0) : HasPhase (delayOver t) φ.over s := by
  unfold Rtos.delayOver
  rw [h.stat]
  by_cases hb : φ.Blocked
  · rw [if_pos ((stat_pendAny φ s).2 hb)]
    cases φ with
    | blocked kind e =>
      exact ⟨(stat_clear_pendAny (.blocked kind e) s).trans (UInt8.zero_or).symm, h.ptr, rfl,
        fun _ _ => rfl⟩
    | own => exact hb.elim
    | expired kind e => exact hb.elim
    | woken kind e => exact hb.elim
  · rw [if_neg (fun hc => hb ((stat_pendAny φ s).1 hc))]
    cases φ with
    | own => exact ⟨rfl, h.ptr, StatPend.noConfusion, fun _ _ => rfl⟩
    | blocked kind e => exact absurd trivial hb
    | expired kind e => exact absurd (h.dly (Option.some_ne_none _) hb) hdly
    | woken kind e => exact absurd (h.dly (Option.some_ne_none _) hb) hdly

theorem delayOver_dly (t : OsTcb) : (delayOver t).osTcbDly = 0 := by
  unfold delayOver
  split <;> rfl

theorem TaskOk.delayOver {k : Kernel} {p : ℕ} {t : OsTcb} {φ : Phase} {s : Bool}
    (h : TaskOk k p t φ s) (hdly : t.osTcbDly ≠ 0) :
    TaskOk (k.wake p (delayOver t)) p (delayOver t) φ.over s :=
  h.wake (h.phase.delayOver hdly) φ.over_spec.1 (delayOver_dly t) φ.over_spec.2.1 φ.over_spec.2.2

/-- The loop body of `OSTimeTick`. -/
theorem KernelInv.tickTask {k : Kernel} {pending : ℕ → Option (Kind × ℕ)} (h : KernelInv k pending)
    (p : ℕ) : KernelInv (tickTask k p) pending := by
  have ht := h.task p
  unfold TaskAt at ht
  unfold Rtos.tickTask
  cases htcb : k.tcb p with
  | none => exact h
  | some t =>
    rw [htcb] at ht
    obtain ⟨φ, s, hpending, hok⟩ := ht
    dsimp only
    by_cases hdly : t.osTcbDly = 0
    · rw [if_neg (fun hc => hc hdly)]
      exact h
    rw [if_pos hdly]
    by_cases hlast : t.osTcbDly - 1 = 0
    · rw [if_pos hlast]
      have hok' := hok.delayOver hdly
      refine h.of_onlyTask_same (.wake k hok.lt _) ?_ (fun hp => ?_) fun e he => ?_
      · rw [← hpending, ← φ.over_spec.2.1]
        exact hok'.taskAt (wake_tcb k p _)
      · -- the idle task is ready, so it has no delay
        exact absurd (hok.rdy.1 (hp ▸ h.idle)).2.2 hdly
      · rwa [wake_event] at he
    · rw [if_neg hlast]
      refine h.of_onlyTask_same (.setTcb k p _) ?_ (fun hp => hp ▸ h.idle) fun e he => he
      rw [← hpending]
      refine TaskOk.taskAt (s := s) ⟨hok.lt, ?_, hok.kind, ?_, hok.wait⟩ (setTcb_tcb k p _)
      · exact ⟨hok.phase.stat, hok.phase.ptr, hok.phase.statPend,
          fun hp hb => absurd (hok.phase.dly hp hb) hdly⟩
      · show p ∈ k.rdy.toSet ↔ _
        rw [hok.rdy, CanRun, CanRun]
        exact ⟨fun hc => absurd hc.2.2 hdly, fun hc => absurd hc.2.2 hlast⟩

theorem KernelInv.tickLoop {pending : ℕ → Option (Kind × ℕ)} (l : List ℕ) {k : Kernel}
    (h : KernelInv k pending) : KernelInv (tickLoop l k) pending := by
  induction l generalizing k with
  | nil => exact h
  | cons p l ih =>
    rw [Rtos.tickLoop]
    split
    · exact h
    · exact ih (h.tickTask p)

/-- The invariant does not speak of the scheduler's own variables. -/
theorem KernelInv.congr {k k' : Kernel} {pending : ℕ → Option (Kind × ℕ)} (h : KernelInv k pending)
    (hrdy : k'.rdy = k.rdy) (htcb : k'.tcb = k.tcb) (hevent : k'.event = k.event) :
    KernelInv k' pending where
  wf := ⟨hrdy ▸ h.wf.rdy, hevent ▸ h.wf.wait⟩
  task p := by
    have ht := h.task p
    unfold TaskAt at ht ⊢
    rw [htcb]
    split at ht
    · rw [hrdy, hevent]
      exact ht
    · obtain ⟨φ, s, hpending, hok⟩ := ht
      refine ⟨φ, s, hpending, hok.lt, hok.phase, ?_, ?_, ?_⟩
      · rw [hevent]
        exact hok.kind
      · rw [hrdy]
        exact hok.rdy
      · rw [hevent]
        exact hok.wait
  idle := hrdy ▸ h.idle
  waiting := hevent ▸ h.waiting

theorem KernelInv.osTimeTick {k : Kernel} {pending : ℕ → Option (Kind × ℕ)} (h : KernelInv k pending) :
    KernelInv (osTimeTick k) pending :=
  KernelInv.tickLoop k.osTcbList (h.congr rfl rfl rfl)

/-! ## Waiters -/

/-- `OS_EventTaskRdy` wakes the highest waiter, which is in a pend of the event's kind. -/
theorem osEventTaskRdy_spec {k : Kernel} {pending : ℕ → Option (Kind × ℕ)} (h : KernelInv k pending)
    {kind : Kind} {e : ℕ} (hkind : (k.event e).osEventType = kind.type)
    (hne : (k.event e).wait.grp ≠ 0) (pmsg : ℕ) {st : StatPend} (hst : st ≠ .timeout) :
    let p := highest (k.event e).wait
    let k' := osEventTaskRdy k e pmsg kind.stat st
    IsLeast (k.event e).wait.toSet p ∧ pending p = some (kind, e) ∧ OnlyTask p k k' ∧
      ∃ t s, k.tcb p = some t ∧ (p ∈ k.rdy.toSet → s = false) ∧
        k'.tcb p = some ⟨suspendBit s, st, 0, pmsg, t.osTcbEventPtr⟩ ∧
        TaskOk k' p ⟨suspendBit s, st, 0, pmsg, t.osTcbEventPtr⟩ (.woken kind e) s := by
  intro p k'
  have hleast : IsLeast (k.event e).wait.toSet p := by
    apply isLeast_highest (h.wf.wait e)
    rw [Set.nonempty_iff_ne_empty]
    exact fun hempty => hne ((h.wf.wait e).grp_eq_zero_iff.2 hempty)
  obtain ⟨t, φ, s, htcb, hpending, hok⟩ := h.exists_waiter hleast.1
  -- the waiter is blocked on the event or has expired, in a pend of the same kind
  have hwaits := (hok.wait e).1 hleast.1
  have hphase : φ = .blocked kind e ∨ φ = .expired kind e := by
    cases φ with
    | own => exact absurd hwaits (by simp [Phase.waitsOn])
    | woken kind' e' => exact absurd hwaits (by simp [Phase.waitsOn])
    | blocked kind' e' =>
      obtain rfl : e' = e := by simpa [Phase.waitsOn] using hwaits
      have := (hok.kind kind' e' rfl).symm.trans hkind
      exact Or.inl (by cases kind <;> cases kind' <;> first | rfl | cases this)
    | expired kind' e' =>
      obtain rfl : e' = e := by simpa [Phase.waitsOn] using hwaits
      have := (hok.kind kind' e' rfl).symm.trans hkind
      exact Or.inr (by cases kind <;> cases kind' <;> first | rfl | cases this)
  have hstat : t.osTcbStat &&& ~~~ kind.stat = suspendBit s := by
    rw [hok.phase.stat]
    rcases hphase with rfl | rfl
    · exact (stat_clear_kind kind s).1
    · show (0 ||| suspendBit s) &&& ~~~ kind.stat = suspendBit s
      rw [UInt8.zero_or]
      exact (stat_clear_kind kind s).2
  have hpend : φ.pending = some (kind, e) := by rcases hphase with rfl | rfl <;> rfl
  have hk' : k' = osEventTaskRemove
      (k.wake p ⟨suspendBit s, st, 0, pmsg, t.osTcbEventPtr⟩) p e := by
    show osEventTaskRdy k e pmsg kind.stat st = _
    unfold osEventTaskRdy
    dsimp only
    rw [htcb]
    dsimp only
    rw [hstat]
  have hwoken : HasPhase ⟨suspendBit s, st, 0, pmsg, t.osTcbEventPtr⟩ (.woken kind e) s :=
    ⟨UInt8.zero_or.symm, by rw [hok.phase.ptr, hpend]; rfl, hst, fun _ _ => rfl⟩
  refine ⟨hleast, hpending.symm.trans hpend, ?_, t, s, htcb, fun hr => (hok.rdy.1 hr).2.1, ?_, hok.lt,
    hwoken, ?_, ?_, ?_⟩
  · rw [hk']
    exact (OnlyTask.wake k hok.lt _).trans (OnlyTask.remove _ p e)
  · rw [hk']
    exact wake_tcb k p _
  · intro kind' e' he
    obtain ⟨rfl, rfl⟩ : kind = kind' ∧ e = e' := by simpa [Phase.pending] using he
    rw [hk', ((OnlyTask.remove _ p e).held e).1, wake_event]
    exact hkind
  · rw [hk']
    show p ∈ (k.wake p _).rdy.toSet ↔ _
    rw [mem_rdy_wake hok hwoken, CanRun]
    exact ⟨fun hs => ⟨id, hs, rfl⟩, fun hc => hc.2.1⟩
  · intro e'
    rw [hk', mem_osEventTaskRemove, wake_event, hok.wait e']
    have : φ.waitsOn = some e := hwaits
    rw [this]
    constructor
    · rintro ⟨heq, hne'⟩
      exact absurd (Option.some.inj heq).symm hne'
    · intro hnone
      cases hnone

theorem KernelInv.osEventTaskRdy {k : Kernel} {pending : ℕ → Option (Kind × ℕ)}
    (h : KernelInv k pending) {kind : Kind} {e : ℕ} (hkind : (k.event e).osEventType = kind.type)
    (hne : (k.event e).wait.grp ≠ 0) (pmsg : ℕ) {st : StatPend} (hst : st ≠ .timeout) :
    KernelInv (osEventTaskRdy k e pmsg kind.stat st) pending := by
  obtain ⟨hleast, hpending, ho, t, s, htcb, hsusp, htcb', hok⟩ :=
    osEventTaskRdy_spec h hkind hne pmsg hst
  refine h.of_onlyTask_same ho ?_ (fun hp => ?_) fun e' he' => ?_
  · rw [hpending]
    exact hok.taskAt htcb'
  · -- the idle task is ready, so it is not suspended
    rw [hok.rdy]
    exact ⟨id, hsusp (hp ▸ h.idle), rfl⟩
  · exact absurd ((hok.wait e').1 he') (by simp [Phase.waitsOn])

end NuAgent.Rtos
