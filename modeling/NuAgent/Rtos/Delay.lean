import NuAgent.Rtos.Delivery

/-!
# Delays

`OSTimeDly` stores a number of ticks that `OSTimeTick` counts down. `Touch` says what a call can do to
the delay of a task: keep it, end it, or, for the current task of an unlocked scheduler, set it. In every
run a task that is delayed for `n` ticks is not ready before the `n`-th tick, whatever else happens, and
with that tick it is ready unless it is suspended.
-/

namespace NuAgent.Rtos

open Bitmap Trace

variable {k : Kernel} {pending : ℕ → Option (Kind × ℕ)} {q : ℕ} {t : OsTcb}

/-! ## Calls -/

/-- What a post or an abort can do to the delay of task `q`: end it, if the task waits. -/
def Woken (k : Kernel) (q : ℕ) (t t' : OsTcb) : Prop :=
  (t'.osTcbDly = t.osTcbDly ∧ t'.osTcbEventPtr = t.osTcbEventPtr) ∨
    (t'.osTcbDly = 0 ∧ ∃ e, q ∈ (k.event e).wait.toSet)

theorem woken_osEventTaskRdy (h : KernelInv k pending) {kind : Kind} {e : ℕ}
    (htype : (k.event e).osEventType = kind.type) (hne : (k.event e).wait.grp ≠ 0) (m : ℕ)
    {st : StatPend} (hst : st ≠ .timeout) (htcb : k.tcb q = some t) :
    ∃ t', (osEventTaskRdy k e m kind.stat st).tcb q = some t' ∧ Woken k q t t' := by
  obtain ⟨hleast, -, ho, t0, s, -, -, htcb', -⟩ := osEventTaskRdy_spec h htype hne m hst
  by_cases hq : q = highest (k.event e).wait
  · subst hq
    exact ⟨_, htcb', Or.inr ⟨rfl, e, hleast.1⟩⟩
  · exact ⟨t, (ho.tcb q hq).trans htcb, Or.inl ⟨rfl, rfl⟩⟩

theorem woken_post (h : KernelInv k pending) (kind : Kind) (put : ℕ → OsEvent → Option OsEvent)
    (full : OsErr) (e m : ℕ) (htcb : k.tcb q = some t) :
    ∃ t', (post kind put full k e m).kernel.tcb q = some t' ∧ Woken k q t t' := by
  unfold post
  split
  · exact ⟨t, htcb, Or.inl ⟨rfl, rfl⟩⟩
  rename_i htype
  split
  · rename_i hne
    exact woken_osEventTaskRdy h (not_not.1 htype) hne m StatPend.noConfusion htcb
  · split <;> exact ⟨t, htcb, Or.inl ⟨rfl, rfl⟩⟩

theorem woken_abortLoop {kind : Kind} {e : ℕ} (n : ℕ) {k : Kernel} (h : KernelInv k pending)
    (htype : (k.event e).osEventType = kind.type) {t : OsTcb} (htcb : k.tcb q = some t) :
    ∃ t', (abortLoop kind e n k).1.tcb q = some t' ∧ Woken k q t t' := by
  induction n generalizing k t with
  | zero => exact ⟨t, htcb, Or.inl ⟨rfl, rfl⟩⟩
  | succ n ih =>
    rw [abortLoop]
    split
    · rename_i hne
      have hst : StatPend.abort ≠ .timeout := StatPend.noConfusion
      obtain ⟨hleast, -, ho, t0, s, -, -, htcb0, -⟩ := osEventTaskRdy_spec h htype hne 0 hst
      have hinv := h.osEventTaskRdy htype hne 0 hst
      by_cases hq : q = highest (k.event e).wait
      · -- the task has been woken, and later rounds leave it without a delay
        subst hq
        obtain ⟨t', htcb', hwoken⟩ := ih hinv ((ho.held e).1.trans htype) htcb0
        refine ⟨t', htcb', Or.inr ⟨?_, e, hleast.1⟩⟩
        rcases hwoken with ⟨hdly, -⟩ | ⟨hdly, -⟩ <;> exact hdly
      · obtain ⟨t', htcb', hwoken⟩ := ih hinv ((ho.held e).1.trans htype)
          ((ho.tcb q hq).trans htcb)
        refine ⟨t', htcb', ?_⟩
        rcases hwoken with hsame | ⟨hdly, e', he'⟩
        · exact Or.inl hsame
        · exact Or.inr ⟨hdly, e', (ho.wait q hq e').1 he'⟩
    · exact ⟨t, htcb, Or.inl ⟨rfl, rfl⟩⟩

/-- What a call can do to the delay of task `q`. -/
def Touch (k : Kernel) (c : Call) (q : ℕ) (t t' : OsTcb) : Prop :=
  Woken k q t t' ∨ (t'.osTcbDly = 0 ∧ c = .timeDlyResume q) ∨
    (q = k.osPrioCur ∧ k.osIntNesting = 0 ∧ k.osLockNesting = 0)

theorem Touch.same {c : Call} : Touch k c q t t := Or.inl (Or.inl ⟨rfl, rfl⟩)

/-- Every call, as far as it goes without `OS_Sched`. -/
theorem touch_simple (h : KernelInv k pending) (htcb : k.tcb q = some t) {c : Call}
    (hpend : ∀ kind e n, c ≠ .pend kind e n) :
    ∃ t', (c.simple k).kernel.tcb q = some t' ∧ Touch k c q t t' := by
  have hwoken : ∀ {k' : Kernel}, (∃ t', k'.tcb q = some t' ∧ Woken k q t t') →
      ∃ t', k'.tcb q = some t' ∧ Touch k c q t t' := by
    rintro k' ⟨t', htcb', hw⟩
    exact ⟨t', htcb', Or.inl hw⟩
  have hsame : ∀ {k' : Kernel}, k'.tcb = k.tcb → ∃ t', k'.tcb q = some t' ∧ Touch k c q t t' :=
    fun he => ⟨t, he ▸ htcb, .same⟩
  cases c with
  | pend kind e timeout => exact absurd rfl (hpend kind e timeout)
  | accept kind e =>
    refine hsame ?_
    show (accept kind k e).kernel.tcb = k.tcb
    rw [accept_kernel]
    split
    · rfl
    · split <;> rfl
  | semPost e => exact hwoken (woken_post h .sem putSem .semOvf e 0 htcb)
  | qPost e m => exact hwoken (woken_post h .q putQ .qFull e m htcb)
  | qPostFront e m => exact hwoken (woken_post h .q putQFront .qFull e m htcb)
  | pendAbort kind e broadcast =>
    refine hwoken ?_
    show ∃ t', (pendAbort kind k e broadcast).kernel.tcb q = some t' ∧ _
    unfold pendAbort
    split
    · exact ⟨t, htcb, Or.inl ⟨rfl, rfl⟩⟩
    rename_i htype
    split
    · exact woken_abortLoop _ h (not_not.1 htype) htcb
    · exact ⟨t, htcb, Or.inl ⟨rfl, rfl⟩⟩
  | semSet e cnt =>
    refine hsame ?_
    show (osSemSet k e cnt).kernel.tcb = k.tcb
    unfold osSemSet
    dsimp only
    split
    · rfl
    · split <;> rfl
  | qFlush e => exact hsame rfl
  | timeDly ticks =>
    show ∃ t', (osTimeDly k ticks).kernel.tcb q = some t' ∧ _
    unfold osTimeDly
    split
    · exact ⟨t, htcb, .same⟩
    rename_i hrun
    dsimp only
    by_cases hq : q = k.osPrioCur
    · subst hq
      rw [show (k.clearRdy k.osPrioCur).tcb (k.clearRdy k.osPrioCur).osPrioCur = some t from htcb]
      exact ⟨_, setTcb_tcb _ _ _, Or.inr (Or.inr ⟨rfl, by omega, by omega⟩)⟩
    · refine ⟨t, ?_, .same⟩
      split
      · exact htcb
      · exact (Function.update_of_ne hq _ _).trans htcb
  | timeDlyResume p =>
    show ∃ t', (osTimeDlyResume k p).kernel.tcb q = some t' ∧ _
    unfold osTimeDlyResume
    split
    · exact ⟨t, htcb, .same⟩
    split
    · exact ⟨t, htcb, .same⟩
    rename_i ptcb hp
    split
    · exact ⟨t, htcb, .same⟩
    by_cases hq : q = p
    · subst hq
      exact ⟨_, wake_tcb _ _ _, Or.inr (Or.inl ⟨delayOver_dly ptcb, rfl⟩)⟩
    · refine ⟨t, ?_, .same⟩
      unfold Kernel.wake
      dsimp only
      split <;> exact (Function.update_of_ne hq _ _).trans htcb
  | suspend p =>
    show ∃ t', (osTaskSuspend k p).kernel.tcb q = some t' ∧ _
    unfold osTaskSuspend
    dsimp only
    generalize (if p = 0xff then k.osPrioCur else p) = r
    cases hr : k.tcb r with
    | none => exact ⟨t, htcb, .same⟩
    | some ptcb =>
      by_cases hq : q = r
      · subst hq
        obtain rfl := Option.some.inj (htcb.symm.trans hr)
        exact ⟨_, setTcb_tcb _ _ _, Or.inl (Or.inl ⟨rfl, rfl⟩)⟩
      · exact ⟨t, (Function.update_of_ne hq _ _).trans htcb, .same⟩
  | resume p =>
    show ∃ t', (osTaskResume k p).kernel.tcb q = some t' ∧ _
    unfold osTaskResume
    cases hp : k.tcb p with
    | none => exact ⟨t, htcb, .same⟩
    | some ptcb =>
      dsimp only
      split
      · by_cases hq : q = p
        · subst hq
          obtain rfl := Option.some.inj (htcb.symm.trans hp)
          split <;> exact ⟨_, setTcb_tcb _ _ _, Or.inl (Or.inl ⟨rfl, rfl⟩)⟩
        · split <;> exact ⟨t, (Function.update_of_ne hq _ _).trans htcb, .same⟩
      · exact ⟨t, htcb, .same⟩
  | schedLock =>
    refine hsame ?_
    show (osSchedLock k).tcb = k.tcb
    unfold osSchedLock
    split <;> rfl
  | schedUnlock =>
    refine hsame ?_
    show (osSchedUnlock k).1.tcb = k.tcb
    unfold osSchedUnlock
    split <;> rfl

/-- The tables after a call. -/
def Outcome.kernel : Outcome → Kernel
  | .returned r => r.kernel
  | .blocked k _ _ => k

theorem touch_run (h : KernelInv k pending) (htcb : k.tcb q = some t) (c : Call) :
    ∃ t', (c.run k).kernel.tcb q = some t' ∧ Touch k c q t t' := by
  cases c with
  | pend kind e timeout =>
    rw [Call.run]
    cases hp : pend kind k e timeout with
    | returned k' r =>
      refine ⟨t, ?_, .same⟩
      show k'.tcb q = some t
      unfold pend at hp
      split at hp
      · cases hp
        exact htcb
      split at hp
      · cases hp
        exact htcb
      split at hp
      · cases hp
        exact htcb
      split at hp <;> cases hp
      exact htcb
    | blocked k' =>
      obtain ⟨hint, hlock⟩ := unlocked_of_blocked hp
      show ∃ t', k'.tcb q = some t' ∧ _
      have hmine : ∀ cur, k.tcb k.osPrioCur = some cur → ∃ t', k'.tcb q = some t' ∧
          Touch k (.pend kind e timeout) q t t' := by
        intro cur hcur
        obtain ⟨-, -, rfl⟩ := pend_blocked hcur hp
        by_cases hq : q = k.osPrioCur
        · subst hq
          exact ⟨_, setTcb_tcb _ _ _, Or.inr (Or.inr ⟨rfl, hint, hlock⟩)⟩
        · exact ⟨t, (Function.update_of_ne hq _ _).trans htcb, .same⟩
      cases hcur : k.tcb k.osPrioCur with
      | some cur => exact hmine cur hcur
      | none =>
        -- without a current task nothing is stored
        refine ⟨t, ?_, .same⟩
        unfold pend at hp
        split at hp
        · cases hp
        split at hp
        · cases hp
        split at hp
        · cases hp
        split at hp
        · cases hp
        rw [hcur] at hp
        injection hp with hp
        rw [← hp, osEventTaskWait, hcur]
        exact htcb
  | accept | semPost | qPost | qPostFront | pendAbort | semSet | qFlush | timeDly | timeDlyResume
  | suspend | resume | schedLock | schedUnlock =>
    exact touch_simple h htcb fun _ _ _ he => by cases he

/-! ## Ticks -/

theorem tickTask_tcb_of_ne (k : Kernel) {p : ℕ} (hq : q ≠ p) : (tickTask k p).tcb q = k.tcb q := by
  unfold tickTask
  split
  · rfl
  split
  · split
    · unfold Kernel.wake
      dsimp only
      split <;> exact Function.update_of_ne hq _ _
    · exact Function.update_of_ne hq _ _
  · rfl

theorem tickTask_tcb (htcb : k.tcb q = some t) :
    ∃ t', (tickTask k q).tcb q = some t' ∧ t'.osTcbDly = t.osTcbDly - 1 ∧
      t'.osTcbEventPtr = t.osTcbEventPtr := by
  unfold tickTask
  rw [htcb]
  dsimp only
  split
  · rename_i hdly
    split
    · rename_i hlast
      refine ⟨_, wake_tcb _ _ _, by rw [delayOver_dly, hlast], ?_⟩
      unfold delayOver
      split <;> rfl
    · exact ⟨_, setTcb_tcb _ _ _, rfl, rfl⟩
  · rename_i hdly
    exact ⟨t, htcb, by omega, rfl⟩

theorem tickLoop_tcb_of_notMem (l : List ℕ) (k : Kernel) (hq : q ∉ l) :
    (tickLoop l k).tcb q = k.tcb q := by
  induction l generalizing k with
  | nil => rfl
  | cons p l ih =>
    rw [List.mem_cons, not_or] at hq
    rw [tickLoop]
    split
    · rfl
    · rw [ih _ hq.2, tickTask_tcb_of_ne k hq.1]

/-- The list of the tasks, each once, with the idle task at its end. -/
def TasksListed (l : List ℕ) : Prop :=
  ∃ l', l = l' ++ [osTaskIdlePrio] ∧ l'.Nodup ∧ osTaskIdlePrio ∉ l'

/-- `OSTimeTick` counts down every task but the idle task once. -/
theorem tickLoop_tcb {l' : List ℕ} (hnodup : l'.Nodup) (hidle : osTaskIdlePrio ∉ l') {k : Kernel}
    {t : OsTcb} (hq : q ∈ l') (htcb : k.tcb q = some t) :
    ∃ t', (tickLoop (l' ++ [osTaskIdlePrio]) k).tcb q = some t' ∧ t'.osTcbDly = t.osTcbDly - 1 ∧
      t'.osTcbEventPtr = t.osTcbEventPtr := by
  induction l' generalizing k with
  | nil => exact absurd hq List.not_mem_nil
  | cons p l' ih =>
    obtain ⟨hp, hnodup⟩ := List.nodup_cons.1 hnodup
    rw [List.mem_cons, not_or] at hidle
    rw [List.cons_append, tickLoop, if_neg fun h => hidle.1 h.symm]
    rcases List.mem_cons.1 hq with rfl | hq
    · obtain ⟨t', htcb', hdly, hptr⟩ := tickTask_tcb htcb
      refine ⟨t', ?_, hdly, hptr⟩
      rw [tickLoop_tcb_of_notMem _ _ ?_, htcb']
      rw [List.mem_append, List.mem_singleton, not_or]
      exact ⟨hp, fun h => hidle.1 h.symm⟩
    · have hne : q ≠ p := fun h => hp (h ▸ hq)
      exact ih hnodup hidle.2 hq ((tickTask_tcb_of_ne k hne).trans htcb)

/-! ## The list of the tasks -/

theorem wake_osTcbList (k : Kernel) (p : ℕ) (t : OsTcb) :
    (k.wake p t).osTcbList = k.osTcbList := by
  unfold Kernel.wake
  dsimp only
  split <;> rfl

theorem osEventTaskRdy_osTcbList (k : Kernel) (e m : ℕ) (msk : UInt8) (st : StatPend) :
    (osEventTaskRdy k e m msk st).osTcbList = k.osTcbList := by
  unfold osEventTaskRdy
  dsimp only
  split
  · rfl
  · exact wake_osTcbList k _ _

theorem abortLoop_osTcbList (kind : Kind) (e n : ℕ) (k : Kernel) :
    (abortLoop kind e n k).1.osTcbList = k.osTcbList := by
  induction n generalizing k with
  | zero => rfl
  | succ n ih =>
    rw [abortLoop]
    split
    · exact (ih _).trans (osEventTaskRdy_osTcbList k _ _ _ _)
    · rfl

theorem post_osTcbList (kind : Kind) (put : ℕ → OsEvent → Option OsEvent) (full : OsErr) (k : Kernel)
    (e m : ℕ) : (post kind put full k e m).kernel.osTcbList = k.osTcbList := by
  unfold post
  split
  · rfl
  split
  · exact osEventTaskRdy_osTcbList k _ _ _ _
  · split <;> rfl

theorem osEventTaskWait_osTcbList (k : Kernel) (e : ℕ) :
    (osEventTaskWait k e).osTcbList = k.osTcbList := by
  unfold osEventTaskWait
  cases k.tcb k.osPrioCur <;> rfl

theorem pend_osTcbList (k : Kernel) (kind : Kind) (e timeout : ℕ) :
    (Call.run k (.pend kind e timeout)).kernel.osTcbList = k.osTcbList := by
  rw [Call.run]
  cases hp : pend kind k e timeout with
  | returned k' r =>
    show k'.osTcbList = k.osTcbList
    unfold pend at hp
    split at hp
    · cases hp
      rfl
    split at hp
    · cases hp
      rfl
    split at hp
    · cases hp
      rfl
    split at hp <;> cases hp
    rfl
  | blocked k' =>
    show k'.osTcbList = k.osTcbList
    unfold pend at hp
    split at hp
    · cases hp
    split at hp
    · cases hp
    split at hp
    · cases hp
    split at hp
    · cases hp
    injection hp with hp
    rw [← hp, osEventTaskWait_osTcbList]
    cases k.tcb k.osPrioCur <;> rfl

/-- No call creates or deletes a task. -/
theorem run_osTcbList (k : Kernel) (c : Call) : (c.run k).kernel.osTcbList = k.osTcbList := by
  cases c with
  | pend kind e timeout => exact pend_osTcbList k kind e timeout
  | accept kind e =>
    show (accept kind k e).kernel.osTcbList = k.osTcbList
    rw [accept_kernel]
    split
    · rfl
    · split <;> rfl
  | semPost e => exact post_osTcbList .sem putSem .semOvf k e 0
  | qPost e m => exact post_osTcbList .q putQ .qFull k e m
  | qPostFront e m => exact post_osTcbList .q putQFront .qFull k e m
  | pendAbort kind e broadcast =>
    show (pendAbort kind k e broadcast).kernel.osTcbList = k.osTcbList
    unfold pendAbort
    split
    · rfl
    split
    · exact abortLoop_osTcbList kind e _ k
    · rfl
  | semSet e cnt =>
    show (osSemSet k e cnt).kernel.osTcbList = k.osTcbList
    unfold osSemSet
    dsimp only
    split
    · rfl
    · split <;> rfl
  | qFlush e => rfl
  | timeDly n =>
    show (osTimeDly k n).kernel.osTcbList = k.osTcbList
    unfold osTimeDly
    dsimp only
    split
    · rfl
    · split <;> rfl
  | timeDlyResume p =>
    show (osTimeDlyResume k p).kernel.osTcbList = k.osTcbList
    unfold osTimeDlyResume
    split
    · rfl
    split
    · rfl
    split
    · rfl
    · exact wake_osTcbList k p _
  | suspend p =>
    show (osTaskSuspend k p).kernel.osTcbList = k.osTcbList
    unfold osTaskSuspend
    dsimp only
    split <;> rfl
  | resume p =>
    show (osTaskResume k p).kernel.osTcbList = k.osTcbList
    unfold osTaskResume
    dsimp only
    split
    · rfl
    split
    · split <;> rfl
    · rfl
  | schedLock =>
    show (osSchedLock k).osTcbList = k.osTcbList
    unfold osSchedLock
    split <;> rfl
  | schedUnlock =>
    show (osSchedUnlock k).1.osTcbList = k.osTcbList
    unfold osSchedUnlock
    split <;> rfl

theorem tickTask_osTcbList (k : Kernel) (p : ℕ) : (tickTask k p).osTcbList = k.osTcbList := by
  unfold tickTask
  split
  · rfl
  split
  · split
    · exact wake_osTcbList k p _
    · rfl
  · rfl

theorem tickLoop_osTcbList (l : List ℕ) (k : Kernel) :
    (tickLoop l k).osTcbList = k.osTcbList := by
  induction l generalizing k with
  | nil => rfl
  | cons p l ih =>
    rw [tickLoop]
    split
    · rfl
    · exact (ih _).trans (tickTask_osTcbList k p)

theorem osSched_osTcbList (k : Kernel) : (osSched k).osTcbList = k.osTcbList := by
  unfold osSched
  split <;> rfl

theorem osSched_tcb (k : Kernel) : (osSched k).tcb = k.tcb := by
  unfold osSched
  split <;> rfl

/-! ## Runs -/

/-- A tick that counts: one in an interrupt routine. -/
def tickOf (m : Machine) : Action → ℕ
  | .tick => if m.k.osIntNesting > 0 then 1 else 0
  | _ => 0

/-- The ticks of a run. -/
def ticks (m : Machine) : List Action → ℕ
  | [] => 0
  | a :: as => tickOf m a + ticks (step m a) as

/-- Nobody ends the delay of task `q`. -/
def Undisturbed (q : ℕ) (a : Action) : Prop :=
  a ≠ .task (.timeDlyResume q) ∧ a ≠ .isr (.timeDlyResume q)

/-- A task that is delayed in its own code, with `n` ticks left. -/
structure Delayed (m : Machine) (q n : ℕ) : Prop where
  inv : Inv m
  listed : TasksListed m.k.osTcbList
  mem : q ∈ m.k.osTcbList
  tcb : ∃ t, m.k.tcb q = some t ∧ t.osTcbDly = n ∧ t.osTcbEventPtr = none

theorem step_osTcbList (m : Machine) (a : Action) : (step m a).k.osTcbList = m.k.osTcbList := by
  have hrun : ∀ c : Call, (c.run m.k).kernel.osTcbList = m.k.osTcbList := run_osTcbList m.k
  cases a with
  | task c =>
    rw [step]
    split
    · have := hrun c
      unfold taskCall
      cases hc : c.run m.k <;> rw [hc] at this <;> exact this
    · rfl
  | go =>
    rw [step]
    split
    · unfold taskGo
      dsimp only
      split
      · exact osSched_osTcbList m.k
      · split
        · rfl
        · exact (onlyTask_pendResume m.k _ _).list
    · rfl
  | intEnter =>
    rw [step, osIntEnter]
    split <;> rfl
  | isr c =>
    rw [step]
    split
    · have := hrun c
      unfold isrCall
      cases hc : c.run m.k with
      | returned r =>
        rw [hc] at this
        dsimp only
        split
        · exact (osSched_osTcbList _).trans this
        · exact this
      | blocked => rfl
    · rfl
  | tick =>
    rw [step]
    split
    · exact tickLoop_osTcbList _ _
    · rfl
  | intExit =>
    rw [step]
    split
    · exact osSched_osTcbList _
    · rfl

/-- A task with a delay is in no wait table and not ready, and it is not the idle task. -/
theorem Delayed.spec {m : Machine} {n : ℕ} (h : Delayed m q n) (hn : n ≠ 0) :
    q ∉ m.k.rdy.toSet ∧ (∀ e, q ∉ (m.k.event e).wait.toSet) ∧ m.pending q = none := by
  obtain ⟨t, htcb, hdly, hptr⟩ := h.tcb
  have ht := h.inv.kernel.task q
  unfold TaskAt at ht
  rw [htcb] at ht
  obtain ⟨φ, s, hpending, hok⟩ := ht
  have hφ : φ = .own := by
    have := hok.phase.ptr
    rw [hptr] at this
    cases φ with
    | own => rfl
    | blocked | expired | woken => cases this
  subst hφ
  refine ⟨fun hr => hn (hdly.symm.trans (hok.rdy.1 hr).2.2), fun e he => ?_, hpending.symm⟩
  cases (hok.wait e).1 he

/-- A step counts the delay down by its tick. -/
theorem Delayed.step {m : Machine} {n : ℕ} (h : Delayed m q n) (hn : n ≠ 0) {a : Action}
    (hlegal : Legal m a) (ha : Undisturbed q a) :
    Delayed (step m a) q (n - tickOf m a) := by
  refine ⟨h.inv.step hlegal, ?_, ?_, ?_⟩
  · rw [step_osTcbList]
    exact h.listed
  · rw [step_osTcbList]
    exact h.mem
  obtain ⟨t, htcb, rfl, hptr⟩ := h.tcb
  obtain ⟨hrdy, hwait, hown⟩ := h.spec hn
  -- a call of a task other than `q`, or of an interrupt routine, keeps the delay
  have hcall : ∀ c : Call, c ≠ .timeDlyResume q →
      ¬ (q = m.k.osPrioCur ∧ m.k.osIntNesting = 0 ∧ m.k.osLockNesting = 0) →
      ∃ t', (c.run m.k).kernel.tcb q = some t' ∧ t'.osTcbDly = t.osTcbDly ∧
        t'.osTcbEventPtr = none := by
    intro c hc hcur
    obtain ⟨t', htcb', htouch⟩ := touch_run h.inv.kernel htcb c
    rcases htouch with (⟨hdly, hptr'⟩ | ⟨-, e, he⟩) | ⟨-, rfl⟩ | hmine
    · exact ⟨t', htcb', hdly, hptr'.trans hptr⟩
    · exact absurd he (hwait e)
    · exact absurd rfl hc
    · exact absurd hmine hcur
  cases a with
  | task c =>
    rw [Rtos.step]
    split
    · rename_i hready
      obtain ⟨t', htcb', hdly, hptr'⟩ := hcall c (fun hc => ha.1 (by rw [hc])) fun hcur =>
        hrdy (hcur.1 ▸ (h.inv.current hcur.2.1 hcur.2.2 hready.2.1).1)
      refine ⟨t', ?_, hdly, hptr'⟩
      unfold taskCall
      cases hc : c.run m.k <;> rw [hc] at htcb' <;> exact htcb'
    · exact ⟨t, htcb, rfl, hptr⟩
  | go =>
    rw [Rtos.step]
    split
    · refine ⟨t, ?_, rfl, hptr⟩
      unfold taskGo
      dsimp only
      split
      · rw [osSched_tcb]
        exact htcb
      · split
        · exact htcb
        · rename_i kind e hin
          refine ((onlyTask_pendResume m.k kind e).tcb q fun hq => ?_).trans htcb
          rw [hq, Machine.pending, hin] at hown
          cases hown
    · exact ⟨t, htcb, rfl, hptr⟩
  | intEnter =>
    refine ⟨t, ?_, rfl, hptr⟩
    rw [Rtos.step, osIntEnter]
    split <;> exact htcb
  | isr c =>
    rw [Rtos.step]
    split
    · rename_i hint
      obtain ⟨t', htcb', hdly, hptr'⟩ := hcall c (fun hc => ha.2 (by rw [hc])) fun hc => by omega
      unfold isrCall
      cases hc : c.run m.k with
      | returned r =>
        rw [hc] at htcb'
        refine ⟨t', ?_, hdly, hptr'⟩
        dsimp only
        split
        · rw [osSched_tcb]
          exact htcb'
        · exact htcb'
      | blocked k kind e => exact ⟨t, htcb, rfl, hptr⟩
    · exact ⟨t, htcb, rfl, hptr⟩
  | tick =>
    rw [Rtos.step, tickOf]
    split
    · obtain ⟨l, hl, hnodup, hidle⟩ := h.listed
      have hmem : q ∈ l := by
        have hq := h.mem
        rw [hl, List.mem_append, List.mem_singleton] at hq
        refine hq.resolve_right fun hq => hrdy ?_
        rw [hq]
        exact h.inv.kernel.idle
      obtain ⟨t', htcb', hdly, hptr'⟩ := tickLoop_tcb hnodup hidle
        (k := { m.k with osTime := m.k.osTime + 1 }) hmem htcb
      refine ⟨t', ?_, hdly, hptr'.trans hptr⟩
      rw [← hl] at htcb'
      exact htcb'
    · exact ⟨t, htcb, rfl, hptr⟩
  | intExit =>
    refine ⟨t, ?_, rfl, hptr⟩
    rw [Rtos.step]
    split
    · show (osIntExit m.k).tcb q = _
      rw [osIntExit, osSched_tcb]
      exact htcb
    · exact htcb

/-- Until its delay has passed, a task is counted down by the ticks of the run. -/
theorem Delayed.run {m : Machine} {n : ℕ} (h : Delayed m q n) {acts : List Action}
    (hlegal : Along Rtos.step Legal m acts) (hquiet : ∀ a ∈ acts, Undisturbed q a)
    (hn : ticks m acts < n) : Delayed (run Rtos.step m acts) q (n - ticks m acts) := by
  induction acts generalizing m n with
  | nil => exact h
  | cons a acts ih =>
    rw [ticks] at hn
    have hstep := h.step (by omega) hlegal.1 (hquiet a List.mem_cons_self)
    have := ih hstep hlegal.2 (fun b hb => hquiet b (List.mem_cons_of_mem a hb)) (by omega)
    rwa [Nat.sub_sub] at this

theorem osTcbList_run (m : Machine) (acts : List Action) :
    (Trace.run Rtos.step m acts).k.osTcbList = m.k.osTcbList := by
  induction acts generalizing m with
  | nil => rfl
  | cons a acts ih => exact (ih _).trans (step_osTcbList m a)

/-- With the last tick the task is ready, unless it is suspended. -/
theorem Delayed.last {m : Machine} (h : Delayed m q 1) (hint : m.k.osIntNesting > 0) :
    ∃ t, (Rtos.step m .tick).k.tcb q = some t ∧ t.osTcbDly = 0 ∧
      (q ∈ (Rtos.step m .tick).k.rdy.toSet ↔ t.osTcbStat &&& osStatSuspend = osStatRdy) := by
  have hover := h.step (Nat.one_ne_zero) (a := .tick) trivial
    ⟨Action.noConfusion, Action.noConfusion⟩
  rw [tickOf, if_pos hint] at hover
  obtain ⟨t, htcb, hdly, hptr⟩ := hover.tcb
  refine ⟨t, htcb, hdly, ?_⟩
  have ht := hover.inv.kernel.task q
  unfold TaskAt at ht
  rw [htcb] at ht
  obtain ⟨φ, s, -, hok⟩ := ht
  have hb : ¬ φ.Blocked := by
    have := hok.phase.ptr
    rw [hptr] at this
    cases φ with
    | own => exact id
    | blocked | expired | woken => cases this
  rw [hok.rdy, hok.phase.stat, stat_suspend]
  exact ⟨fun hc => hc.2.1, fun hs => ⟨hb, hs, hdly⟩⟩

end NuAgent.Rtos
