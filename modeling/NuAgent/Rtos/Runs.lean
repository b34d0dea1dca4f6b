import NuAgent.Rtos.Keeps

/-!
# Runs of the kernel

`Inv` is the invariant of the machine: the kernel's, with the pends that the tasks are in, and that
the current task is the most urgent one whenever nothing keeps the scheduler from running. A run may
interleave the tasks' calls with interrupts in any order. The results are that the kernel always runs
the most urgent task that can run, and that no task is left waiting for something that is there.
-/

namespace NuAgent.Rtos

open Bitmap Trace

/-- The pends that the tasks are in. -/
abbrev Machine.pending (m : Machine) (p : ℕ) : Option (Kind × ℕ) := (m.cont p).pending

structure Inv (m : Machine) : Prop where
  kernel : KernelInv m.k m.pending
  current : m.k.osIntNesting = 0 → m.k.osLockNesting = 0 → (m.cont m.k.osPrioCur).sched = false →
    IsLeast m.k.rdy.toSet m.k.osPrioCur
  locked : m.k.osLockNesting > 0 → m.pending m.k.osPrioCur = none

/-- A machine as `OSStart` leaves it: the tasks that exist are ready, no task waits, and the most
urgent one is current. -/
structure Started (m : Machine) : Prop where
  nesting : m.k.osIntNesting = 0 ∧ m.k.osLockNesting = 0
  wf : TablesWf m.k
  tcb : ∀ p, p ∈ m.k.rdy.toSet ↔ m.k.tcb p ≠ none
  fresh : ∀ p t, m.k.tcb p = some t → t = ⟨osStatRdy, .ok, 0, 0, none⟩
  wait : ∀ e, (m.k.event e).wait.toSet = ∅
  idle : m.k.tcb osTaskIdlePrio ≠ none
  cur : m.k.osPrioCur = highest m.k.rdy
  cont : ∀ p, m.cont p = .own

/-- The pends after one task goes on to another place. -/
theorem pending_update (cont : ℕ → Cont) (p : ℕ) (c : Cont) :
    (fun q => (Function.update cont p c q).pending) =
      Function.update (fun q => (cont q).pending) p c.pending := by
  funext q
  by_cases hq : q = p
  · rw [hq, Function.update_self, Function.update_self]
  · rw [Function.update_of_ne hq, Function.update_of_ne hq]

theorem lt_of_mem_toSet {t : Table 8} {p : ℕ} (h : p ∈ t.toSet) : p < 64 := by
  have := h.1
  omega

theorem Started.inv {m : Machine} (h : Started m) : Inv m where
  kernel :=
    { wf := h.wf
      task p := by
        unfold TaskAt
        rw [show m.pending p = none from by rw [Machine.pending, h.cont p]; rfl]
        cases htcb : m.k.tcb p with
        | none => exact ⟨fun hr => (h.tcb p).1 hr htcb, fun e he => by rw [h.wait e] at he; exact he⟩
        | some t =>
          have hr : p ∈ m.k.rdy.toSet := (h.tcb p).2 (by rw [htcb]; exact Option.some_ne_none t)
          obtain rfl := h.fresh p t htcb
          refine ⟨.own, false, rfl, lt_of_mem_toSet hr, ?_, fun _ _ he => (by cases he), ?_, fun e => ?_⟩
          · exact ⟨rfl, rfl, StatPend.noConfusion, fun hp => absurd rfl hp⟩
          · exact ⟨fun _ => ⟨id, rfl, rfl⟩, fun _ => hr⟩
          · rw [h.wait e]
            exact ⟨fun he => absurd he (Set.notMem_empty p), fun he => by cases he⟩
      idle := (h.tcb _).2 h.idle
      waiting e _ := h.wait e }
  current _ _ _ := by
    rw [h.cur]
    exact isLeast_highest h.wf.rdy ⟨_, (h.tcb _).2 h.idle⟩
  locked hl := absurd hl (by rw [h.nesting.2]; exact Nat.lt_irrefl 0)

/-! ## One step -/

/-- The scheduler makes the most urgent task current. -/
theorem isLeast_osSched {k : Kernel} {pending : ℕ → Option (Kind × ℕ)} (h : KernelInv k pending)
    (hrun : k.osIntNesting = 0 ∧ k.osLockNesting = 0) :
    IsLeast (osSched k).rdy.toSet (osSched k).osPrioCur := by
  rw [osSched, if_pos hrun]
  exact isLeast_highest h.wf.rdy ⟨_, h.idle⟩

theorem KernelInv.osSched {k : Kernel} {pending : ℕ → Option (Kind × ℕ)} (h : KernelInv k pending) :
    KernelInv (osSched k) pending := by
  unfold Rtos.osSched
  split
  · exact h.congr rfl rfl rfl
  · exact h

theorem osSched_nesting (k : Kernel) :
    (osSched k).osIntNesting = k.osIntNesting ∧ (osSched k).osLockNesting = k.osLockNesting := by
  unfold osSched
  split <;> exact ⟨rfl, rfl⟩

theorem osSched_locked {k : Kernel} (h : k.osLockNesting > 0 ∨ k.osIntNesting > 0) :
    osSched k = k := by
  rw [osSched, if_neg (by omega)]

/-- After `OS_Sched`, whatever was current before. -/
theorem Inv.of_osSched {k : Kernel} {cont : ℕ → Cont}
    (h : KernelInv k fun p => (cont p).pending)
    (hlocked : k.osLockNesting > 0 → (cont k.osPrioCur).pending = none) :
    Inv ⟨osSched k, cont⟩ where
  kernel := h.osSched
  current hint hlock _ := by
    obtain ⟨hi, hl⟩ := osSched_nesting k
    exact isLeast_osSched h ⟨hi ▸ hint, hl ▸ hlock⟩
  locked hlock := by
    have hl : k.osLockNesting > 0 := (osSched_nesting k).2 ▸ hlock
    show (cont (Rtos.osSched k).osPrioCur).pending = none
    rw [osSched_locked (Or.inl hl)]
    exact hlocked hl

/-- What a call does to the scheduler's variables: only `OSSchedLock` and `OSSchedUnlock` change
`OSLockNesting`, and the second goes on to `OS_Sched` when a task unlocks the scheduler. -/
structure CallKeeps (k : Kernel) (pending : ℕ → Option (Kind × ℕ)) (c : Called) : Prop where
  inv : KernelInv c.kernel pending
  cur : c.kernel.osPrioCur = k.osPrioCur
  nesting : c.kernel.osIntNesting = k.osIntNesting
  lock : k.osIntNesting > 0 → c.kernel.osLockNesting ≤ k.osLockNesting
  unlock : k.osIntNesting = 0 → c.kernel.osLockNesting = 0 → c.sched = false →
    k.osLockNesting = 0
  quiet : c.sched = false → Quiet k c.kernel

theorem Keeps.call {k : Kernel} {pending : ℕ → Option (Kind × ℕ)} {c : Called}
    (h : Keeps k pending c) : CallKeeps k pending c where
  inv := h.inv
  cur := h.cpu.1
  nesting := h.cpu.2.1
  lock _ := Nat.le_of_eq h.cpu.2.2
  unlock _ hlock _ := h.cpu.2.2 ▸ hlock
  quiet := h.quiet

theorem callKeeps_lock {k : Kernel} {pending : ℕ → Option (Kind × ℕ)} (h : KernelInv k pending)
    (r : Ret) : CallKeeps k pending { kernel := osSchedLock k, ret := r } := by
  unfold osSchedLock
  split
  · exact ⟨h.congr rfl rfl rfl, rfl, rfl, fun hi => by omega, fun _ hl => absurd hl (Nat.succ_ne_zero _),
      fun _ => .of_rdy_eq rfl⟩
  · exact (Keeps.unchanged h false r).call

theorem callKeeps_unlock {k : Kernel} {pending : ℕ → Option (Kind × ℕ)} (h : KernelInv k pending)
    (r : Ret) : CallKeeps k pending ⟨(osSchedUnlock k).1, (osSchedUnlock k).2, r⟩ := by
  unfold osSchedUnlock
  split
  · refine ⟨h.congr rfl rfl rfl, rfl, rfl, fun _ => Nat.sub_le _ _, fun hi hl hs => ?_,
      fun _ => .of_rdy_eq rfl⟩
    simp only [decide_eq_false_iff_not, not_and] at hs
    exact absurd hi (hs hl)
  · exact (Keeps.unchanged h false r).call

/-- The calls that are not pends. -/
theorem callKeeps_simple {k : Kernel} {pending : ℕ → Option (Kind × ℕ)} (h : KernelInv k pending)
    {c : Call} (hc : c.Legal k) (hown : k.osIntNesting = 0 → pending k.osPrioCur = none)
    (hidle : k.osIntNesting = 0 → k.osPrioCur ≠ osTaskIdlePrio) :
    CallKeeps k pending (c.simple k) := by
  cases c with
  | pend kind e timeout => exact (Keeps.unchanged h _ _).call
  | accept kind e => exact (Keeps.accept h kind e).call
  | semPost e => exact (Keeps.post h .sem putOk_sem .semOvf e 0).call
  | qPost e m => exact (Keeps.post h .q putOk_q .qFull e m).call
  | qPostFront e m => exact (Keeps.post h .q putOk_qFront .qFull e m).call
  | pendAbort kind e broadcast => exact (Keeps.pendAbort h kind e broadcast).call
  | semSet e cnt => exact (Keeps.osSemSet h e cnt).call
  | qFlush e => exact (Keeps.osQFlush h hc).call
  | timeDly ticks => exact (Keeps.osTimeDly h ticks hown hidle).call
  | timeDlyResume p => exact (Keeps.osTimeDlyResume h p).call
  | suspend p => exact (Keeps.osTaskSuspend h p hc).call
  | resume p => exact (Keeps.osTaskResume h p).call
  | schedLock => exact callKeeps_lock h _
  | schedUnlock => exact callKeeps_unlock h _

/-- A pend that does not block. -/
theorem callKeeps_pend {k k' : Kernel} {pending : ℕ → Option (Kind × ℕ)} (h : KernelInv k pending)
    {kind : Kind} {e timeout : ℕ} {r : Ret} (hr : pend kind k e timeout = .returned k' r) :
    CallKeeps k pending { kernel := k', ret := r } := by
  unfold pend at hr
  split at hr
  · cases hr
    exact (Keeps.unchanged h _ _).call
  rename_i htype
  split at hr
  · cases hr
    exact (Keeps.unchanged h _ _).call
  split at hr
  · cases hr
    exact (Keeps.unchanged h _ _).call
  split at hr
  · rename_i m v htake
    cases hr
    exact (Keeps.take h (not_not.1 htype) htake _).call
  · cases hr

/-- A pend blocks in a task only, and with the scheduler unlocked. -/
theorem unlocked_of_blocked {k k' : Kernel} {kind : Kind} {e timeout : ℕ}
    (h : pend kind k e timeout = .blocked k') : k.osIntNesting = 0 ∧ k.osLockNesting = 0 := by
  unfold pend at h
  split at h
  · cases h
  split at h
  · cases h
  split at h
  · cases h
  omega

/-- Every call either keeps the invariant or is a pend that blocks. -/
theorem run_cases {k : Kernel} {pending : ℕ → Option (Kind × ℕ)} (h : KernelInv k pending)
    {c : Call} (hc : c.Legal k) (hown : k.osIntNesting = 0 → pending k.osPrioCur = none)
    (hidle : k.osIntNesting = 0 → k.osPrioCur ≠ osTaskIdlePrio) :
    (∃ r, c.run k = .returned r ∧ CallKeeps k pending r) ∨
      ∃ kind e timeout k', c.run k = .blocked k' kind e ∧ pend kind k e timeout = .blocked k' := by
  cases c with
  | pend kind e timeout =>
    rw [Call.run]
    cases hp : pend kind k e timeout with
    | returned k' r => exact Or.inl ⟨_, rfl, callKeeps_pend h hp⟩
    | blocked k' =>
      exact Or.inr ⟨kind, e, timeout, k', rfl, hp⟩
  | accept | semPost | qPost | qPostFront | pendAbort | semSet | qFlush | timeDly | timeDlyResume
  | suspend | resume | schedLock | schedUnlock =>
    exact Or.inl ⟨_, rfl, callKeeps_simple h hc hown hidle⟩

theorem Inv.taskCall {m : Machine} (h : Inv m) {c : Call} (hc : c.Legal m.k)
    (hidle : m.k.osPrioCur ≠ osTaskIdlePrio) (hint : m.k.osIntNesting = 0)
    (hsched : (m.cont m.k.osPrioCur).sched = false)
    (hown : m.pending m.k.osPrioCur = none) : Inv (taskCall m c) := by
  unfold Rtos.taskCall
  obtain ⟨r, hrun, hkeeps⟩ | ⟨kind, e, timeout, k', hrun, hpend⟩ :=
    run_cases h.kernel hc (fun _ => hown) (fun _ => hidle)
  · rw [hrun]
    dsimp only
    have hinv : KernelInv r.kernel
        fun p => (Function.update m.cont m.k.osPrioCur ⟨r.sched, none⟩ p).pending := by
      rw [pending_update, ← hown, Function.update_eq_self]
      exact hkeeps.inv
    refine ⟨hinv, fun _ hlock hs => ?_, fun _ => ?_⟩
    · dsimp only at hs hlock ⊢
      rw [hkeeps.cur, Function.update_self] at hs
      have hleast := h.current hint (hkeeps.unlock hint hlock hs) hsched
      obtain ⟨hsub, hcur⟩ := hkeeps.quiet hs
      rw [hkeeps.cur]
      exact ⟨hcur hleast.1, fun q hq => hleast.2 (hsub hq)⟩
    · show (Function.update m.cont m.k.osPrioCur _ r.kernel.osPrioCur).pending = none
      rw [hkeeps.cur, Function.update_self]
  · rw [hrun]
    dsimp only
    have hlock := (unlocked_of_blocked hpend).2
    have hcur := (h.current hint hlock hsched).1
    obtain ⟨hblock, hcpu⟩ := h.kernel.block hcur hown hidle hpend
    have hinv : KernelInv k'
        fun p => (Function.update m.cont m.k.osPrioCur ⟨true, some (kind, e)⟩ p).pending := by
      rw [pending_update]
      exact hblock
    refine ⟨hinv, fun _ _ hs => ?_, fun hl => ?_⟩
    · dsimp only at hs
      rw [hcpu.1, Function.update_self] at hs
      cases hs
    · dsimp only at hl
      rw [hcpu.2.2, hlock] at hl
      exact absurd hl (Nat.lt_irrefl 0)

theorem Inv.isrCall {m : Machine} (h : Inv m) {c : Call} (hc : c.Legal m.k)
    (hint : m.k.osIntNesting > 0) : Inv (isrCall m c) := by
  unfold Rtos.isrCall
  obtain ⟨r, hrun, hkeeps⟩ | ⟨kind, e, timeout, k', hrun, hpend⟩ :=
    run_cases h.kernel hc (fun h0 => by omega) (fun h0 => by omega)
  · rw [hrun]
    dsimp only
    have hsame : (if r.sched then osSched r.kernel else r.kernel) = r.kernel := by
      rw [osSched_locked (Or.inr (hkeeps.nesting ▸ hint)), ite_self]
    rw [hsame]
    refine ⟨hkeeps.inv, fun h0 => ?_, fun hl => ?_⟩
    · dsimp only at h0
      rw [hkeeps.nesting] at h0
      omega
    · dsimp only at hl
      have := hkeeps.lock hint
      show (m.cont r.kernel.osPrioCur).pending = none
      rw [hkeeps.cur]
      exact h.locked (by omega)
  · rw [hrun]
    exact h

theorem Inv.taskGo {m : Machine} (h : Inv m) (hint : m.k.osIntNesting = 0) : Inv (taskGo m) := by
  unfold Rtos.taskGo
  dsimp only
  split
  · have hinv : KernelInv m.k fun p => (Function.update m.cont m.k.osPrioCur
        { m.cont m.k.osPrioCur with sched := false } p).pending := by
      rw [pending_update, Function.update_eq_self]
      exact h.kernel
    refine Inv.of_osSched hinv fun hl => ?_
    rw [Function.update_self]
    exact h.locked hl
  · rename_i hsched
    cases hin : m.pending m.k.osPrioCur with
    | none => rw [show (m.cont m.k.osPrioCur).pending = none from hin]; exact h
    | some r =>
      obtain ⟨kind, e⟩ := r
      rw [show (m.cont m.k.osPrioCur).pending = some (kind, e) from hin]
      have hlock : m.k.osLockNesting = 0 := by
        by_contra hl
        have := h.locked (by omega)
        rw [hin] at this
        cases this
      have hleast := h.current hint hlock (by simpa using hsched)
      obtain ⟨hdone, hcpu, hrdy⟩ := h.kernel.pendResume hleast.1 hin
      have hinv : KernelInv (pendResume kind m.k e).1
          fun p => (Function.update m.cont m.k.osPrioCur .own p).pending := by
        rw [pending_update]
        exact hdone
      refine ⟨hinv, fun _ _ _ => ?_, fun hl => ?_⟩
      · dsimp only
        rw [hrdy, hcpu.1]
        exact hleast
      · dsimp only at hl
        rw [hcpu.2.2, hlock] at hl
        exact absurd hl (Nat.lt_irrefl 0)

theorem sameCpu_tickTask (k : Kernel) (p : ℕ) : SameCpu k (tickTask k p) := by
  unfold tickTask
  split
  · exact ⟨rfl, rfl, rfl⟩
  · split
    · split
      · unfold Kernel.wake
        dsimp only
        split <;> exact ⟨rfl, rfl, rfl⟩
      · exact ⟨rfl, rfl, rfl⟩
    · exact ⟨rfl, rfl, rfl⟩

theorem sameCpu_tickLoop (l : List ℕ) (k : Kernel) : SameCpu k (tickLoop l k) := by
  induction l generalizing k with
  | nil => exact ⟨rfl, rfl, rfl⟩
  | cons p l ih =>
    rw [tickLoop]
    split
    · exact ⟨rfl, rfl, rfl⟩
    · have h1 := sameCpu_tickTask k p
      have h2 := ih (tickTask k p)
      exact ⟨h2.1.trans h1.1, h2.2.1.trans h1.2.1, h2.2.2.trans h1.2.2⟩

theorem sameCpu_osTimeTick (k : Kernel) : SameCpu k (osTimeTick k) :=
  sameCpu_tickLoop k.osTcbList { k with osTime := k.osTime + 1 }

/-- Every legal step keeps the invariant. -/
theorem Inv.step {m : Machine} {a : Action} (hlegal : Legal m a) (h : Inv m) : Inv (step m a) := by
  cases a with
  | task c =>
    rw [Rtos.step]
    split
    · rename_i hready
      exact h.taskCall hlegal.2 hlegal.1 hready.1 hready.2.1 hready.2.2
    · exact h
  | go =>
    rw [Rtos.step]
    split
    · rename_i hint
      exact h.taskGo hint
    · exact h
  | intEnter =>
    rw [Rtos.step, osIntEnter]
    split
    · exact ⟨h.kernel.congr rfl rfl rfl, fun h0 => absurd h0 (Nat.succ_ne_zero _), h.locked⟩
    · exact h
  | isr c =>
    rw [Rtos.step]
    split
    · rename_i hint
      exact h.isrCall hlegal hint
    · exact h
  | tick =>
    rw [Rtos.step]
    split
    · rename_i hint
      obtain ⟨hcur, hnest, hlock⟩ := sameCpu_osTimeTick m.k
      refine ⟨h.kernel.osTimeTick, fun h0 => ?_, fun hl => ?_⟩
      · dsimp only at h0
        rw [hnest] at h0
        omega
      · dsimp only at hl
        rw [hlock] at hl
        show (m.cont (osTimeTick m.k).osPrioCur).pending = none
        rw [hcur]
        exact h.locked hl
    · exact h
  | intExit =>
    rw [Rtos.step]
    split
    · exact Inv.of_osSched (h.kernel.congr rfl rfl rfl) h.locked
    · exact h

theorem Inv.run {m : Machine} (h : Inv m) {acts : List Action}
    (hlegal : Along Rtos.step Legal m acts) : Inv (run Rtos.step m acts) :=
  run_inv_along (fun _ _ hC hI => hI.step hC) h hlegal

/-! ## What every run keeps -/

/-- The tasks that can run: their status is `OS_STAT_RDY` and no delay is left. -/
def canRun (k : Kernel) : Set ℕ :=
  {p | ∃ t, k.tcb p = some t ∧ t.osTcbStat = osStatRdy ∧ t.osTcbDly = 0}

/-- The ready table holds the tasks that can run. -/
theorem KernelInv.toSet_rdy {k : Kernel} {pending : ℕ → Option (Kind × ℕ)} (h : KernelInv k pending) :
    k.rdy.toSet = canRun k := by
  ext p
  constructor
  · intro hp
    obtain ⟨t, φ, s, htcb, -, hok⟩ := h.exists_tcb hp
    obtain ⟨hb, hs, hdly⟩ := hok.rdy.1 hp
    exact ⟨t, htcb, hok.phase.stat.trans ((stat_eq_rdy φ s).2 ⟨hb, hs⟩), hdly⟩
  · rintro ⟨t, htcb, hstat, hdly⟩
    have ht := h.task p
    unfold TaskAt at ht
    rw [htcb] at ht
    obtain ⟨φ, s, -, hok⟩ := ht
    obtain ⟨hb, hs⟩ := (stat_eq_rdy φ s).1 (hok.phase.stat.symm.trans hstat)
    exact hok.rdy.2 ⟨hb, hs, hdly⟩

end NuAgent.Rtos
