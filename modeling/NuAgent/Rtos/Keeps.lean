import NuAgent.Rtos.Invariant

/-!
# The calls keep the invariant

For each service, what it does to the tables. `Quiet` says that a call that does not go on to
`OS_Sched` leaves the current task as urgent as it was: no task becomes ready, and the current task
does not stop being ready.
-/

namespace NuAgent.Rtos

open Bitmap

variable {k : Kernel} {pending : ℕ → Option (Kind × ℕ)}

/-- No task becomes ready, and the current one stays ready. -/
def Quiet (k k' : Kernel) : Prop :=
  k'.rdy.toSet ⊆ k.rdy.toSet ∧ (k.osPrioCur ∈ k.rdy.toSet → k.osPrioCur ∈ k'.rdy.toSet)

theorem Quiet.of_rdy_eq {k' : Kernel} (h : k'.rdy = k.rdy) : Quiet k k' := by
  rw [Quiet, h]
  exact ⟨Set.Subset.rfl, id⟩

/-- The scheduler's variables are as they were. -/
def SameCpu (k k' : Kernel) : Prop :=
  k'.osPrioCur = k.osPrioCur ∧ k'.osIntNesting = k.osIntNesting ∧ k'.osLockNesting = k.osLockNesting

theorem OnlyTask.sameCpu {p : ℕ} {k' : Kernel} (h : OnlyTask p k k') : SameCpu k k' :=
  ⟨h.cur, h.nesting⟩

/-- What a call up to its `OS_Sched` does to the tables. -/
structure Keeps (k : Kernel) (pending : ℕ → Option (Kind × ℕ)) (c : Called) : Prop where
  inv : KernelInv c.kernel pending
  cpu : SameCpu k c.kernel
  quiet : c.sched = false → Quiet k c.kernel

theorem Keeps.unchanged (h : KernelInv k pending) (s : Bool) (r : Ret) : Keeps k pending ⟨k, s, r⟩ :=
  ⟨h, ⟨rfl, rfl, rfl⟩, fun _ => .of_rdy_eq rfl⟩

/-! ## What events hold -/

/-- An event may be given other contents if it has no waiters or holds nothing afterwards. -/
theorem KernelInv.setEvent (h : KernelInv k pending) {e : ℕ} {v : OsEvent}
    (htype : v.osEventType = (k.event e).osEventType) (hwait : v.wait = (k.event e).wait)
    (hav : Available v → (k.event e).wait.toSet = ∅) : KernelInv (k.setEvent e v) pending where
  wf := by
    refine ⟨h.wf.rdy, fun e' => ?_⟩
    by_cases he : e' = e
    · subst he
      rw [setEvent_event, hwait]
      exact h.wf.wait e'
    · rw [setEvent_event_of_ne k _ he]
      exact h.wf.wait e'
  task p := by
    have hsame : ∀ e', ((k.setEvent e v).event e').osEventType = (k.event e').osEventType ∧
        ((k.setEvent e v).event e').wait = (k.event e').wait := by
      intro e'
      by_cases he : e' = e
      · subst he
        rw [setEvent_event]
        exact ⟨htype, hwait⟩
      · rw [setEvent_event_of_ne k _ he]
        exact ⟨rfl, rfl⟩
    have ht := h.task p
    unfold TaskAt at ht ⊢
    rw [show (k.setEvent e v).tcb p = k.tcb p from rfl]
    split at ht
    · exact ⟨ht.1, fun e' => (hsame e').2 ▸ ht.2 e'⟩
    · obtain ⟨φ, s, hpending, hok⟩ := ht
      exact ⟨φ, s, hpending, hok.lt, hok.phase, fun kind e' he => (hsame e').1 ▸ hok.kind kind e' he,
        hok.rdy, fun e' => (hsame e').2 ▸ hok.wait e'⟩
  idle := h.idle
  waiting e' hav' := by
    by_cases he : e' = e
    · subst he
      rw [setEvent_event] at hav' ⊢
      rw [hwait]
      exact hav hav'
    · rw [setEvent_event_of_ne k _ he] at hav' ⊢
      exact h.waiting e' hav'

theorem Keeps.setEvent (h : KernelInv k pending) {e : ℕ} {v : OsEvent} (r : Ret)
    (htype : v.osEventType = (k.event e).osEventType) (hwait : v.wait = (k.event e).wait)
    (hav : Available v → (k.event e).wait.toSet = ∅) :
    Keeps k pending { kernel := k.setEvent e v, ret := r } :=
  ⟨h.setEvent htype hwait hav, ⟨rfl, rfl, rfl⟩, fun _ => .of_rdy_eq rfl⟩

/-- Taking and putting keep the type and the waiters. -/
theorem take_spec {kind : Kind} {v v' : OsEvent} {m : ℕ} (h : kind.take v = some (m, v')) :
    v'.osEventType = v.osEventType ∧ v'.wait = v.wait := by
  cases kind with
  | sem =>
    rw [Kind.take, takeSem] at h
    split at h <;> cases h
    exact ⟨rfl, rfl⟩
  | q =>
    rw [Kind.take, takeQ] at h
    split at h <;> cases h
    exact ⟨rfl, rfl⟩

/-- A pend or accept that takes something. -/
theorem Keeps.take (h : KernelInv k pending) {kind : Kind} {e m : ℕ} {v : OsEvent}
    (htype : (k.event e).osEventType = kind.type) (htake : kind.take (k.event e) = some (m, v))
    (r : Ret) : Keeps k pending { kernel := k.setEvent e v, ret := r } := by
  obtain ⟨htype', hwait⟩ := take_spec htake
  refine .setEvent h r htype' hwait fun _ => h.waiting e ?_
  by_contra hnot
  rw [(take_eq_none_iff htype).2 hnot] at htake
  cases htake

theorem Keeps.accept (h : KernelInv k pending) (kind : Kind) (e : ℕ) :
    Keeps k pending (accept kind k e) := by
  cases kind with
  | sem =>
    rw [Rtos.accept, osSemAccept]
    split
    · exact .unchanged h _ _
    · rename_i htype
      split
      · rename_i m v htake
        exact Keeps.take h (show _ = Kind.sem.type from not_not.1 htype) htake _
      · exact .unchanged h _ _
  | q =>
    rw [Rtos.accept, osQAccept]
    split
    · exact .unchanged h _ _
    · rename_i htype
      split
      · rename_i m v htake
        exact Keeps.take h (show _ = Kind.q.type from not_not.1 htype) htake _
      · exact .unchanged h _ _

/-- What the three ways to put something into an event have in common. -/
def PutOk (put : ℕ → OsEvent → Option OsEvent) : Prop :=
  ∀ m v v', put m v = some v' → v'.osEventType = v.osEventType ∧ v'.wait = v.wait

theorem putOk_sem : PutOk putSem := by
  intro m v v' h
  rw [putSem] at h
  split at h <;> cases h
  exact ⟨rfl, rfl⟩

theorem putOk_q : PutOk putQ := by
  intro m v v' h
  rw [putQ] at h
  split at h <;> cases h
  exact ⟨rfl, rfl⟩

theorem putOk_qFront : PutOk putQFront := by
  intro m v v' h
  rw [putQFront] at h
  split at h <;> cases h
  exact ⟨rfl, rfl⟩

/-- `OS_EventTaskRdy` leaves the scheduler's variables alone. -/
theorem sameCpu_osEventTaskRdy (h : KernelInv k pending) {kind : Kind} {e : ℕ}
    (hkind : (k.event e).osEventType = kind.type) (hne : (k.event e).wait.grp ≠ 0) (m : ℕ)
    {st : StatPend} (hst : st ≠ .timeout) : SameCpu k (osEventTaskRdy k e m kind.stat st) :=
  (osEventTaskRdy_spec h hkind hne m hst).2.2.1.sameCpu

theorem Keeps.post (h : KernelInv k pending) (kind : Kind) {put : ℕ → OsEvent → Option OsEvent}
    (hput : PutOk put) (full : OsErr) (e m : ℕ) : Keeps k pending (post kind put full k e m) := by
  unfold Rtos.post
  split
  · exact .unchanged h _ _
  rename_i htype
  split
  · rename_i hne
    exact ⟨h.osEventTaskRdy (not_not.1 htype) hne m StatPend.noConfusion,
      sameCpu_osEventTaskRdy h (not_not.1 htype) hne m StatPend.noConfusion, fun hs => by cases hs⟩
  · rename_i hgrp
    split
    · rename_i v hv
      obtain ⟨htype', hwait⟩ := hput _ _ _ hv
      exact .setEvent h _ htype' hwait fun _ => (h.wf.wait e).grp_eq_zero_iff.1 (not_not.1 hgrp)
    · exact .unchanged h _ _

theorem KernelInv.abortLoop {kind : Kind} {e : ℕ} (n : ℕ) {k : Kernel} (h : KernelInv k pending)
    (hkind : (k.event e).osEventType = kind.type) :
    KernelInv (abortLoop kind e n k).1 pending ∧ SameCpu k (abortLoop kind e n k).1 := by
  induction n generalizing k with
  | zero => exact ⟨h, rfl, rfl, rfl⟩
  | succ n ih =>
    rw [Rtos.abortLoop]
    split
    · rename_i hne
      have hst : StatPend.abort ≠ .timeout := StatPend.noConfusion
      obtain ⟨-, -, ho, -⟩ := osEventTaskRdy_spec h hkind hne 0 hst
      obtain ⟨hinv, hcpu⟩ := ih (h.osEventTaskRdy hkind hne 0 hst) ((ho.held e).1.trans hkind)
      have hcpu0 := ho.sameCpu
      exact ⟨hinv, hcpu.1.trans hcpu0.1, hcpu.2.1.trans hcpu0.2.1, hcpu.2.2.trans hcpu0.2.2⟩
    · exact ⟨h, rfl, rfl, rfl⟩

theorem Keeps.pendAbort (h : KernelInv k pending) (kind : Kind) (e : ℕ) (broadcast : Bool) :
    Keeps k pending (pendAbort kind k e broadcast) := by
  unfold Rtos.pendAbort
  split
  · exact .unchanged h _ _
  rename_i htype
  split
  · obtain ⟨hinv, hcpu⟩ :=
      h.abortLoop (if broadcast then 64 else 1) (not_not.1 htype)
    exact ⟨hinv, hcpu, fun hs => by cases hs⟩
  · exact .unchanged h _ _

theorem Keeps.osSemSet (h : KernelInv k pending) (e : ℕ) (cnt : UInt16) :
    Keeps k pending (osSemSet k e cnt) := by
  unfold Rtos.osSemSet
  dsimp only
  split
  · exact .unchanged h _ _
  rename_i htype
  split
  · rename_i hfree
    refine .setEvent h _ rfl rfl fun _ => ?_
    rcases hfree with hcnt | hgrp
    · exact h.waiting e (Or.inl ⟨not_not.1 htype, hcnt⟩)
    · exact (h.wf.wait e).grp_eq_zero_iff.1 hgrp
  · exact .unchanged h _ _

theorem Keeps.osQFlush (h : KernelInv k pending) {e : ℕ} (hq : (k.event e).osEventType = .q) :
    Keeps k pending (osQFlush k e) := by
  refine .setEvent h _ rfl rfl fun hav => ?_
  rcases hav with ⟨htype, -⟩ | ⟨-, hpos⟩
  · cases hq.symm.trans htype
  · exact absurd hpos (Nat.lt_irrefl 0)

/-! ## Blocking and resuming -/

/-- The tables after the first half of a pend that blocks. -/
theorem pend_blocked {k k' : Kernel} {t : OsTcb} (htcb : k.tcb k.osPrioCur = some t) {kind : Kind}
    {e timeout : ℕ} (hk' : pend kind k e timeout = .blocked k') :
    (k.event e).osEventType = kind.type ∧ kind.take (k.event e) = none ∧
      k' = ((k.setTcb k.osPrioCur
          ⟨t.osTcbStat ||| kind.stat, .ok, timeout, t.osTcbMsg, some e⟩).setEvent e
            ((k.event e).addWaiter k.osPrioCur)).clearRdy k.osPrioCur := by
  unfold pend at hk'
  split at hk'
  · cases hk'
  rename_i htype
  split at hk'
  · cases hk'
  split at hk'
  · cases hk'
  split at hk'
  · cases hk'
  rename_i htake
  refine ⟨not_not.1 htype, htake, ?_⟩
  rw [htcb] at hk'
  injection hk' with hk'
  rw [← hk', osEventTaskWait]
  simp only [Kernel.setTcb, Function.update_self, Function.update_idem]
  rfl

/-- The first half of a pend that blocks, for a current task that is ready. -/
theorem KernelInv.block (h : KernelInv k pending) {kind : Kind} {e timeout : ℕ}
    (hcur : k.osPrioCur ∈ k.rdy.toSet) (hown : pending k.osPrioCur = none)
    (hidle : k.osPrioCur ≠ osTaskIdlePrio) {k' : Kernel} (hk' : pend kind k e timeout = .blocked k') :
    KernelInv k' (Function.update pending k.osPrioCur (some (kind, e))) ∧ SameCpu k k' := by
  obtain ⟨t, φ, s, htcb, hpending, hok⟩ := h.exists_tcb hcur
  obtain ⟨-, rfl, -⟩ := hok.rdy.1 hcur
  obtain rfl : φ = .own := by
    rw [hown] at hpending
    cases φ <;> first | rfl | cases hpending
  obtain ⟨htype, htake, rfl⟩ := pend_blocked htcb hk'
  have hnone := (take_eq_none_iff htype).1 htake
  generalize ht' : (⟨t.osTcbStat ||| kind.stat, .ok, timeout, t.osTcbMsg, some e⟩ : OsTcb) = t'
  generalize hk1 : k.setTcb k.osPrioCur t' = k1
  have ho1 : OnlyTask k.osPrioCur k k1 := hk1 ▸ OnlyTask.setTcb k _ t'
  have hevent : k1.event = k.event := hk1 ▸ rfl
  rw [← hevent]
  have ho : OnlyTask k.osPrioCur k
      ((k1.setEvent e ((k1.event e).addWaiter k.osPrioCur)).clearRdy k.osPrioCur) :=
    (ho1.trans (OnlyTask.addWaiter k1 hok.lt e)).trans (OnlyTask.clearRdy _ _)
  have hwait : ∀ e', k.osPrioCur ∈
      ((k1.setEvent e ((k1.event e).addWaiter k.osPrioCur)).event e').wait.toSet ↔ e' = e := by
    intro e'
    rw [mem_addWaiter k1 hok.lt, hevent]
    refine ⟨fun h' => h'.resolve_left fun h'' => ?_, Or.inr⟩
    cases (hok.wait e').1 h''
  refine ⟨h.of_onlyTask ho ?_ (fun hp => absurd hp hidle) fun e' he' => ?_, ho.sameCpu⟩
  · refine TaskOk.taskAt (t := t') (φ := .blocked kind e) (s := false)
      ⟨hok.lt, ?_, ?_, ?_, fun e' => ?_⟩ ?_
    · rw [← ht']
      refine ⟨?_, rfl, rfl, fun _ hb' => absurd trivial hb'⟩
      show t.osTcbStat ||| kind.stat = kind.stat ||| suspendBit false
      rw [hok.phase.stat]
      exact UInt8.or_comm _ _
    · intro kind' e' he'
      obtain ⟨rfl, rfl⟩ : kind = kind' ∧ e = e' := by simpa [Phase.pending] using he'
      rw [(ho.held e).1]
      exact htype
    · exact ⟨fun hr => absurd hr (notMem_clearRdy _ _), fun hc => absurd trivial hc.1⟩
    · refine (hwait e').trans ?_
      exact ⟨fun he' => he' ▸ rfl, fun he' => (Option.some.inj he').symm⟩
    · show k1.tcb k.osPrioCur = some t'
      rw [← hk1]
      exact setTcb_tcb _ _ _
  · exact Or.inr ((hwait e').1 he' ▸ hnone)

/-- The second half of a pend, for a current task that is ready. -/
theorem KernelInv.pendResume (h : KernelInv k pending) {kind : Kind} {e : ℕ}
    (hcur : k.osPrioCur ∈ k.rdy.toSet) (hin : pending k.osPrioCur = some (kind, e)) :
    KernelInv (pendResume kind k e).1 (Function.update pending k.osPrioCur none) ∧
      SameCpu k (pendResume kind k e).1 ∧ (pendResume kind k e).1.rdy = k.rdy := by
  obtain ⟨t, φ, s, htcb, hpending, hok⟩ := h.exists_tcb hcur
  obtain ⟨hb, rfl, hdly⟩ := hok.rdy.1 hcur
  rw [hin] at hpending
  generalize hdone : (⟨osStatRdy, .ok, t.osTcbDly, if kind = .q then 0 else t.osTcbMsg, none⟩ : OsTcb)
    = done
  have hphase : HasPhase done .own false := by
    rw [← hdone]
    exact ⟨rfl, rfl, StatPend.noConfusion, fun hp => absurd rfl hp⟩
  -- the task is among no waiters afterwards, and its readiness does not change
  have hfin : ∀ {k1 : Kernel}, OnlyTask k.osPrioCur k k1 → k1.rdy = k.rdy →
      (∀ e', k.osPrioCur ∉ (k1.event e').wait.toSet) →
      KernelInv (k1.setTcb k.osPrioCur done) (Function.update pending k.osPrioCur none) ∧
        SameCpu k (k1.setTcb k.osPrioCur done) ∧ (k1.setTcb k.osPrioCur done).rdy = k.rdy := by
    intro k1 ho1 hrdy hnot
    have ho := ho1.trans (OnlyTask.setTcb k1 k.osPrioCur done)
    refine ⟨h.of_onlyTask ho ?_ (fun _ => ?_) fun e' he' => absurd he' (hnot e'), ho.sameCpu, hrdy⟩
    · refine TaskOk.taskAt (t := done) (φ := .own) (s := false)
        ⟨hok.lt, hphase, fun _ _ he => (by cases he), ?_, fun e' => ?_⟩ (setTcb_tcb _ _ _)
      · show _ ∈ k1.rdy.toSet ↔ _
        rw [hrdy, ← hdone]
        exact ⟨fun _ => ⟨id, rfl, hdly⟩, fun _ => hcur⟩
      · exact ⟨fun he' => absurd he' (hnot e'), fun he' => by cases he'⟩
    · show _ ∈ k1.rdy.toSet
      rw [hrdy]
      exact hcur
  have hpend := hok.phase.statPend
  unfold Rtos.pendResume
  rw [htcb]
  dsimp only
  rw [hdone]
  cases φ with
  | own => cases hpending
  | blocked kind' e' => exact absurd trivial hb
  | expired kind' e' =>
    obtain ⟨rfl, rfl⟩ : kind' = kind ∧ e' = e := by simpa [Phase.pending] using hpending
    rw [show t.osTcbStatPend = .timeout from hpend]
    refine hfin (OnlyTask.remove k _ e') rfl fun e2 he2 => ?_
    rw [mem_osEventTaskRemove, hok.wait e2] at he2
    exact he2.2 (Option.some.inj he2.1).symm
  | woken kind' e' =>
    have hnot : ∀ e2, k.osPrioCur ∉ (k.event e2).wait.toSet := by
      intro e2 he2
      cases (hok.wait e2).1 he2
    cases hst : t.osTcbStatPend with
    | timeout => exact absurd hst hpend
    | ok => exact hfin (.refl _ k) rfl hnot
    | abort => exact hfin (.refl _ k) rfl hnot

/-! ## Delays and suspension -/

/-- A change of a task that keeps its phase and its waiters. -/
theorem KernelInv.retime (h : KernelInv k pending) {p : ℕ} {t t' : OsTcb} {φ : Phase} {s s' : Bool}
    (hpending : φ.pending = pending p) (hok : TaskOk k p t φ s) (hphase : HasPhase t' φ s')
    {k' : Kernel} (ho : OnlyTask p k k') (htcb : k'.tcb p = some t') (hevent : k'.event = k.event)
    (hrdy : p ∈ k'.rdy.toSet ↔ CanRun t' φ s') (hidle : p = osTaskIdlePrio → p ∈ k'.rdy.toSet) :
    KernelInv k' pending := by
  refine h.of_onlyTask_same ho ?_ hidle fun e he => hevent ▸ he
  rw [← hpending]
  refine TaskOk.taskAt ⟨hok.lt, hphase, ?_, hrdy, ?_⟩ htcb
  · rw [hevent]
    exact hok.kind
  · rw [hevent]
    exact hok.wait

theorem Keeps.osTimeDly (h : KernelInv k pending) (ticks : ℕ)
    (hown : k.osIntNesting = 0 → pending k.osPrioCur = none)
    (hidle : k.osIntNesting = 0 → k.osPrioCur ≠ osTaskIdlePrio) :
    Keeps k pending (osTimeDly k ticks) := by
  unfold Rtos.osTimeDly
  split
  · exact .unchanged h _ _
  rename_i hrun
  have hint : k.osIntNesting = 0 := by omega
  have hticks : ticks ≠ 0 := fun h0 => hrun (Or.inr (Or.inr h0))
  have ht := h.task k.osPrioCur
  unfold TaskAt at ht
  have hsame : (k.clearRdy k.osPrioCur).tcb (k.clearRdy k.osPrioCur).osPrioCur =
      k.tcb k.osPrioCur := rfl
  dsimp only
  rw [hsame]
  cases htcb : k.tcb k.osPrioCur with
  | none =>
    rw [htcb] at ht
    refine ⟨?_, (OnlyTask.clearRdy k _).sameCpu, fun _ => ?_⟩
    · refine h.of_onlyTask_same (.clearRdy k _) ?_ (fun hp => absurd hp (hidle hint)) fun e he => he
      unfold TaskAt
      rw [show (k.clearRdy k.osPrioCur).tcb k.osPrioCur = none from htcb]
      exact ⟨notMem_clearRdy k _, ht.2⟩
    · refine ⟨fun q hq => ?_, fun hc => absurd hc ht.1⟩
      rw [Kernel.clearRdy, Table.toSet_clear] at hq
      exact hq.1
  | some t =>
    rw [htcb] at ht
    obtain ⟨φ, s, hpending, hok⟩ := ht
    obtain rfl : φ = .own := by
      rw [hown hint] at hpending
      cases φ <;> first | rfl | cases hpending
    have ho := (OnlyTask.clearRdy k k.osPrioCur).trans
      (OnlyTask.setTcb _ k.osPrioCur { t with osTcbDly := ticks })
    have hphase : HasPhase { t with osTcbDly := ticks } .own s :=
      ⟨hok.phase.stat, hok.phase.ptr, hok.phase.statPend, fun hp => absurd rfl hp⟩
    refine ⟨h.retime hpending hok hphase ho (setTcb_tcb _ _ _) rfl ?_
      (fun hp => absurd hp (hidle hint)), ho.sameCpu, fun hs => by cases hs⟩
    · exact ⟨fun hr => absurd hr (notMem_clearRdy k _), fun hc => absurd hc.2.2 hticks⟩

theorem Keeps.osTimeDlyResume (h : KernelInv k pending) (p : ℕ) :
    Keeps k pending (osTimeDlyResume k p) := by
  unfold Rtos.osTimeDlyResume
  split
  · exact .unchanged h _ _
  rename_i hlt
  have ht := h.task p
  unfold TaskAt at ht
  cases htcb : k.tcb p with
  | none => exact .unchanged h _ _
  | some t =>
    rw [htcb] at ht
    obtain ⟨φ, s, hpending, hok⟩ := ht
    dsimp only
    split
    · exact .unchanged h _ _
    rename_i hdly
    have hok' := hok.delayOver hdly
    have ho := OnlyTask.wake k hok.lt (delayOver t)
    refine ⟨?_, ho.sameCpu, fun hs => ?_⟩
    · refine h.of_onlyTask_same ho ?_ (fun hp => absurd hp (by omega)) fun e he => ?_
      · rw [← hpending, ← φ.over_spec.2.1]
        exact hok'.taskAt (wake_tcb k p _)
      · rwa [wake_event] at he
    · -- a suspended task stays as it is in the ready table
      refine .of_rdy_eq ?_
      show (k.wake p (Rtos.delayOver t)).rdy = k.rdy
      unfold Kernel.wake
      dsimp only
      rw [if_neg (by simpa using hs)]
      rfl

theorem Keeps.osTaskSuspend (h : KernelInv k pending) (prio : ℕ)
    (hidle : (if prio = 0xff then k.osPrioCur else prio) ≠ osTaskIdlePrio) :
    Keeps k pending (osTaskSuspend k prio) := by
  unfold Rtos.osTaskSuspend
  dsimp only
  generalize (if prio = 0xff then k.osPrioCur else prio) = p at hidle ⊢
  have ht := h.task p
  unfold TaskAt at ht
  cases htcb : k.tcb p with
  | none => exact .unchanged h _ _
  | some t =>
    rw [htcb] at ht
    obtain ⟨φ, s, hpending, hok⟩ := ht
    have ho := (OnlyTask.clearRdy k p).trans
      (OnlyTask.setTcb _ p { t with osTcbStat := t.osTcbStat ||| osStatSuspend })
    have hphase : HasPhase { t with osTcbStat := t.osTcbStat ||| osStatSuspend } φ true := by
      refine ⟨?_, hok.phase.ptr, hok.phase.statPend, hok.phase.dly⟩
      show t.osTcbStat ||| osStatSuspend = _
      rw [hok.phase.stat]
      exact (stat_set_suspend φ s).1
    refine ⟨h.retime hpending hok hphase ho (setTcb_tcb _ _ _) rfl ?_
      (fun hp => absurd hp hidle), ho.sameCpu, fun hs => ?_⟩
    · exact ⟨fun hr => absurd hr (notMem_clearRdy k p), fun hc => by cases hc.2.1⟩
    · -- another task than the current one loses its place
      have hne : k.osPrioCur ≠ p := fun he => by
        rw [← he] at hs
        simp at hs
      refine ⟨fun q hq => ?_, fun hc => (OnlyTask.clearRdy k p).rdy _ hne |>.2 hc⟩
      have hq' : q ∈ (k.clearRdy p).rdy.toSet := hq
      rw [Kernel.clearRdy, Table.toSet_clear] at hq'
      exact hq'.1

theorem Keeps.osTaskResume (h : KernelInv k pending) (p : ℕ) :
    Keeps k pending (osTaskResume k p) := by
  unfold Rtos.osTaskResume
  have ht := h.task p
  unfold TaskAt at ht
  cases htcb : k.tcb p with
  | none => exact .unchanged h _ _
  | some t =>
    rw [htcb] at ht
    obtain ⟨φ, s, hpending, hok⟩ := ht
    dsimp only
    rw [hok.phase.stat]
    split
    · rename_i hsusp
      have hs : s = true := by
        cases s
        · exact absurd ((stat_suspend φ false).2 rfl) hsusp
        · rfl
      rw [(stat_set_suspend φ s).2]
      have hphase : HasPhase { t with osTcbStat := φ.stat ||| suspendBit false } φ false :=
        ⟨rfl, hok.phase.ptr, hok.phase.statPend, hok.phase.dly⟩
      have hcan : CanRun { t with osTcbStat := φ.stat ||| suspendBit false } φ false ↔
          φ.stat ||| suspendBit false = osStatRdy ∧ t.osTcbDly = 0 := by
        rw [CanRun, stat_eq_rdy]
        simp
      have hnot : p ∉ k.rdy.toSet := fun hr => by
        have := (hok.rdy.1 hr).2.1
        rw [hs] at this
        cases this
      have hidle : p ≠ osTaskIdlePrio := fun hp => hnot (hp ▸ h.idle)
      split
      · rename_i hcond
        have ho := (OnlyTask.setTcb k p { t with osTcbStat := φ.stat ||| suspendBit false }).trans
          (OnlyTask.setRdy _ hok.lt)
        refine ⟨h.retime hpending hok hphase ho (setTcb_tcb _ _ _) rfl ?_
          (fun hp => absurd hp hidle), ho.sameCpu, fun hs' => by cases hs'⟩
        exact ⟨fun _ => hcan.2 hcond, fun _ => mem_setRdy _ hok.lt⟩
      · rename_i hcond
        have ho := OnlyTask.setTcb k p { t with osTcbStat := φ.stat ||| suspendBit false }
        refine ⟨h.retime hpending hok hphase ho (setTcb_tcb _ _ _) rfl ?_
          (fun hp => absurd hp hidle), ho.sameCpu, fun _ => .of_rdy_eq rfl⟩
        exact ⟨fun hr => absurd hr hnot, fun hc => absurd (hcan.1 hc) hcond⟩
    · exact .unchanged h _ _

end NuAgent.Rtos
