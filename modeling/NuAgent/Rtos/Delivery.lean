import NuAgent.Lib.Serial
import NuAgent.Rtos.Traffic

/-!
# What the tasks get

A post to an event with waiters stores its message in the waiter's control block, and the waiter's pend
returns it when the task runs again; until then timeouts, other posts, suspensions and interrupts may
intervene. `inflight` is the message on its way. In every run each task gets what was given to it, once
and in order, and nothing else.
-/

namespace NuAgent.Rtos

open Bitmap Trace

/-- The message stored in a control block and not yet returned, with its event; the token of a semaphore
is not a message. -/
def inflight (k : Kernel) (p : ℕ) : List (ℕ × ℕ) :=
  match k.tcb p with
  | none => []
  | some t =>
    match t.osTcbEventPtr with
    | none => []
    | some e =>
      if t.osTcbStatPend = .ok ∧ t.osTcbStat &&& osStatPendAny = osStatRdy then
        [(e, if (k.event e).osEventType = .q then t.osTcbMsg else 0)]
      else []

/-- What the events gave to task `p`, in a log. -/
def given (p : ℕ) : List Obs → List (ℕ × ℕ) := List.filterMap fun
  | .gave e m dest => if dest = some p then some (e, m) else none
  | _ => none

/-- What the calls of task `p` returned, in a log. -/
def taken (p : ℕ) : List Obs → List (ℕ × ℕ) := List.filterMap fun
  | .got q e m => if q = p then some (e, m) else none
  | _ => none

theorem given_append (p : ℕ) (xs ys : List Obs) : given p (xs ++ ys) = given p xs ++ given p ys :=
  List.filterMap_append

theorem taken_append (p : ℕ) (xs ys : List Obs) : taken p (xs ++ ys) = taken p xs ++ taken p ys :=
  List.filterMap_append

/-- From `k` to `k'` task `p` gets what the log says. -/
def Delivers (p : ℕ) (k : Kernel) (l : List Obs) (k' : Kernel) : Prop :=
  inflight k p ++ given p l = taken p l ++ inflight k' p

/-! ## The message on its way -/

/-- Only a control block's own fields and the types of the events matter. -/
theorem inflight_congr {k k' : Kernel} {p : ℕ} (htcb : k'.tcb p = k.tcb p)
    (htype : ∀ e, (k'.event e).osEventType = (k.event e).osEventType) :
    inflight k' p = inflight k p := by
  unfold inflight
  rw [htcb]
  split
  · rfl
  · split
    · rfl
    · rw [htype]

theorem OnlyTask.inflight {q p : ℕ} {k k' : Kernel} (ho : OnlyTask q k k') (hp : p ≠ q) :
    inflight k' p = inflight k p := inflight_congr (ho.tcb p hp) fun e => (ho.held e).1

/-- A task that is not in a pend, or waits, has no message on its way. -/
theorem TaskOk.inflight_nil {k : Kernel} {p : ℕ} {t : OsTcb} {φ : Phase} {s : Bool}
    (h : TaskOk k p t φ s) (htcb : k.tcb p = some t) (hφ : φ = .own ∨ φ.waitsOn ≠ none) :
    inflight k p = [] := by
  unfold inflight
  rw [htcb]
  dsimp only
  rw [h.phase.ptr]
  cases φ with
  | own => rfl
  | woken kind e => rcases hφ with hφ | hφ <;> simp [Phase.waitsOn] at hφ
  | blocked kind e =>
    exact if_neg fun hc => (stat_pendAny (.blocked kind e) s).2 trivial (h.phase.stat ▸ hc.2)
  | expired kind e =>
    have hst : t.osTcbStatPend = .timeout := h.phase.statPend
    exact if_neg fun hc => by rw [hst] at hc; cases hc.1

/-- The control block that a task's pend comes back to. -/
theorem TaskOk.inflight_woken {k : Kernel} {p : ℕ} {t : OsTcb} {kind : Kind} {e : ℕ} {s : Bool}
    (h : TaskOk k p t (.woken kind e) s) (htcb : k.tcb p = some t) :
    inflight k p =
      if t.osTcbStatPend = .ok then [(e, if kind = .q then t.osTcbMsg else 0)] else [] := by
  have hptr : t.osTcbEventPtr = some e := h.phase.ptr
  have hstat : t.osTcbStat &&& osStatPendAny = osStatRdy := by
    by_contra hne
    rw [h.phase.stat] at hne
    exact (stat_pendAny (.woken kind e) s).1 hne
  have htype := h.kind kind e rfl
  unfold inflight
  rw [htcb]
  dsimp only
  rw [hptr]
  dsimp only
  rw [htype, hstat]
  cases kind <;> simp [Kind.type]

/-- A suspension or its end keeps the message. -/
theorem inflight_setStat {k k' : Kernel} {p : ℕ} {t : OsTcb} {st : UInt8} (htcb : k.tcb p = some t)
    (htcb' : k'.tcb p = some { t with osTcbStat := st })
    (hst : st &&& osStatPendAny = t.osTcbStat &&& osStatPendAny)
    (htype : ∀ e, (k'.event e).osEventType = (k.event e).osEventType) :
    inflight k' p = inflight k p := by
  unfold inflight
  rw [htcb, htcb']
  dsimp only
  rw [hst]
  split
  · rfl
  · rw [htype]

/-- The end of a delay or of a timeout: no message was on its way, and none is. -/
theorem TaskOk.inflight_delayOver {k k' : Kernel} {p : ℕ} {t : OsTcb} {φ : Phase} {s : Bool}
    (h : TaskOk k p t φ s) (htcb : k.tcb p = some t) (hdly : t.osTcbDly ≠ 0)
    (h' : TaskOk k' p (Rtos.delayOver t) φ.over s)
    (htcb' : k'.tcb p = some (Rtos.delayOver t)) :
    inflight k' p = inflight k p := by
  have hφ : (φ = .own ∨ φ.waitsOn ≠ none) ∧ (φ.over = .own ∨ φ.over.waitsOn ≠ none) := by
    cases φ with
    | own => exact ⟨Or.inl rfl, Or.inl rfl⟩
    | blocked kind e => exact ⟨Or.inr (Option.some_ne_none e), Or.inr (Option.some_ne_none e)⟩
    | expired kind e => exact ⟨Or.inr (Option.some_ne_none e), Or.inr (Option.some_ne_none e)⟩
    | woken kind e => exact absurd (h.phase.dly (Option.some_ne_none _) id) hdly
  rw [h.inflight_nil htcb hφ.1, h'.inflight_nil htcb' hφ.2]

/-- A step that gives nothing to a task and from which it gets nothing. -/
theorem Delivers.of_eq {p : ℕ} {k k' : Kernel} {l : List Obs} (hg : given p l = [])
    (ht : taken p l = []) (h : inflight k' p = inflight k p) : Delivers p k l k' := by
  rw [Delivers, hg, ht, h, List.append_nil, List.nil_append]

section Calls

variable {k : Kernel} {pending : ℕ → Option (Kind × ℕ)}

/-- A task in its own code has no message on its way. -/
theorem KernelInv.inflight_own (h : KernelInv k pending) {p : ℕ} (hown : pending p = none) :
    inflight k p = [] := by
  have ht := h.task p
  unfold TaskAt at ht
  cases htcb : k.tcb p with
  | none =>
    unfold inflight
    rw [htcb]
  | some t =>
    rw [htcb] at ht
    obtain ⟨φ, s, hpending, hok⟩ := ht
    refine hok.inflight_nil htcb (Or.inl ?_)
    rw [hown] at hpending
    cases φ <;> first | rfl | cases hpending

theorem KernelInv.inflight_waiter (h : KernelInv k pending) {p e : ℕ}
    (hp : p ∈ (k.event e).wait.toSet) : inflight k p = [] := by
  obtain ⟨t, φ, s, htcb, -, hok⟩ := h.exists_waiter hp
  refine hok.inflight_nil htcb (Or.inr ?_)
  rw [(hok.wait e).1 hp]
  exact Option.some_ne_none e

theorem inflight_setEvent (e : ℕ) {v : OsEvent} (htype : v.osEventType = (k.event e).osEventType)
    (p : ℕ) : inflight (k.setEvent e v) p = inflight k p := by
  refine inflight_congr rfl fun e' => ?_
  by_cases he : e' = e
  · subst he
    rw [setEvent_event]
    exact htype
  · rw [setEvent_event_of_ne k _ he]

/-- Something that a task or an interrupt routine takes at once. -/
theorem delivers_take (h : KernelInv k pending) {kind : Kind} {e m : ℕ} {v : OsEvent}
    (htype : (k.event e).osEventType = kind.type) (htake : kind.take (k.event e) = some (m, v))
    {who : Option ℕ} (hown : ∀ q, who = some q → pending q = none) (p : ℕ) :
    Delivers p k (takeObs kind k e who) (k.setEvent e v) := by
  rw [takeObs, if_neg (not_not.2 htype), htake]
  have hsame := inflight_setEvent e (take_spec htake).1 p (k := k)
  cases who with
  | none => exact .of_eq rfl rfl hsame
  | some q =>
    by_cases hq : q = p
    · subst hq
      rw [Delivers, hsame, h.inflight_own (hown q rfl)]
      simp [given, taken]
    · refine .of_eq ?_ ?_ hsame
      · simp [given, hq]
      · simp [taken, hq]

/-- A waiter is given a message, or its pend is aborted. -/
theorem inflight_osEventTaskRdy (h : KernelInv k pending) {kind : Kind} {e : ℕ}
    (htype : (k.event e).osEventType = kind.type) (hne : (k.event e).wait.grp ≠ 0) (m : ℕ)
    {st : StatPend} (hst : st ≠ .timeout) (p : ℕ) :
    inflight (osEventTaskRdy k e m kind.stat st) p = inflight k p ++
      if p = highest (k.event e).wait ∧ st = .ok then [(e, if kind = .q then m else 0)] else [] := by
  obtain ⟨hleast, -, ho, t, s, -, -, htcb', hok'⟩ := osEventTaskRdy_spec h htype hne m hst
  by_cases hp : p = highest (k.event e).wait
  · subst hp
    rw [hok'.inflight_woken htcb', h.inflight_waiter hleast.1]
    simp
  · rw [ho.inflight hp]
    simp [hp]

theorem delivers_post (h : KernelInv k pending) {kind : Kind}
    {put : ℕ → OsEvent → Option OsEvent} (hput : PutOk put) {full : OsErr} {e m : ℕ} {arrive : Obs}
    {p : ℕ} (hg : given p [arrive] = []) (ht : taken p [arrive] = []) (hm : kind = .sem → m = 0) :
    Delivers p k (postObs kind put arrive k e m) (post kind put full k e m).kernel := by
  unfold postObs post
  split
  · exact .of_eq rfl rfl rfl
  rename_i htype
  split
  · rename_i hne
    have hval : (if kind = .q then m else 0) = m := by
      cases kind with
      | sem => exact (hm rfl).symm
      | q => rfl
    rw [Delivers, inflight_osEventTaskRdy h (not_not.1 htype) hne m StatPend.noConfusion p, hval,
      ← List.singleton_append, given_append, taken_append, hg, ht]
    by_cases hp : p = highest (k.event e).wait
    · simp [given, taken, ← hp]
    · have hp' : ¬ highest (k.event e).wait = p := fun h' => hp h'.symm
      simp [given, taken, hp, hp']
  · cases hv : put m (k.event e) with
    | none => exact .of_eq rfl rfl rfl
    | some v =>
      rw [if_pos (show (some v).isSome = true from rfl)]
      exact .of_eq hg ht (inflight_setEvent e (hput _ _ _ hv).1 p)

theorem inflight_abortLoop {kind : Kind} {e : ℕ} (n : ℕ) {k : Kernel} (h : KernelInv k pending)
    (htype : (k.event e).osEventType = kind.type) (p : ℕ) :
    inflight (abortLoop kind e n k).1 p = inflight k p := by
  induction n generalizing k with
  | zero => rfl
  | succ n ih =>
    rw [abortLoop]
    split
    · rename_i hne
      have hst : StatPend.abort ≠ .timeout := StatPend.noConfusion
      obtain ⟨-, -, ho, -⟩ := osEventTaskRdy_spec h htype hne 0 hst
      have h1 := ih (h.osEventTaskRdy htype hne 0 hst) ((ho.held e).1.trans htype)
      dsimp only
      rw [h1, inflight_osEventTaskRdy h htype hne 0 StatPend.noConfusion p]
      simp
    · rfl

theorem inflight_pendAbort (h : KernelInv k pending) (kind : Kind) (e : ℕ) (broadcast : Bool) (p : ℕ) :
    inflight (pendAbort kind k e broadcast).kernel p = inflight k p := by
  unfold pendAbort
  split
  · rfl
  rename_i htype
  split
  · exact inflight_abortLoop _ h (not_not.1 htype) p
  · rfl

/-- The bits of a pend are not those of a suspension. -/
theorem pendAny_suspend (b : UInt8) :
    (b ||| osStatSuspend) &&& osStatPendAny = b &&& osStatPendAny ∧
      (b &&& ~~~ osStatSuspend) &&& osStatPendAny = b &&& osStatPendAny := by
  revert b
  apply Serial.forall_byte
  decide +kernel

theorem inflight_osTaskSuspend (k : Kernel) (prio p : ℕ) :
    inflight (osTaskSuspend k prio).kernel p = inflight k p := by
  unfold osTaskSuspend
  dsimp only
  generalize (if prio = 0xff then k.osPrioCur else prio) = q
  cases htcb : k.tcb q with
  | none => rfl
  | some t =>
    have ho := (OnlyTask.clearRdy k q).trans
      (OnlyTask.setTcb _ q { t with osTcbStat := t.osTcbStat ||| osStatSuspend })
    by_cases hp : p = q
    · subst hp
      exact inflight_setStat htcb (setTcb_tcb _ _ _) (pendAny_suspend _).1 fun _ => rfl
    · exact ho.inflight hp

theorem inflight_osTaskResume (k : Kernel) (q p : ℕ) :
    inflight (osTaskResume k q).kernel p = inflight k p := by
  unfold osTaskResume
  cases htcb : k.tcb q with
  | none => rfl
  | some t =>
    dsimp only
    split
    · have hone : inflight (k.setTcb q { t with osTcbStat := t.osTcbStat &&& ~~~ osStatSuspend }) p =
          inflight k p := by
        by_cases hp : p = q
        · subst hp
          exact inflight_setStat htcb (setTcb_tcb _ _ _) (pendAny_suspend _).2 fun _ => rfl
        · exact (OnlyTask.setTcb k q _).inflight hp
      split <;> exact hone
    · rfl

/-- The end of a delay, by the tick or by `OSTimeDlyResume`. -/
theorem inflight_wake_delayOver (h : KernelInv k pending) {q : ℕ} {t : OsTcb}
    (htcb : k.tcb q = some t) (hdly : t.osTcbDly ≠ 0) (p : ℕ) :
    inflight (k.wake q (delayOver t)) p = inflight k p := by
  have ht := h.task q
  unfold TaskAt at ht
  rw [htcb] at ht
  obtain ⟨φ, s, -, hok⟩ := ht
  by_cases hp : p = q
  · subst hp
    exact hok.inflight_delayOver htcb hdly (hok.delayOver hdly) (wake_tcb _ _ _)
  · exact (OnlyTask.wake k hok.lt _).inflight hp

theorem inflight_osTimeDlyResume (h : KernelInv k pending) (q p : ℕ) :
    inflight (osTimeDlyResume k q).kernel p = inflight k p := by
  unfold osTimeDlyResume
  split
  · rfl
  cases htcb : k.tcb q with
  | none => rfl
  | some t =>
    dsimp only
    split
    · rfl
    · rename_i hdly
      exact inflight_wake_delayOver h htcb hdly p

theorem inflight_tickTask (h : KernelInv k pending) (q p : ℕ) :
    inflight (tickTask k q) p = inflight k p := by
  unfold tickTask
  cases htcb : k.tcb q with
  | none => rfl
  | some t =>
    dsimp only
    split
    · rename_i hdly
      split
      · exact inflight_wake_delayOver h htcb hdly p
      · by_cases hp : p = q
        · subst hp
          unfold inflight
          rw [setTcb_tcb, htcb]
          rfl
        · exact (OnlyTask.setTcb k q _).inflight hp
    · rfl

theorem inflight_tickLoop (l : List ℕ) {k : Kernel} (h : KernelInv k pending) (p : ℕ) :
    inflight (tickLoop l k) p = inflight k p := by
  induction l generalizing k with
  | nil => rfl
  | cons q l ih =>
    rw [tickLoop]
    split
    · rfl
    · rw [ih (h.tickTask q), inflight_tickTask h]

/-! ## The current task -/

theorem onlyTask_pendResume (k : Kernel) (kind : Kind) (e : ℕ) :
    OnlyTask k.osPrioCur k (pendResume kind k e).1 := by
  unfold pendResume
  split
  · exact .refl _ k
  · dsimp only
    split
    · exact .setTcb k _ _
    · exact .setTcb k _ _
    · exact (OnlyTask.remove k _ e).trans (.setTcb _ _ _)

/-- What the second half of a pend returns. -/
theorem pendResume_ret {t : OsTcb} (htcb : k.tcb k.osPrioCur = some t) (kind : Kind) (e : ℕ) :
    (pendResume kind k e).2 =
      match t.osTcbStatPend with
      | .ok => ⟨.none, if kind = .q then t.osTcbMsg else 0⟩
      | .abort => ⟨.pendAbort, 0⟩
      | .timeout => ⟨.timeout, 0⟩ := by
  unfold pendResume
  rw [htcb]
  cases hst : t.osTcbStatPend <;> simp only [hst]

/-- The second half of a pend returns the message on its way, if there is one. -/
theorem delivers_pendResume (h : KernelInv k pending) (hcur : k.osPrioCur ∈ k.rdy.toSet) {kind : Kind}
    {e : ℕ} (hin : pending k.osPrioCur = some (kind, e)) (p : ℕ) :
    Delivers p k
      (if (pendResume kind k e).2.perr = .none then
        [.got k.osPrioCur e (pendResume kind k e).2.val]
      else []) (pendResume kind k e).1 := by
  by_cases hp : p = k.osPrioCur
  · subst hp
    have hafter : inflight (pendResume kind k e).1 k.osPrioCur = [] := by
      have h' := (h.pendResume hcur hin).1.inflight_own (p := k.osPrioCur) (Function.update_self _ _ _)
      exact h'
    obtain ⟨t, φ, s, htcb, hpending, hok⟩ := h.exists_tcb hcur
    obtain ⟨hb, -, -⟩ := hok.rdy.1 hcur
    rw [hin] at hpending
    have hret := pendResume_ret htcb kind e
    rw [Delivers, hafter]
    cases φ with
    | own => cases hpending
    | blocked kind' e' => exact absurd trivial hb
    | expired kind' e' =>
      rw [show t.osTcbStatPend = .timeout from hok.phase.statPend] at hret
      rw [hok.inflight_nil htcb (Or.inr (Option.some_ne_none e')), hret]
      rfl
    | woken kind' e' =>
      obtain ⟨rfl, rfl⟩ : kind' = kind ∧ e' = e := by simpa [Phase.pending] using hpending
      rw [hok.inflight_woken htcb]
      cases hst : t.osTcbStatPend with
      | timeout => exact absurd hst hok.phase.statPend
      | ok =>
        rw [hst] at hret
        rw [hret]
        simp [given, taken]
      | abort =>
        rw [hst] at hret
        rw [hret]
        rfl
  · have hp' : ¬ k.osPrioCur = p := fun h' => hp h'.symm
    refine .of_eq ?_ ?_ ((onlyTask_pendResume k kind e).inflight hp) <;> split <;>
      simp [given, taken, hp']

/-- A pend of a task in its own code, or of an interrupt routine. -/
theorem delivers_pend_returned (h : KernelInv k pending) {k' : Kernel} {kind : Kind} {e timeout : ℕ}
    {r : Ret} (hr : pend kind k e timeout = .returned k' r) {who : Option ℕ}
    (hown : ∀ q, who = some q → pending q = none) (p : ℕ) :
    Delivers p k ((Call.pend kind e timeout).obs k who) k' := by
  rw [Call.obs]
  unfold pend at hr
  by_cases htype : (k.event e).osEventType = kind.type
  · rw [if_neg (not_not.2 htype)] at hr
    split at hr
    · cases hr
      rw [if_neg (by omega)]
      exact .of_eq rfl rfl rfl
    split at hr
    · cases hr
      rw [if_neg (by omega)]
      exact .of_eq rfl rfl rfl
    rw [if_pos (by omega)]
    split at hr
    · rename_i htake
      cases hr
      exact delivers_take h htype htake hown p
    · cases hr
  · rw [if_pos htype] at hr
    cases hr
    rw [takeObs, if_pos htype, ite_self]
    exact .of_eq rfl rfl rfl

theorem delivers_pend_blocked (h : KernelInv k pending) (hcur : k.osPrioCur ∈ k.rdy.toSet)
    (hown : pending k.osPrioCur = none) (hidle : k.osPrioCur ≠ osTaskIdlePrio) {k' : Kernel}
    {kind : Kind} {e timeout : ℕ} (hb : pend kind k e timeout = .blocked k') (who : Option ℕ) (p : ℕ) :
    Delivers p k ((Call.pend kind e timeout).obs k who) k' := by
  obtain ⟨t, φ, s, htcb, -, hok⟩ := h.exists_tcb hcur
  obtain ⟨htype, htake, hk'⟩ := pend_blocked htcb hb
  have hobs : (Call.pend kind e timeout).obs k who = [] := by
    rw [Call.obs, takeObs, if_neg (not_not.2 htype), htake, ite_self]
  rw [hobs]
  refine .of_eq rfl rfl ?_
  by_cases hp : p = k.osPrioCur
  · -- the current task is now among the waiters
    subst hp
    have hinv := (h.block hcur hown hidle hb).1
    rw [h.inflight_own hown]
    refine hinv.inflight_waiter (e := e) ?_
    rw [hk']
    exact (mem_addWaiter _ hok.lt e e).2 (Or.inr rfl)
  · rw [hk']
    exact (((OnlyTask.setTcb k _ _).trans (OnlyTask.addWaiter (Kernel.setTcb k _ _) hok.lt e)).trans
      (OnlyTask.clearRdy _ _)).inflight hp

theorem delivers_accept (h : KernelInv k pending) (kind : Kind) (e : ℕ) {who : Option ℕ}
    (hown : ∀ q, who = some q → pending q = none) (p : ℕ) :
    Delivers p k (takeObs kind k e who) (accept kind k e).kernel := by
  rw [accept_kernel]
  by_cases htype : (k.event e).osEventType = kind.type
  · rw [if_neg (not_not.2 htype)]
    cases htake : kind.take (k.event e) with
    | none =>
      rw [takeObs, if_neg (not_not.2 htype), htake]
      exact .of_eq rfl rfl rfl
    | some r => exact delivers_take h htype htake hown p
  · rw [takeObs, if_pos htype, if_pos htype]
    exact .of_eq rfl rfl rfl

theorem delivers_semSet (k : Kernel) (e : ℕ) (cnt : UInt16) (who : Option ℕ) (p : ℕ) :
    Delivers p k ((Call.semSet e cnt).obs k who) (osSemSet k e cnt).kernel := by
  refine .of_eq ?_ ?_ ?_
  · rw [Call.obs]
    split <;> rfl
  · rw [Call.obs]
    split <;> rfl
  · unfold osSemSet
    dsimp only
    split
    · rfl
    split
    · exact inflight_setEvent e (v := { k.event e with osEventCnt := cnt.toNat }) rfl p
    · rfl

theorem inflight_osTimeDly (h : KernelInv k pending) (ticks : ℕ)
    (hown : k.osIntNesting = 0 → pending k.osPrioCur = none)
    (hidle : k.osIntNesting = 0 → k.osPrioCur ≠ osTaskIdlePrio) (p : ℕ) :
    inflight (osTimeDly k ticks).kernel p = inflight k p := by
  have hkeeps := (Keeps.osTimeDly h ticks hown hidle).inv
  unfold osTimeDly at hkeeps ⊢
  split
  · rfl
  rename_i hrun
  rw [if_neg hrun] at hkeeps
  dsimp only at hkeeps ⊢
  have hown := hown (by omega)
  split
  · exact inflight_congr rfl fun _ => rfl
  · rename_i htcb
    rw [htcb] at hkeeps
    by_cases hp : p = k.osPrioCur
    · subst hp
      rw [h.inflight_own hown, hkeeps.inflight_own hown]
    · exact ((OnlyTask.clearRdy k k.osPrioCur).trans (OnlyTask.setTcb _ _ _)).inflight hp

/-- Every call that is not a pend. -/
theorem delivers_simple (h : KernelInv k pending) {c : Call}
    (hpend : ∀ kind e n, c ≠ .pend kind e n) {who : Option ℕ}
    (hwho : ∀ q, who = some q → pending q = none)
    (hown : k.osIntNesting = 0 → pending k.osPrioCur = none)
    (hidle : k.osIntNesting = 0 → k.osPrioCur ≠ osTaskIdlePrio) (p : ℕ) :
    Delivers p k (c.obs k who) (c.simple k).kernel := by
  cases c with
  | pend kind e timeout => exact absurd rfl (hpend kind e timeout)
  | accept kind e => exact delivers_accept h kind e hwho p
  | semPost e => exact delivers_post h putOk_sem rfl rfl fun _ => rfl
  | qPost e m => exact delivers_post h putOk_q rfl rfl fun hk => by cases hk
  | qPostFront e m => exact delivers_post h putOk_qFront rfl rfl fun hk => by cases hk
  | pendAbort kind e broadcast => exact .of_eq rfl rfl (inflight_pendAbort h kind e broadcast p)
  | semSet e cnt => exact delivers_semSet k e cnt who p
  | qFlush e =>
    refine .of_eq rfl rfl (inflight_congr rfl fun e' => ?_)
    show ((k.setEvent e _).event e').osEventType = _
    by_cases he : e' = e
    · subst he
      rw [setEvent_event]
    · rw [setEvent_event_of_ne k _ he]
  | timeDly ticks => exact .of_eq rfl rfl (inflight_osTimeDly h ticks hown hidle p)
  | timeDlyResume q => exact .of_eq rfl rfl (inflight_osTimeDlyResume h q p)
  | suspend q => exact .of_eq rfl rfl (inflight_osTaskSuspend k q p)
  | resume q => exact .of_eq rfl rfl (inflight_osTaskResume k q p)
  | schedLock =>
    refine .of_eq rfl rfl ?_
    show inflight (osSchedLock k) p = _
    unfold osSchedLock
    split <;> rfl
  | schedUnlock =>
    refine .of_eq rfl rfl ?_
    show inflight (osSchedUnlock k).1 p = _
    unfold osSchedUnlock
    split <;> rfl

end Calls

theorem inflight_osSched (k : Kernel) (p : ℕ) : inflight (osSched k) p = inflight k p := by
  unfold osSched
  split <;> rfl

/-- Every legal step. -/
theorem delivers_step {m : Machine} (h : Inv m) {a : Action} (hlegal : Legal m a) (p : ℕ) :
    Delivers p m.k (a.obs m) (step m a).k := by
  cases a with
  | task c =>
    rw [Action.obs, step]
    split
    · rename_i hready
      obtain ⟨hint, hsched, hown⟩ := hready
      have hwho : ∀ q, some m.k.osPrioCur = some q → m.pending q = none :=
        fun q hq => Option.some.inj hq ▸ hown
      cases c with
      | pend kind e timeout =>
        rw [taskCall, Call.run]
        cases hp : pend kind m.k e timeout with
        | returned k' r => exact delivers_pend_returned h.kernel hp hwho p
        | blocked k' =>
          have hcur := (h.current hint (unlocked_of_blocked hp).2 hsched).1
          exact delivers_pend_blocked h.kernel hcur hown hlegal.1 hp _ p
      | accept | semPost | qPost | qPostFront | pendAbort | semSet | qFlush | timeDly | timeDlyResume
      | suspend | resume | schedLock | schedUnlock =>
        exact delivers_simple h.kernel (fun _ _ _ he => by cases he) hwho (fun _ => hown)
          (fun _ => hlegal.1) p
    · exact .of_eq rfl rfl rfl
  | go =>
    rw [Action.obs, step]
    by_cases hint : m.k.osIntNesting = 0
    · rw [if_pos hint, taskGo]
      by_cases hs : (m.cont m.k.osPrioCur).sched = true
      · rw [if_neg (by simp [hs]), if_pos hs]
        exact .of_eq rfl rfl (inflight_osSched m.k p)
      · have hsched : (m.cont m.k.osPrioCur).sched = false := by simpa using hs
        rw [if_pos ⟨hint, hsched⟩, if_neg hs]
        cases hin : (m.cont m.k.osPrioCur).pending with
        | none => exact .of_eq rfl rfl rfl
        | some r =>
          have hlock : m.k.osLockNesting = 0 := by
            by_contra hl
            have := h.locked (by omega)
            rw [Machine.pending, hin] at this
            cases this
          exact delivers_pendResume h.kernel (h.current hint hlock hsched).1 hin p
    · rw [if_neg fun hc => hint hc.1, if_neg hint]
      exact .of_eq rfl rfl rfl
  | intEnter =>
    refine .of_eq rfl rfl ?_
    rw [step, osIntEnter]
    split <;> rfl
  | isr c =>
    rw [Action.obs, step]
    split
    · rename_i hint
      have hwho : ∀ q, none = some q → m.pending q = none := fun q hq => by cases hq
      have hrun : ∀ r : Called, Delivers p m.k (c.obs m.k none) r.kernel →
          Delivers p m.k (c.obs m.k none) (if r.sched then osSched r.kernel else r.kernel) := by
        intro r hr
        split
        · rw [Delivers, inflight_osSched]
          exact hr
        · exact hr
      cases c with
      | pend kind e timeout =>
        rw [isrCall, Call.run]
        cases hp : pend kind m.k e timeout with
        | returned k' r => exact delivers_pend_returned h.kernel hp hwho p
        | blocked k' => exact absurd (unlocked_of_blocked hp).1 (by omega)
      | accept | semPost | qPost | qPostFront | pendAbort | semSet | qFlush | timeDly | timeDlyResume
      | suspend | resume | schedLock | schedUnlock =>
        exact hrun _ (delivers_simple h.kernel (fun _ _ _ he => by cases he) hwho (fun h0 => by omega)
          (fun h0 => by omega) p)
    · exact .of_eq rfl rfl rfl
  | tick =>
    refine .of_eq rfl rfl ?_
    rw [step]
    split
    · have hinv : KernelInv { m.k with osTime := m.k.osTime + 1 } m.pending :=
        h.kernel.congr rfl rfl rfl
      exact inflight_tickLoop m.k.osTcbList hinv p
    · rfl
  | intExit =>
    refine .of_eq rfl rfl ?_
    rw [step]
    split
    · exact inflight_osSched _ p
    · rfl

/-! ## Runs -/

theorem run_delivers {m : Machine} (h : Inv m) {acts : List Action}
    (hlegal : Along step Legal m acts) (p : ℕ) :
    inflight m.k p ++ given p (log m acts) =
      taken p (log m acts) ++ inflight (run step m acts).k p := by
  induction acts generalizing m with
  | nil => simp [log, given, taken]
  | cons a acts ih =>
    rw [log, given_append, taken_append, ← List.append_assoc, delivers_step h hlegal.1 p,
      List.append_assoc, ih (h.step hlegal.1) hlegal.2, ← List.append_assoc, run_cons]

end NuAgent.Rtos
