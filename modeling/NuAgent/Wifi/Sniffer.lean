import Mathlib.Tactic.SplitIfs
import NuAgent.Lib.Trace

/-!
# Provisioning by sniffing

Reference: `Sniffer_config` of `App/NuAgent/Wifi/sniffer_config.c`.

The caller scans, listens to every access point of the list until its channel is locked, and waits
for the end of the transfer; `snifferconfig_flag` is written by the receive callback at any time. Both
waits count their iterations in a `UINT8`: the limit of the first one fits in it, that of the second
one does not.
-/

namespace NuAgent.Wifi

/-! ## The machine -/

/-- `snifferconfig_status`. -/
inductive SnifferconfigStatus
  | notStart
  | runningUnlock
  | runningLock
  | finishOk

/-- The values of the enumerators. -/
def SnifferconfigStatus.value : SnifferconfigStatus → ℤ
  | .notStart => -1
  | .runningUnlock => 0
  | .runningLock => 1
  | .finishOk => 2

open SnifferconfigStatus

/-- `LINK_LOCK_CH_TIMEOUT`. -/
abbrev linkLockChTimeout : ℕ := 30

/-- `LINK_PROVISION_TIMEOUT`. -/
abbrev linkProvisionTimeout : ℕ := 600

/-- Where the caller is; the iterations of the two waits carry their counter `j`. -/
inductive SnifferPoint
  /-- `SCAN_LOOP`, up to the start of the scan. -/
  | scanLoop
  /-- The wait for the end of the scan. -/
  | scanWait
  /-- The test of the loop over the scan list. -/
  | scanList (indexcount : UInt8)
  /-- An iteration of the wait for a channel lock. -/
  | lockWait (indexcount j : UInt8)
  /-- The test behind this wait. -/
  | lockTest (indexcount : UInt8)
  /-- The test behind the loop over the scan list. -/
  | lockResult
  /-- An iteration of the wait for the end of the transfer. -/
  | provisionWait (j : UInt8)
  /-- `if (snifferconfig_flag != Finish_OK)`. -/
  | provisionResult
  /-- The call of `DRV_WiFi_StaModeConnStart`. -/
  | connect
  | done

/-- The caller and the variables it shares; the flag can hold any integer. -/
structure Sniffer where
  point : SnifferPoint
  /-- `snifferconfig_flag`. -/
  flag : ℤ
  /-- `pScanTable->InfoCount`. -/
  infoCount : UInt8

/-- What happens around one step of the caller: the last value that the callback has stored since the
step before, the result of a scan, if it is done, and that of the connection. -/
structure SnifferEvent where
  store : Option ℤ
  scanDone : Option UInt8
  err : ℤ

/-- The flag as a step finds it. -/
def Sniffer.read (s : Sniffer) (e : SnifferEvent) : ℤ := e.store.getD s.flag

/-- One step of `Sniffer_config`: what lies between two reads of the flag. -/
def Sniffer.step (s : Sniffer) (e : SnifferEvent) : Sniffer :=
  let s := { s with flag := s.read e }
  match s.point with
  | .scanLoop => { s with point := .scanWait, flag := notStart.value }
  | .scanWait =>
      match e.scanDone with
      | none => s
      | some infoCount => { s with point := .scanList 0, infoCount }
  | .scanList indexcount =>
      if indexcount < s.infoCount then { s with point := .lockWait indexcount 0 }
      else { s with point := .lockResult }
  | .lockWait indexcount j =>
      if runningLock.value ≤ s.flag then { s with point := .lockTest indexcount }
      else if (j + 1).toNat < linkLockChTimeout - 2 then
        { s with point := .lockWait indexcount (j + 1) }
      else { s with point := .lockTest indexcount }
  | .lockTest indexcount =>
      if runningLock.value ≤ s.flag then { s with point := .lockResult }
      else { s with point := .scanList (indexcount + 1) }
  | .lockResult =>
      if runningLock.value ≤ s.flag then { s with point := .provisionWait 0 }
      else { s with point := .scanLoop }
  | .provisionWait j =>
      if finishOk.value ≤ s.flag then { s with point := .provisionResult }
      else if (j + 1).toNat < linkProvisionTimeout then { s with point := .provisionWait (j + 1) }
      else { s with point := .provisionResult }
  | .provisionResult =>
      if s.flag ≠ finishOk.value then { s with point := .scanLoop }
      else { s with point := .connect }
  | .connect => if e.err ≠ 0 then { s with point := .scanLoop } else { s with point := .done }
  | .done => s

/-- The states of a run. -/
def Sniffer.states (s : Sniffer) (w : ℕ → SnifferEvent) : ℕ → Sniffer :=
  Trace.states Sniffer.step s w

theorem Sniffer.states_succ (s : Sniffer) (w : ℕ → SnifferEvent) (n : ℕ) :
    s.states w (n + 1) = (s.states w n).step (w n) := rfl

/-! ## The wait for the end of the transfer -/

/-- The caller is in the wait for the end of the transfer. -/
def Sniffer.Waits (s : Sniffer) : Prop := ∃ j, s.point = .provisionWait j

/-- The caller as it enters this wait. -/
def Sniffer.locked (flag : ℤ) (infoCount : UInt8) : Sniffer :=
  { point := .provisionWait 0, flag, infoCount }

/-- The value of the flag in the `n`-th iteration, counted from 0. -/
def flagAt (flag : ℤ) (w : ℕ → SnifferEvent) : ℕ → ℤ
  | 0 => (w 0).store.getD flag
  | n + 1 => (w (n + 1)).store.getD (flagAt flag w n)

/-- One iteration: the counter has no value that reaches the limit, so that only the flag ends the
wait. -/
theorem Sniffer.step_wait {s : Sniffer} (e : SnifferEvent) {j : UInt8}
    (h : s.point = .provisionWait j) :
    s.step e = { s with
      flag := s.read e
      point := if finishOk.value ≤ s.read e then .provisionResult else .provisionWait (j + 1) } := by
  have hj : (j + 1).toNat < linkProvisionTimeout :=
    (j + 1).toNat_lt.trans (by decide)
  simp only [step, h, if_pos hj]
  split_ifs <;> rfl

section

variable {flag : ℤ} {infoCount : UInt8} {w : ℕ → SnifferEvent}

/-- As long as no iteration has seen the end, the caller waits with the flag of the last one. -/
theorem Sniffer.states_wait {n : ℕ} (h : ∀ i < n, flagAt flag w i < finishOk.value) :
    ((locked flag infoCount).states w n).Waits ∧
      ((locked flag infoCount).states w n).read (w n) = flagAt flag w n := by
  induction n with
  | zero => exact ⟨⟨0, rfl⟩, rfl⟩
  | succ n ih =>
    obtain ⟨⟨j, hj⟩, hread⟩ := ih fun i hi => h i (by omega)
    have hlt : ¬ finishOk.value ≤ flagAt flag w n := Int.not_le.2 (h n (by omega))
    have hstep := step_wait (w n) hj
    rw [hread, if_neg hlt] at hstep
    rw [states_succ, hstep]
    exact ⟨⟨j + 1, rfl⟩, rfl⟩

/-- The iteration that sees the end is the last one. -/
theorem Sniffer.states_finish {n : ℕ} (h : ∀ i < n, flagAt flag w i < finishOk.value)
    (hn : finishOk.value ≤ flagAt flag w n) :
    ((locked flag infoCount).states w (n + 1)).point = .provisionResult := by
  obtain ⟨⟨j, hj⟩, hread⟩ := @states_wait flag infoCount w n h
  rw [states_succ, step_wait (w n) hj, hread, if_pos hn]

/-- A transfer that stops keeps the caller in the wait. -/
theorem Sniffer.stalled (h : ∀ i, flagAt flag w i < finishOk.value) (n : ℕ) :
    ((locked flag infoCount).states w n).Waits :=
  (states_wait fun i _ => h i).1

/-- The wait ends within its limit, and no later than with the first value that is the end, exactly
if there is such a value within the limit. -/
theorem Sniffer.provisionWait_iff (flag : ℤ) (infoCount : UInt8) (w : ℕ → SnifferEvent) :
    (∃ n ≤ linkProvisionTimeout,
        Trace.LeavesAfter step Waits (locked flag infoCount) w n ∧
          ∀ i, finishOk.value ≤ flagAt flag w i → n ≤ i + 1) ↔
      ∃ i < linkProvisionTimeout, finishOk.value ≤ flagAt flag w i := by
  constructor
  · rintro ⟨n, hn, ⟨-, hleft⟩, -⟩
    by_contra hnone
    refine hleft (states_wait fun i hi => Int.not_le.1 fun hfin => hnone ⟨i, ?_, hfin⟩).1
    omega
  · rintro ⟨i, hi, hfin⟩
    -- the first value that is the end
    have hex : ∃ i, finishOk.value ≤ flagAt flag w i := ⟨i, hfin⟩
    have hbefore : ∀ k < Nat.find hex, flagAt flag w k < finishOk.value :=
      fun k hk => Int.not_le.1 (Nat.find_min hex hk)
    have hle : Nat.find hex ≤ i := Nat.find_min' hex hfin
    refine ⟨Nat.find hex + 1, by omega, ⟨fun k hk => ?_, ?_⟩, fun k hk => ?_⟩
    · exact (states_wait fun l hl => hbefore l (by omega)).1
    · rintro ⟨j, hj⟩
      have hpoint := @states_finish flag infoCount w _ hbefore (Nat.find_spec hex)
      rw [states, hj] at hpoint
      cases hpoint
    · exact Nat.succ_le_succ (Nat.find_min' hex hk)

end

/-- A transfer that stops after the channel lock: the caller is not back at the scan after 600
iterations. -/
theorem Sniffer.stopped_transfer_waits :
    ¬ ∀ (flag : ℤ) (infoCount : UInt8) (w : ℕ → SnifferEvent),
      ∃ n ≤ linkProvisionTimeout,
        Trace.LeavesAfter step Waits (locked flag infoCount) w n ∧
          ∀ i, finishOk.value ≤ flagAt flag w i → n ≤ i + 1 := by
  intro hall
  obtain ⟨n, -, ⟨-, hleft⟩, -⟩ := hall runningLock.value 1 fun _ => ⟨none, none, 0⟩
  refine hleft (stalled (fun i => ?_) n)
  have hflag : ∀ i, flagAt runningLock.value (fun _ => ⟨none, none, 0⟩) i = runningLock.value := by
    intro i
    induction i with
    | zero => rfl
    | succ i ih => rw [flagAt, ih]; rfl
  rw [hflag]
  decide

/-! ## The wait for a channel lock -/

/-- The caller is in the loop over the scan list, with counters within their limits. -/
def Sniffer.Locks (s : Sniffer) : Prop :=
  match s.point with
  | .scanList indexcount => indexcount ≤ s.infoCount
  | .lockWait indexcount j => indexcount < s.infoCount ∧ j.toNat < linkLockChTimeout - 2
  | .lockTest indexcount => indexcount < s.infoCount
  | _ => False

/-- The steps that are left of this loop. -/
def Sniffer.lockSteps (s : Sniffer) : ℕ :=
  match s.point with
  | .scanList indexcount => (s.infoCount.toNat - indexcount.toNat) * linkLockChTimeout
  | .lockWait indexcount j =>
      (s.infoCount.toNat - indexcount.toNat) * linkLockChTimeout - 1 - j.toNat
  | .lockTest indexcount => (s.infoCount.toNat - indexcount.toNat - 1) * linkLockChTimeout + 1
  | _ => 0

/-- A counter below a bound is incremented without wrapping. -/
theorem toNat_succ {i n : UInt8} (h : i < n) : (i + 1).toNat = i.toNat + 1 := by
  rw [UInt8.lt_iff_toNat_lt] at h
  have := n.toNat_lt
  rw [UInt8.toNat_add, UInt8.toNat_one]
  omega

/-- A step of the loop stays in it with fewer steps left, or ends it. -/
theorem Sniffer.step_locks {s : Sniffer} (e : SnifferEvent) (h : s.Locks) :
    ((s.step e).Locks ∧ (s.step e).lockSteps < s.lockSteps) ∨ (s.step e).point = .lockResult := by
  have hlimit : linkLockChTimeout = 30 := rfl
  obtain ⟨point, flag, infoCount⟩ := s
  cases point <;> simp only [Locks] at h
  case scanList i =>
    simp only [step]
    split_ifs with hi
    · left
      rw [UInt8.lt_iff_toNat_lt] at hi
      refine ⟨⟨by simpa [UInt8.lt_iff_toNat_lt] using hi, by decide⟩, ?_⟩
      simp only [lockSteps, hlimit, UInt8.toNat_zero]
      omega
    · exact Or.inr rfl
  case lockWait i j =>
    obtain ⟨hi, hj⟩ := h
    rw [hlimit] at hj
    have hi' := UInt8.lt_iff_toNat_lt.1 hi
    have hj1 : (j + 1).toNat = j.toNat + 1 := by
      rw [UInt8.toNat_add, UInt8.toNat_one]
      omega
    left
    simp only [step]
    split_ifs with hlock hj'
    · refine ⟨hi, ?_⟩
      simp only [lockSteps, hlimit]
      omega
    · refine ⟨⟨hi, hj'⟩, ?_⟩
      simp only [lockSteps, hlimit, hj1]
      omega
    · refine ⟨hi, ?_⟩
      simp only [lockSteps, hlimit]
      omega
  case lockTest i =>
    have hi' := UInt8.lt_iff_toNat_lt.1 h
    have hi1 := toNat_succ h
    simp only [step]
    split_ifs with hlock
    · exact Or.inr rfl
    · refine Or.inl ⟨?_, ?_⟩
      · simp only [Locks, UInt8.le_iff_toNat_le, hi1]
        exact hi'
      · simp only [lockSteps, hlimit, hi1]
        omega

/-- The loop over the scan list ends after at most 30 steps for each access point. -/
theorem Sniffer.locks_leaves {s : Sniffer} (h : s.point = .scanList 0) (w : ℕ → SnifferEvent) :
    ∃ n ≤ s.infoCount.toNat * linkLockChTimeout + 1,
      Trace.LeavesAfter step Locks s w n ∧ (s.states w n).point = .lockResult := by
  have hs : s.Locks := by
    simp only [Locks, h, UInt8.le_iff_toNat_le]
    exact Nat.zero_le _
  have hsteps : s.lockSteps = s.infoCount.toNat * linkLockChTimeout := by
    simp only [lockSteps, h]
    rfl
  have hdec : ∀ s e, Locks s → Locks (step s e) → lockSteps (step s e) < lockSteps s := by
    intro s e hP hP'
    rcases step_locks e hP with ⟨-, hlt⟩ | hend
    · exact hlt
    · simp only [Locks, hend] at hP'
  obtain ⟨n, hn, hleaves⟩ := Trace.leavesAfter_of_measure hdec s w
  refine ⟨n, hsteps ▸ hn, hleaves, ?_⟩
  cases n with
  | zero => exact absurd hs hleaves.2
  | succ n =>
    rcases step_locks (w n) (hleaves.1 n (Nat.lt_succ_self n)) with ⟨hstay, -⟩ | hend
    · exact absurd hstay hleaves.2
    · exact hend

end NuAgent.Wifi
