import Mathlib.Tactic.SplitIfs
import NuAgent.Lib.Ticks

/-!
# Blocking calls of the lwIP port

Reference: `_sys_arch_mbox_fetch` and `_sys_arch_sem_wait` of `LwIP/port/sys_arch.c`.

Both calls turn a timeout in milliseconds into the 16-bit timeout in ticks of a pend, and report the
milliseconds spent waiting from the tick counter before and after the pend. The two copies differ in
the limit above which a timeout is cut off, and in the comparison that picks the wrapped difference.
-/

namespace NuAgent.Net

open Ticks

/-! ## The source -/

/-- `OS_TICKS_PER_SEC`. -/
abbrev osTicksPerSec : UInt32 := 100

/-- `OS_ERR_NONE`. -/
abbrev osErrNone : UInt8 := 0

/-- `OS_ERR_TIMEOUT`. -/
abbrev osErrTimeout : UInt8 := 10

/-- `SYS_ARCH_TIMEOUT`. -/
abbrev sysArchTimeout : UInt32 := 0xffffffff

/-- What `OSQPend` or `OSSemPend` comes back with: a message, an error, and the ticks at that time. -/
structure Pended where
  temp : ℕ
  ucErr : UInt8
  now : UInt32

/-- What a blocking call does: the timeout it pends with, what it stores in `*msg`, and its result. -/
structure Waited where
  ucosTimeout : UInt16
  msg : Option ℕ
  ret : UInt32

/-- The conversion of `timeout` to ticks; only values above `limit` are cut off. -/
def timeoutTicks (limit timeout : UInt32) : UInt32 :=
  if timeout ≠ 0 then
    let ucosTimeout := timeout * osTicksPerSec / 1000
    if ucosTimeout < 1 then 1
    else if ucosTimeout > limit then 65535
    else ucosTimeout
  else 0

/-- The conversion of the waited ticks to milliseconds. -/
def toMilisecond (timeoutNew : UInt32) : UInt32 := timeoutNew * 1000 / osTicksPerSec + 1

/-- `_sys_arch_mbox_fetch`; `msg` says that the caller wants the message. -/
def sysArchMboxFetch (pvNullPointer : ℕ) (osqPend : UInt16 → Pended) (osTime : UInt32)
    (msg : Bool) (timeout : UInt32) : Waited :=
  let ucosTimeout := (timeoutTicks 65535 timeout).toUInt16
  let p := osqPend ucosTimeout
  { ucosTimeout
    msg := if msg then some (if p.temp = pvNullPointer then 0 else p.temp) else none
    ret :=
      if p.ucErr = osErrTimeout then sysArchTimeout
      else
        toMilisecond
          (if p.now > osTime then p.now - osTime else 0xffffffff - osTime + p.now) }

/-- `_sys_arch_sem_wait`. -/
def sysArchSemWait (osSemPend : UInt16 → Pended) (osTime timeout : UInt32) : Waited :=
  let ucosTimeout := (timeoutTicks 65536 timeout).toUInt16
  let p := osSemPend ucosTimeout
  { ucosTimeout
    msg := none
    ret :=
      if p.ucErr = osErrTimeout then sysArchTimeout
      else
        toMilisecond
          (if p.now ≥ osTime then p.now - osTime else 0xffffffff - osTime + p.now) }

/-! ## The time spent waiting -/

/-- The pend succeeds, at tick `stop`. -/
def Succeeds (pend : UInt16 → Pended) (stop : UInt32) : Prop :=
  ∀ n, (pend n).ucErr = osErrNone ∧ (pend n).now = stop

/-- The milliseconds of a wait of `e` ticks, in unbounded numbers. -/
def milliseconds (e : ℕ) : ℕ := e * 1000 / osTicksPerSec.toNat + 1

theorem toNat_osTicksPerSec : osTicksPerSec.toNat = 100 := rfl

theorem toNat_toMilisecond (d : UInt32) :
    (toMilisecond d).toNat = d.toNat * 1000 % 2 ^ 32 / 100 + 1 := by
  unfold toMilisecond
  rw [UInt32.toNat_add, UInt32.toNat_div, UInt32.toNat_mul]
  have h1 : (1000 : UInt32).toNat = 1000 := rfl
  rw [h1, toNat_osTicksPerSec, UInt32.toNat_one]
  omega

/-- The right difference is converted rightly as long as its product with 1000 fits. -/
theorem toMilisecond_eq_iff (d : UInt32) :
    (toMilisecond d).toNat = milliseconds d.toNat ↔ d.toNat ≤ 4294967 := by
  have h := scaled_eq_iff (n := d.toNat * 1000) (m := 2 ^ 32) (d := 100) (by omega) (by omega)
  rw [toNat_toMilisecond, milliseconds, toNat_osTicksPerSec]
  omega

/-- A difference that is too small is never converted to the right time. -/
theorem toMilisecond_ne {d : UInt32} {e : ℕ} (h : d.toNat < e) :
    (toMilisecond d).toNat ≠ milliseconds e := by
  rw [toNat_toMilisecond, milliseconds, toNat_osTicksPerSec]
  omega

/-- The wrapped difference misses a tick. -/
theorem toNat_wrapped {start stop : UInt32} (h : stop < start) :
    (0xffffffff - start + stop).toNat < elapsed start stop := by
  rw [elapsed_of_lt h]
  rw [UInt32.lt_iff_toNat_lt] at h
  have hs := start.toNat_lt
  have h3 : (0xffffffff : UInt32).toNat = 4294967295 := rfl
  rw [UInt32.toNat_add, UInt32.toNat_sub, h3]
  omega

/-- Without a tick in between, the mailbox takes the wrapped difference, which is all ones. -/
theorem wrapped_self (start : UInt32) : 0xffffffff - start + start = 0xffffffff :=
  UInt32.sub_add_cancel _ _

section

variable {pend : UInt16 → Pended} {start stop : UInt32}

/-- A fetch that succeeds reports the elapsed time if the counter moved and did not wrap. -/
theorem mboxFetch_ret_iff (h : Succeeds pend stop) (pvNullPointer : ℕ) (msg : Bool)
    (timeout : UInt32) :
    (sysArchMboxFetch pvNullPointer pend start msg timeout).ret.toNat =
      milliseconds (elapsed start stop) ↔ start < stop ∧ elapsed start stop ≤ 4294967 := by
  obtain ⟨herr, hnow⟩ := h (timeoutTicks 65535 timeout).toUInt16
  have hne : osErrNone ≠ osErrTimeout := by decide
  simp only [sysArchMboxFetch, herr, hnow, if_neg hne, gt_iff_lt]
  by_cases hlt : start < stop
  · rw [if_pos hlt, ← toNat_sub, toMilisecond_eq_iff]
    simp [hlt]
  · rw [if_neg hlt]
    refine iff_of_false ?_ fun hc => hlt hc.1
    by_cases heq : start = stop
    · subst heq
      rw [wrapped_self, elapsed_of_le (UInt32.le_refl start), Nat.sub_self]
      decide
    · exact toMilisecond_ne (toNat_wrapped (UInt32.lt_of_le_of_ne
        (UInt32.not_lt.1 hlt) (Ne.symm heq)))

/-- A wait that succeeds reports the elapsed time if the counter did not wrap. -/
theorem semWait_ret_iff (h : Succeeds pend stop) (timeout : UInt32) :
    (sysArchSemWait pend start timeout).ret.toNat = milliseconds (elapsed start stop) ↔
      start ≤ stop ∧ elapsed start stop ≤ 4294967 := by
  obtain ⟨herr, hnow⟩ := h (timeoutTicks 65536 timeout).toUInt16
  have hne : osErrNone ≠ osErrTimeout := by decide
  simp only [sysArchSemWait, herr, hnow, if_neg hne, ge_iff_le]
  by_cases hle : start ≤ stop
  · rw [if_pos hle, ← toNat_sub, toMilisecond_eq_iff]
    simp [hle]
  · rw [if_neg hle]
    exact iff_of_false (toMilisecond_ne (toNat_wrapped (UInt32.not_le.1 hle))) fun hc => hle hc.1

/-- A wait of fewer than twelve hours during which the counter does not wrap is reported rightly. -/
theorem semWait_after {n : ℕ} (hn : n ≤ 4294967) (hw : start.toNat + n < 2 ^ 32)
    (h : Succeeds pend (after start n)) (timeout : UInt32) :
    (sysArchSemWait pend start timeout).ret.toNat = milliseconds n := by
  have he : elapsed start (after start n) = n := elapsed_after start (by omega)
  rw [(semWait_ret_iff h timeout).2 ⟨?_, by omega⟩, he]
  rw [UInt32.le_iff_toNat_le, toNat_after]
  omega

/-- Both calls report the elapsed time exactly if it does not fit, or the counter moved on without
wrapping and by no more than can be multiplied by 1000. -/
theorem waited_iff (h : Succeeds pend stop) (pvNullPointer : ℕ) (msg : Bool) (timeout : UInt32) :
    (milliseconds (elapsed start stop) < 2 ^ 32 →
      (sysArchMboxFetch pvNullPointer pend start msg timeout).ret.toNat =
          milliseconds (elapsed start stop) ∧
        (sysArchSemWait pend start timeout).ret.toNat = milliseconds (elapsed start stop)) ↔
      429496729 < elapsed start stop ∨ start < stop ∧ elapsed start stop ≤ 4294967 := by
  rw [mboxFetch_ret_iff h, semWait_ret_iff h]
  have hfit : milliseconds (elapsed start stop) < 2 ^ 32 ↔ ¬ 429496729 < elapsed start stop := by
    rw [milliseconds, toNat_osTicksPerSec]
    omega
  have hle : start < stop → start ≤ stop := UInt32.le_of_lt
  tauto

end

/-- A wait of three ticks. -/
theorem waited_three :
    (sysArchMboxFetch 0 (fun _ => ⟨7, osErrNone, 8⟩) 5 true 0).ret.toNat = 31 ∧
      (sysArchSemWait (fun _ => ⟨7, osErrNone, 8⟩) 5 0).ret.toNat = 31 :=
  (@waited_iff (fun _ => ⟨7, osErrNone, 8⟩) 5 8 (fun _ => ⟨rfl, rfl⟩) 0 true 0).2
    (Or.inr (by decide)) (by decide)

/-- A fetch that did not have to wait reports almost twelve hours. -/
theorem waited_zero :
    ¬ ∀ (pend : UInt16 → Pended) (start stop : UInt32), Succeeds pend stop →
      ∀ (pvNullPointer : ℕ) (msg : Bool) (timeout : UInt32),
        milliseconds (elapsed start stop) < 2 ^ 32 →
          (sysArchMboxFetch pvNullPointer pend start msg timeout).ret.toNat =
              milliseconds (elapsed start stop) ∧
            (sysArchSemWait pend start timeout).ret.toNat =
              milliseconds (elapsed start stop) := by
  intro hall
  have h := (hall (fun _ => ⟨7, osErrNone, 5⟩) 5 5 (fun _ => ⟨rfl, rfl⟩) 0 true 0 (by decide)).1
  revert h
  decide

/-! ## The timeout of the pend -/

/-- The ticks of a timeout, in unbounded numbers and within the range of a pend that ends. -/
def pendTicks (timeout : ℕ) : ℕ := min 65535 (max 1 (timeout * osTicksPerSec.toNat / 1000))

/-- A pend with these ticks is not one that waits forever. -/
theorem pendTicks_pos (timeout : ℕ) : 0 < pendTicks timeout := by
  unfold pendTicks
  omega

/-- A longer timeout does not have fewer ticks. -/
theorem pendTicks_mono : Monotone pendTicks := by
  intro t t' h
  have := Nat.div_le_div_right (c := 1000) (Nat.mul_le_mul_right osTicksPerSec.toNat h)
  unfold pendTicks
  omega

/-- The value that a call pends with is the wrapped product, cut off above the limit. -/
theorem toNat_timeoutTicks {timeout : UInt32} (h : timeout ≠ 0) (limit : UInt32) :
    (timeoutTicks limit timeout).toNat =
      if timeout.toNat * 100 % 2 ^ 32 / 1000 < 1 then 1
      else if limit.toNat < timeout.toNat * 100 % 2 ^ 32 / 1000 then 65535
      else timeout.toNat * 100 % 2 ^ 32 / 1000 := by
  have ht : (timeout * osTicksPerSec / 1000).toNat = timeout.toNat * 100 % 2 ^ 32 / 1000 := by
    rw [UInt32.toNat_div, UInt32.toNat_mul]
    rfl
  simp only [timeoutTicks, if_pos h, gt_iff_lt, UInt32.lt_iff_toNat_lt, apply_ite UInt32.toNat,
    UInt32.toNat_one, ht]
  rfl

variable (pend : UInt16 → Pended) (start : UInt32)

/-- The mailbox pends with the ticks of the wrapped product. -/
theorem mboxFetch_ucosTimeout {timeout : UInt32} (h : timeout ≠ 0) (pvNullPointer : ℕ)
    (msg : Bool) :
    (sysArchMboxFetch pvNullPointer pend start msg timeout).ucosTimeout.toNat =
      min 65535 (max 1 (timeout.toNat * 100 % 2 ^ 32 / 1000)) := by
  have h2 : (65535 : UInt32).toNat = 65535 := rfl
  simp only [sysArchMboxFetch, UInt32.toNat_toUInt16, toNat_timeoutTicks h, h2]
  split_ifs <;> omega

/-- The semaphore does too, except that it lets 65536 pass, which is no timeout in 16 bits. -/
theorem semWait_ucosTimeout {timeout : UInt32} (h : timeout ≠ 0) :
    (sysArchSemWait pend start timeout).ucosTimeout.toNat =
      if timeout.toNat * 100 % 2 ^ 32 / 1000 = 65536 then 0
      else min 65535 (max 1 (timeout.toNat * 100 % 2 ^ 32 / 1000)) := by
  have h2 : (65536 : UInt32).toNat = 65536 := rfl
  simp only [sysArchSemWait, UInt32.toNat_toUInt16, toNat_timeoutTicks h, h2]
  split_ifs <;> omega

/-- The product that wraps is right only when what is left of it is cut off. -/
theorem wrapped_pendTicks_iff (timeout : UInt32) :
    min 65535 (max 1 (timeout.toNat * 100 % 2 ^ 32 / 1000)) = pendTicks timeout.toNat ↔
      timeout.toNat ≤ 42949672 ∨ 65535000 ≤ timeout.toNat * 100 % 2 ^ 32 := by
  rw [pendTicks, toNat_osTicksPerSec]
  by_cases hle : timeout.toNat ≤ 42949672
  · rw [Nat.mod_eq_of_lt (by omega)]
    simp [hle]
  · -- more than eleven hours are more than the longest pend
    omega

/-- Both calls pend with the ticks of the timeout exactly if their product does not wrap, or still
reaches the cut-off, and does not give 65536 ticks. -/
theorem pend_iff {timeout : UInt32} (h : timeout ≠ 0) (pvNullPointer : ℕ) (msg : Bool) :
    ((sysArchMboxFetch pvNullPointer pend start msg timeout).ucosTimeout.toNat =
          pendTicks timeout.toNat ∧
        (sysArchSemWait pend start timeout).ucosTimeout.toNat = pendTicks timeout.toNat) ↔
      (timeout.toNat ≤ 42949672 ∨ 65535000 ≤ timeout.toNat * 100 % 2 ^ 32) ∧
        timeout.toNat * 100 % 2 ^ 32 / 1000 ≠ 65536 := by
  have hpos := pendTicks_pos timeout.toNat
  rw [mboxFetch_ucosTimeout pend start h, semWait_ucosTimeout pend start h,
    ← wrapped_pendTicks_iff]
  by_cases h65536 : timeout.toNat * 100 % 2 ^ 32 / 1000 = 65536
  · rw [if_pos h65536]
    exact iff_of_false (fun hc => hpos.ne hc.2) fun hc => hc.2 h65536
  · rw [if_neg h65536]
    exact ⟨fun hc => ⟨hc.1, h65536⟩, fun hc => ⟨hc.1, hc.1⟩⟩

/-- A timeout of a quarter of a second. -/
theorem pend_quarter :
    (sysArchMboxFetch 0 (fun _ => ⟨7, osErrNone, 8⟩) 5 true 250).ucosTimeout.toNat = 25 ∧
      (sysArchSemWait (fun _ => ⟨7, osErrNone, 8⟩) 5 250).ucosTimeout.toNat = 25 :=
  (pend_iff (fun _ => ⟨7, osErrNone, 8⟩) 5 (show (250 : UInt32) ≠ 0 by decide) 0 true).2
    (by decide)

/-- A wait of 655.36 seconds pends without a timeout. -/
theorem pend_forever :
    ¬ ∀ (pend : UInt16 → Pended) (start timeout : UInt32), timeout ≠ 0 →
      ∀ (pvNullPointer : ℕ) (msg : Bool),
        (sysArchMboxFetch pvNullPointer pend start msg timeout).ucosTimeout.toNat =
            pendTicks timeout.toNat ∧
          (sysArchSemWait pend start timeout).ucosTimeout.toNat =
            pendTicks timeout.toNat := by
  intro hall
  have h := (hall (fun _ => ⟨7, osErrNone, 8⟩) 5 655360 (by decide) 0 true).2
  revert h
  decide

end NuAgent.Net
