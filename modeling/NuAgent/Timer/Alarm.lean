import NuAgent.Timer.State

/-!
# Alarms

What a software timer is for: an alarm counts the ticks that are left, goes off when one is left, and
then starts again or is completed. An alarm knows nothing of a wheel, of other alarms or of the time of
day. `alarmAt` reads the alarm off a timer and the kernel's time.
-/

namespace NuAgent.Timer

/-- An alarm; `left` is the number of ticks until it goes off. -/
structure Alarm where
  state : TmrState
  left : ℕ
  opt : TmrOpt
  dly : UInt32
  period : UInt32
  callback : Option ℕ
  arg : ℕ
deriving DecidableEq, Repr

/-- What a callback does with its own timer. -/
inductive Own
  | start
  | stop
  | del
  | store (value : UInt32)
deriving DecidableEq, Repr

/-- The ticks that a delay stands for: a delay of zero is the longest one. -/
def ticks (delay : UInt32) : ℕ := (delay - 1).toNat + 1

namespace Alarm

variable (a : Alarm)

def start : Alarm :=
  if a.state = .unused then a
  else { a with state := .running, left := ticks (if a.dly = 0 then a.period else a.dly) }

def stop : Alarm := if a.state = .running then { a with state := .stopped, left := 0 } else a

def del : Alarm :=
  if a.state = .unused then a
  else
    { a with
      state := .unused, left := 0, opt := .none, period := 0, callback := none, arg := 0 }

def store (value : UInt32) : Alarm :=
  if a.opt = .periodic then { a with period := nstTimeValue value, dly := 0 }
  else { a with period := 0, dly := nstTimeValue value }

def own : Own → Alarm
  | .start => a.start
  | .stop => a.stop
  | .del => a.del
  | .store value => a.store value

/-- The alarm goes off with this tick. -/
def Due : Prop := a.state = .running ∧ a.left = 1

instance : Decidable a.Due := inferInstanceAs (Decidable (_ ∧ _))

/-- The alarm after it went off. -/
def goOff : Alarm :=
  if a.opt = .periodic then { a with left := ticks a.period }
  else { a with state := .completed, left := 0 }

/-- The callback that is called, and what it does with its own alarm. -/
def called (acts : List Own) : Alarm := if a.callback.isSome then acts.foldl own a else a

/-- One tick. -/
def tick (acts : List Own) : Alarm :=
  if a.Due then a.goOff.called acts
  else if a.state = .running then { a with left := a.left - 1 } else a

theorem start_stop : a.stop.start = a.start := by
  unfold stop
  by_cases hrun : a.state = .running
  · have hne : a.state ≠ .unused := by
      rw [hrun]
      exact TmrState.noConfusion
    rw [if_pos hrun, start, start, if_neg TmrState.noConfusion, if_neg hne]
  · rw [if_neg hrun]

theorem del_stop : a.stop.del = a.del := by
  unfold stop
  by_cases hrun : a.state = .running
  · have hne : a.state ≠ .unused := by
      rw [hrun]
      exact TmrState.noConfusion
    rw [if_pos hrun, del, del, if_neg TmrState.noConfusion, if_neg hne]
  · rw [if_neg hrun]

end Alarm

/-- The alarm that a timer is, at a time. -/
def alarmAt (tmrTime : UInt32) (t : Tmr) : Alarm where
  state := t.tmrState
  left := if t.tmrState = .running then ticks (t.tmrMatch - tmrTime) else 0
  opt := t.tmrOpt
  dly := t.tmrDly
  period := t.tmrPeriod
  callback := t.tmrCallback
  arg := t.tmrCallbackArg

/-! ## Arithmetic -/

theorem toNat_sub_one {d : UInt32} (h : d ≠ 0) : (d - 1).toNat + 1 = d.toNat := by
  have hpos : d.toNat ≠ 0 := fun h0 => h (UInt32.toNat_inj.1 (h0.trans UInt32.toNat_zero.symm))
  have hone : (1 : UInt32) ≤ d := by
    rw [UInt32.le_iff_toNat_le]
    exact Nat.one_le_iff_ne_zero.2 hpos
  rw [UInt32.toNat_sub_of_le _ _ hone]
  exact Nat.sub_add_cancel (Nat.one_le_iff_ne_zero.2 hpos)

theorem ticks_eq_one {d : UInt32} : ticks d = 1 ↔ d = 1 := by
  unfold ticks
  rw [Nat.add_eq_right]
  constructor
  · intro h
    have hzero : d - 1 = 0 := UInt32.toNat_inj.1 (h.trans UInt32.toNat_zero.symm)
    exact UInt32.sub_eq_iff_eq_add.1 hzero
  · rintro rfl
    rfl

theorem ticks_sub_one {d : UInt32} (h : d ≠ 1) : ticks (d - 1) = ticks d - 1 := by
  have hne : d - 1 ≠ 0 := fun h0 => h (UInt32.sub_eq_iff_eq_add.1 h0)
  exact toNat_sub_one hne

/-- A delay other than zero stands for itself. -/
theorem ticks_of_ne_zero {d : UInt32} (h : d ≠ 0) : ticks d = d.toNat := toNat_sub_one h

/-- A timer that matches a delay from now on. -/
theorem left_of_match (d tmrTime : UInt32) : ticks (d + tmrTime - tmrTime) = ticks d := by
  rw [UInt32.add_sub_cancel]

/-- The alarm goes off with the tick in which the time comes to match. -/
theorem due_alarmAt {tmrTime : UInt32} {t : Tmr} :
    (alarmAt tmrTime t).Due ↔ t.tmrState = .running ∧ tmrTime + 1 = t.tmrMatch := by
  constructor
  · rintro ⟨hrun, hleft⟩
    have hrun : t.tmrState = .running := hrun
    refine ⟨hrun, ?_⟩
    have hone : ticks (t.tmrMatch - tmrTime) = 1 := (if_pos hrun).symm.trans hleft
    rw [UInt32.sub_eq_iff_eq_add.1 (ticks_eq_one.1 hone), UInt32.add_comm]
  · rintro ⟨hrun, hmatch⟩
    refine ⟨hrun, (if_pos hrun).trans (ticks_eq_one.2 ?_)⟩
    rw [← hmatch, UInt32.add_comm, UInt32.add_sub_cancel]

/-- A timer that is left alone in a tick is an alarm that does not go off. -/
theorem alarmAt_succ {tmrTime : UInt32} {t : Tmr} (h : ¬(alarmAt tmrTime t).Due) (acts : List Own) :
    alarmAt (tmrTime + 1) t = (alarmAt tmrTime t).tick acts := by
  rw [Alarm.tick, if_neg h]
  by_cases hrun : t.tmrState = .running
  · have hne : t.tmrMatch - tmrTime ≠ 1 := fun hone =>
      h (due_alarmAt.2 ⟨hrun, by rw [UInt32.sub_eq_iff_eq_add.1 hone, UInt32.add_comm]⟩)
    have hstep : t.tmrMatch - (tmrTime + 1) = t.tmrMatch - tmrTime - 1 :=
      UInt32.sub_eq_iff_eq_add.2 (by
        rw [UInt32.add_comm tmrTime, ← UInt32.add_assoc, UInt32.sub_add_cancel,
          UInt32.sub_add_cancel])
    rw [if_pos (show (alarmAt tmrTime t).state = .running from hrun)]
    unfold alarmAt
    rw [if_pos hrun, if_pos hrun, hstep, ticks_sub_one hne]
  · rw [if_neg (show ¬(alarmAt tmrTime t).state = .running from hrun)]
    unfold alarmAt
    rw [if_neg hrun, if_neg hrun]

/-! ## The operations on a timer's fields -/

variable {tmrTime : UInt32} {t : Tmr}

theorem alarmAt_start (h : t.tmrState ≠ .unused) :
    alarmAt tmrTime { t with
      tmrState := .running
      tmrMatch := if t.tmrDly = 0 then t.tmrPeriod + tmrTime else t.tmrDly + tmrTime } =
      (alarmAt tmrTime t).start := by
  rw [Alarm.start, if_neg (show ¬(alarmAt tmrTime t).state = .unused from h)]
  unfold alarmAt
  dsimp only
  rw [if_pos rfl]
  split
  · rw [left_of_match]
  · rw [left_of_match]

theorem alarmAt_stop (h : t.tmrState = .running) :
    alarmAt tmrTime { t with tmrState := .stopped } = (alarmAt tmrTime t).stop := by
  rw [Alarm.stop, if_pos (show (alarmAt tmrTime t).state = .running from h)]
  rfl

theorem alarmAt_del (h : t.tmrState ≠ .unused) :
    alarmAt tmrTime { t with
      tmrState := .unused
      tmrOpt := .none
      tmrPeriod := 0
      tmrMatch := 0
      tmrCallback := none
      tmrCallbackArg := 0 } = (alarmAt tmrTime t).del := by
  rw [Alarm.del, if_neg (show ¬(alarmAt tmrTime t).state = .unused from h)]
  rfl

theorem alarmAt_goOff (h : t.tmrState = .running) :
    alarmAt tmrTime
        (if t.tmrOpt = .periodic then
          { t with tmrState := .running, tmrMatch := t.tmrPeriod + tmrTime }
        else { t with tmrState := .completed }) = (alarmAt tmrTime t).goOff := by
  unfold Alarm.goOff
  by_cases hopt : t.tmrOpt = .periodic
  · rw [if_pos hopt, if_pos (show (alarmAt tmrTime t).opt = .periodic from hopt)]
    unfold alarmAt
    dsimp only
    rw [if_pos rfl, left_of_match, h]
  · rw [if_neg hopt, if_neg (show ¬(alarmAt tmrTime t).opt = .periodic from hopt)]
    rfl

/-! ## How long an alarm takes -/

namespace Alarm

variable {a : Alarm}

/-- An alarm that has more than `n` ticks left does not go off in the next `n`. -/
theorem iterate_tick (hrun : a.state = .running) {n : ℕ} (hn : n < a.left) :
    (fun a => tick a [])^[n] a = { a with left := a.left - n } := by
  induction n with
  | zero => rfl
  | succ n ih =>
    rw [Function.iterate_succ_apply', ih (by omega)]
    have hnot : ¬({ a with left := a.left - n } : Alarm).Due := fun h => by
      have hleft : a.left - n = 1 := h.2
      omega
    show tick { a with left := a.left - n } [] = _
    rw [tick, if_neg hnot, if_pos hrun, Nat.sub_sub]

/-- After `n` steps, and then again after every `n` of them. -/
theorem again_iff {j n : ℕ} : j + 1 = n ∨ n < j + 1 ∧ (j + 1 - n) % n = 0 ↔ (j + 1) % n = 0 := by
  constructor
  · rintro (h | ⟨hlt, hmod⟩)
    · rw [h, Nat.mod_self]
    · rw [← Nat.sub_add_cancel hlt.le, Nat.add_mod_right]
      exact hmod
  · intro hmod
    rcases Nat.lt_trichotomy (j + 1) n with h | h | h
    · rw [Nat.mod_eq_of_lt h] at hmod
      omega
    · exact .inl h
    · refine .inr ⟨h, ?_⟩
      rw [← Nat.sub_add_cancel h.le, Nat.add_mod_right] at hmod
      exact hmod

/-- When the alarm goes off: after the ticks that it has left and, when it is periodic, whenever its
period has passed. -/
theorem due_iterate_iff (hrun : a.state = .running) (hleft : 1 ≤ a.left) (k : ℕ) :
    ((fun a => tick a [])^[k] a).Due ↔
      k + 1 = a.left ∨
        a.opt = .periodic ∧ a.left < k + 1 ∧ (k + 1 - a.left) % ticks a.period = 0 := by
  induction k using Nat.strongRecOn generalizing a with
  | ind k ih =>
    rcases Nat.lt_trichotomy (k + 1) a.left with hlt | heq | hgt
    · rw [iterate_tick hrun (by omega)]
      constructor
      · rintro ⟨-, hone⟩
        have hone : a.left - k = 1 := hone
        omega
      · rintro (h | h) <;> omega
    · rw [iterate_tick hrun (by omega)]
      exact ⟨fun _ => .inl heq, fun _ => ⟨hrun, show a.left - k = 1 by omega⟩⟩
    · -- the alarm went off before: what comes is the alarm that it then became
      obtain ⟨j, rfl⟩ : ∃ j, k = j + a.left := ⟨k - a.left, by omega⟩
      have hdue : ({ a with left := a.left - (a.left - 1) } : Alarm).Due :=
        ⟨hrun, show a.left - (a.left - 1) = 1 by omega⟩
      have hfirst : (fun a => tick a [])^[a.left] a =
          ({ a with left := a.left - (a.left - 1) } : Alarm).goOff := by
        obtain ⟨n, hn⟩ : ∃ n, a.left = n + 1 := ⟨a.left - 1, by omega⟩
        rw [hn, Function.iterate_succ_apply', iterate_tick hrun (by omega)]
        rw [hn, Nat.add_sub_cancel] at hdue
        show tick { a with left := a.left - n } [] = _
        rw [hn, tick, if_pos hdue, called]
        split <;> rfl
      rw [Function.iterate_add_apply, hfirst]
      by_cases hopt : a.opt = .periodic
      · have hnext : ({ a with left := a.left - (a.left - 1) } : Alarm).goOff =
            { a with left := ticks a.period } := if_pos hopt
        have hpos : 1 ≤ ticks a.period := Nat.succ_le_succ (Nat.zero_le _)
        rw [hnext, @ih j (by omega) { a with left := ticks a.period } hrun hpos]
        show j + 1 = ticks a.period ∨ a.opt = .periodic ∧ ticks a.period < j + 1 ∧
          (j + 1 - ticks a.period) % ticks a.period = 0 ↔ _
        have hsub : j + a.left + 1 - a.left = j + 1 := by omega
        rw [hsub, and_iff_right hopt, again_iff]
        constructor
        · exact fun hmod => .inr ⟨hopt, hgt, hmod⟩
        · rintro (h | ⟨-, -, hmod⟩)
          · omega
          · exact hmod
      · have hnext : ({ a with left := a.left - (a.left - 1) } : Alarm).goOff =
            { a with state := .completed, left := 0 } := if_neg hopt
        rw [hnext]
        have hstays : (fun a => tick a [])^[j] { a with state := .completed, left := 0 } =
            { a with state := .completed, left := 0 } :=
          Function.iterate_fixed rfl j
        rw [hstays]
        constructor
        · rintro ⟨hstate, -⟩
          cases hstate
        · rintro (h | ⟨h, -⟩)
          · omega
          · exact absurd h hopt

end Alarm

end NuAgent.Timer
