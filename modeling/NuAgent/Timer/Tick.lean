import NuAgent.Timer.Wheel

/-!
# Every operation is one on an alarm

The functions of the timers, seen through `alarmAt`: a call for timer `p` does to its alarm what it says
and leaves the other timers alone, and `OSTmr_Task` lets every alarm tick. Callbacks may do anything with
their own timer while the task is at work on a spoke: what the task has still to visit is a suffix of the
spoke, and nothing that happens to a timer in front of it changes that.
-/

namespace NuAgent.Timer

open DList NullList

/-- What a callback of timer `p` does. -/
def Timers.own (p : TmrPtr) (s : Timers) : Own → Option Timers
  | .start => (osTmrStart s p).map (·.1)
  | .stop => (osTmrStop s p .none 0 some).map (·.1)
  | .del => (osTmrDel s p).map (·.1)
  | .store value => some (nstStore s p value)

def Timers.owns (p : TmrPtr) (acts : List Own) (s : Timers) : Option Timers :=
  acts.foldlM (Timers.own p) s

/-- `s'` comes from `s` by what happened to timer `p`, whose alarm is now `a`. -/
def Does (p : TmrPtr) (s : Timers) (w : ℕ → List TmrPtr) (a : Alarm) (s' : Timers) : Prop :=
  ∃ w' f', Wheel s' w' f' ∧ Only p s s' w w' ∧ alarmAt s'.tmrTime (s'.tmrTbl p) = a

variable {s s' : Timers} {w : ℕ → List TmrPtr} {f : List TmrPtr} {p : TmrPtr}

/-- Nothing done. -/
theorem Wheel.does_nothing (h : Wheel s w f) : Does p s w (alarmAt s.tmrTime (s.tmrTbl p)) s :=
  ⟨w, f, h, .refl, rfl⟩

/-- `OSTmr_Link` of a timer that is in no list starts its alarm. -/
theorem Wheel.does_link (h : Wheel s w f) (hrun : (s.tmrTbl p).tmrState ≠ .running)
    (hunused : (s.tmrTbl p).tmrState ≠ .unused) :
    Does p s w (alarmAt s.tmrTime (s.tmrTbl p)).start (osTmrLink s p false) := by
  obtain ⟨w', h', honly, htbl⟩ := h.link hrun hunused false
  refine ⟨w', f, h', honly, ?_⟩
  rw [htbl, honly.time]
  exact alarmAt_start hunused

/-- `OSTmr_Unlink` stops the alarm. -/
theorem Wheel.does_unlink (h : Wheel s w f) (hrun : (s.tmrTbl p).tmrState = .running) :
    ∃ s', osTmrUnlink s p = some s' ∧
      Does p s w (alarmAt s.tmrTime (s.tmrTbl p)).stop s' ∧
      s'.tmrTbl p = { s.tmrTbl p with tmrState := .stopped } := by
  obtain ⟨s', hunlink, h', honly, htbl⟩ := h.unlink hrun
  refine ⟨s', hunlink, ⟨_, f, h', honly, ?_⟩, htbl⟩
  rw [htbl, honly.time]
  exact alarmAt_stop hrun

/-- `OSTmrStart`. -/
theorem Wheel.does_start (h : Wheel s w f) :
    ∃ s' r, osTmrStart s p = some (s', r) ∧
      Does p s w (alarmAt s.tmrTime (s.tmrTbl p)).start s' := by
  unfold osTmrStart
  cases hstate : (s.tmrTbl p).tmrState with
  | running =>
    obtain ⟨s₁, hunlink, ⟨w₁, f₁, h₁, honly₁, halarm₁⟩, htbl⟩ := h.does_unlink hstate
    obtain ⟨w₂, f₂, h₂, honly₂, halarm₂⟩ := h₁.does_link (p := p)
      (by rw [htbl]; exact TmrState.noConfusion) (by rw [htbl]; exact TmrState.noConfusion)
    refine ⟨_, _, by rw [hunlink]; rfl, w₂, f₂, h₂, honly₁.trans honly₂, ?_⟩
    rw [halarm₂, halarm₁, Alarm.start_stop]
  | stopped =>
    exact ⟨_, _, rfl, h.does_link (by rw [hstate]; exact TmrState.noConfusion)
      (by rw [hstate]; exact TmrState.noConfusion)⟩
  | completed =>
    exact ⟨_, _, rfl, h.does_link (by rw [hstate]; exact TmrState.noConfusion)
      (by rw [hstate]; exact TmrState.noConfusion)⟩
  | unused =>
    refine ⟨s, _, rfl, ?_⟩
    have hstay : (alarmAt s.tmrTime (s.tmrTbl p)).start = alarmAt s.tmrTime (s.tmrTbl p) :=
      if_pos hstate
    rw [hstay]
    exact h.does_nothing

/-- `OSTmr_Free` of a timer that is in no list. -/
theorem Wheel.does_release (h : Wheel s w f) (hrun : (s.tmrTbl p).tmrState ≠ .running)
    (hunused : (s.tmrTbl p).tmrState ≠ .unused) :
    Does p s w (alarmAt s.tmrTime (s.tmrTbl p)).del (osTmrFree s p) := by
  obtain ⟨h', honly, htbl⟩ := h.release hrun hunused
  refine ⟨w, p :: f, h', honly, ?_⟩
  rw [htbl, honly.time]
  exact alarmAt_del hunused

/-- `OSTmrDel`. -/
theorem Wheel.does_del (h : Wheel s w f) :
    ∃ s' r, osTmrDel s p = some (s', r) ∧
      Does p s w (alarmAt s.tmrTime (s.tmrTbl p)).del s' := by
  unfold osTmrDel
  cases hstate : (s.tmrTbl p).tmrState with
  | running =>
    obtain ⟨s₁, hunlink, ⟨w₁, f₁, h₁, honly₁, halarm₁⟩, htbl⟩ := h.does_unlink hstate
    obtain ⟨w₂, f₂, h₂, honly₂, halarm₂⟩ := h₁.does_release (p := p)
      (by rw [htbl]; exact TmrState.noConfusion) (by rw [htbl]; exact TmrState.noConfusion)
    refine ⟨_, _, by rw [hunlink]; rfl, w₂, f₂, h₂, honly₁.trans honly₂, ?_⟩
    rw [halarm₂, halarm₁, Alarm.del_stop]
  | stopped =>
    exact ⟨_, _, rfl, h.does_release (by rw [hstate]; exact TmrState.noConfusion)
      (by rw [hstate]; exact TmrState.noConfusion)⟩
  | completed =>
    exact ⟨_, _, rfl, h.does_release (by rw [hstate]; exact TmrState.noConfusion)
      (by rw [hstate]; exact TmrState.noConfusion)⟩
  | unused =>
    refine ⟨s, _, rfl, ?_⟩
    have hstay : (alarmAt s.tmrTime (s.tmrTbl p)).del = alarmAt s.tmrTime (s.tmrTbl p) :=
      if_pos hstate
    rw [hstay]
    exact h.does_nothing

/-- The stores of `NST_SetTimer`. -/
theorem Wheel.does_store (h : Wheel s w f) (value : UInt32) :
    Does p s w ((alarmAt s.tmrTime (s.tmrTbl p)).store value) (nstStore s p value) := by
  unfold nstStore Alarm.store
  dsimp only
  by_cases hopt : (s.tmrTbl p).tmrOpt = .periodic
  · rw [if_pos hopt, if_pos (show (alarmAt s.tmrTime (s.tmrTbl p)).opt = .periodic from hopt)]
    obtain ⟨h', honly⟩ := @Wheel.put s w f p h
      { s.tmrTbl p with tmrPeriod := nstTimeValue value, tmrDly := 0 } (fun _ => Iff.rfl) Iff.rfl
    refine ⟨w, f, h', honly, ?_⟩
    rw [put_self]
    rfl
  · rw [if_neg hopt, if_neg (show ¬(alarmAt s.tmrTime (s.tmrTbl p)).opt = .periodic from hopt)]
    obtain ⟨h', honly⟩ := @Wheel.put s w f p h
      { s.tmrTbl p with tmrPeriod := 0, tmrDly := nstTimeValue value } (fun _ => Iff.rfl) Iff.rfl
    refine ⟨w, f, h', honly, ?_⟩
    rw [put_self]
    rfl

/-- `OSTmrStop` without a callback. -/
theorem Wheel.does_stop (h : Wheel s w f) (run : Timers → Option Timers) :
    ∃ s' r, osTmrStop s p .none 0 run = some (s', r) ∧
      Does p s w (alarmAt s.tmrTime (s.tmrTbl p)).stop s' := by
  have hstay : (s.tmrTbl p).tmrState ≠ .running →
      Does p s w (alarmAt s.tmrTime (s.tmrTbl p)).stop s := fun hne => by
    rw [Alarm.stop, if_neg (show ¬(alarmAt s.tmrTime (s.tmrTbl p)).state = .running from hne)]
    exact h.does_nothing
  unfold osTmrStop
  cases hstate : (s.tmrTbl p).tmrState with
  | running =>
    obtain ⟨s', hunlink, hdoes, -⟩ := h.does_unlink hstate
    exact ⟨s', _, by rw [hunlink]; rfl, hdoes⟩
  | completed => exact ⟨s, _, rfl, hstay (by rw [hstate]; exact TmrState.noConfusion)⟩
  | stopped => exact ⟨s, _, rfl, hstay (by rw [hstate]; exact TmrState.noConfusion)⟩
  | unused => exact ⟨s, _, rfl, hstay (by rw [hstate]; exact TmrState.noConfusion)⟩

/-- What a callback does with its own timer. -/
theorem Wheel.does_own (h : Wheel s w f) (op : Own) :
    ∃ s', s.own p op = some s' ∧ Does p s w ((alarmAt s.tmrTime (s.tmrTbl p)).own op) s' := by
  cases op with
  | start =>
    obtain ⟨s', r, hresult, hdoes⟩ := @Wheel.does_start s w f p h
    exact ⟨s', by rw [Timers.own, hresult]; rfl, hdoes⟩
  | stop =>
    obtain ⟨s', r, hresult, hdoes⟩ := @Wheel.does_stop s w f p h some
    exact ⟨s', by rw [Timers.own, hresult]; rfl, hdoes⟩
  | del =>
    obtain ⟨s', r, hresult, hdoes⟩ := @Wheel.does_del s w f p h
    exact ⟨s', by rw [Timers.own, hresult]; rfl, hdoes⟩
  | store value => exact ⟨nstStore s p value, rfl, h.does_store value⟩

theorem Wheel.does_owns (h : Wheel s w f) (acts : List Own) :
    ∃ s', s.owns p acts = some s' ∧
      Does p s w (acts.foldl Alarm.own (alarmAt s.tmrTime (s.tmrTbl p))) s' := by
  induction acts generalizing s w f with
  | nil => exact ⟨s, rfl, h.does_nothing⟩
  | cons op acts ih =>
    obtain ⟨s₁, hown, w₁, f₁, h₁, honly₁, halarm₁⟩ := @Wheel.does_own s w f p h op
    obtain ⟨s₂, howns, w₂, f₂, h₂, honly₂, halarm₂⟩ := ih h₁
    refine ⟨s₂, ?_, w₂, f₂, h₂, honly₁.trans honly₂, ?_⟩
    · unfold Timers.owns
      rw [List.foldlM_cons, hown]
      exact howns
    · rw [halarm₂, halarm₁]
      rfl

/-! ## One tick -/

/-- The callbacks that an alarm calls in a tick. -/
def Alarm.calls (p : TmrPtr) (a : Alarm) : List Callback :=
  if a.Due then a.callback.toList.map fun pfnct => ⟨p, pfnct, a.arg⟩ else []

/-- The turn for a timer that matches: it goes off. -/
theorem Wheel.turn_due (h : Wheel s w f) (hrun : (s.tmrTbl p).tmrState = .running)
    (hmatch : s.tmrTime = (s.tmrTbl p).tmrMatch) (acts : TmrPtr → List Own) :
    ∃ s', osTmrTaskTurn (fun q => Timers.owns q (acts q)) s p = some (s',
        (s.tmrTbl p).tmrCallback.toList.map fun pfnct => ⟨p, pfnct, (s.tmrTbl p).tmrCallbackArg⟩) ∧
      Does p s w ((alarmAt s.tmrTime (s.tmrTbl p)).goOff.called (acts p)) s' := by
  obtain ⟨s₁, hunlink, h₁, honly₁, htbl₁⟩ := h.unlink hrun
  -- the timer is linked again, or completed
  have hnext : ∃ s₂, s₂ = (if (s₁.tmrTbl p).tmrOpt = .periodic then osTmrLink s₁ p true
        else s₁.put p { s₁.tmrTbl p with tmrState := .completed }) ∧
      Does p s w (alarmAt s.tmrTime (s.tmrTbl p)).goOff s₂ ∧
      (s₂.tmrTbl p).tmrCallback = (s.tmrTbl p).tmrCallback ∧
      (s₂.tmrTbl p).tmrCallbackArg = (s.tmrTbl p).tmrCallbackArg := by
    have hopt₁ : (s₁.tmrTbl p).tmrOpt = (s.tmrTbl p).tmrOpt := by rw [htbl₁]
    refine ⟨_, rfl, ?_⟩
    by_cases hopt : (s.tmrTbl p).tmrOpt = .periodic
    · rw [if_pos (hopt₁.trans hopt)]
      obtain ⟨w₂, h₂, honly₂, htbl₂⟩ := h₁.link (p := p)
        (by rw [htbl₁]; exact TmrState.noConfusion) (by rw [htbl₁]; exact TmrState.noConfusion) true
      refine ⟨⟨w₂, f, h₂, honly₁.trans honly₂, ?_⟩, ?_, ?_⟩
      · rw [← alarmAt_goOff hrun, if_pos hopt, htbl₂, honly₂.time, honly₁.time, linkMatch, htbl₁,
          honly₁.time]
        rfl
      · rw [htbl₂, htbl₁]
      · rw [htbl₂, htbl₁]
    · rw [if_neg fun h => hopt (hopt₁.symm.trans h)]
      obtain ⟨h₂, honly₂⟩ := h₁.put (p := p) (t := { s₁.tmrTbl p with tmrState := .completed })
        (fun i => by
          rw [htbl₁]
          exact ⟨fun hc => TmrState.noConfusion hc.1, fun hc => TmrState.noConfusion hc.1⟩)
        (by
          rw [htbl₁]
          exact ⟨fun hc => TmrState.noConfusion hc, fun hc => TmrState.noConfusion hc⟩)
      refine ⟨⟨_, f, h₂, honly₁.trans honly₂, ?_⟩, ?_, ?_⟩
      · rw [← alarmAt_goOff hrun, if_neg hopt, put_self, htbl₁]
        show alarmAt s₁.tmrTime _ = _
        rw [honly₁.time]
      · rw [put_self, htbl₁]
      · rw [put_self, htbl₁]
  obtain ⟨s₂, hs₂, ⟨w₂, f₂, h₂, honly₂, halarm₂⟩, hcallback, harg⟩ := hnext
  have hsome : (alarmAt s.tmrTime (s.tmrTbl p)).goOff.callback = (s₂.tmrTbl p).tmrCallback := by
    rw [← halarm₂]
    rfl
  unfold osTmrTaskTurn Alarm.called
  rw [if_pos hmatch, hunlink, Option.bind_eq_bind, Option.bind_some, ← hs₂, hsome, ← hcallback,
    ← harg]
  dsimp only
  cases (s₂.tmrTbl p).tmrCallback with
  | none => exact ⟨s₂, rfl, w₂, f₂, h₂, honly₂, halarm₂⟩
  | some pfnct =>
    obtain ⟨s₃, howns, w₃, f₃, h₃, honly₃, halarm₃⟩ := h₂.does_owns (p := p) (acts p)
    refine ⟨s₃, ?_, w₃, f₃, h₃, honly₂.trans honly₃, ?_⟩
    · rw [howns]
      rfl
    · rw [halarm₃, halarm₂]
      rfl

/-- Going off does not depend on the time. -/
theorem goOff_alarmAt (tmrTime tmrTime' : UInt32) (t : Tmr) :
    (alarmAt tmrTime t).goOff = (alarmAt tmrTime' t).goOff := by
  unfold Alarm.goOff
  by_cases hopt : t.tmrOpt = .periodic
  · rw [if_pos (show (alarmAt tmrTime t).opt = .periodic from hopt),
      if_pos (show (alarmAt tmrTime' t).opt = .periodic from hopt)]
    rfl
  · rw [if_neg (show ¬(alarmAt tmrTime t).opt = .periodic from hopt),
      if_neg (show ¬(alarmAt tmrTime' t).opt = .periodic from hopt)]
    rfl

/-- One turn of the loop, for a running timer, after the time was incremented. -/
theorem Wheel.turn (h : Wheel s w f) (hrun : (s.tmrTbl p).tmrState = .running) {tmrTime : UInt32}
    (htime : s.tmrTime = tmrTime + 1) (acts : TmrPtr → List Own) :
    ∃ s', osTmrTaskTurn (fun q => Timers.owns q (acts q)) s p =
        some (s', (alarmAt tmrTime (s.tmrTbl p)).calls p) ∧
      Does p s w ((alarmAt tmrTime (s.tmrTbl p)).tick (acts p)) s' := by
  by_cases hdue : (alarmAt tmrTime (s.tmrTbl p)).Due
  · obtain ⟨s', hturn, hdoes⟩ := h.turn_due hrun (htime.trans (due_alarmAt.1 hdue).2) acts
    rw [goOff_alarmAt s.tmrTime tmrTime] at hdoes
    rw [Alarm.calls, if_pos hdue, Alarm.tick, if_pos hdue]
    exact ⟨s', hturn, hdoes⟩
  · have hne : s.tmrTime ≠ (s.tmrTbl p).tmrMatch := fun hmatch =>
      hdue (due_alarmAt.2 ⟨hrun, htime.symm.trans hmatch⟩)
    rw [Alarm.calls, if_neg hdue, ← alarmAt_succ hdue, ← htime]
    refine ⟨s, ?_, h.does_nothing⟩
    unfold osTmrTaskTurn
    rw [if_neg hne]

/-- The loop over the end `rest` of a spoke: every timer in it ticks once, and no other timer is
touched. -/
theorem Wheel.loop {tmrTime : UInt32} {i : ℕ} (acts : TmrPtr → List Own) (rest : List TmrPtr) {n : ℕ}
    (h : Wheel s w f) (hrest : rest <:+ w i) (hn : rest.length ≤ n) (htime : s.tmrTime = tmrTime + 1) :
    ∃ s', osTmrTaskLoop (fun q => Timers.owns q (acts q)) n rest.head? s =
        some (s', rest.flatMap fun q => (alarmAt tmrTime (s.tmrTbl q)).calls q) ∧
      (∃ w' f', Wheel s' w' f') ∧ s'.tmrTime = s.tmrTime ∧
      (∀ q, q ∉ rest → s'.tmrTbl q = s.tmrTbl q) ∧
      ∀ q ∈ rest,
        alarmAt s'.tmrTime (s'.tmrTbl q) = (alarmAt tmrTime (s.tmrTbl q)).tick (acts q) := by
  induction rest generalizing s w f n with
  | nil =>
    refine ⟨s, ?_, ⟨w, f, h⟩, rfl, fun _ _ => rfl, fun q hq => absurd hq List.not_mem_nil⟩
    cases n <;> rfl
  | cons p rest ih =>
    obtain ⟨n, rfl⟩ : ∃ m, n = m + 1 := ⟨n - 1, by rw [List.length_cons] at hn; omega⟩
    obtain ⟨pre, hpre⟩ := hrest
    have hnodup := h.nodup i
    have hline := h.line i
    rw [← hpre] at hnodup hline
    have hp : p ∉ rest := (List.nodup_cons.1 (List.nodup_append.1 hnodup).2.1).1
    have hrun : (s.tmrTbl p).tmrState = .running := by
      refine ((h.mem i p).1 ?_).1
      rw [← hpre]
      exact List.mem_append_right pre List.mem_cons_self
    obtain ⟨s₁, hturn, w₁, f₁, h₁, honly, halarm⟩ := h.turn hrun htime acts
    have hrest₁ : rest <:+ w₁ i := honly.suffix i rest hp ⟨pre ++ [p], by
      rw [← hpre, List.append_assoc]
      rfl⟩
    obtain ⟨s', hloop, hwheel, htime', hother, hticked⟩ := ih h₁ hrest₁ (Nat.le_of_succ_le_succ hn)
      (honly.time.trans htime)
    have hsame : ∀ q ∈ rest, s₁.tmrTbl q = s.tmrTbl q := fun q hq =>
      honly.other q fun hqp => hp (hqp ▸ hq)
    refine ⟨s', ?_, hwheel, htime'.trans honly.time, fun q hq => ?_, fun q hq => ?_⟩
    · have hlater : (rest.flatMap fun q => (alarmAt tmrTime (s₁.tmrTbl q)).calls q) =
          rest.flatMap fun q => (alarmAt tmrTime (s.tmrTbl q)).calls q :=
        List.flatMap_congr fun q hq => by rw [hsame q hq]
      rw [List.head?_cons, osTmrTaskLoop, hturn, hline.pnext_eq]
      dsimp only [Option.bind_eq_bind, Option.bind_some]
      rw [hloop, hlater]
      rfl
    · obtain ⟨hqp, hqr⟩ := not_or.1 fun h => hq (List.mem_cons.2 h)
      rw [hother q hqr, honly.other q hqp]
    · rcases List.mem_cons.1 hq with rfl | hqr
      · rw [hother q hp, htime']
        exact halarm
      · rw [hticked q hqr, hsame q hqr]

/-- The calls for one timer among those of a list of timers. -/
theorem filter_calls (g : TmrPtr → Alarm) (l : List TmrPtr) (hl : l.Nodup) (q : TmrPtr) :
    (l.flatMap fun p => (g p).calls p).filter (fun c => c.ptmr = q) =
      if q ∈ l then (g q).calls q else [] := by
  have hself : ∀ p, ∀ c ∈ (g p).calls p, c.ptmr = p := fun p c hc => by
    unfold Alarm.calls at hc
    split at hc
    · obtain ⟨pfnct, -, rfl⟩ := List.mem_map.1 hc
      rfl
    · exact absurd hc List.not_mem_nil
  induction l with
  | nil => rfl
  | cons p l ih =>
    obtain ⟨hp, hl⟩ := List.nodup_cons.1 hl
    rw [List.flatMap_cons, List.filter_append, ih hl]
    by_cases hpq : p = q
    · subst hpq
      have hall : ((g p).calls p).filter (fun c => c.ptmr = p) = (g p).calls p :=
        List.filter_eq_self.2 fun c hc => decide_eq_true (hself p c hc)
      rw [hall, if_neg hp, List.append_nil, if_pos List.mem_cons_self]
    · have hnone : ((g p).calls p).filter (fun c => c.ptmr = q) = [] :=
        List.filter_eq_nil_iff.2 fun c hc h => hpq ((hself p c hc).symm.trans (of_decide_eq_true h))
      rw [hnone, List.nil_append]
      have hiff : q ∈ p :: l ↔ q ∈ l := List.mem_cons.trans (or_iff_right (Ne.symm hpq))
      simp only [hiff]

/-- `OSTmr_Task`, from one signal to the next: every alarm ticks, and the callbacks called are those of
the alarms that go off. -/
theorem Wheel.task (h : Wheel s w f) (acts : TmrPtr → List Own) :
    ∃ s' called, osTmrTask (fun q => Timers.owns q (acts q)) s = some (s', called) ∧
      (∃ w' f', Wheel s' w' f') ∧
      ∀ q, alarmAt s'.tmrTime (s'.tmrTbl q) = (alarmAt s.tmrTime (s.tmrTbl q)).tick (acts q) ∧
        called.filter (fun c => c.ptmr = q) = (alarmAt s.tmrTime (s.tmrTbl q)).calls q := by
  generalize hi : spoke (s.tmrTime + 1) = i
  have h₁ : Wheel { s with tmrTime := s.tmrTime + 1 } w f := { h with }
  obtain ⟨s', hloop, hwheel, htime, hother, hticked⟩ := @Wheel.loop _ w f s.tmrTime i acts (w i)
    osTmrCfgMax h₁ (List.suffix_refl _) (length_le (w i) (h.nodup i)) rfl
  have hresult : osTmrTask (fun q => Timers.owns q (acts q)) s =
      some (s', (w i).flatMap fun q => (alarmAt s.tmrTime (s.tmrTbl q)).calls q) := by
    unfold osTmrTask
    dsimp only
    rw [hi, (h.line i).first_eq]
    exact hloop
  refine ⟨s', _, hresult, hwheel, fun q => ?_⟩
  rw [filter_calls (fun q => alarmAt s.tmrTime (s.tmrTbl q)) (w i) (h.nodup i) q]
  by_cases hq : q ∈ w i
  · rw [if_pos hq]
    exact ⟨hticked q hq, rfl⟩
  · -- a timer in another spoke does not match
    have hnot : ¬(alarmAt s.tmrTime (s.tmrTbl q)).Due := fun hdue => by
      obtain ⟨hrun, hmatch⟩ := due_alarmAt.1 hdue
      exact hq ((h.mem i q).2 ⟨hrun, by rw [← hmatch, hi]⟩)
    rw [if_neg hq, hother q hq, htime]
    refine ⟨alarmAt_succ hnot (acts q), ?_⟩
    unfold Alarm.calls
    rw [if_neg hnot]

end NuAgent.Timer
