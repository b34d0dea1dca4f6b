import NuAgent.Timer.Tick

/-!
# Runs of the timers

A run is any sequence of the timer calls of tasks and of signals to `OSTmr_Task`. The wheel refines the
alarms (`wheel_refines_alarms`): what happens to a timer, and which callbacks are called for it and when,
is what its alarm does, whatever the other timers do. So a timer set with `NST_SetTimer` goes off exactly
when it should (`nst_timer_is_exact`).
-/

namespace NuAgent.Timer

/-- A call of a task, or a signal to the timer task. -/
inductive Op
  | create (dly period : UInt32) (opt : TmrOpt) (callback : Option ℕ) (callbackArg : ℕ)
  | start (ptmr : TmrPtr)
  | stop (ptmr : TmrPtr) (opt : TmrOpt) (callbackArg : ℕ) (acts : List Own)
  | del (ptmr : TmrPtr)
  | store (ptmr : TmrPtr) (value : UInt32)
  | tick (acts : TmrPtr → List Own)

/-- What a step gives: the timer that was created, and the callbacks that were called. -/
structure Out where
  created : Option TmrPtr
  called : List Callback
deriving DecidableEq, Repr

def step (s : Timers) : Op → Option (Timers × Out)
  | .create dly period opt callback callbackArg =>
    let r := osTmrCreate s dly period opt callback callbackArg
    some (r.1, ⟨r.2.1, []⟩)
  | .start ptmr => (osTmrStart s ptmr).map fun r => (r.1, ⟨none, []⟩)
  | .stop ptmr opt callbackArg acts =>
    (osTmrStop s ptmr opt callbackArg (Timers.owns ptmr acts)).map fun r => (r.1, ⟨none, r.2.2.2⟩)
  | .del ptmr => (osTmrDel s ptmr).map fun r => (r.1, ⟨none, []⟩)
  | .store ptmr value => some (nstStore s ptmr value, ⟨none, []⟩)
  | .tick acts =>
    (osTmrTask (fun q => Timers.owns q (acts q)) s).map fun r => (r.1, ⟨none, r.2⟩)

/-- A run, and what each of its steps gives. -/
def run (s : Timers) : List Op → Option (Timers × List (Op × Out))
  | [] => some (s, [])
  | op :: ops => do
    let (s, out) ← step s op
    let (s, outs) ← run s ops
    some (s, (op, out) :: outs)

/-! ## The alarm of one timer in a run -/

namespace Alarm

variable (p : TmrPtr) (a : Alarm)

/-- The alarm stopped with an option. -/
def stopWith (opt : TmrOpt) (acts : List Own) : Alarm :=
  if a.state = .running ∧ (opt = .callback ∨ opt = .callbackArg) then a.stop.called acts else a.stop

/-- The callbacks called for an alarm that is stopped with an option. -/
def stopCalls (opt : TmrOpt) (callbackArg : ℕ) : List Callback :=
  if a.state = .running then
    if opt = .callback then a.callback.toList.map fun pfnct => ⟨p, pfnct, a.arg⟩
    else if opt = .callbackArg then
      a.callback.toList.map fun pfnct => ⟨p, pfnct, callbackArg⟩
    else []
  else []

/-- What a step does to the alarm of timer `p`. -/
def step (out : Out) : Op → Alarm
  | .create dly period opt callback callbackArg =>
    if out.created = some p then ⟨.stopped, 0, opt, dly, period, callback, callbackArg⟩ else a
  | .start q => if q = p then a.start else a
  | .stop q opt _ acts => if q = p then a.stopWith opt acts else a
  | .del q => if q = p then a.del else a
  | .store q value => if q = p then a.store value else a
  | .tick acts => a.tick (acts p)

/-- The callbacks called for timer `p` in a step. -/
def callsIn : Op → List Callback
  | .stop q opt callbackArg _ => if q = p then a.stopCalls p opt callbackArg else []
  | .tick _ => a.calls p
  | _ => []

/-- The alarm after a run. -/
def after (trace : List (Op × Out)) : Alarm := trace.foldl (fun a e => a.step p e.2 e.1) a

/-- In every step of the run the callbacks called for `p` are those of its alarm, and only an unused timer
is created. -/
def Obeys : Alarm → List (Op × Out) → Prop
  | _, [] => True
  | a, (op, out) :: trace =>
    out.called.filter (fun c => c.ptmr = p) = a.callsIn p op ∧
      (out.created = some p → a.state = .unused) ∧ Obeys (a.step p out op) trace

/-- The alarm of a timer that was never created. -/
def idle : Alarm := ⟨.unused, 0, .none, 0, 0, none, 0⟩

end Alarm

/-! ## One step -/

variable {s s' : Timers} {w : ℕ → List TmrPtr} {f : List TmrPtr} {p : TmrPtr}

/-- `OSTmrStop` with any option. -/
theorem Wheel.does_stopWith (h : Wheel s w f) (opt : TmrOpt) (callbackArg : ℕ) (acts : List Own) :
    ∃ s' ok err, osTmrStop s p opt callbackArg (Timers.owns p acts) =
        some (s', ok, err, (alarmAt s.tmrTime (s.tmrTbl p)).stopCalls p opt callbackArg) ∧
      Does p s w ((alarmAt s.tmrTime (s.tmrTbl p)).stopWith opt acts) s' := by
  unfold Alarm.stopCalls Alarm.stopWith
  by_cases hrun : (s.tmrTbl p).tmrState = .running
  · obtain ⟨s₁, hunlink, hdoes₁, htbl⟩ := h.does_unlink hrun
    obtain ⟨w₁, f₁, h₁, honly₁, halarm₁⟩ := hdoes₁
    have hcallback : (s₁.tmrTbl p).tmrCallback = (s.tmrTbl p).tmrCallback := by rw [htbl]
    have harg : (s₁.tmrTbl p).tmrCallbackArg = (s.tmrTbl p).tmrCallbackArg := by rw [htbl]
    have hstate : (alarmAt s.tmrTime (s.tmrTbl p)).state = .running := hrun
    have hcall : ∀ arg, ∃ s' ok err, stopCallback s₁ p arg (Timers.owns p acts) =
          some (s', ok, err, (s.tmrTbl p).tmrCallback.toList.map fun pfnct => ⟨p, pfnct, arg⟩) ∧
        Does p s w ((alarmAt s.tmrTime (s.tmrTbl p)).stop.called acts) s' := fun arg => by
      have hsame : (alarmAt s.tmrTime (s.tmrTbl p)).stop.callback = (s₁.tmrTbl p).tmrCallback := by
        rw [← halarm₁]
        rfl
      rw [Alarm.called, hsame, ← hcallback, stopCallback]
      cases (s₁.tmrTbl p).tmrCallback with
      | none => exact ⟨s₁, true, .noCallback, rfl, w₁, f₁, h₁, honly₁, halarm₁⟩
      | some pfnct =>
        obtain ⟨s₂, howns, w₂, f₂, h₂, honly₂, halarm₂⟩ := h₁.does_owns (p := p) acts
        refine ⟨s₂, true, .none, ?_, w₂, f₂, h₂, honly₁.trans honly₂, ?_⟩
        · rw [howns]
          rfl
        · rw [halarm₂, halarm₁]
          rfl
    unfold osTmrStop
    rw [hrun]
    dsimp only
    rw [hunlink, if_pos hstate]
    have hplain : Does p s w (alarmAt s.tmrTime (s.tmrTbl p)).stop s₁ :=
      ⟨w₁, f₁, h₁, honly₁, halarm₁⟩
    cases opt with
    | callback =>
      rw [if_pos rfl, if_pos ⟨hstate, .inl rfl⟩]
      have hown := hcall (s.tmrTbl p).tmrCallbackArg
      rw [← harg] at hown
      show ∃ s' ok err, stopCallback s₁ p (s₁.tmrTbl p).tmrCallbackArg _ = some (s', ok, err,
        (s.tmrTbl p).tmrCallback.toList.map fun pfnct => ⟨p, pfnct, (s.tmrTbl p).tmrCallbackArg⟩) ∧ _
      rw [← harg]
      exact hown
    | callbackArg =>
      rw [if_neg TmrOpt.noConfusion, if_pos rfl, if_pos ⟨hstate, .inr rfl⟩]
      exact hcall callbackArg
    | none =>
      rw [if_neg TmrOpt.noConfusion, if_neg TmrOpt.noConfusion,
        if_neg fun hc => hc.2.elim TmrOpt.noConfusion TmrOpt.noConfusion]
      exact ⟨s₁, true, .none, rfl, hplain⟩
    | oneShot =>
      rw [if_neg TmrOpt.noConfusion, if_neg TmrOpt.noConfusion,
        if_neg fun hc => hc.2.elim TmrOpt.noConfusion TmrOpt.noConfusion]
      exact ⟨s₁, true, .invalidOpt, rfl, hplain⟩
    | periodic =>
      rw [if_neg TmrOpt.noConfusion, if_neg TmrOpt.noConfusion,
        if_neg fun hc => hc.2.elim TmrOpt.noConfusion TmrOpt.noConfusion]
      exact ⟨s₁, true, .invalidOpt, rfl, hplain⟩
    | other v =>
      rw [if_neg TmrOpt.noConfusion, if_neg TmrOpt.noConfusion,
        if_neg fun hc => hc.2.elim TmrOpt.noConfusion TmrOpt.noConfusion]
      exact ⟨s₁, true, .invalidOpt, rfl, hplain⟩
  · have hne : ¬(alarmAt s.tmrTime (s.tmrTbl p)).state = .running := hrun
    have hstay : Does p s w (alarmAt s.tmrTime (s.tmrTbl p)).stop s := by
      rw [Alarm.stop, if_neg hne]
      exact h.does_nothing
    rw [if_neg hne, if_neg fun hc => hne hc.1]
    unfold osTmrStop
    cases hstate : (s.tmrTbl p).tmrState with
    | running => exact absurd hstate hrun
    | completed => exact ⟨s, true, .stopped, rfl, hstay⟩
    | stopped => exact ⟨s, true, .stopped, rfl, hstay⟩
    | unused => exact ⟨s, false, .inactive, rfl, hstay⟩

/-- The callbacks of an alarm are called for its own timer. -/
theorem ptmr_of_mem_stopCalls {a : Alarm} {opt : TmrOpt} {callbackArg : ℕ} {c : Callback}
    (hc : c ∈ a.stopCalls p opt callbackArg) : c.ptmr = p := by
  unfold Alarm.stopCalls at hc
  split at hc
  · split at hc
    · obtain ⟨pfnct, -, rfl⟩ := List.mem_map.1 hc
      rfl
    · split at hc
      · obtain ⟨pfnct, -, rfl⟩ := List.mem_map.1 hc
        rfl
      · exact absurd hc List.not_mem_nil
  · exact absurd hc List.not_mem_nil

/-- The step for every alarm: from `s` to `s'`, with what it gives. -/
def Steps (s : Timers) (op : Op) (out : Out) (s' : Timers) (q : TmrPtr) : Prop :=
  alarmAt s'.tmrTime (s'.tmrTbl q) = (alarmAt s.tmrTime (s.tmrTbl q)).step q out op ∧
    out.called.filter (fun c => c.ptmr = q) = (alarmAt s.tmrTime (s.tmrTbl q)).callsIn q op ∧
    (out.created = some q → (s.tmrTbl q).tmrState = .unused)

/-- The alarms of the timers that a call is not about. -/
theorem Does.other {a : Alarm} (h : Does p s w a s') {q : TmrPtr} (hq : q ≠ p) :
    alarmAt s'.tmrTime (s'.tmrTbl q) = alarmAt s.tmrTime (s.tmrTbl q) := by
  obtain ⟨w', f', -, honly, -⟩ := h
  rw [honly.other q hq, honly.time]

/-- A call for timer `p` that calls no callback. -/
theorem Does.steps {a : Alarm} {op : Op} (h : Does p s w a s')
    (hself : (alarmAt s.tmrTime (s.tmrTbl p)).step p ⟨none, []⟩ op = a)
    (hother : ∀ q b, q ≠ p → Alarm.step q b ⟨none, []⟩ op = b)
    (hcalls : ∀ q b, Alarm.callsIn q b op = []) (q : TmrPtr) : Steps s op ⟨none, []⟩ s' q := by
  refine ⟨?_, (hcalls q _).symm, fun hc => by cases hc⟩
  by_cases hq : q = p
  · subst hq
    obtain ⟨w', f', -, -, halarm⟩ := h
    rw [halarm, hself]
  · rw [h.other hq, hother q _ hq]

/-- Every step is defined, keeps the wheel together and does to each alarm what it should. -/
theorem Wheel.step (h : Wheel s w f) (op : Op) :
    ∃ s' out, Timer.step s op = some (s', out) ∧ (∃ w' f', Wheel s' w' f') ∧
      ∀ q, Steps s op out s' q := by
  cases op with
  | create dly period opt callback callbackArg =>
    cases f with
    | nil =>
      refine ⟨s, ⟨none, []⟩, ?_, ⟨w, [], h⟩, fun q => ⟨rfl, rfl, fun hc => by cases hc⟩⟩
      rw [Timer.step, h.create_none]
    | cons p f =>
      obtain ⟨s', hcreate, h', honly, htbl⟩ := h.create dly period opt callback callbackArg
      refine ⟨s', ⟨some p, []⟩, by rw [Timer.step, hcreate], ⟨w, f, h'⟩, fun q => ⟨?_, rfl, ?_⟩⟩
      · by_cases hq : q = p
        · subst hq
          rw [htbl]
          exact (if_pos rfl).symm
        · rw [honly.other q hq, honly.time]
          exact (if_neg fun hpq => hq (Option.some.inj hpq).symm).symm
      · intro hpq
        rw [← Option.some.inj hpq]
        exact (h.free p).1 List.mem_cons_self
  | start p =>
    obtain ⟨s', r, hresult, hdoes⟩ := @Wheel.does_start s w f p h
    refine ⟨s', ⟨none, []⟩, by rw [Timer.step, hresult]; rfl, ?_, hdoes.steps (if_pos rfl)
      (fun q b hq => if_neg (Ne.symm hq)) fun q b => rfl⟩
    obtain ⟨w', f', h', -, -⟩ := hdoes
    exact ⟨w', f', h'⟩
  | del p =>
    obtain ⟨s', r, hresult, hdoes⟩ := @Wheel.does_del s w f p h
    refine ⟨s', ⟨none, []⟩, by rw [Timer.step, hresult]; rfl, ?_, hdoes.steps (if_pos rfl)
      (fun q b hq => if_neg (Ne.symm hq)) fun q b => rfl⟩
    obtain ⟨w', f', h', -, -⟩ := hdoes
    exact ⟨w', f', h'⟩
  | store p value =>
    have hdoes := @Wheel.does_store s w f p h value
    refine ⟨nstStore s p value, ⟨none, []⟩, rfl, ?_, hdoes.steps (if_pos rfl)
      (fun q b hq => if_neg (Ne.symm hq)) fun q b => rfl⟩
    obtain ⟨w', f', h', -, -⟩ := hdoes
    exact ⟨w', f', h'⟩
  | stop p opt callbackArg acts =>
    obtain ⟨s', ok, err, hresult, hdoes⟩ := @Wheel.does_stopWith s w f p h opt callbackArg acts
    refine ⟨s', ⟨none, (alarmAt s.tmrTime (s.tmrTbl p)).stopCalls p opt callbackArg⟩,
      by rw [Timer.step, hresult]; rfl, ?_, fun q => ⟨?_, ?_, fun hc => by cases hc⟩⟩
    · obtain ⟨w', f', h', -, -⟩ := hdoes
      exact ⟨w', f', h'⟩
    · by_cases hq : q = p
      · subst hq
        obtain ⟨w', f', -, -, halarm⟩ := hdoes
        rw [halarm]
        exact (if_pos rfl).symm
      · rw [hdoes.other hq]
        exact (if_neg (Ne.symm hq)).symm
    · by_cases hq : q = p
      · subst hq
        have hall : Alarm.callsIn q (alarmAt s.tmrTime (s.tmrTbl q)) (.stop q opt callbackArg acts) =
            (alarmAt s.tmrTime (s.tmrTbl q)).stopCalls q opt callbackArg := if_pos rfl
        rw [hall]
        exact List.filter_eq_self.2 fun c hc => decide_eq_true (ptmr_of_mem_stopCalls hc)
      · have hnone : Alarm.callsIn q (alarmAt s.tmrTime (s.tmrTbl q)) (.stop p opt callbackArg acts) =
            [] := if_neg (Ne.symm hq)
        rw [hnone]
        exact List.filter_eq_nil_iff.2 fun c hc h =>
          hq ((of_decide_eq_true h).symm.trans (ptmr_of_mem_stopCalls hc))
  | tick acts =>
    obtain ⟨s', called, hresult, hwheel, hq⟩ := h.task acts
    exact ⟨s', ⟨none, called⟩, by rw [Timer.step, hresult]; rfl, hwheel,
      fun q => ⟨(hq q).1, (hq q).2, fun hc => by cases hc⟩⟩

/-! ## Runs -/

/-- A run from a wheel that hangs together. -/
theorem Wheel.run (h : Wheel s w f) (ops : List Op) :
    ∃ s' trace, Timer.run s ops = some (s', trace) ∧ trace.map Prod.fst = ops ∧
      (∃ w' f', Wheel s' w' f') ∧
      ∀ q, alarmAt s'.tmrTime (s'.tmrTbl q) = (alarmAt s.tmrTime (s.tmrTbl q)).after q trace ∧
        Alarm.Obeys q (alarmAt s.tmrTime (s.tmrTbl q)) trace := by
  induction ops generalizing s w f with
  | nil => exact ⟨s, [], rfl, rfl, ⟨w, f, h⟩, fun q => ⟨rfl, trivial⟩⟩
  | cons op ops ih =>
    obtain ⟨s₁, out, hstep, ⟨w₁, f₁, h₁⟩, hsteps⟩ := h.step op
    obtain ⟨s', trace, hrun, hmap, hwheel, halarms⟩ := ih h₁
    refine ⟨s', (op, out) :: trace, ?_, by rw [List.map_cons, hmap], hwheel, fun q => ?_⟩
    · rw [Timer.run, hstep]
      dsimp only [Option.bind_eq_bind, Option.bind_some]
      rw [hrun]
      rfl
    · obtain ⟨halarm, hcalls, hcreated⟩ := hsteps q
      obtain ⟨hafter, hobeys⟩ := halarms q
      rw [halarm] at hafter hobeys
      exact ⟨hafter, hcalls, hcreated, hobeys⟩

/-- The free list that `OSTmr_Init` links, from timer `n` on. -/
theorem path_init {n : ℕ} (hn : n < osTmrCfgMax) :
    NullList.Path osTmrInit.links (some ⟨n, hn⟩) ((List.finRange osTmrCfgMax).drop n) := by
  have hsplit : (List.finRange osTmrCfgMax).drop n =
      ⟨n, hn⟩ :: (List.finRange osTmrCfgMax).drop (n + 1) := by
    rw [List.drop_eq_getElem_cons (by rw [List.length_finRange]; exact hn), List.getElem_finRange]
    rfl
  rw [hsplit]
  refine ⟨rfl, ?_⟩
  show NullList.Path osTmrInit.links (if h : n + 1 < osTmrCfgMax then some ⟨n + 1, h⟩ else none) _
  by_cases hnext : n + 1 < osTmrCfgMax
  · rw [dif_pos hnext]
    exact path_init hnext
  · rw [dif_neg hnext, List.drop_eq_nil_of_le (by rw [List.length_finRange]; omega)]
    exact rfl
termination_by osTmrCfgMax - n

/-- The timers that `OSTmr_Init` sets up. -/
theorem wheel_init : Wheel osTmrInit (fun _ => []) (List.finRange osTmrCfgMax) where
  line _ := rfl
  nodup _ := List.nodup_nil
  mem _ _ := ⟨fun h => absurd h List.not_mem_nil, fun h => TmrState.noConfusion h.1⟩
  path := path_init (n := 0) (by decide)
  free_nodup := List.nodup_finRange _
  free p := ⟨fun _ => rfl, fun _ => List.mem_finRange p⟩
  entries _ := rfl
  tmrFree := by rw [List.length_finRange]; rfl
  tmrUsed := by rw [List.length_finRange]; rfl

/-- The wheel refines the alarms: every run of the timers from `OSTmr_Init` is defined, and for every
timer, whatever happens to the others, its state is the alarm's and the callbacks called for it in each
step are the alarm's. -/
theorem wheel_refines_alarms (ops : List Op) :
    ∃ s trace, run osTmrInit ops = some (s, trace) ∧ trace.map Prod.fst = ops ∧
      ∀ p, alarmAt s.tmrTime (s.tmrTbl p) = Alarm.idle.after p trace ∧
        Alarm.Obeys p Alarm.idle trace := by
  obtain ⟨s, trace, hrun, hmap, -, halarms⟩ := wheel_init.run ops
  exact ⟨s, trace, hrun, hmap, halarms⟩

/-! ## The functions of `util.c` are runs -/

theorem nstInitTimer_eq_run (s : Timers) (timerFunc : Option ℕ) (pData : ℕ) (repeats : Bool) :
    step s (.create 0 0 (if repeats then .periodic else .oneShot) timerFunc pData) =
      some ((nstInitTimer s none timerFunc pData repeats).1,
        ⟨(nstInitTimer s none timerFunc pData repeats).2, []⟩) := rfl

/-- The state after a step and those that follow. -/
theorem run_cons_state (s : Timers) (op : Op) (ops : List Op) :
    (run s (op :: ops)).map (·.1) = (step s op).bind fun r => (run r.1 ops).map (·.1) := by
  rw [run]
  cases step s op with
  | none => rfl
  | some r =>
    rw [Option.bind_some]
    show ((run r.1 ops).bind fun r' => some (r'.1, (op, r.2) :: r'.2)).map _ = _
    cases run r.1 ops <;> rfl

theorem nstSetTimer_eq_run (s : Timers) (ptmr : TmrPtr) (value : UInt32) :
    nstSetTimer s (some ptmr) value = (run s [.store ptmr value, .start ptmr]).map (·.1) := by
  rw [run_cons_state, step, Option.bind_some, run_cons_state, step]
  show (osTmrStart (nstStore s ptmr value) ptmr).map _ = _
  cases osTmrStart (nstStore s ptmr value) ptmr <;> rfl

/-- Without an option that calls it, it does not matter what the callback would do. -/
theorem osTmrStop_none (s : Timers) (ptmr : TmrPtr) (run run' : Timers → Option Timers) :
    osTmrStop s ptmr .none 0 run = osTmrStop s ptmr .none 0 run' := by
  unfold osTmrStop
  cases (s.tmrTbl ptmr).tmrState <;> rfl

theorem nstCancelTimer_eq_run (s : Timers) (ptmr : TmrPtr) :
    (nstCancelTimer s (some ptmr)).map (·.1) = (run s [.stop ptmr .none 0 []]).map (·.1) := by
  rw [run_cons_state, step, osTmrStop_none s ptmr _ some]
  show ((osTmrStop s ptmr .none 0 some).map _).map _ = _
  cases osTmrStop s ptmr .none 0 some <;> rfl

theorem nstDelTimer_eq_run (s : Timers) (ptmr : TmrPtr) :
    (nstDelTimer s (some ptmr)).map (·.1) = (run s [.del ptmr]).map (·.1) := by
  rw [run_cons_state, step]
  show ((osTmrDel s ptmr).map _).map _ = _
  cases osTmrDel s ptmr <;> rfl

theorem nstModTimer_eq_run (s : Timers) (ptmr : TmrPtr) (value : UInt32) :
    nstModTimer s (some ptmr) value =
      (run s [.stop ptmr .none 0 [], .store ptmr value, .start ptmr]).map (·.1) := by
  rw [run_cons_state, step, osTmrStop_none s ptmr _ some]
  unfold nstModTimer nstCancelTimer
  dsimp only
  cases osTmrStop s ptmr .none 0 some with
  | none => rfl
  | some r => exact nstSetTimer_eq_run r.1 ptmr value

/-- `OSTmrRemainGet` of a running timer is what its alarm has left. -/
theorem remain_eq_left (hrun : (s.tmrTbl p).tmrState = .running) :
    ticks (osTmrRemainGet s p).1 = (alarmAt s.tmrTime (s.tmrTbl p)).left := by
  have hleft : (alarmAt s.tmrTime (s.tmrTbl p)).left =
      ticks ((s.tmrTbl p).tmrMatch - s.tmrTime) := if_pos hrun
  unfold osTmrRemainGet
  dsimp only
  rw [hleft, hrun]

/-! ## The pool -/

/-- Timers are created until all are in use: `OSTmrCreate` gives null exactly when no timer is unused, and
`OSTmrUsed` counts those in use. -/
theorem pool_is_exact {ops : List Op} {s : Timers} {trace : List (Op × Out)}
    (hrun : run osTmrInit ops = some (s, trace)) (dly period : UInt32) (opt : TmrOpt)
    (callback : Option ℕ) (callbackArg : ℕ) :
    ((osTmrCreate s dly period opt callback callbackArg).2.1 = none ↔
        ∀ p, (s.tmrTbl p).tmrState ≠ .unused) ∧
      s.tmrUsed.toNat = (List.finRange osTmrCfgMax).countP fun p => (s.tmrTbl p).tmrState ≠ .unused := by
  obtain ⟨s', trace', hrun', -, ⟨w, f, h⟩, -⟩ := wheel_init.run ops
  obtain ⟨rfl, rfl⟩ := Prod.mk.inj (Option.some.inj (hrun.symm.trans hrun'))
  constructor
  · cases f with
    | nil =>
      rw [h.create_none]
      exact ⟨fun _ p hp => List.not_mem_nil ((h.free p).2 hp), fun _ => rfl⟩
    | cons p f =>
      obtain ⟨s', hcreate, -⟩ := h.create dly period opt callback callbackArg
      rw [hcreate]
      exact ⟨fun hnone => absurd hnone (Option.some_ne_none p),
        fun hused => absurd ((h.free p).1 List.mem_cons_self) (hused p)⟩
  · have hused := h.tmrUsed
    have hperm : f.Perm ((List.finRange osTmrCfgMax).filter fun p =>
        (s.tmrTbl p).tmrState = .unused) :=
      (List.perm_ext_iff_of_nodup h.free_nodup ((List.nodup_finRange _).filter _)).2 fun p => by
        rw [List.mem_filter, h.free p]
        exact ⟨fun hp => ⟨List.mem_finRange p, decide_eq_true hp⟩, fun hp => of_decide_eq_true hp.2⟩
    have hlen := hperm.length_eq
    rw [← List.countP_eq_length_filter] at hlen
    have hsplit := List.length_eq_countP_add_countP
      (fun p => decide ((s.tmrTbl p).tmrState = .unused)) (l := List.finRange osTmrCfgMax)
    rw [List.length_finRange, ← hlen] at hsplit
    have hcount : (List.finRange osTmrCfgMax).countP
        (fun p => !decide ((s.tmrTbl p).tmrState = .unused)) =
        (List.finRange osTmrCfgMax).countP fun p => (s.tmrTbl p).tmrState ≠ .unused :=
      List.countP_congr fun p _ => by rw [decide_not]
    rw [← hcount]
    simp only [Bool.not_eq_true, Bool.decide_eq_false] at hsplit
    omega

theorem pool_is_exact_one : ∃ s trace, run osTmrInit [.create 0 0 .periodic (some 1) 7] =
      some (s, trace) ∧
    ((osTmrCreate s 1 0 .oneShot none 0).2.1 = none ↔ ∀ p, (s.tmrTbl p).tmrState ≠ .unused) ∧
      s.tmrUsed.toNat = (List.finRange osTmrCfgMax).countP fun p => (s.tmrTbl p).tmrState ≠ .unused :=
  ⟨_, _, rfl,
    @pool_is_exact [.create 0 0 .periodic (some 1) 7] _ _ rfl 1 0 .oneShot none 0⟩

/-! ## A timer that is set -/

/-- The step leaves timer `p` alone. -/
def Op.Leaves (p : TmrPtr) : Op → Prop
  | .create .. => True
  | .start q => q ≠ p
  | .stop q .. => q ≠ p
  | .del q => q ≠ p
  | .store q _ => q ≠ p
  | .tick acts => acts p = []

/-- The callbacks called in each of the ticks of a run. -/
def tickCalls (trace : List (Op × Out)) : List (List Callback) :=
  trace.filterMap fun e => match e.1 with
    | .tick _ => some e.2.called
    | _ => none

/-- The alarm's ticks, when its callback leaves it alone. -/
def Alarm.pass (a : Alarm) : Alarm := a.tick []

/-- A tick without callbacks that touch the alarm changes its state and what is left of it only. -/
theorem Alarm.pass_eq (a : Alarm) : ∃ state left, a.pass = { a with state, left } ∧
    (a.state ≠ .unused → state ≠ .unused) := by
  unfold Alarm.pass Alarm.tick
  by_cases hdue : a.Due
  · have hcalled : a.goOff.called [] = a.goOff := by
      unfold Alarm.called
      split <;> rfl
    rw [if_pos hdue, hcalled, Alarm.goOff]
    by_cases hopt : a.opt = .periodic
    · rw [if_pos hopt]
      exact ⟨a.state, _, rfl, id⟩
    · rw [if_neg hopt]
      exact ⟨.completed, 0, rfl, fun _ => TmrState.noConfusion⟩
  · rw [if_neg hdue]
    by_cases hrun : a.state = .running
    · rw [if_pos hrun]
      exact ⟨a.state, _, rfl, id⟩
    · rw [if_neg hrun]
      exact ⟨a.state, a.left, rfl, id⟩

theorem Alarm.iterate_pass (a : Alarm) (n : ℕ) : ∃ state left,
    Alarm.pass^[n] a = { a with state, left } ∧ (a.state ≠ .unused → state ≠ .unused) := by
  induction n with
  | zero => exact ⟨a.state, a.left, rfl, id⟩
  | succ n ih =>
    obtain ⟨state, left, heq, hused⟩ := ih
    obtain ⟨state', left', heq', hused'⟩ := Alarm.pass_eq { a with state, left }
    rw [Function.iterate_succ_apply', heq]
    exact ⟨state', left', heq', fun h => hused' (hused h)⟩

/-- A run that leaves a timer alone: its alarm ticks, and calls what it calls. -/
theorem Alarm.leaves {a : Alarm} (hused : a.state ≠ .unused) {trace : List (Op × Out)}
    (hleaves : ∀ op ∈ trace.map Prod.fst, op.Leaves p) (hobeys : a.Obeys p trace) :
    a.after p trace = Alarm.pass^[(tickCalls trace).length] a ∧
      ∀ k (hk : k < (tickCalls trace).length),
        (tickCalls trace)[k].filter (fun c => c.ptmr = p) = (Alarm.pass^[k] a).calls p := by
  induction trace generalizing a with
  | nil => exact ⟨rfl, fun k hk => absurd hk (Nat.not_lt_zero k)⟩
  | cons e trace ih =>
    obtain ⟨op, out⟩ := e
    obtain ⟨hcalls, hcreated, hobeys⟩ := hobeys
    obtain ⟨hop, hrest⟩ := List.forall_mem_cons.1 hleaves
    -- a step other than a tick does nothing to the alarm
    have hstay : a.step p out op = a → tickCalls ((op, out) :: trace) = tickCalls trace →
        a.after p ((op, out) :: trace) = Alarm.pass^[(tickCalls ((op, out) :: trace)).length] a ∧
          ∀ k (hk : k < (tickCalls ((op, out) :: trace)).length),
            (tickCalls ((op, out) :: trace))[k].filter (fun c => c.ptmr = p) =
              (Alarm.pass^[k] a).calls p := fun hstep hticks => by
      rw [hstep] at hobeys
      simp only [hticks]
      have hafter : a.after p ((op, out) :: trace) = a.after p trace := by
        unfold Alarm.after
        rw [List.foldl_cons, hstep]
      rw [hafter]
      exact ih hused hrest hobeys
    cases op with
    | create dly period opt callback callbackArg =>
      exact hstay (if_neg fun hp => hused (hcreated hp)) rfl
    | start q => exact hstay (if_neg hop) rfl
    | stop q opt callbackArg acts => exact hstay (if_neg hop) rfl
    | del q => exact hstay (if_neg hop) rfl
    | store q value => exact hstay (if_neg hop) rfl
    | tick acts =>
      have hstep : a.step p out (.tick acts) = a.pass := by
        show a.tick (acts p) = a.tick []
        rw [show acts p = [] from hop]
      obtain ⟨state, left, hpass, hkept⟩ := a.pass_eq
      have hused' : a.pass.state ≠ .unused := by
        rw [hpass]
        exact hkept hused
      rw [hstep] at hobeys
      obtain ⟨hafter, hlater⟩ := ih hused' hrest hobeys
      have hticks : tickCalls ((.tick acts, out) :: trace) = out.called :: tickCalls trace := rfl
      refine ⟨?_, fun k hk => ?_⟩
      · have hcons : a.after p ((.tick acts, out) :: trace) = a.pass.after p trace := by
          unfold Alarm.after
          rw [List.foldl_cons, hstep]
        rw [hcons, hafter, hticks, List.length_cons, Function.iterate_succ_apply]
      · cases k with
        | zero => exact hcalls
        | succ k => exact hlater k (Nat.lt_of_succ_lt_succ hk)

/-- A value of `NST_SetTimer` is at least one tick. -/
theorem nstTimeValue_ne_zero (value : UInt32) : nstTimeValue value ≠ 0 := by
  unfold nstTimeValue
  dsimp only
  split
  · decide
  · assumption

/-- What a start makes of an alarm that was set and left alone: the time set is left. -/
theorem Alarm.start_store {a b : Alarm} {value : UInt32} {state : TmrState} {left : ℕ}
    (hstate : state ≠ .unused) (hb : b = Alarm.start { a.store value with state, left }) :
    b.state = .running ∧ b.left = (nstTimeValue value).toNat ∧ b.opt = a.opt ∧
      b.callback = a.callback ∧ (a.opt = .periodic → ticks b.period = (nstTimeValue value).toNat) := by
  have hvalue := nstTimeValue_ne_zero value
  rw [hb, Alarm.start, if_neg hstate, Alarm.store]
  by_cases hopt : a.opt = .periodic
  · rw [if_pos hopt]
    dsimp only
    rw [if_pos rfl]
    exact ⟨rfl, ticks_of_ne_zero hvalue, rfl, rfl, fun _ => ticks_of_ne_zero hvalue⟩
  · rw [if_neg hopt]
    dsimp only
    rw [if_neg hvalue]
    exact ⟨rfl, ticks_of_ne_zero hvalue, rfl, rfl, fun h => absurd h hopt⟩

/-- A running alarm goes off when the ticks left have passed, and a periodic one again and again. -/
theorem Alarm.due_pass_iff {b : Alarm} {n : ℕ} (hrun : b.state = .running) (hleft : b.left = n)
    (hpos : 1 ≤ n) (hperiod : b.opt = .periodic → ticks b.period = n) (k : ℕ) :
    (Alarm.pass^[k] b).Due ↔ if b.opt = .periodic then (k + 1) % n = 0 else k + 1 = n := by
  refine (Alarm.due_iterate_iff hrun (hleft ▸ hpos) k).trans ?_
  rw [hleft]
  by_cases hp : b.opt = .periodic
  · rw [if_pos hp, hperiod hp, and_iff_right hp, Alarm.again_iff]
  · rw [if_neg hp]
    exact or_iff_left fun h => hp h.1

theorem Alarm.calls_ne_nil_iff {a : Alarm} : a.calls p ≠ [] ↔ a.callback ≠ none ∧ a.Due := by
  unfold Alarm.calls
  by_cases hd : a.Due
  · rw [if_pos hd]
    cases a.callback with
    | none => exact ⟨fun h => absurd rfl h, fun h => absurd rfl h.1⟩
    | some pfnct => exact ⟨fun _ => ⟨Option.some_ne_none pfnct, hd⟩, fun _ => List.cons_ne_nil _ _⟩
  · rw [if_neg hd]
    exact ⟨fun h => absurd rfl h, fun h => absurd h.2 hd⟩

theorem exists_call_iff {calls : List Callback} :
    (∃ c ∈ calls, c.ptmr = p) ↔ calls.filter (fun c => c.ptmr = p) ≠ [] := by
  rw [Ne, List.filter_eq_nil_iff]
  push Not
  exact exists_congr fun c => and_congr_right fun _ => decide_eq_true_iff.symm

/-- A timer set with `NST_SetTimer` goes off exactly when it should. Whatever came before, and whatever
the other tasks, timers and callbacks do between its stores and its start and afterwards, its callback is
called in a tick if and only if the time set has passed: once for a one-shot timer, and again and again for
a periodic one, until somebody touches it. -/
theorem nst_timer_is_exact {ops₁ mid ops₂ : List Op} {s s' t u : Timers}
    {trace₁ trace trace₂ : List (Op × Out)} {value : UInt32} {r : Bool × TmrErr}
    (h₁ : run osTmrInit ops₁ = some (s, trace₁)) (hused : (s.tmrTbl p).tmrState ≠ .unused)
    (hmid : run (nstStore s p value) mid = some (s', trace)) (hleaves : ∀ op ∈ mid, op.Leaves p)
    (hstart : osTmrStart s' p = some (t, r)) (h₂ : run t ops₂ = some (u, trace₂))
    (hleaves₂ : ∀ op ∈ ops₂, op.Leaves p) (k : ℕ) (hk : k < (tickCalls trace₂).length) :
    (∃ c ∈ (tickCalls trace₂)[k], c.ptmr = p) ↔
      (s.tmrTbl p).tmrCallback ≠ none ∧
        if (s.tmrTbl p).tmrOpt = .periodic then (k + 1) % (nstTimeValue value).toNat = 0
        else k + 1 = (nstTimeValue value).toNat := by
  obtain ⟨s₁, trace₁', hrun₁, -, ⟨w, f, hs⟩, -⟩ := wheel_init.run ops₁
  obtain ⟨rfl, rfl⟩ := Prod.mk.inj (Option.some.inj (h₁.symm.trans hrun₁))
  generalize ha : alarmAt s.tmrTime (s.tmrTbl p) = a
  have haused : a.state ≠ .unused := by
    rw [← ha]
    exact hused
  -- the stores, the steps in between, and the start
  obtain ⟨w', f', hs', -, halarm'⟩ := hs.does_store (p := p) value
  rw [ha] at halarm'
  obtain ⟨s₂, trace₂', hrun₂, hmap₂, ⟨w₂, f₂, hs₂⟩, halarms₂⟩ := hs'.run mid
  obtain ⟨rfl, rfl⟩ := Prod.mk.inj (Option.some.inj (hmid.symm.trans hrun₂))
  obtain ⟨hafter₂, hobeys₂⟩ := halarms₂ p
  rw [halarm'] at hafter₂ hobeys₂
  have hstored : (a.store value).state ≠ .unused := by
    unfold Alarm.store
    split
    · exact haused
    · exact haused
  rw [← hmap₂] at hleaves
  rw [(Alarm.leaves hstored hleaves hobeys₂).1] at hafter₂
  obtain ⟨state, left, hpass, hkept⟩ := (a.store value).iterate_pass (tickCalls trace).length
  rw [hpass] at hafter₂
  obtain ⟨t₃, r₃, hstart₃, w₃, f₃, ht, -, halarm₃⟩ := hs₂.does_start (p := p)
  obtain ⟨rfl, rfl⟩ := Prod.mk.inj (Option.some.inj (hstart.symm.trans hstart₃))
  rw [hafter₂] at halarm₃
  -- the alarm has the time set left
  obtain ⟨hbrun, hleft, hopt, hcallback, hperiod⟩ := Alarm.start_store (hkept hstored) halarm₃
  obtain ⟨u', trace₃, hrun₃, hmap₃, -, halarms₃⟩ := ht.run ops₂
  obtain ⟨rfl, rfl⟩ := Prod.mk.inj (Option.some.inj (h₂.symm.trans hrun₃))
  have hobeys₃ := (halarms₃ p).2
  generalize alarmAt t.tmrTime (t.tmrTbl p) = b at hbrun hleft hopt hcallback hperiod hobeys₃
  rw [← hmap₃] at hleaves₂
  have hpos : 1 ≤ (nstTimeValue value).toNat := by
    have hvalue := nstTimeValue_ne_zero value
    rw [← ticks_of_ne_zero hvalue]
    exact Nat.succ_le_succ (Nat.zero_le _)
  have hbused : b.state ≠ .unused := by
    rw [hbrun]
    exact TmrState.noConfusion
  have hcalls := (Alarm.leaves hbused hleaves₂ hobeys₃).2 k hk
  obtain ⟨state₄, left₄, hpass₄, -⟩ := b.iterate_pass k
  have hkeeps : (Alarm.pass^[k] b).callback = (s.tmrTbl p).tmrCallback := by
    rw [hpass₄]
    refine hcallback.trans ?_
    rw [← ha]
    rfl
  have hopt' : b.opt = (s.tmrTbl p).tmrOpt := by
    rw [hopt, ← ha]
    rfl
  rw [← hopt] at hperiod
  rw [exists_call_iff, hcalls, Alarm.calls_ne_nil_iff, hkeeps,
    Alarm.due_pass_iff hbrun hleft hpos hperiod k, hopt']

theorem nst_timer_is_exact_twenty :
    ∃ s t u trace₁ trace₂ r,
      run osTmrInit [.create 0 0 .periodic (some 1) 7] = some (s, trace₁) ∧
      osTmrStart (nstStore s ⟨0, by decide⟩ 20) ⟨0, by decide⟩ = some (t, r) ∧
      run t [.tick fun _ => [], .tick fun _ => []] = some (u, trace₂) ∧
      ∃ h : 1 < (tickCalls trace₂).length, ∃ c ∈ (tickCalls trace₂)[1], c.ptmr = ⟨0, by decide⟩ :=
  ⟨_, _, _, _, _, _, rfl, rfl, rfl, by decide,
    (@nst_timer_is_exact ⟨0, by decide⟩ [.create 0 0 .periodic (some 1) 7] []
      [.tick fun _ => [], .tick fun _ => []] _ _ _ _ _ _ _ 20 _ rfl (by decide) rfl
      (fun _ h => absurd h List.not_mem_nil) rfl rfl (by simp [Op.Leaves]) 1 (by decide)).2
      ⟨by decide, by decide⟩⟩

end NuAgent.Timer
