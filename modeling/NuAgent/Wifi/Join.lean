import Mathlib.Data.Int.Notation
import Mathlib.Tactic.SplitIfs
import NuAgent.Lib.Trace

/-!
# Waiting for the result of a join

Reference: `DRV_WiFi_StaModeConnStart` and `AppEvtCallBack` of `wifi_conn.c`.

The caller starts the Wi-Fi task, waits, stores the value 2 in `wifi_sta_connect_ap_flag` and polls
the flag until it is another value; then it reads the flag again for its result. The Wi-Fi task
delivers events through a callback that stores the result in the same flag. The machine interleaves
the steps of the caller with the callbacks and records the link and join events of the three windows
that matter: between the start and the store, between the store and the end of the loop, and between
the end of the loop and the last read.
-/

namespace NuAgent.Wifi

/-! ## The machine -/

/-- `SYS_EVT_ID`, as far as the callback tells events apart. -/
inductive SysEvt
  | linkUp
  | linkDown
  | joinFail
  | dhcpFail
  | scanDone
  | directCfgDone
  | other
deriving DecidableEq

/-- The events that decide a join. -/
def SysEvt.Decides (e : SysEvt) : Prop := e = .linkUp ∨ e = .joinFail

instance : DecidablePred SysEvt.Decides := fun e =>
  inferInstanceAs (Decidable (e = .linkUp ∨ e = .joinFail))

/-- Where the caller is. -/
inductive JoinPoint
  /-- `InfWiFiStop`, the delay and the parameters. -/
  | stop
  /-- The call of `InfWiFiStart`. -/
  | start
  /-- `OSTimeDly(10)` after the start. -/
  | delay
  /-- `wifi_sta_connect_ap_flag = 2`. -/
  | store
  /-- The test of the loop. -/
  | poll
  /-- `OSTimeDly(10)` in the loop. -/
  | sleep
  /-- `if (wifi_sta_connect_ap_flag == 1)`. -/
  | result
  | returned (r : ℤ)
  /-- `BSP_ChipReset` has been called. -/
  | reset
deriving DecidableEq

/-- The variables of `wifi_conn.c`, the caller, and the deciding events of the three windows. -/
structure Join where
  point : JoinPoint
  /-- `wifi_sta_connect_ap_flag`. -/
  flag : UInt8
  /-- `DirectCfgFlag`. -/
  directCfgFlag : ℤ
  /-- `link_status`, the last event. -/
  linkStatus : Option SysEvt
  /-- `sys_status.status == SYS_STATUS_WIFI_SOFTAP`. -/
  softAp : Bool
  early : List SysEvt
  late : List SysEvt
  after : List SysEvt

/-- The steps of the two parties. -/
inductive JoinEvent
  | caller
  | callback (e : SysEvt)
  /-- Another task changes `sys_status.status`. -/
  | status (softAp : Bool)

/-- The switch of `AppEvtCallBack`. -/
def Join.dispatch (j : Join) : SysEvt → Join
  | .linkUp => { j with directCfgFlag := 1, flag := 1 }
  | .joinFail => { j with flag := 0, point := if j.softAp then .reset else j.point }
  | .directCfgDone => { j with directCfgFlag := 1 }
  | _ => j

/-- A deciding event is recorded in the window that the caller is in. -/
def Join.record (j : Join) (e : SysEvt) : Join :=
  if e.Decides then
    match j.point with
    | .delay | .store => { j with early := j.early ++ [e] }
    | .poll | .sleep => { j with late := j.late ++ [e] }
    | .result => { j with after := j.after ++ [e] }
    | _ => j
  else j

/-- `AppEvtCallBack`; nothing runs after a reset. -/
def Join.appEvtCallBack (j : Join) (e : SysEvt) : Join :=
  if j.point = .reset then j else { (j.record e).dispatch e with linkStatus := some e }

/-- One step of `DRV_WiFi_StaModeConnStart`. -/
def Join.call (j : Join) : Join :=
  match j.point with
  | .stop => { j with point := .start }
  | .start => { j with point := .delay }
  | .delay => { j with point := .store }
  | .store => { j with flag := 2, point := .poll }
  | .poll => if j.flag = 2 then { j with point := .sleep } else { j with point := .result }
  | .sleep => { j with point := .poll }
  | .result => { j with point := .returned (if j.flag = 1 then 0 else -1) }
  | .returned _ => j
  | .reset => j

/-- One step of either party. -/
def Join.step (j : Join) : JoinEvent → Join
  | .caller => j.call
  | .callback e => j.appEvtCallBack e
  | .status softAp => { j with softAp := softAp }

/-- A call that begins with the variables as they are. -/
def Join.init (flag : UInt8) (directCfgFlag : ℤ) (linkStatus : Option SysEvt) (softAp : Bool) :
    Join :=
  { point := .stop
    flag := flag
    directCfgFlag := directCfgFlag
    linkStatus := linkStatus
    softAp := softAp
    early := []
    late := []
    after := [] }

/-- The call after a run. -/
def Join.run (j : Join) (evs : List JoinEvent) : Join := Trace.run Join.step j evs

/-! ## What a run keeps -/

/-- The flag as the events of a window leave it, when it was 2 before them. -/
def flagAfter (evts : List SysEvt) : UInt8 :=
  match evts.getLast? with
  | none => 2
  | some .linkUp => 1
  | some _ => 0

theorem flagAfter_concat (evts : List SysEvt) (e : SysEvt) :
    flagAfter (evts ++ [e]) = if e = .linkUp then 1 else 0 := by
  rw [flagAfter, List.getLast?_concat]
  cases e <;> rfl

theorem flagAfter_eq_two_iff (evts : List SysEvt) : flagAfter evts = 2 ↔ evts = [] := by
  rcases List.eq_nil_or_concat evts with rfl | ⟨evts, e, rfl⟩
  · exact ⟨fun _ => rfl, fun _ => rfl⟩
  · rw [List.concat_eq_append, flagAfter_concat]
    split_ifs <;> simp

theorem flagAfter_eq_one_iff (evts : List SysEvt) :
    flagAfter evts = 1 ↔ evts.getLast? = some .linkUp := by
  rcases List.eq_nil_or_concat evts with rfl | ⟨evts, e, rfl⟩
  · simp [flagAfter]
  · rw [List.concat_eq_append, flagAfter_concat, List.getLast?_concat]
    split_ifs with he <;> simp [he]

/-- What holds at each point: from the store on, the flag is what the events since then left. -/
def Join.AtPoint (j : Join) : Prop :=
  match j.point with
  | .stop | .start => j.early = [] ∧ j.late = [] ∧ j.after = []
  | .delay | .store => j.late = [] ∧ j.after = []
  | .poll | .sleep => j.flag = flagAfter j.late ∧ j.after = []
  | .result => j.late ≠ [] ∧ j.flag = flagAfter (j.late ++ j.after)
  | .returned r => j.late ≠ [] ∧ (r = 0 ↔ flagAfter (j.late ++ j.after) = 1)
  | .reset => True

/-- The invariant: what holds at the caller's point, and only deciding events are recorded. -/
structure Join.Inv (j : Join) : Prop where
  atPoint : j.AtPoint
  decides : ∀ e ∈ j.late ++ j.after, e.Decides

/-- The caller records nothing. -/
theorem Join.call_windows (j : Join) :
    j.call.early = j.early ∧ j.call.late = j.late ∧ j.call.after = j.after := by
  unfold Join.call
  split <;> try split_ifs
  all_goals exact ⟨rfl, rfl, rfl⟩

theorem Join.Inv.call {j : Join} (h : j.Inv) : j.call.Inv := by
  obtain ⟨hat, hdec⟩ := h
  obtain ⟨-, hlate, hafter⟩ := j.call_windows
  refine ⟨?_, by rw [hlate, hafter]; exact hdec⟩
  cases hp : j.point <;> simp only [AtPoint, hp] at hat <;> simp only [Join.call, hp]
  case stop => exact hat
  case start => exact hat.2
  case delay => exact hat
  case store => exact ⟨by rw [hat.1]; rfl, hat.2⟩
  case poll =>
    obtain ⟨hflag, hafter⟩ := hat
    split_ifs with htwo
    · exact ⟨hflag, hafter⟩
    · rw [hflag, flagAfter_eq_two_iff] at htwo
      exact ⟨htwo, by rw [hafter, List.append_nil]; exact hflag⟩
  case sleep => exact hat
  case result =>
    obtain ⟨hlate, hflag⟩ := hat
    refine ⟨hlate, ?_⟩
    rw [← hflag]
    split_ifs with hone <;> simp [hone]
  case returned r => simpa only [AtPoint, hp] using hat
  case reset => simp only [AtPoint, hp]

/-- A deciding event sets the flag, whatever it was. -/
theorem Join.dispatch_flag (j : Join) {e : SysEvt} (he : e.Decides) (evts : List SysEvt) :
    (j.dispatch e).flag = flagAfter (evts ++ [e]) := by
  rw [flagAfter_concat]
  rcases he with rfl | rfl <;> rfl

/-- Other events leave the flag and the caller alone. -/
theorem Join.appEvtCallBack_of_not {j : Join} {e : SysEvt} (he : ¬ e.Decides) :
    (j.appEvtCallBack e).point = j.point ∧ (j.appEvtCallBack e).flag = j.flag ∧
      (j.appEvtCallBack e).early = j.early ∧ (j.appEvtCallBack e).late = j.late ∧
      (j.appEvtCallBack e).after = j.after := by
  unfold appEvtCallBack record
  rw [if_neg he]
  split_ifs
  · exact ⟨rfl, rfl, rfl, rfl, rfl⟩
  · cases e <;> first
      | exact ⟨rfl, rfl, rfl, rfl, rfl⟩
      | exact absurd (by decide) he

theorem Join.record_point (j : Join) (e : SysEvt) : (j.record e).point = j.point := by
  unfold record
  split_ifs
  · split <;> rfl
  · rfl

/-- A deciding event is taken by the flag and by the caller's window, and a soft AP that fails
resets the chip. -/
theorem Join.appEvtCallBack_of_decides {j : Join} {e : SysEvt} (he : e.Decides)
    (hp : j.point ≠ .reset) :
    ((j.appEvtCallBack e).point = .reset ∨ (j.appEvtCallBack e).point = j.point) ∧
      (∀ evts, (j.appEvtCallBack e).flag = flagAfter (evts ++ [e])) ∧
      (j.appEvtCallBack e).early = (j.record e).early ∧
      (j.appEvtCallBack e).late = (j.record e).late ∧
      (j.appEvtCallBack e).after = (j.record e).after := by
  have hpoint := j.record_point e
  unfold appEvtCallBack
  rw [if_neg hp]
  refine ⟨?_, fun evts => (j.record e).dispatch_flag he evts, ?_⟩
  · rcases he with rfl | rfl
    · exact .inr hpoint
    · simp only [dispatch]
      split_ifs
      · exact .inl rfl
      · exact .inr hpoint
  · rcases he with rfl | rfl <;> exact ⟨rfl, rfl, rfl⟩

theorem Join.record_decides {j : Join} (h : ∀ d ∈ j.late ++ j.after, d.Decides) (e : SysEvt) :
    ∀ d ∈ (j.record e).late ++ (j.record e).after, d.Decides := by
  have hconcat : ∀ {xs ys : List SysEvt}, (∀ d ∈ xs ++ ys, d.Decides) → e.Decides →
      (∀ d ∈ xs ++ [e] ++ ys, d.Decides) ∧ ∀ d ∈ xs ++ (ys ++ [e]), d.Decides := by
    intro xs ys hxy he
    simp only [List.mem_append, List.mem_singleton] at hxy ⊢
    refine ⟨fun d hd => ?_, fun d hd => ?_⟩
    · rcases hd with (hd | rfl) | hd
      exacts [hxy d (.inl hd), he, hxy d (.inr hd)]
    · rcases hd with hd | hd | rfl
      exacts [hxy d (.inl hd), hxy d (.inr hd), he]
  unfold record
  split_ifs with he
  · split
    exacts [h, h, (hconcat h he).1, (hconcat h he).1, (hconcat h he).2, h]
  · exact h

theorem Join.Inv.appEvtCallBack {j : Join} (h : j.Inv) (e : SysEvt) :
    (j.appEvtCallBack e).Inv := by
  obtain ⟨hat, hdec⟩ := h
  by_cases hreset : j.point = .reset
  · rw [Join.appEvtCallBack, if_pos hreset]
    exact ⟨hat, hdec⟩
  by_cases he : e.Decides
  · obtain ⟨hpoint, hflag, hearly, hlate, hafter⟩ := appEvtCallBack_of_decides he hreset
    refine ⟨?_, by rw [hlate, hafter]; exact record_decides hdec e⟩
    rcases hpoint with hpoint | hpoint
    · simp only [AtPoint, hpoint]
    · unfold AtPoint
      rw [hpoint, hearly, hlate, hafter]
      cases hp : j.point <;> simp only [AtPoint, hp] at hat <;>
        simp only [record, if_pos he, hp]
      case stop => exact hat
      case start => exact hat
      case delay => exact hat
      case store => exact hat
      case poll => exact ⟨hflag _, hat.2⟩
      case sleep => exact ⟨hflag _, hat.2⟩
      case result =>
        refine ⟨hat.1, ?_⟩
        rw [← List.append_assoc]
        exact hflag _
      case returned r => exact hat
  · obtain ⟨hpoint, hflag, hearly, hlate, hafter⟩ := appEvtCallBack_of_not (j := j) he
    refine ⟨?_, by rw [hlate, hafter]; exact hdec⟩
    unfold AtPoint
    rw [hpoint, hflag, hearly, hlate, hafter]
    exact hat

theorem Join.Inv.step {j : Join} (h : j.Inv) (e : JoinEvent) : (j.step e).Inv := by
  cases e with
  | caller => exact h.call
  | callback e => exact h.appEvtCallBack e
  | status softAp => exact ⟨h.atPoint, h.decides⟩

theorem Join.Inv.run {j : Join} (h : j.Inv) (evs : List JoinEvent) : (j.run evs).Inv := by
  have hstep : ∀ (j : Join) e, j.Inv → (j.step e).Inv := fun _ e h => h.step e
  exact Trace.run_inv hstep h evs

/-! ## The result -/

/-- At the test of the loop an event since the start is missed exactly when all such events came
before the store. -/
theorem Join.Inv.poll_iff {j : Join} (h : j.Inv) (hp : j.point = .poll) :
    (j.early ++ j.late ≠ [] → j.flag ≠ 2) ↔ (j.late = [] → j.early = []) := by
  have hat := h.atPoint
  simp only [AtPoint, hp] at hat
  have hflag : j.flag ≠ 2 ↔ j.late ≠ [] := by rw [hat.1, Ne, flagAfter_eq_two_iff]
  rw [hflag]
  constructor
  · intro hseen hlate
    by_contra hearly
    exact hseen (by simp [hearly]) hlate
  · intro hcond hseen hlate
    exact hseen (by rw [hcond hlate, hlate]; rfl)

/-- A window that is not empty ends with a deciding event. -/
theorem exists_last {evts : List SysEvt} (hne : evts ≠ []) (hdec : ∀ e ∈ evts, e.Decides) :
    evts.getLast? = some .linkUp ∨ evts.getLast? = some .joinFail := by
  obtain ⟨e, he⟩ := Option.isSome_iff_exists.mp (List.getLast?_isSome.mpr hne)
  rcases hdec e (List.mem_of_getLast? he) with rfl | rfl
  exacts [.inl he, .inr he]

theorem getLast?_append_of_ne {α : Type*} (xs : List α) {ys : List α} (h : ys ≠ []) :
    (xs ++ ys).getLast? = ys.getLast? := by
  rw [List.getLast?_append, Option.or_of_isSome]
  rw [List.getLast?_isSome]
  exact h

/-- The result is that of the last event before the end of the loop exactly when no later event, or
one of the same kind, came before the last read. -/
theorem Join.Inv.result_iff {j : Join} (h : j.Inv) {r : ℤ} (hp : j.point = .returned r) :
    (r = 0 ↔ (j.early ++ j.late).getLast? = some .linkUp) ↔
      j.after = [] ∨ j.after.getLast? = j.late.getLast? := by
  have hat := h.atPoint
  simp only [AtPoint, hp] at hat
  obtain ⟨hlate, hr⟩ := hat
  rw [hr, flagAfter_eq_one_iff, getLast?_append_of_ne _ hlate]
  by_cases hafter : j.after = []
  · simp [hafter]
  · rw [getLast?_append_of_ne _ hafter]
    have hlast := exists_last hafter fun e he => h.decides e (List.mem_append_right _ he)
    have hlast' := exists_last hlate fun e he => h.decides e (List.mem_append_left _ he)
    rcases hlast with hlast | hlast <;> rcases hlast' with hlast' | hlast' <;>
      simp [hafter, hlast, hlast']

/-- **When a join result is kept.** Whatever the flags before the call and whatever the
interleaving, no poll misses an event delivered since `InfWiFiStart` and the result is that of the
last such event before the end of the loop, exactly when at each poll without an event since the
store there was none before the store either, and no event of the other kind was the last to fall
between the end of the loop and the last read. -/
theorem join_result (flag : UInt8) (directCfgFlag : ℤ) (linkStatus : Option SysEvt) (softAp : Bool)
    (evs : List JoinEvent) :
    let j := Join.init flag directCfgFlag linkStatus softAp
    ((∀ pre post, evs = pre ++ .caller :: post → (j.run pre).point = .poll →
        (j.run pre).early ++ (j.run pre).late ≠ [] → (j.run pre).flag ≠ 2) ∧
      ∀ r, (j.run evs).point = .returned r →
        (r = 0 ↔ ((j.run evs).early ++ (j.run evs).late).getLast? = some .linkUp)) ↔
    ((∀ pre post, evs = pre ++ .caller :: post → (j.run pre).point = .poll →
        (j.run pre).late = [] → (j.run pre).early = []) ∧
      ∀ r, (j.run evs).point = .returned r →
        (j.run evs).after = [] ∨ (j.run evs).after.getLast? = (j.run evs).late.getLast?) := by
  intro j
  have hinit : j.Inv := ⟨⟨rfl, rfl, rfl⟩, by simp [j, Join.init]⟩
  have hinv : ∀ evs, (j.run evs).Inv := hinit.run
  refine and_congr ?_ ?_
  · exact forall_congr' fun pre => forall_congr' fun post => imp_congr_right fun _ =>
      forall_congr' fun hp => (hinv pre).poll_iff hp
  · exact forall_congr' fun r => forall_congr' fun hp => (hinv evs).result_iff hp

/-- An event between the start and the store is overwritten, and without another event the caller
polls for ever. -/
theorem join_lost :
    let j := Join.init 0 0 none false
    let evs : List JoinEvent := [.caller, .caller, .callback .linkUp, .caller, .caller]
    (j.run evs).point = .poll ∧ (j.run evs).early = [.linkUp] ∧ (j.run evs).flag = 2 ∧
      ∀ n, (j.run (evs ++ List.replicate n .caller)).point = .poll ∨
        (j.run (evs ++ List.replicate n .caller)).point = .sleep := by
  intro j evs
  refine ⟨rfl, rfl, rfl, fun n => ?_⟩
  have hpolls : ∀ (n : ℕ) (j : Join), j.flag = 2 → j.point = .poll ∨ j.point = .sleep →
      (j.run (List.replicate n .caller)).point = .poll ∨
        (j.run (List.replicate n .caller)).point = .sleep := by
    intro n
    induction n with
    | zero => exact fun j _ hp => hp
    | succ n ih =>
      rintro j hflag (hp | hp)
      · have hcall : j.call = { j with point := .sleep } := by simp [Join.call, hp, hflag]
        have hrest := ih j.call (by rw [hcall]; exact hflag) (.inr (by rw [hcall]))
        exact hrest
      · have hcall : j.call = { j with point := .poll } := by simp [Join.call, hp]
        have hrest := ih j.call (by rw [hcall]; exact hflag) (.inl (by rw [hcall]))
        exact hrest
  rw [Join.run, Trace.run_append]
  exact hpolls n _ rfl (.inl rfl)

end NuAgent.Wifi
