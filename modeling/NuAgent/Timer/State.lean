import Mathlib.Data.UInt
import NuAgent.Lib.NullList

/-!
# The kernel's software timers

Reference: `uCOS-II/os_tmr.c` and the timer functions of `Sys/util.c`.

A timer is an entry of `OSTmrTbl`, and a running one hangs in the spoke `OSTmrMatch % 8` of the wheel, a
doubly linked list. A function is `none` when it would follow a null pointer. `OS_ARG_CHK_EN` is 0, and
the calls come from tasks and callbacks, so `OSIntNesting` is 0. What a callback does with the timers is
an argument of the function that calls it.
-/

namespace NuAgent.Timer

open DList NullList

/-- `OS_TMR_CFG_MAX`. -/
def osTmrCfgMax : ℕ := 16

/-- `OS_TMR_CFG_WHEEL_SIZE`. -/
def osTmrCfgWheelSize : UInt32 := 8

/-- `OS_TMR *`, other than null. -/
abbrev TmrPtr := Fin osTmrCfgMax

/-- `OS_TMR_STATE_*`. -/
inductive TmrState
  | unused
  | stopped
  | completed
  | running
deriving DecidableEq, Repr

/-- `OS_TMR_OPT_*`. -/
inductive TmrOpt
  | none
  | oneShot
  | periodic
  | callback
  | callbackArg
  | other (opt : UInt8)
deriving DecidableEq, Repr

/-- `OS_ERR_*`. -/
inductive TmrErr
  | none
  | nonAvail
  | inactive
  | stopped
  | noCallback
  | invalidOpt
deriving DecidableEq, Repr

/-- `OS_TMR`, without its pointers; a callback is the address of a function. -/
structure Tmr where
  tmrState : TmrState
  tmrOpt : TmrOpt
  tmrDly : UInt32
  tmrPeriod : UInt32
  tmrMatch : UInt32
  tmrCallback : Option ℕ
  tmrCallbackArg : ℕ
deriving DecidableEq, Repr

/-- The timers, the wheel and the list of the free ones. -/
structure Timers where
  tmrTbl : TmrPtr → Tmr
  links : Links TmrPtr
  tmrFirst : ℕ → Option TmrPtr
  tmrEntries : ℕ → UInt16
  tmrFreeList : Option TmrPtr
  tmrUsed : UInt16
  tmrFree : UInt16
  tmrTime : UInt32

/-- A callback that is called, with its arguments. -/
structure Callback where
  ptmr : TmrPtr
  pfnct : ℕ
  arg : ℕ
deriving DecidableEq, Repr

/-- The fields of one timer, written. -/
def Timers.put (s : Timers) (ptmr : TmrPtr) (t : Tmr) : Timers :=
  { s with tmrTbl := Function.update s.tmrTbl ptmr t }

/-- `OSTmr_Init`. -/
def osTmrInit : Timers where
  tmrTbl _ := ⟨.unused, .none, 0, 0, 0, none, 0⟩
  links :=
    { pprev := fun _ => none
      pnext := fun p => if h : p.val + 1 < osTmrCfgMax then some ⟨p.val + 1, h⟩ else none }
  tmrFirst _ := none
  tmrEntries _ := 0
  tmrFreeList := some ⟨0, by decide⟩
  tmrUsed := 0
  tmrFree := 16
  tmrTime := 0

/-- The spoke of a timer. -/
def spoke (tmrMatch : UInt32) : ℕ := (tmrMatch % osTmrCfgWheelSize).toNat

/-- `OSTmr_Alloc`. -/
def osTmrAlloc (s : Timers) : Option (TmrPtr × Timers) :=
  s.tmrFreeList.map fun ptmr =>
    (ptmr,
      { s with
        tmrFreeList := s.links.pnext ptmr
        links := (s.links.setPnext ptmr none).setPprev ptmr none
        tmrUsed := s.tmrUsed + 1
        tmrFree := s.tmrFree - 1 })

/-- `OSTmr_Free`. -/
def osTmrFree (s : Timers) (ptmr : TmrPtr) : Timers :=
  let s := s.put ptmr
    { s.tmrTbl ptmr with
      tmrState := .unused
      tmrOpt := .none
      tmrPeriod := 0
      tmrMatch := 0
      tmrCallback := none
      tmrCallbackArg := 0 }
  { s with
    links := (s.links.setPprev ptmr none).setPnext ptmr s.tmrFreeList
    tmrFreeList := some ptmr
    tmrUsed := s.tmrUsed - 1
    tmrFree := s.tmrFree + 1 }

/-- The match that `OSTmr_Link` computes; `periodic` is `OS_TMR_LINK_PERIODIC`. -/
def linkMatch (s : Timers) (ptmr : TmrPtr) (periodic : Bool) : UInt32 :=
  let t := s.tmrTbl ptmr
  if periodic then t.tmrPeriod + s.tmrTime
  else if t.tmrDly = 0 then t.tmrPeriod + s.tmrTime
  else t.tmrDly + s.tmrTime

/-- The links that `OSTmr_Link` stores, in spoke `i`. -/
def linkSpoke (s : Timers) (ptmr : TmrPtr) (i : ℕ) : Timers :=
  match s.tmrFirst i with
  | none =>
    { s with
      tmrFirst := Function.update s.tmrFirst i (some ptmr)
      tmrEntries := Function.update s.tmrEntries i 1
      links := (s.links.setPnext ptmr none).setPprev ptmr none }
  | some ptmr1 =>
    { s with
      tmrFirst := Function.update s.tmrFirst i (some ptmr)
      tmrEntries := Function.update s.tmrEntries i (s.tmrEntries i + 1)
      links := ((s.links.setPnext ptmr (some ptmr1)).setPprev ptmr1 (some ptmr)).setPprev ptmr
        none }

/-- `OSTmr_Link`. -/
def osTmrLink (s : Timers) (ptmr : TmrPtr) (periodic : Bool) : Timers :=
  let tmrMatch := linkMatch s ptmr periodic
  linkSpoke (s.put ptmr { s.tmrTbl ptmr with tmrState := .running, tmrMatch }) ptmr
    (spoke tmrMatch)

/-- `OSTmr_Unlink`. -/
def osTmrUnlink (s : Timers) (ptmr : TmrPtr) : Option Timers := do
  let i := spoke (s.tmrTbl ptmr).tmrMatch
  let s ←
    if s.tmrFirst i = some ptmr then
      let ptmr1 := s.links.pnext ptmr
      some
        { s with
          tmrFirst := Function.update s.tmrFirst i ptmr1
          links := setPrev s.links ptmr1 none }
    else do
      let ptmr1 ← s.links.pprev ptmr
      let ptmr2 := s.links.pnext ptmr
      some { s with links := setPrev (s.links.setPnext ptmr1 ptmr2) ptmr2 (some ptmr1) }
  let s := s.put ptmr { s.tmrTbl ptmr with tmrState := .stopped }
  some
    { s with
      links := (s.links.setPnext ptmr none).setPprev ptmr none
      tmrEntries := Function.update s.tmrEntries i (s.tmrEntries i - 1) }

/-- `OSTmrCreate`. -/
def osTmrCreate (s : Timers) (dly period : UInt32) (opt : TmrOpt) (callback : Option ℕ)
    (callbackArg : ℕ) : Timers × Option TmrPtr × TmrErr :=
  match osTmrAlloc s with
  | none => (s, none, .nonAvail)
  | some (ptmr, s) =>
    (s.put ptmr
      { s.tmrTbl ptmr with
        tmrState := .stopped
        tmrDly := dly
        tmrPeriod := period
        tmrOpt := opt
        tmrCallback := callback
        tmrCallbackArg := callbackArg }, some ptmr, .none)

/-- `OSTmrDel`. -/
def osTmrDel (s : Timers) (ptmr : TmrPtr) : Option (Timers × Bool × TmrErr) :=
  match (s.tmrTbl ptmr).tmrState with
  | .running => do
    let s ← osTmrUnlink s ptmr
    some (osTmrFree s ptmr, true, .none)
  | .stopped => some (osTmrFree s ptmr, true, .none)
  | .completed => some (osTmrFree s ptmr, true, .none)
  | .unused => some (s, false, .inactive)

/-- `OSTmrStart`. -/
def osTmrStart (s : Timers) (ptmr : TmrPtr) : Option (Timers × Bool × TmrErr) :=
  match (s.tmrTbl ptmr).tmrState with
  | .running => do
    let s ← osTmrUnlink s ptmr
    some (osTmrLink s ptmr false, true, .none)
  | .stopped => some (osTmrLink s ptmr false, true, .none)
  | .completed => some (osTmrLink s ptmr false, true, .none)
  | .unused => some (s, false, .inactive)

/-- The branches of `OSTmrStop` that call the callback, with the argument `arg`; `run` is what it does. -/
def stopCallback (s : Timers) (ptmr : TmrPtr) (arg : ℕ) (run : Timers → Option Timers) :
    Option (Timers × Bool × TmrErr × List Callback) :=
  match (s.tmrTbl ptmr).tmrCallback with
  | some pfnct => do
    let s ← run s
    some (s, true, .none, [⟨ptmr, pfnct, arg⟩])
  | none => some (s, true, .noCallback, [])

/-- `OSTmrStop`. -/
def osTmrStop (s : Timers) (ptmr : TmrPtr) (opt : TmrOpt) (callbackArg : ℕ)
    (run : Timers → Option Timers) : Option (Timers × Bool × TmrErr × List Callback) :=
  match (s.tmrTbl ptmr).tmrState with
  | .running => do
    let s ← osTmrUnlink s ptmr
    match opt with
    | .callback => stopCallback s ptmr (s.tmrTbl ptmr).tmrCallbackArg run
    | .callbackArg => stopCallback s ptmr callbackArg run
    | .none => some (s, true, .none, [])
    | _ => some (s, true, .invalidOpt, [])
  | .completed => some (s, true, .stopped, [])
  | .stopped => some (s, true, .stopped, [])
  | .unused => some (s, false, .inactive, [])

/-- `OSTmrRemainGet`. -/
def osTmrRemainGet (s : Timers) (ptmr : TmrPtr) : UInt32 × TmrErr :=
  let t := s.tmrTbl ptmr
  match t.tmrState with
  | .running => (t.tmrMatch - s.tmrTime, .none)
  | .stopped =>
    if t.tmrOpt = .periodic then
      if t.tmrDly = 0 then (t.tmrPeriod, .none) else (t.tmrDly, .none)
    else (t.tmrDly, .none)
  | .completed => (0, .none)
  | .unused => (0, .inactive)

/-- The turn of the loop in `OSTmr_Task` for the timer `ptmr`, and the callback it calls. -/
def osTmrTaskTurn (run : TmrPtr → Timers → Option Timers) (s : Timers) (ptmr : TmrPtr) :
    Option (Timers × List Callback) :=
  if s.tmrTime = (s.tmrTbl ptmr).tmrMatch then do
    let s ← osTmrUnlink s ptmr
    let s :=
      if (s.tmrTbl ptmr).tmrOpt = .periodic then osTmrLink s ptmr true
      else s.put ptmr { s.tmrTbl ptmr with tmrState := .completed }
    let t := s.tmrTbl ptmr
    match t.tmrCallback with
    | some pfnct => do
      let s ← run ptmr s
      some (s, [⟨ptmr, pfnct, t.tmrCallbackArg⟩])
    | none => some (s, [])
  else some (s, [])

/-- The loop over a spoke, at most `n` turns of it. -/
def osTmrTaskLoop (run : TmrPtr → Timers → Option Timers) :
    ℕ → Option TmrPtr → Timers → Option (Timers × List Callback)
  | _, none, s => some (s, [])
  | 0, some _, _ => none
  | n + 1, some ptmr, s => do
    let next := s.links.pnext ptmr
    let (s, called) ← osTmrTaskTurn run s ptmr
    let (s, later) ← osTmrTaskLoop run n next s
    some (s, called ++ later)

/-- `OSTmr_Task`, from one signal to the next, and the callbacks it calls. -/
def osTmrTask (run : TmrPtr → Timers → Option Timers) (s : Timers) :
    Option (Timers × List Callback) :=
  let s := { s with tmrTime := s.tmrTime + 1 }
  osTmrTaskLoop run osTmrCfgMax (s.tmrFirst (spoke s.tmrTime)) s

/-! ## The functions of `util.c` -/

/-- `TimeValue` of `NST_SetTimer`, in ticks. -/
def nstTimeValue (value : UInt32) : UInt32 :=
  let timeValue := value * 100 / 1000
  if timeValue = 0 then 1 else timeValue

/-- The stores of `NST_SetTimer`, in front of `OSTmrStart`. -/
def nstStore (s : Timers) (ptmr : TmrPtr) (value : UInt32) : Timers :=
  let timeValue := nstTimeValue value
  let t := s.tmrTbl ptmr
  if t.tmrOpt = .periodic then s.put ptmr { t with tmrPeriod := timeValue, tmrDly := 0 }
  else s.put ptmr { t with tmrPeriod := 0, tmrDly := timeValue }

/-- `NST_InitTimer`, on the variable `pTimer`. -/
def nstInitTimer (s : Timers) (pTimer : Option TmrPtr) (timerFunc : Option ℕ) (pData : ℕ)
    (repeats : Bool) : Timers × Option TmrPtr :=
  match pTimer with
  | some ptmr => (s, some ptmr)
  | none =>
    let (s, ptmr, _) := osTmrCreate s 0 0 (if repeats then .periodic else .oneShot) timerFunc pData
    (s, ptmr)

/-- `NST_SetTimer`, when no task comes between its stores and `OSTmrStart`. -/
def nstSetTimer (s : Timers) (pTimer : Option TmrPtr) (value : UInt32) : Option Timers :=
  match pTimer with
  | none => some s
  | some ptmr => (osTmrStart (nstStore s ptmr value) ptmr).map (·.1)

/-- `NST_CancelTimer`. -/
def nstCancelTimer (s : Timers) (pTimer : Option TmrPtr) : Option (Timers × Option Bool) :=
  match pTimer with
  | none => some (s, none)
  | some ptmr => (osTmrStop s ptmr .none 0 some).map fun r => (r.1, some r.2.1)

/-- `NST_DelTimer`: the variable is null afterwards. -/
def nstDelTimer (s : Timers) (pTimer : Option TmrPtr) :
    Option (Timers × Option TmrPtr × Option Bool) :=
  match pTimer with
  | none => some (s, none, none)
  | some ptmr => (osTmrDel s ptmr).map fun r => (r.1, none, some r.2.1)

/-- `NST_ModTimer`. -/
def nstModTimer (s : Timers) (pTimer : Option TmrPtr) (value : UInt32) : Option Timers := do
  let (s, _) ← nstCancelTimer s pTimer
  nstSetTimer s pTimer value

end NuAgent.Timer
