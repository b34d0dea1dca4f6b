import NuAgent.Uart.Tx

/-!
# The simulated UART's receiver

Reference: `App/NuAgent/Device/simu_uart.c`, the functions `simu_uart_timer_task` and
`Simu_UartIRQ_Func`; `BSP/exti.c` and the GPIO registers of `BSP/board.h`.

Time is counted in half bits: `SIMU_UART_Baudrate` is two of them and `SIMU_UART_Baudrate/2` one.
Writing `Tmr0Load` starts a new count, and at its end the timer starts again with the last value
written. The edge interrupt fires at a falling edge while it is enabled; other edges are lost.

`Simu_UartIRQ_Func` ends the interrupt before it asks for its status. Whether the status register
still shows the pin then is up to the port, and a parameter `eoiKeeps` here; the comment on
`GPIO_PORTA_EOI` says that the interrupt is cleared.
-/

namespace NuAgent.Uart

open Serial

/-! ## The model -/

/-- The receiver: the variables of the source, whether the pin's interrupt is enabled, timer 0 with
the half bits left until it expires, and the arguments of the calls of `uart_data_recv` so far. -/
structure SimuRx where
  dataCnt : ℕ
  byte : UInt8
  recvStopFlag : Bool
  bytesCnt : ℕ
  irqEnabled : Bool
  tmr0On : Bool
  tmr0Load : ℕ
  tmr0Left : ℕ
  received : List UInt8
deriving DecidableEq, Repr

/-- The receiver after `simu_uart_rx_init`. -/
def simuUartRxInit : SimuRx where
  dataCnt := 1
  byte := 0
  recvStopFlag := true
  bytesCnt := 0
  irqEnabled := true
  tmr0On := false
  tmr0Load := 0
  tmr0Left := 0
  received := []

/-- Loading timer 0 and letting it run. -/
def SimuRx.startTmr0 (s : SimuRx) (load : ℕ) : SimuRx :=
  { s with tmr0On := true, tmr0Load := load, tmr0Left := load }

/-- `simu_uart_timer_task` at the level `gpio`: its result and the state. -/
def simuUartTimerTask (gpio : Bool) (s : SimuRx) : ℤ × SimuRx :=
  if s.recvStopFlag then (0, s)
  else if s.dataCnt == 0 then
    if gpio then (-1, { s with recvStopFlag := true, irqEnabled := true })
    else (0, { s with byte := 0, dataCnt := s.dataCnt + 1 }.startTmr0 2)
  else if s.dataCnt ≤ 8 then
    (0, { s with byte := shiftIn s.byte gpio, dataCnt := s.dataCnt + 1 }.startTmr0 2)
  else
    let s := if gpio then { s with received := s.received ++ [s.byte] } else s
    -- a low stop bit drops the byte, but it is counted
    let s := { s with dataCnt := 0, bytesCnt := s.bytesCnt + 1 }
    if s.bytesCnt > 8 then
      -- only the masked timer stops the sampling: the flag stays clear
      (0, { s with
        recvStopFlag := false
        bytesCnt := 0
        dataCnt := 0
        irqEnabled := true
        tmr0On := false })
    else (0, s)

/-- `EXTI_ClearITPendingBit`: what `G_INT_STATUS` shows for the line after `PORTA_EOI` is
written. -/
def extiClearITPendingBit (eoiKeeps intStatus : Bool) : Bool := intStatus && eoiKeeps

/-- `EXTI_GetITStatus`, from the line's bits of `G_INT_ENA` and `G_INT_STATUS`. -/
def extiGetITStatus (intEna intStatus : Bool) : Bool := intEna && intStatus

/-- `Simu_UartIRQ_Func` at the level `gpio`; the line is enabled and its interrupt pending. -/
def simuUartIRQFunc (eoiKeeps gpio : Bool) (s : SimuRx) : SimuRx :=
  let intStatus := extiClearITPendingBit eoiKeeps true
  let s := { s with irqEnabled := false }
  if extiGetITStatus true intStatus && !gpio then
    { s with bytesCnt := 0, dataCnt := 0, recvStopFlag := false }.startTmr0 1
  else { s with irqEnabled := true, tmr0On := false }

/-- Half a bit time at the level `gpio`, at the end of which timer 0 may expire. -/
def halfBit (gpio : Bool) (s : SimuRx) : SimuRx :=
  if s.tmr0On then
    if s.tmr0Left ≤ 1 then (simuUartTimerTask gpio { s with tmr0Left := s.tmr0Load }).2
    else { s with tmr0Left := s.tmr0Left - 1 }
  else s

/-- One bit time at the level `gpio` after one at the level `prev`. -/
def bitTime (eoiKeeps prev gpio : Bool) (s : SimuRx) : SimuRx :=
  let s := if prev && !gpio && s.irqEnabled then simuUartIRQFunc eoiKeeps gpio s else s
  halfBit gpio (halfBit gpio s)

/-- The receiver on a line with the given levels, one for each bit time, that was at `prev`. -/
def receive (eoiKeeps : Bool) : Bool → SimuRx → List Bool → SimuRx
  | _, s, [] => s
  | prev, s, gpio :: levels => receive eoiKeeps gpio (bitTime eoiKeeps prev gpio s) levels

/-! ## One bit time -/

/-- Between two bits of a byte, or between two frames without an idle bit time: the timer expires in
the middle of the next bit and the interrupt is off. -/
def sampling (dataCnt : ℕ) (byte : UInt8) (bytesCnt : ℕ) (received : List UInt8) : SimuRx where
  dataCnt := dataCnt
  byte := byte
  recvStopFlag := false
  bytesCnt := bytesCnt
  irqEnabled := false
  tmr0On := true
  tmr0Load := 2
  tmr0Left := 1
  received := received

/-- The interrupt is on and the timer's task does nothing. -/
def SimuRx.Stopped (s : SimuRx) : Prop := s.irqEnabled = true ∧ s.recvStopFlag = true

/-- Waiting for a falling edge: the timer's task does nothing or the timer is off. -/
def SimuRx.Waiting (s : SimuRx) : Prop :=
  s.irqEnabled = true ∧ (s.recvStopFlag = true ∨ s.tmr0On = false)

/-- Ready for a frame. After at most eight bytes the receiver may also expect the next start bit
without an edge. -/
def SimuRx.Ready (s : SimuRx) : Prop :=
  s.Waiting ∨ ∃ byte, ∃ n ≤ 8, ∃ received, s = sampling 0 byte n received

theorem stopped_init : simuUartRxInit.Stopped := ⟨rfl, rfl⟩

theorem ready_init : simuUartRxInit.Ready := .inl ⟨rfl, .inl rfl⟩

section
variable {s : SimuRx} {eoiKeeps prev : Bool} {byte : UInt8} {d n : ℕ} {received : List UInt8}

/-- A timer that expires while the receiver is stopped changes nothing. -/
theorem SimuRx.Stopped.halfBit (h : s.Stopped) (gpio : Bool) :
    (halfBit gpio s).Stopped ∧ (halfBit gpio s).received = s.received := by
  obtain ⟨hirq, hstop⟩ := h
  unfold Uart.halfBit
  split_ifs
  · simp [simuUartTimerTask, hstop, Stopped, hirq]
  · exact ⟨⟨hirq, hstop⟩, rfl⟩
  · exact ⟨⟨hirq, hstop⟩, rfl⟩

theorem SimuRx.Waiting.halfBit (h : s.Waiting) (gpio : Bool) :
    (halfBit gpio s).Waiting ∧ (halfBit gpio s).received = s.received := by
  obtain ⟨hirq, hstop | hoff⟩ := h
  · obtain ⟨⟨hirq', hstop'⟩, hrec⟩ := SimuRx.Stopped.halfBit ⟨hirq, hstop⟩ gpio
    exact ⟨⟨hirq', .inl hstop'⟩, hrec⟩
  · rw [Uart.halfBit, hoff]
    exact ⟨⟨hirq, .inr hoff⟩, rfl⟩

/-- An idle bit time does not end the waiting. -/
theorem SimuRx.Waiting.idle (h : s.Waiting) :
    (bitTime eoiKeeps true true s).Waiting ∧
      (bitTime eoiKeeps true true s).received = s.received := by
  obtain ⟨hfirst, hrec⟩ := h.halfBit true
  obtain ⟨hsecond, hrec'⟩ := hfirst.halfBit true
  exact ⟨hsecond, hrec'.trans hrec⟩

/-- The falling edge of a start bit arms the timer, which then samples the start bit. -/
theorem SimuRx.Waiting.start (h : s.Waiting) :
    bitTime true true false s = sampling 1 0 0 s.received := by
  simp [bitTime, h.1, simuUartIRQFunc, extiClearITPendingBit, extiGetITStatus, SimuRx.startTmr0,
    Uart.halfBit, simuUartTimerTask, sampling]

/-- A start bit without an idle bit time before it is sampled without an edge. -/
theorem bitTime_start :
    bitTime eoiKeeps true false (sampling 0 byte n received) = sampling 1 0 n received := by
  simp [bitTime, SimuRx.startTmr0, halfBit, simuUartTimerTask, sampling]

/-- An idle bit time where a start bit was expected arms the interrupt again. -/
theorem bitTime_missed :
    (bitTime eoiKeeps true true (sampling 0 byte n received)).Waiting ∧
      (bitTime eoiKeeps true true (sampling 0 byte n received)).received = received := by
  simp [bitTime, halfBit, simuUartTimerTask, sampling, SimuRx.Waiting]

/-- A data bit is shifted in, whatever edge it begins with. -/
theorem bitTime_data (h1 : 1 ≤ d) (h8 : d ≤ 8) (gpio : Bool) :
    bitTime eoiKeeps prev gpio (sampling d byte n received)
      = sampling (d + 1) (shiftIn byte gpio) n received := by
  have hne : d ≠ 0 := by omega
  simp [bitTime, SimuRx.startTmr0, halfBit, simuUartTimerTask, sampling, hne, h8]

/-- The stop bit hands the byte over; after nine bytes the receiver waits for an edge again. -/
theorem bitTime_stop (eoiKeeps prev : Bool) (byte : UInt8) (received : List UInt8) (hn : n ≤ 8) :
    (bitTime eoiKeeps prev true (sampling 9 byte n received)).Ready ∧
      (bitTime eoiKeeps prev true (sampling 9 byte n received)).received
        = received ++ [byte] := by
  rcases Nat.lt_or_ge n 8 with hlt | hge
  · have hnext : bitTime eoiKeeps prev true (sampling 9 byte n received)
        = sampling 0 byte (n + 1) (received ++ [byte]) := by
      have hle : ¬ 8 < n + 1 := by omega
      simp [bitTime, halfBit, simuUartTimerTask, sampling, hle]
    rw [hnext]
    exact ⟨.inr ⟨byte, n + 1, by omega, _, rfl⟩, rfl⟩
  · have heq : n = 8 := by omega
    subst heq
    refine ⟨.inl ?_, ?_⟩ <;>
      simp [bitTime, halfBit, simuUartTimerTask, sampling, SimuRx.Waiting]

end

/-! ## Whole waveforms -/

section
variable {s : SimuRx}

/-- The data bits of a frame are shifted in one after the other. -/
theorem receive_data (eoiKeeps prev : Bool) (bits : List Bool) {d : ℕ} (byte : UInt8) (n : ℕ)
    (received : List UInt8) (h1 : 1 ≤ d) (h9 : d + bits.length ≤ 9) :
    ∃ last, ∀ rest, receive eoiKeeps prev (sampling d byte n received) (bits ++ rest)
      = receive eoiKeeps last
          (sampling (d + bits.length) (bits.foldl shiftIn byte) n received) rest := by
  induction bits generalizing prev d byte with
  | nil => exact ⟨prev, fun _ => rfl⟩
  | cons gpio bits ih =>
    rw [List.length_cons] at h9
    obtain ⟨last, hlast⟩ := ih gpio (d := d + 1) (shiftIn byte gpio) (by omega) (by omega)
    refine ⟨last, fun rest => ?_⟩
    rw [List.cons_append, receive, bitTime_data h1 (by omega), hlast, List.length_cons,
      Nat.add_assoc, Nat.add_comm 1]
    rfl

/-- A frame after its start bit. -/
theorem receive_afterStart (eoiKeeps : Bool) (b : UInt8) {n : ℕ} (hn : n ≤ 8)
    (received : List UInt8) :
    ∃ s' : SimuRx, s'.Ready ∧ s'.received = received ++ [b] ∧
      ∀ rest, receive eoiKeeps false (sampling 1 0 n received) (dataBits b ++ true :: rest)
        = receive eoiKeeps true s' rest := by
  have hlen := length_dataBits b
  obtain ⟨last, hdata⟩ := receive_data eoiKeeps false (dataBits b) 0 n received (d := 1)
    (by omega) (by omega)
  rw [hlen, foldl_shiftIn_dataBits] at hdata
  obtain ⟨hready, hrec⟩ := bitTime_stop eoiKeeps last b received hn
  exact ⟨_, hready, hrec, fun rest => hdata (true :: rest)⟩

/-- A frame after a high line hands its byte over once. -/
theorem SimuRx.Ready.frame (h : s.Ready) (b : UInt8) :
    ∃ s' : SimuRx, s'.Ready ∧ s'.received = s.received ++ [b] ∧
      ∀ rest, receive true true s (Serial.frame b ++ rest) = receive true true s' rest := by
  -- the start bit is caught by the edge interrupt or by the timer that goes on sampling
  obtain hwait | ⟨byte, n, hn, received, rfl⟩ := h
  · obtain ⟨s', hready, hrec, hrest⟩ := receive_afterStart true b (Nat.zero_le 8) s.received
    refine ⟨s', hready, hrec, fun rest => ?_⟩
    rw [← hrest, Serial.frame, List.cons_append, receive, hwait.start, List.append_assoc]
    rfl
  · obtain ⟨s', hready, hrec, hrest⟩ := receive_afterStart true b hn received
    refine ⟨s', hready, hrec, fun rest => ?_⟩
    rw [← hrest, Serial.frame, List.cons_append, receive, bitTime_start, List.append_assoc]
    rfl

/-- Idle bit times hand nothing over. -/
theorem SimuRx.Ready.idle (h : s.Ready) (eoiKeeps : Bool) (k : ℕ) :
    ∃ s' : SimuRx, s'.Ready ∧ s'.received = s.received ∧
      ∀ rest, receive eoiKeeps true s (List.replicate k true ++ rest)
        = receive eoiKeeps true s' rest := by
  induction k generalizing s with
  | zero => exact ⟨s, h, rfl, fun _ => rfl⟩
  | succ k ih =>
    have hone : (bitTime eoiKeeps true true s).Waiting ∧
        (bitTime eoiKeeps true true s).received = s.received := by
      obtain hwait | ⟨byte, n, -, received, rfl⟩ := h
      · exact hwait.idle
      · exact bitTime_missed
    obtain ⟨s', hready, hrec, hrest⟩ := ih (.inl hone.1)
    exact ⟨s', hready, hrec.trans hone.2, hrest⟩

/-- **Every frame is received once, in order.** -/
theorem SimuRx.Ready.wave (h : s.Ready) (frames : List (ℕ × UInt8)) (trailing : ℕ) :
    (receive true true s (Serial.wave frames trailing)).received
      = s.received ++ frames.map Prod.snd := by
  -- `Ready` holds again after every frame, so the frames can be received one by one
  induction frames generalizing s with
  | nil =>
    obtain ⟨s', -, hrec, hrest⟩ := h.idle true trailing
    have hall := hrest []
    rw [List.append_nil] at hall
    rw [wave_nil, hall, List.map_nil, List.append_nil]
    exact hrec
  | cons f frames ih =>
    obtain ⟨s₁, hready₁, hrec₁, hrest₁⟩ := h.idle true f.1
    obtain ⟨s₂, hready₂, hrec₂, hrest₂⟩ := hready₁.frame f.2
    rw [wave_cons, hrest₁, hrest₂, ih hready₂, hrec₂, hrec₁, List.append_assoc]
    rfl

/-! ## A port that clears the status -/

/-- When the port clears the status, a falling edge is dismissed. -/
theorem SimuRx.Stopped.irq (h : s.Stopped) (gpio : Bool) :
    (simuUartIRQFunc false gpio s).Stopped ∧
      (simuUartIRQFunc false gpio s).received = s.received := by
  simp [simuUartIRQFunc, extiClearITPendingBit, extiGetITStatus, Stopped, h.2]

theorem SimuRx.Stopped.bitTime (h : s.Stopped) (prev gpio : Bool) :
    (bitTime false prev gpio s).Stopped ∧ (bitTime false prev gpio s).received = s.received := by
  have hedge : (if prev && !gpio && s.irqEnabled then simuUartIRQFunc false gpio s else s).Stopped ∧
      (if prev && !gpio && s.irqEnabled then simuUartIRQFunc false gpio s else s).received
        = s.received := by
    split
    · exact h.irq gpio
    · exact ⟨h, rfl⟩
  obtain ⟨hfirst, hrec⟩ := hedge.1.halfBit gpio
  obtain ⟨hsecond, hrec'⟩ := hfirst.halfBit gpio
  exact ⟨hsecond, hrec'.trans (hrec.trans hedge.2)⟩

/-- When the port clears the status, nothing is ever received. -/
theorem SimuRx.Stopped.receive (h : s.Stopped) (prev : Bool) (levels : List Bool) :
    (receive false prev s levels).received = s.received := by
  induction levels generalizing s prev with
  | nil => rfl
  | cons gpio levels ih =>
    obtain ⟨hstop, hrec⟩ := h.bitTime prev gpio
    exact (ih hstop gpio).trans hrec

end

/-! ## The loopback -/

/-- The levels of `bytes` sent from the ring buffer and `m` ticks more: a tick that fetches the
first byte, and for each byte its frame and a tick that fetches the next one or finds the queue
empty. -/
def txLevels (bytes : List UInt8) (m : ℕ) : List Bool :=
  true :: bytes.flatMap (fun b => frame b ++ [true]) ++ List.replicate m true

/-- The fetching ticks are idle bit times before each frame and after the last. -/
theorem txLevels_eq_wave (bytes : List UInt8) (m : ℕ) :
    txLevels bytes m = wave (bytes.map fun b => (1, b)) (m + 1) := by
  unfold txLevels
  induction bytes with
  | nil => rfl
  | cons b bytes ih =>
    rw [List.map_cons, wave_cons, ← ih]
    simp [List.append_assoc]

/-- What the two ends of a line promise each other: queued bytes leave `tx` as the levels
`txLevels`, after which it is at rest again; a receiver gets these bytes from these levels; and it
gets the bytes of any other frames, whatever the idle bit times before each of them. -/
def Loopback (eoiKeeps : Bool) (tx : SimuTx) (bytes : List UInt8) (m : ℕ)
    (frames : List (ℕ × UInt8)) (trailing : ℕ) : Prop :=
  (∃ queued tx', sendBytes tx bytes = some queued ∧
    ticks queued (m + 1 + 11 * bytes.length) = some (tx', txLevels bytes m) ∧ tx'.Rest []) ∧
  (receive eoiKeeps true simuUartRxInit (txLevels bytes m)).received = bytes ∧
  (receive eoiKeeps true simuUartRxInit (wave frames trailing)).received = frames.map Prod.snd

/-- The transmitter's part, for bytes that fit in the ring buffer. -/
theorem SimuTx.Rest.send {tx : SimuTx} (h : tx.Rest []) (bytes : List UInt8)
    (hfit : bytes.length ≤ simuUartSendBufSize - 1) (m : ℕ) :
    ∃ queued tx', sendBytes tx bytes = some queued ∧
      ticks queued (m + 1 + 11 * bytes.length) = some (tx', txLevels bytes m) ∧
      tx'.Rest [] := by
  obtain ⟨queued, hsend, hqueued⟩ := h.queue bytes (by rwa [List.length_nil, Nat.zero_add])
  obtain ⟨tx', hticks, hrest⟩ := SimuTx.Rest.ticks_queue hqueued (m + 1)
  rw [List.nil_append] at hticks
  exact ⟨queued, tx', hsend, by rw [hticks, txLevels_eq_wave], hrest⟩

/-- The receiver's part. Where the port keeps the status, every waveform of frames is received;
where it clears the status, none is. -/
theorem receive_wave (eoiKeeps : Bool) (frames : List (ℕ × UInt8)) (trailing : ℕ) :
    (receive eoiKeeps true simuUartRxInit (wave frames trailing)).received
      = if eoiKeeps then frames.map Prod.snd else [] := by
  cases eoiKeeps with
  | false => exact stopped_init.receive true _
  | true => exact ready_init.wave frames trailing

/-- **The loopback works iff the port keeps the interrupt's status, or nothing is sent.** From every
transmitter at rest, in particular an initialised one, and for all bytes that fit in the ring buffer
and all other frames. -/
theorem uart_loopback_iff (eoiKeeps : Bool) (tx : SimuTx) (htx : tx.Rest []) (bytes : List UInt8)
    (hfit : bytes.length ≤ simuUartSendBufSize - 1) (m : ℕ) (frames : List (ℕ × UInt8))
    (trailing : ℕ) :
    Loopback eoiKeeps tx bytes m frames trailing
      ↔ eoiKeeps = true ∨ bytes = [] ∧ frames = [] := by
  have hsnd : (bytes.map fun b => (1, b)).map (Prod.snd : ℕ × UInt8 → UInt8) = bytes := by
    rw [List.map_map]
    exact List.map_id bytes
  unfold Loopback
  rw [txLevels_eq_wave, receive_wave, receive_wave, hsnd, ← txLevels_eq_wave]
  cases eoiKeeps with
  | true => simpa using htx.send bytes hfit m
  | false =>
    constructor
    · rintro ⟨-, hbytes, hframes⟩
      exact .inr ⟨hbytes.symm, List.map_eq_nil_iff.mp hframes.symm⟩
    · rintro (hkeeps | ⟨rfl, rfl⟩)
      · exact absurd hkeeps Bool.false_ne_true
      · exact ⟨htx.send [] hfit m, rfl, rfl⟩

/-- A transmitter that was just initialised. -/
def freshTx : SimuTx := simuUartTxInit (some (List.replicate simuUartSendBufSize 0)) true

theorem rest_freshTx : freshTx.Rest [] := rest_init List.length_replicate true

/-- `uart_loopback_iff` with a port that keeps the status, for two bytes and two frames back to
back. -/
theorem uart_loopback_two :
    Loopback true freshTx [0x41, 0x0a] 3 [(0, 0x55), (0, 0xff)] 0 :=
  (uart_loopback_iff true freshTx rest_freshTx [0x41, 0x0a] (by decide) 3 _ 0).mpr (.inl rfl)

/-- With a port that clears the status, as `board.h` says it does, one byte is not received. -/
theorem uart_loopback_cleared : ¬ Loopback false freshTx [0x41] 0 [] 0 := by
  rintro ⟨-, hreceived, -⟩
  rw [SimuRx.Stopped.receive stopped_init] at hreceived
  exact absurd hreceived (by decide)

end NuAgent.Uart
