import NuAgent.Lib.Serial
import NuAgent.Ring.Fifo

/-!
# The simulated UART's transmitter

Reference: `App/NuAgent/Device/simu_uart.c`, the functions `simu_uart_tx_init`, `SimuUartOutPut` and
`SimuSendOneByte`.

A tick of timer 1 calls `SimuUartOutPut`, which drives the output pin. Bytes wait in a ring buffer.
A tick has no result when it reads outside the ring buffer's storage.
-/

namespace NuAgent.Uart

open NuAgent.Ring Serial

/-! ## The model -/

/-- `SIMU_UART_SEND_BUF_SIZE`. -/
def simuUartSendBufSize : ℕ := 1024

/-- The transmitter: `byte_status`, `SimuUartTxBuf`, the level of the output pin and whether the
interrupt of timer 1 is masked. -/
structure SimuTx where
  byte : UInt8
  bit : UInt8
  overFlag : UInt8
  txBuf : RingBuffer
  line : Bool
  tmr1Masked : Bool
deriving DecidableEq, Repr

/-- `simu_uart_tx_init`, with the block `OSMMalloc` returned. -/
def simuUartTxInit (block : Option (List UInt8)) (tmr1Masked : Bool) : SimuTx where
  byte := 0
  bit := 0
  overFlag := 0
  txBuf := (ringBufAlloc block simuUartSendBufSize).2
  line := true
  tmr1Masked := tmr1Masked

/-- `SimuUartOutPut`. -/
def simuUartOutPut (s : SimuTx) : Option SimuTx :=
  if s.overFlag != 0 then
    let s :=
      if s.bit == 0 then { s with line := false }
      else if s.bit < 9 then
        if s.byte >>> (s.bit - 1) &&& 1 != 0 then { s with line := true }
        else { s with line := false }
      else { s with line := true, overFlag := 0 }
    some { s with bit := s.bit + 1 }
  else if !ringBufEmpty s.txBuf then do
    -- the line keeps its level while a byte is fetched
    let (txBuf, out, _) ← ringBufRead s.txBuf 1
    some { s with txBuf := txBuf, byte := out.headD s.byte, bit := 0, overFlag := 1 }
  else some { s with line := true, tmr1Masked := true }

/-- `SimuSendOneByte`. -/
def simuSendOneByte (s : SimuTx) (ch : UInt8) : Option SimuTx := do
  let (txBuf, _) ← ringBufWriteChar s.txBuf ch
  some { s with txBuf := txBuf }

/-- Queueing one byte after the other. -/
def sendBytes : SimuTx → List UInt8 → Option SimuTx
  | s, [] => some s
  | s, b :: bs => (simuSendOneByte s b).bind fun s' => sendBytes s' bs

/-- Successive ticks of timer 1, with the level of the pin after each. -/
def ticks : SimuTx → ℕ → Option (SimuTx × List Bool)
  | s, 0 => some (s, [])
  | s, n + 1 => do
      let s ← simuUartOutPut s
      let (s', levels) ← ticks s n
      some (s', s.line :: levels)

/-! ## The transmitter at rest -/

/-- Between two frames, with the queue `q` in the ring buffer. -/
structure SimuTx.Rest (s : SimuTx) (q : List UInt8) : Prop where
  over_eq : s.overFlag = 0
  high : s.line = true
  size_eq : s.txBuf.size = simuUartSendBufSize
  stored : ∃ mem, Layout s.txBuf mem q

theorem rest_init {block : List UInt8} (hblock : block.length = simuUartSendBufSize)
    (masked : Bool) : (simuUartTxInit (some block) masked).Rest [] where
  over_eq := rfl
  high := rfl
  size_eq := rfl
  stored := ⟨block, Layout.alloc hblock (by decide) (by decide)⟩

section
variable {s : SimuTx} {q : List UInt8}

/-- A byte that fits is queued. -/
theorem SimuTx.Rest.queueOne (h : s.Rest q) (b : UInt8)
    (hfit : q.length < simuUartSendBufSize - 1) :
    ∃ s', simuSendOneByte s b = some s' ∧ s'.Rest (q ++ [b]) := by
  obtain ⟨mem, hlay⟩ := h.stored
  obtain ⟨ring', mem', hwrite, hsize, hlay'⟩ := hlay.writeChar b
  rw [h.size_eq, if_pos hfit] at hlay'
  refine ⟨{ s with txBuf := ring' }, ?_, h.over_eq, h.high, hsize.trans h.size_eq, mem', hlay'⟩
  simp only [simuSendOneByte, hwrite, Option.bind_eq_bind, Option.bind_some]

/-- Bytes that fit are queued in order. -/
theorem SimuTx.Rest.queue (h : s.Rest q) (bytes : List UInt8)
    (hfit : q.length + bytes.length ≤ simuUartSendBufSize - 1) :
    ∃ s', sendBytes s bytes = some s' ∧ s'.Rest (q ++ bytes) := by
  induction bytes generalizing s q with
  | nil => exact ⟨s, rfl, by rwa [List.append_nil]⟩
  | cons b bs ih =>
    rw [List.length_cons] at hfit
    obtain ⟨s₁, hone, hrest₁⟩ := h.queueOne b (by omega)
    have hlen : (q ++ [b]).length = q.length + 1 := List.length_append
    obtain ⟨s₂, hmany, hrest₂⟩ := ih hrest₁ (by omega)
    refine ⟨s₂, ?_, by rwa [List.append_assoc] at hrest₂⟩
    rw [sendBytes, hone, Option.bind_some, hmany]

/-- A tick between two frames fetches the next byte and leaves the line high. -/
theorem SimuTx.Rest.fetch {b : UInt8} (h : s.Rest (b :: q)) :
    ∃ txBuf mem, simuUartOutPut s
        = some { s with txBuf := txBuf, byte := b, bit := 0, overFlag := 1 } ∧
      txBuf.size = simuUartSendBufSize ∧ Layout txBuf mem q := by
  obtain ⟨mem, hlay⟩ := h.stored
  have hempty : ringBufEmpty s.txBuf = false := by
    rw [Bool.eq_false_iff]
    intro he
    exact List.cons_ne_nil b q (hlay.empty_iff.mp he)
  obtain ⟨txBuf, hread, hsize, hlay'⟩ := hlay.readLoop [] 1 0
  have hone : min (1 : ℤ).toNat (b :: q).length = 1 := by
    rw [List.length_cons, Int.toNat_one]
    omega
  rw [hone] at hread hlay'
  refine ⟨txBuf, mem, ?_, hsize.trans h.size_eq, hlay'⟩
  simp [simuUartOutPut, h.over_eq, hempty, ringBufRead, hread]

/-- A tick with an empty queue leaves the transmitter at rest. -/
theorem SimuTx.Rest.idle (h : s.Rest []) :
    ∃ s', simuUartOutPut s = some s' ∧ s'.line = true ∧ s'.Rest [] := by
  obtain ⟨mem, hlay⟩ := h.stored
  have hempty := hlay.empty_iff.mpr rfl
  refine ⟨{ s with line := true, tmr1Masked := true }, ?_, rfl, h.over_eq, rfl, h.size_eq, mem, hlay⟩
  simp [simuUartOutPut, h.over_eq, hempty]

end

/-! ## The levels of one frame -/

/-- The first of several ticks. -/
theorem ticks_succ {s s' : SimuTx} (h : simuUartOutPut s = some s') (n : ℕ) :
    ticks s (n + 1) = (ticks s' n).map fun r => (r.1, s'.line :: r.2) := by
  rw [ticks, h]
  simp only [Option.bind_eq_bind, Option.bind_some]
  cases ticks s' n <;> rfl

section
variable {s : SimuTx}

theorem outPut_start (hover : s.overFlag = 1) (hbit : s.bit = 0) :
    simuUartOutPut s = some { s with line := false, bit := 1 } := by
  simp [simuUartOutPut, hover, hbit]

theorem outPut_data (hover : s.overFlag = 1) {i : ℕ} (hi : i < 8)
    (hbit : s.bit = UInt8.ofNat (i + 1)) :
    simuUartOutPut s
      = some { s with line := s.byte.toNat.testBit i, bit := UInt8.ofNat (i + 2) } := by
  have hcount : ∀ i < 8, (UInt8.ofNat (i + 1) == 0) = false ∧ UInt8.ofNat (i + 1) < 9 ∧
      UInt8.ofNat (i + 1) - 1 = UInt8.ofNat i ∧
      UInt8.ofNat (i + 1) + 1 = UInt8.ofNat (i + 2) := by
    decide
  obtain ⟨hne, hlt, hpred, hsucc⟩ := hcount i hi
  rw [← hsucc]
  simp only [simuUartOutPut, hover, hbit, hne, hlt, hpred, shiftRight_and_one s.byte hi]
  cases s.byte.toNat.testBit i <;> rfl

theorem outPut_stop (hover : s.overFlag = 1) (hbit : s.bit = 9) :
    simuUartOutPut s = some { s with line := true, overFlag := 0, bit := 10 } := by
  simp [simuUartOutPut, hover, hbit]

/-- The ticks from data bit `i` to the stop bit. -/
theorem ticks_data (hover : s.overFlag = 1) {i k : ℕ} (hik : i + k = 8)
    (hbit : s.bit = UInt8.ofNat (i + 1)) (n : ℕ) :
    ticks s (n + 1 + k)
      = (ticks { s with line := true, overFlag := 0, bit := 10 } n).map fun r =>
          (r.1, (List.range' i k).map s.byte.toNat.testBit ++ (true :: r.2)) := by
  induction k generalizing s i with
  | zero =>
    have h9 : s.bit = 9 := by
      rw [hbit, show i = 8 by omega]
      rfl
    exact ticks_succ (outPut_stop hover h9) n
  | succ k ih =>
    rw [← Nat.add_assoc, ticks_succ (outPut_data hover (by omega) hbit),
      ih (s := { s with line := s.byte.toNat.testBit i, bit := UInt8.ofNat (i + 2) }) (i := i + 1)
        hover (by omega) rfl, Option.map_map]
    rfl

/-- The ticks of one frame. -/
theorem ticks_frame (hover : s.overFlag = 1) (hbit : s.bit = 0) (n : ℕ) :
    ticks s (n + 10)
      = (ticks { s with line := true, overFlag := 0, bit := 10 } n).map fun r =>
          (r.1, frame s.byte ++ r.2) := by
  rw [ticks_succ (n := n + 9) (outPut_start hover hbit),
    ticks_data (s := { s with line := false, bit := 1 }) hover (i := 0) (k := 8) rfl rfl,
    Option.map_map]
  simp only [frame, dataBits, List.range_eq_range', List.cons_append, List.append_assoc,
    List.nil_append]
  rfl

end

/-! ## Sending a queue -/

section
variable {s : SimuTx} {q : List UInt8}

/-- Eleven ticks send the first byte of the queue: one fetches it, the others are its frame. -/
theorem SimuTx.Rest.sendFrame {b : UInt8} (h : s.Rest (b :: q)) :
    ∃ s', s'.Rest q ∧ ∀ n, ticks s (n + 11)
      = (ticks s' n).map fun r => (r.1, true :: (frame b ++ r.2)) := by
  obtain ⟨txBuf, mem, hfetch, hsize, hlay⟩ := h.fetch
  refine ⟨{ s with txBuf := txBuf, byte := b, bit := 10, overFlag := 0, line := true },
    ⟨rfl, rfl, hsize, mem, hlay⟩, fun n => ?_⟩
  rw [ticks_succ (n := n + 10) hfetch, ticks_frame rfl rfl, Option.map_map]
  simp only [Function.comp_def, h.high]

/-- Ticks with an empty queue. -/
theorem SimuTx.Rest.ticks_idle (h : s.Rest []) (n : ℕ) :
    ∃ s', ticks s n = some (s', List.replicate n true) ∧ s'.Rest [] := by
  induction n generalizing s with
  | zero => exact ⟨s, rfl, h⟩
  | succ n ih =>
    obtain ⟨s₁, hout, hline, hrest₁⟩ := h.idle
    obtain ⟨s₂, hticks, hrest₂⟩ := ih hrest₁
    refine ⟨s₂, ?_, hrest₂⟩
    rw [ticks_succ hout, hticks, Option.map_some, hline, List.replicate_succ]

/-- Ticks until the queue is sent, and `m` more. -/
theorem SimuTx.Rest.ticks_queue (h : s.Rest q) (m : ℕ) :
    ∃ s', ticks s (m + 11 * q.length) = some (s', wave (q.map fun b => (1, b)) m) ∧
      s'.Rest [] := by
  induction q generalizing s with
  | nil => exact h.ticks_idle m
  | cons b q ih =>
    obtain ⟨s₁, hrest₁, hframe⟩ := h.sendFrame
    obtain ⟨s₂, hticks, hrest₂⟩ := ih hrest₁
    refine ⟨s₂, ?_, hrest₂⟩
    rw [List.length_cons, Nat.mul_succ, ← Nat.add_assoc, hframe, hticks, Option.map_some,
      List.map_cons, wave_cons]
    rfl

end

end NuAgent.Uart
