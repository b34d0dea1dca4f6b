import NuAgent.Lib.TwoWire

/-!
# Reading an EEPROM over two GPIO pins

Reference: `App/NuAgent/Lib/simu_iic.c`.

The functions set the pins of a two-wire bus one after the other, and the memory on the bus reacts to
every change. A sequential read waits for an acknowledgement after each byte that it has itself
acknowledged, and stores its last byte behind the buffer.
-/

namespace NuAgent.Util

open Serial
open TwoWire

/-! ## The source -/

/-- `DeviceAddr`. -/
abbrev deviceAddr : UInt8 := 0xA0

/-- `AT24C02`. -/
abbrev at24c02 : ℕ := 255

/-- `EE_TYPE`, `AT24C08`. -/
abbrev eeType : ℕ := 1023

variable (d : Device)

/-- `IIC_Start`. -/
def iicStart (b : Bus) : Bus :=
  let b := b.setDrive true
  let b := (b.setOut true).setClock d true
  (b.setOut false).setClock d false

/-- `IIC_Stop`. -/
def iicStop (b : Bus) : Bus :=
  let b := b.setDrive true
  let b := (b.setClock d false).setOut false
  (b.setClock d true).setOut true

/-- The loop of `IIC_Wait_Ack`, with the reads of the pin that are left. -/
def waitAckLoop : ℕ → Bus → UInt8 × Bus
  | 0, b => (1, iicStop d b)
  | n + 1, b => if b.line then waitAckLoop n b else (0, b.setClock d false)

/-- `IIC_Wait_Ack`. -/
def iicWaitAck (b : Bus) : UInt8 × Bus :=
  waitAckLoop d 251 (((b.setDrive false).setOut true).setClock d true)

/-- `IIC_Ack`. -/
def iicAck (b : Bus) : Bus :=
  let b := (b.setClock d false).setDrive true
  ((b.setOut false).setClock d true).setClock d false

/-- `IIC_NAck`. -/
def iicNAck (b : Bus) : Bus :=
  let b := (b.setClock d false).setDrive true
  ((b.setOut true).setClock d true).setClock d false

/-- The loop of `IIC_Send_Byte`, with the bits that are left. -/
def sendLoop : ℕ → UInt8 → Bus → Bus
  | 0, _, b => b
  | t + 1, txd, b =>
      let b := b.setOut ((txd &&& 0x80) >>> 7 != 0)
      sendLoop t (txd <<< 1) ((b.setClock d true).setClock d false)

/-- `IIC_Send_Byte`. -/
def iicSendByte (txd : UInt8) (b : Bus) : Bus :=
  sendLoop d 8 txd ((b.setDrive true).setClock d false)

/-- The loop of `IIC_Read_Byte`, with the bits that are left. -/
def readLoop : ℕ → UInt8 → Bus → UInt8 × Bus
  | 0, receive, b => (receive, b)
  | i + 1, receive, b =>
      let b := (b.setClock d false).setClock d true
      readLoop i (if b.line then receive <<< 1 + 1 else receive <<< 1) b

/-- `IIC_Read_Byte`. -/
def iicReadByte (ack : UInt8) (b : Bus) : UInt8 × Bus :=
  let r := readLoop d 8 0 (b.setDrive false)
  (r.1, if ack = 0 then iicNAck d r.2 else iicAck d r.2)

/-- `SimuIIC_ReadOneByte`. -/
def simuIicReadOneByte (readAddr : UInt16) (b : Bus) : UInt8 × Bus :=
  let b := iicStart d b
  let b :=
    if eeType > at24c02 then
      let b := (iicWaitAck d (iicSendByte d deviceAddr b)).2
      iicSendByte d (readAddr >>> 8).toUInt8 b
    else iicSendByte d (deviceAddr + (readAddr / 256).toUInt8 <<< 1) b
  let b := (iicWaitAck d b).2
  let b := (iicWaitAck d (iicSendByte d (readAddr % 256).toUInt8 b)).2
  let b := iicStart d b
  let b := (iicWaitAck d (iicSendByte d (deviceAddr ||| 0x01) b)).2
  let r := iicReadByte d 0 b
  (r.1, iicStop d r.2)

/-- The loop of `SimuIIC_data_read` from `i` on, with the bytes that are left: what it stores in
`buf`, as pairs of an index and a byte, and the bus. -/
def dataReadLoop : ℕ → ℕ → Bus → List (ℕ × UInt8) × Bus
  | 0, _, b => ([], b)
  | n + 1, i, b =>
      let r := iicReadByte d 1 b
      let rest := dataReadLoop n (i + 1) (iicWaitAck d r.2).2
      ((i, r.1) :: rest.1, rest.2)

/-- What `SimuIIC_data_read` returns, what it stores in `buf`, and the bus. -/
structure DataRead where
  ret : ℕ
  stores : List (ℕ × UInt8)
  bus : Bus

/-- `SimuIIC_data_read`. -/
def simuIicDataRead (addr length : UInt32) (b : Bus) : DataRead :=
  let b := iicStart d b
  let b := (iicWaitAck d (iicSendByte d deviceAddr b)).2
  let b := (iicWaitAck d (iicSendByte d (addr >>> 8).toUInt8 b)).2
  let b := (iicWaitAck d (iicSendByte d (addr % 256).toUInt8 b)).2
  let b := iicStart d b
  let b := (iicWaitAck d (iicSendByte d (deviceAddr ||| 0x01) b)).2
  let n := (length - 1).toNat
  let r := dataReadLoop d n 0 b
  let i := n + 1
  let last := iicReadByte d 0 r.2
  { ret := i
    stores := r.1 ++ [(i, last.1)]
    bus := iicStop d last.2 }

/-! ## The memory on the bus -/

/-- The EEPROM with a content. -/
def eeprom (content : ℕ → UInt8) : Device := ⟨deviceAddr >>> 1, content⟩

variable {d}

theorem iicStart_quiet (ptr : ℕ) :
    iicStart d (Bus.quiet ptr) = ⟨false, false, true, ⟨.receive .device 0 0, ptr⟩⟩ := rfl

/-- A repeated start, with a byte expected. -/
theorem iicStart_again (what : What) (ptr : ℕ) :
    iicStart d ⟨false, true, false, ⟨.receive what 0 0, ptr⟩⟩ =
      ⟨false, false, true, ⟨.receive .device 0 0, ptr⟩⟩ := rfl

/-- A clock of a byte that is sent: the memory takes the bit in, and the byte with the last one. -/
theorem sendBit (what : What) (ptr count : ℕ) (shift : UInt8) (out bit : Bool) :
    ((Bus.setOut bit ⟨false, out, true, ⟨.receive what count shift, ptr⟩⟩).setClock d true).setClock
        d false =
      ⟨false, bit, true,
        if count = 7 then Slave.accept d ⟨.idle, ptr⟩ (shiftUp shift bit) what
        else ⟨.receive what (count + 1) (shiftUp shift bit), ptr⟩⟩ := by
  have haccept : ∀ s, Slave.accept d ⟨.receive what (count + 1) s, ptr⟩ s what =
      Slave.accept d ⟨.idle, ptr⟩ s what := by
    intro s
    cases what <;> rfl
  simp [Bus.setOut, Bus.setClock, Bus.watch, Bus.line, Slave.rise, Slave.fall, Slave.sda, haccept]

/-- The bits of a byte that are left are shifted in. -/
theorem sendLoop_receive (what : What) (ptr t : ℕ) :
    ∀ (count : ℕ) (txd shift : UInt8) (out : Bool), count + t = 7 →
      ∃ out', sendLoop d (t + 1) txd ⟨false, out, true, ⟨.receive what count shift, ptr⟩⟩ =
        ⟨false, out', true,
          Slave.accept d ⟨.idle, ptr⟩ ((topBits (t + 1) txd).foldl shiftUp shift) what⟩ := by
  induction t with
  | zero =>
    intro count txd shift out h
    rw [sendLoop, sendBit, if_pos (by omega), sendLoop, and_shiftRight_seven]
    exact ⟨_, rfl⟩
  | succ t ih =>
    intro count txd shift out h
    rw [sendLoop, sendBit, if_neg (by omega), and_shiftRight_seven, topBits, List.foldl_cons]
    exact ih (count + 1) _ _ _ (by omega)

/-- A byte that is sent is accepted. -/
theorem iicSendByte_receive (txd : UInt8) (what : What) (ptr : ℕ) (out drive : Bool) :
    ∃ out', iicSendByte d txd ⟨false, out, drive, ⟨.receive what 0 0, ptr⟩⟩ =
      ⟨false, out', true, Slave.accept d ⟨.idle, ptr⟩ txd what⟩ := by
  obtain ⟨out', h⟩ := sendLoop_receive (d := d) what ptr 7 0 txd 0 out rfl
  rw [foldl_shiftUp_topBits] at h
  exact ⟨out', h⟩

/-- What the memory does after its acknowledgement of a byte. -/
def next (content : ℕ → UInt8) (byte : UInt8) (ptr : ℕ) : What → Slave
  | .device =>
      if byte &&& 1 = 0 then ⟨.receive .high 0 0, ptr⟩ else ⟨.send (content ptr) 7, ptr⟩
  | .high => ⟨.receive .low 0 0, byte.toNat * 256⟩
  | .low => ⟨.receive .data 0 0, ptr + byte.toNat⟩
  | .data => ⟨.receive .data 0 0, ptr⟩

variable (content : ℕ → UInt8)

/-- A byte is sent and acknowledged; a device address has to be that of the memory. -/
theorem send_acknowledged (byte : UInt8) (what : What) (ptr : ℕ) (out drive : Bool)
    (h : what = .device → byte >>> 1 = deviceAddr >>> 1) :
    iicWaitAck (eeprom content)
        (iicSendByte (eeprom content) byte ⟨false, out, drive, ⟨.receive what 0 0, ptr⟩⟩) =
      (0, ⟨false, true, false, next content byte ptr what⟩) := by
  obtain ⟨out', hsend⟩ := iicSendByte_receive (d := eeprom content) byte what ptr out drive
  rw [hsend]
  cases what with
  | device =>
    by_cases hread : byte &&& 1 = 0
    all_goals
      simp only [Slave.accept, eeprom, if_pos (h rfl), hread, if_true, if_false, next]
      rfl
  | high => rfl
  | low => rfl
  | data => rfl

/-- The bus with a byte on it that the memory sends. -/
def sending (byte : UInt8) (left ptr : ℕ) : Bus := ⟨false, true, false, ⟨.send byte left, ptr⟩⟩

/-- The bus as a read begins: the memory was addressed, and shows the first bit. -/
theorem addressed (high low : UInt8) (ptr : ℕ) :
    (iicWaitAck (eeprom content) (iicSendByte (eeprom content) (deviceAddr ||| 0x01)
      (iicStart (eeprom content) (iicWaitAck (eeprom content) (iicSendByte (eeprom content) low
        (iicWaitAck (eeprom content) (iicSendByte (eeprom content) high
          (iicWaitAck (eeprom content) (iicSendByte (eeprom content) deviceAddr
            (iicStart (eeprom content) (Bus.quiet ptr)))).2)).2)).2))).2 =
      sending (content (high.toNat * 256 + low.toNat)) 7 (high.toNat * 256 + low.toNat) := by
  have hdevice : ∀ ptr out drive, iicWaitAck (eeprom content) (iicSendByte (eeprom content)
      deviceAddr ⟨false, out, drive, ⟨.receive .device 0 0, ptr⟩⟩) =
        (0, ⟨false, true, false, ⟨.receive .high 0 0, ptr⟩⟩) := fun ptr out drive =>
    send_acknowledged content deviceAddr .device ptr out drive fun _ => rfl
  have hhigh : ∀ ptr out drive, iicWaitAck (eeprom content) (iicSendByte (eeprom content)
      high ⟨false, out, drive, ⟨.receive .high 0 0, ptr⟩⟩) =
        (0, ⟨false, true, false, ⟨.receive .low 0 0, high.toNat * 256⟩⟩) := fun ptr out drive =>
    send_acknowledged content high .high ptr out drive fun h => by cases h
  have hlow : ∀ ptr out drive, iicWaitAck (eeprom content) (iicSendByte (eeprom content)
      low ⟨false, out, drive, ⟨.receive .low 0 0, ptr⟩⟩) =
        (0, ⟨false, true, false, ⟨.receive .data 0 0, ptr + low.toNat⟩⟩) := fun ptr out drive =>
    send_acknowledged content low .low ptr out drive fun h => by cases h
  have hread : ∀ ptr out drive, iicWaitAck (eeprom content) (iicSendByte (eeprom content)
      (deviceAddr ||| 0x01) ⟨false, out, drive, ⟨.receive .device 0 0, ptr⟩⟩) =
        (0, sending (content ptr) 7 ptr) := fun ptr out drive =>
    send_acknowledged content (deviceAddr ||| 0x01) .device ptr out drive fun _ => by decide
  simp only [iicStart_quiet, hdevice, hhigh, hlow, iicStart_again, hread]

/-- The bits from `left` down are read; the clock stays high behind the last one. -/
theorem readLoop_send (byte : UInt8) (ptr left : ℕ) :
    ∀ (receive : UInt8) (out : Bool) (b : Bus),
      b.setClock d false = ⟨false, out, false, ⟨.send byte left, ptr⟩⟩ →
        readLoop d (left + 1) receive b =
          ((bitsDown byte left).foldl shiftUp receive,
            ⟨true, out, false, ⟨.send byte 0, ptr⟩⟩) := by
  induction left with
  | zero =>
    intro receive out b h
    rw [readLoop, h]
    rfl
  | succ left ih =>
    intro receive out b h
    rw [readLoop, h]
    exact ih _ out ⟨true, out, false, ⟨.send byte (left + 1), ptr⟩⟩ rfl

/-- A byte that is read and not acknowledged ends the transfer. -/
theorem iicReadByte_last (byte : UInt8) (ptr : ℕ) :
    iicReadByte d 0 (sending byte 7 ptr) = (byte, ⟨false, true, true, ⟨.idle, ptr⟩⟩) := by
  have h := readLoop_send (d := d) byte ptr 7 0 true (sending byte 7 ptr) rfl
  rw [foldl_shiftUp_bitsDown] at h
  have hdrive : (sending byte 7 ptr).setDrive false = sending byte 7 ptr := rfl
  rw [iicReadByte, hdrive, h]
  rfl

/-- A byte that is read and acknowledged is followed by the first bit of the next one. -/
theorem iicReadByte_next (byte : UInt8) (ptr : ℕ) :
    iicReadByte (eeprom content) 1 (sending byte 7 ptr) =
      (byte, ⟨false, false, true, ⟨.send (content (ptr + 1)) 7, ptr + 1⟩⟩) := by
  have h := readLoop_send (d := eeprom content) byte ptr 7 0 true (sending byte 7 ptr) rfl
  rw [foldl_shiftUp_bitsDown] at h
  have hdrive : (sending byte 7 ptr).setDrive false = sending byte 7 ptr := rfl
  rw [iicReadByte, hdrive, h]
  rfl

theorem iicStop_idle (out drive : Bool) (ptr : ℕ) :
    iicStop d ⟨false, out, drive, ⟨.idle, ptr⟩⟩ = Bus.quiet ptr := by
  cases out <;> cases drive <;> rfl

/-- A single read returns the addressed byte and leaves the bus quiet. -/
theorem simuIicReadOneByte_spec (readAddr : UInt16) (ptr : ℕ) :
    simuIicReadOneByte (eeprom content) readAddr (Bus.quiet ptr) =
      (content readAddr.toNat, Bus.quiet readAddr.toNat) := by
  have haddr : (readAddr >>> 8).toUInt8.toNat * 256 + (readAddr % 256).toUInt8.toNat =
      readAddr.toNat := by
    have hlt := readAddr.toNat_lt
    rw [UInt16.toNat_toUInt8, UInt16.toNat_toUInt8, UInt16.toNat_shiftRight, UInt16.toNat_mod]
    have h8 : (8 : UInt16).toNat % 16 = 8 := rfl
    have h256 : (256 : UInt16).toNat = 256 := rfl
    rw [h8, h256, Nat.shiftRight_eq_div_pow]
    omega
  have htype : eeType > at24c02 := by decide
  simp only [simuIicReadOneByte, if_pos htype]
  rw [addressed, haddr, iicReadByte_last, iicStop_idle]

/-! ## Sequential reads -/

/-- The results of `n` calls of `SimuIIC_ReadOneByte` from `addr` on. -/
def singleReads (d : Device) : ℕ → UInt32 → Bus → List UInt8
  | 0, _, _ => []
  | n + 1, addr, b =>
      let r := simuIicReadOneByte d addr.toUInt16 b
      r.1 :: singleReads d n (addr + 1) r.2

/-- What the last store to `buf[i]` leaves there. -/
def lastStore (stores : List (ℕ × UInt8)) (i : ℕ) : Option UInt8 :=
  (stores.reverse.find? fun s => s.1 == i).map fun s => s.2

/-- A sequential read returns its length, stores what single reads return, and nothing else. -/
def ReadsSequentially (d : Device) (addr length : UInt32) (b : Bus) : Prop :=
  (simuIicDataRead d addr length b).ret = length.toNat ∧
    (∀ i < length.toNat, lastStore (simuIicDataRead d addr length b).stores i =
      (singleReads d length.toNat addr b)[i]?) ∧
    ∀ s ∈ (simuIicDataRead d addr length b).stores, s.1 < length.toNat

/-- Single reads return the content. -/
theorem singleReads_eq {n : ℕ} {addr : UInt32} (h : addr.toNat + n ≤ 65536) (ptr : ℕ) :
    singleReads (eeprom content) n addr (Bus.quiet ptr) =
      (List.range' addr.toNat n).map content := by
  induction n generalizing addr ptr with
  | zero => rfl
  | succ n ih =>
    have haddr : addr.toUInt16.toNat = addr.toNat := by
      rw [UInt32.toNat_toUInt16]
      omega
    rw [singleReads, simuIicReadOneByte_spec, haddr, List.range'_succ, List.map_cons]
    cases n with
    | zero => rfl
    | succ n =>
      have hsucc : (addr + 1).toNat = addr.toNat + 1 := by
        rw [UInt32.toNat_add, UInt32.toNat_one]
        omega
      rw [ih (by omega), hsucc]

theorem dataReadLoop_indices (n i : ℕ) (b : Bus) :
    (dataReadLoop d n i b).1.map Prod.fst = List.range' i n := by
  induction n generalizing i b with
  | zero => rfl
  | succ n ih => rw [dataReadLoop, List.map_cons, ih, List.range'_succ]

theorem toNat_pred {length : UInt32} (h : 1 ≤ length) :
    (length - 1).toNat = length.toNat - 1 := by
  rw [UInt32.toNat_sub_of_le _ _ h, UInt32.toNat_one]

/-- The indices that are stored to: that of the last byte is one too large. -/
theorem simuIicDataRead_indices {addr length : UInt32} (h : 1 ≤ length) (b : Bus) :
    (simuIicDataRead d addr length b).stores.map Prod.fst =
      List.range (length.toNat - 1) ++ [length.toNat] := by
  have hpos : 1 ≤ length.toNat := UInt32.le_iff_toNat_le.1 h
  have hlast : length.toNat - 1 + 1 = length.toNat := by omega
  simp only [simuIicDataRead, List.map_append, dataReadLoop_indices, toNat_pred h, hlast,
    List.range_eq_range', List.map_cons, List.map_nil]

/-- The byte behind the buffer is written. -/
theorem store_behind {addr length : UInt32} (h : 1 ≤ length) (b : Bus) :
    ∃ s ∈ (simuIicDataRead d addr length b).stores, s.1 = length.toNat := by
  have hmem : length.toNat ∈ (simuIicDataRead d addr length b).stores.map Prod.fst := by
    rw [simuIicDataRead_indices h]
    exact List.mem_append_right _ (List.mem_singleton_self _)
  obtain ⟨s, hs, heq⟩ := List.mem_map.1 hmem
  exact ⟨s, hs, heq⟩

/-- No sequential read is like single reads: each one stores behind its buffer. -/
theorem not_readsSequentially (content : ℕ → UInt8) {addr length : UInt32} (h : 1 ≤ length)
    (b : Bus) : ¬ ReadsSequentially (eeprom content) addr length b := by
  rintro ⟨-, -, hinside⟩
  obtain ⟨s, hs, heq⟩ := @store_behind (eeprom content) addr length h b
  exact absurd (hinside s hs) (by omega)

/-- Reading one byte. -/
theorem not_readsSequentially_one :
    ¬ ReadsSequentially (eeprom fun _ => 0x5A) 0 1 (Bus.quiet 0) :=
  not_readsSequentially (fun _ => 0x5A) (by decide) (Bus.quiet 0)

/-- One byte that is read goes to `buf[1]`. -/
theorem one_byte_behind :
    ¬ ∀ (content : ℕ → UInt8) (addr length : UInt32) (ptr : ℕ), 1 ≤ length →
      addr.toNat + length.toNat ≤ eeType + 1 →
        ReadsSequentially (eeprom content) addr length (Bus.quiet ptr) := by
  intro hall
  obtain ⟨-, -, hinside⟩ := hall (fun _ => 0x5A) 0 1 0 (by decide) (by decide)
  obtain ⟨s, hs, heq⟩ := @store_behind (eeprom fun _ => 0x5A) 0 1 (by decide) (Bus.quiet 0)
  have hlt := hinside s hs
  omega

/-! ## The bytes that are read -/

/-- What is read of a byte when an acknowledgement was waited for on its first bit: the wait takes a
low bit for an acknowledgement, and gives up on a high one with a stop, which the memory sees unless
the second bit holds the line. -/
def garbled (byte : UInt8) : UInt8 :=
  if byte.toNat.testBit 7 then
    if byte.toNat.testBit 6 then 0xff else byte <<< 2 + 3
  else byte <<< 1 + 1

/-- What the read with number `i` of a sequential read gets. -/
def received (content : ℕ → UInt8) (addr i : ℕ) : UInt8 :=
  if i = 0 then content addr else if i = 1 then garbled (content (addr + 1)) else 0xff

/-- A line that stays high is not an acknowledgement. -/
theorem waitAckLoop_high {b : Bus} (h : b.line = true) (n : ℕ) :
    waitAckLoop d n b = (1, iicStop d b) := by
  induction n with
  | zero => rfl
  | succ n ih => rw [waitAckLoop, if_pos h, ih]

/-- Nobody acknowledges on an idle bus, which the stop makes quiet. -/
theorem iicWaitAck_idle (out : Bool) (ptr : ℕ) :
    iicWaitAck d ⟨false, out, true, ⟨.idle, ptr⟩⟩ = (1, Bus.quiet ptr) :=
  waitAckLoop_high rfl 251

theorem readLoop_add (m n : ℕ) (receive : UInt8) (b : Bus) :
    readLoop d (m + n) receive b =
      readLoop d n (readLoop d m receive b).1 (readLoop d m receive b).2 := by
  induction m generalizing receive b with
  | zero => rw [Nat.zero_add, readLoop]
  | succ m ih => rw [Nat.succ_add, readLoop, ih, readLoop]

/-- After the bits of a byte the memory has let the line go, and takes that for the master's answer;
an answer of the master comes too late. -/
theorem iicReadByte_released {b : Bus} {byte : UInt8} {out : Bool} {phase : Phase} {ptr : ℕ}
    (hphase : phase = .idle ∨ phase = .answer true)
    (h : readLoop d 8 0 (b.setDrive false) = (byte, ⟨true, out, false, ⟨phase, ptr⟩⟩))
    (ack : UInt8) :
    iicReadByte d ack b = (byte, ⟨false, ack == 0, true, ⟨.idle, ptr⟩⟩) := by
  simp only [iicReadByte, h]
  by_cases hack : ack = 0
  · subst hack
    rcases hphase with rfl | rfl <;> rfl
  · rw [if_neg hack, beq_eq_false_iff_ne.2 hack]
    rcases hphase with rfl | rfl <;> rfl

/-- An idle bus is read as ones. -/
theorem readLoop_idle (out : Bool) (ptr n : ℕ) (receive : UInt8) :
    readLoop d n receive ⟨true, out, false, ⟨.idle, ptr⟩⟩ =
      ((List.replicate n true).foldl shiftUp receive, ⟨true, out, false, ⟨.idle, ptr⟩⟩) := by
  induction n generalizing receive with
  | zero => rfl
  | succ n ih => exact ih (shiftUp receive true)

theorem iicReadByte_quiet (ack : UInt8) (ptr : ℕ) :
    iicReadByte d ack (Bus.quiet ptr) = (0xff, ⟨false, ack == 0, true, ⟨.idle, ptr⟩⟩) := by
  have hones : (List.replicate 8 true).foldl shiftUp 0 = 0xff := by decide
  have hread : readLoop d 8 0 ((Bus.quiet ptr).setDrive false) =
      (0xff, ⟨true, true, false, ⟨.idle, ptr⟩⟩) := by
    rw [← hones]
    exact readLoop_idle true ptr 8 0
  exact iicReadByte_released (Or.inl rfl) hread ack

theorem foldl_bitsDown_six (byte : UInt8) :
    (bitsDown byte 6).foldl shiftUp 0 <<< (1 : UInt8) + 1 = byte <<< (1 : UInt8) + 1 := by
  revert byte
  apply forall_byte
  decide +kernel

theorem foldl_bitsDown_five (byte : UInt8) :
    ((bitsDown byte 5).foldl shiftUp 0 <<< (1 : UInt8) + 1) <<< (1 : UInt8) + 1 =
      byte <<< (2 : UInt8) + 3 := by
  revert byte
  apply forall_byte
  decide +kernel

section
variable {byte : UInt8}

/-- The wait looks at the first bit of the byte that the memory sends. -/
theorem iicWaitAck_send (byte : UInt8) (ptr : ℕ) :
    iicWaitAck d ⟨false, false, true, ⟨.send byte 7, ptr⟩⟩ =
      waitAckLoop d 251 ⟨true, true, false, ⟨.send byte 7, ptr⟩⟩ := rfl

/-- A low bit is taken for an acknowledgement. -/
theorem iicWaitAck_low (h7 : byte.toNat.testBit 7 = false) (ptr : ℕ) :
    iicWaitAck d ⟨false, false, true, ⟨.send byte 7, ptr⟩⟩ = (0, sending byte 6 ptr) := by
  rw [iicWaitAck_send, waitAckLoop, if_neg (by simp [Bus.line, Slave.sda, h7])]
  rfl

/-- The wait gives up on a high bit, and the memory sees the stop. -/
theorem iicWaitAck_seen (h7 : byte.toNat.testBit 7 = true) (h6 : byte.toNat.testBit 6 = true)
    (ptr : ℕ) :
    iicWaitAck d ⟨false, false, true, ⟨.send byte 7, ptr⟩⟩ = (1, Bus.quiet ptr) := by
  rw [iicWaitAck_send, waitAckLoop_high (by simp [Bus.line, Slave.sda, h7])]
  simp [iicStop, Bus.setDrive, Bus.setOut, Bus.setClock, Bus.watch, Bus.line, Slave.sda,
    Slave.fall, Slave.rise, Slave.stop, Bus.quiet, h7, h6]

/-- The wait gives up on a high bit, and the memory holds the line low with the second one. -/
theorem iicWaitAck_held (h7 : byte.toNat.testBit 7 = true) (h6 : byte.toNat.testBit 6 = false)
    (ptr : ℕ) :
    iicWaitAck d ⟨false, false, true, ⟨.send byte 7, ptr⟩⟩ =
      (1, ⟨true, true, true, ⟨.send byte 6, ptr⟩⟩) := by
  rw [iicWaitAck_send, waitAckLoop_high (by simp [Bus.line, Slave.sda, h7])]
  simp [iicStop, Bus.setDrive, Bus.setOut, Bus.setClock, Bus.watch, Bus.line, Slave.sda,
    Slave.fall, Slave.rise, h7, h6]

/-- A byte whose first bit was clocked away is read garbled. -/
theorem iicReadByte_garbled (byte ack : UInt8) (ptr : ℕ) :
    iicReadByte d ack (iicWaitAck d ⟨false, false, true, ⟨.send byte 7, ptr⟩⟩).2 =
      (garbled byte, ⟨false, ack == 0, true, ⟨.idle, ptr⟩⟩) := by
  cases h7 : byte.toNat.testBit 7 with
  | false =>
    have hread : readLoop d 8 0 ((sending byte 6 ptr).setDrive false) =
        (byte <<< 1 + 1, ⟨true, true, false, ⟨.answer true, ptr⟩⟩) := by
      rw [readLoop_add 7 1, readLoop_send byte ptr 6 0 true _ rfl, ← foldl_bitsDown_six]
      rfl
    rw [iicWaitAck_low h7, iicReadByte_released (Or.inr rfl) hread, garbled, h7]
    rfl
  | true =>
    cases h6 : byte.toNat.testBit 6 with
    | true =>
      rw [iicWaitAck_seen h7 h6, iicReadByte_quiet, garbled, h7, h6]
      rfl
    | false =>
      have hdrive : Bus.setDrive false ⟨true, true, true, ⟨.send byte 6, ptr⟩⟩ =
          ⟨true, true, false, ⟨.send byte 6, ptr⟩⟩ := by
        simp [Bus.setDrive, Bus.watch, Bus.line, Slave.sda, h6]
      have hread : readLoop d 8 0 (Bus.setDrive false ⟨true, true, true, ⟨.send byte 6, ptr⟩⟩) =
          (byte <<< 2 + 3, ⟨true, true, false, ⟨.idle, ptr⟩⟩) := by
        rw [hdrive, readLoop_add 6 2, readLoop_send byte ptr 5 0 true _ rfl,
          ← foldl_bitsDown_five]
        rfl
      rw [iicWaitAck_held h7 h6, iicReadByte_released (Or.inl rfl) hread, garbled, h7, h6]
      rfl

end

/-- On a quiet bus the loop reads ones. -/
theorem dataReadLoop_quiet (n i ptr : ℕ) :
    dataReadLoop d n i (Bus.quiet ptr) =
      ((List.range' i n).map fun j => (j, 0xff), Bus.quiet ptr) := by
  induction n generalizing i with
  | zero => rfl
  | succ n ih =>
    have hack : ((1 : UInt8) == 0) = false := rfl
    rw [dataReadLoop, iicReadByte_quiet, hack, iicWaitAck_idle, ih, List.range'_succ,
      List.map_cons]

/-- The reads of the loop and the last one, from the first bit of the addressed byte on. -/
theorem dataReadLoop_received (ptr n : ℕ) :
    (dataReadLoop (eeprom content) n 0 (sending (content ptr) 7 ptr)).1 =
        ((List.range n).map fun i => (i, received content ptr i)) ∧
      (iicReadByte (eeprom content) 0
        (dataReadLoop (eeprom content) n 0 (sending (content ptr) 7 ptr)).2).1 =
          received content ptr n := by
  have hack : ((1 : UInt8) == 0) = false := rfl
  match n with
  | 0 => exact ⟨rfl, congrArg Prod.fst (iicReadByte_last (content ptr) ptr)⟩
  | 1 =>
    rw [dataReadLoop, iicReadByte_next]
    exact ⟨rfl, congrArg Prod.fst (iicReadByte_garbled (content (ptr + 1)) 0 (ptr + 1))⟩
  | n + 2 =>
    have hones : ∀ j ∈ List.range' 2 n, ((j, 0xff) : ℕ × UInt8) = (j, received content ptr j) := by
      intro j hj
      have h2 := (List.mem_range'_1.1 hj).1
      rw [received, if_neg (by omega), if_neg (by omega)]
    rw [dataReadLoop, iicReadByte_next, dataReadLoop, iicReadByte_garbled, hack, iicWaitAck_idle,
      dataReadLoop_quiet, iicReadByte_quiet, List.map_congr_left hones, List.range_eq_range',
      List.range'_succ, List.range'_succ]
    exact ⟨rfl, rfl⟩

/-- What a sequential read stores: the first byte, a garbled second one and ones, the last of them
behind the buffer. -/
theorem simuIicDataRead_stores {addr length : UInt32} (h : 1 ≤ length)
    (hin : addr.toNat + length.toNat ≤ 65536) (ptr : ℕ) :
    (simuIicDataRead (eeprom content) addr length (Bus.quiet ptr)).stores =
      ((List.range (length.toNat - 1)).map fun i => (i, received content addr.toNat i)) ++
        [(length.toNat, received content addr.toNat (length.toNat - 1))] := by
  have hpos : 1 ≤ length.toNat := UInt32.le_iff_toNat_le.1 h
  have hlast : length.toNat - 1 + 1 = length.toNat := by omega
  have haddr : (addr >>> 8).toUInt8.toNat * 256 + (addr % 256).toUInt8.toNat = addr.toNat := by
    rw [UInt32.toNat_toUInt8, UInt32.toNat_toUInt8, UInt32.toNat_shiftRight, UInt32.toNat_mod]
    have h8 : (8 : UInt32).toNat % 32 = 8 := rfl
    have h256 : (256 : UInt32).toNat = 256 := rfl
    rw [h8, h256, Nat.shiftRight_eq_div_pow]
    omega
  obtain ⟨hloop, hread⟩ := dataReadLoop_received content addr.toNat (length.toNat - 1)
  simp only [simuIicDataRead]
  rw [addressed, haddr, toNat_pred h, hlast, hloop, hread]

end NuAgent.Util
