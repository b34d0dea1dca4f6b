import NuAgent.Lib.Serial

/-!
# A two-wire bus with a memory on it

The master drives the clock line and, when its pin is an output, the data line; the memory can hold
the data line low. It takes bits in at rising edges of the clock and changes the data line at falling
edges, and a change of the data line while the clock is high is a start or a stop. A transfer to the
memory is its device address and two address bytes; a transfer from it starts at that address,
advances when the master acknowledges a byte, and stops when the master does not.
-/

namespace TwoWire

open Serial

/-! ## The memory -/

/-- A memory that answers to a seven-bit device address. -/
structure Device where
  address : UInt8
  content : ℕ → UInt8

/-- What a received byte is. -/
inductive What
  | device
  | high
  | low
  | data

/-- What the memory is doing. -/
inductive Phase
  | idle
  /-- `count` bits of a byte have been taken in. -/
  | receive (what : What) (count : ℕ) (shift : UInt8)
  /-- It acknowledges a byte, and receives another one. -/
  | ackReceive (what : What)
  /-- It acknowledges its device address, and sends. -/
  | ackSend
  /-- It shows the bit `left` of a byte. -/
  | send (byte : UInt8) (left : ℕ)
  /-- It waits for the master's answer to a byte. -/
  | answer (nack : Bool)

/-- A memory with its address counter. -/
structure Slave where
  phase : Phase
  ptr : ℕ

namespace Slave

/-- The level of the data line that the memory allows: it holds the line low, or leaves it high. -/
def sda (s : Slave) : Bool :=
  match s.phase with
  | .ackReceive _ | .ackSend => false
  | .send byte left => byte.toNat.testBit left
  | _ => true

/-- A byte has been received. -/
def accept (d : Device) (s : Slave) (byte : UInt8) : What → Slave
  | .device =>
      if byte >>> 1 = d.address then
        { s with phase := if byte &&& 1 = 0 then .ackReceive .high else .ackSend }
      else { s with phase := .idle }
  | .high => { phase := .ackReceive .low, ptr := byte.toNat * 256 }
  | .low => { phase := .ackReceive .data, ptr := s.ptr + byte.toNat }
  | .data => { s with phase := .ackReceive .data }

/-- The clock rises while the data line is at `level`. -/
def rise (s : Slave) (level : Bool) : Slave :=
  match s.phase with
  | .receive what count shift => { s with phase := .receive what (count + 1) (shiftUp shift level) }
  | .answer _ => { s with phase := .answer level }
  | _ => s

/-- The clock falls. -/
def fall (d : Device) (s : Slave) : Slave :=
  match s.phase with
  | .receive what count shift => if count = 8 then s.accept d shift what else s
  | .ackReceive what => { s with phase := .receive what 0 0 }
  | .ackSend => { s with phase := .send (d.content s.ptr) 7 }
  | .send _ 0 => { s with phase := .answer true }
  | .send byte (left + 1) => { s with phase := .send byte left }
  | .answer true => { s with phase := .idle }
  | .answer false => { phase := .send (d.content (s.ptr + 1)) 7, ptr := s.ptr + 1 }
  | .idle => s

/-- A start: the device address follows, whatever the memory was doing. -/
def start (s : Slave) : Slave := { s with phase := .receive .device 0 0 }

/-- A stop. -/
def stop (s : Slave) : Slave := { s with phase := .idle }

end Slave

/-! ## The bus -/

/-- The clock line, the master's data pin with its level and its direction, and the memory. -/
structure Bus where
  scl : Bool
  out : Bool
  drive : Bool
  slave : Slave

namespace Bus

/-- The level of the data line: it is high unless one of the two holds it low. -/
def line (b : Bus) : Bool := (!b.drive || b.out) && b.slave.sda

/-- The memory watches the data line, which was at `old`, while the clock is high. -/
def watch (old : Bool) (b : Bus) : Bus :=
  if b.scl then
    if old && !b.line then { b with slave := b.slave.start }
    else if !old && b.line then { b with slave := b.slave.stop }
    else b
  else b

/-- The master sets the level of its data pin. -/
def setOut (out : Bool) (b : Bus) : Bus := { b with out }.watch b.line

/-- The master sets the direction of its data pin. -/
def setDrive (drive : Bool) (b : Bus) : Bus := { b with drive }.watch b.line

/-- The master sets the clock. -/
def setClock (d : Device) (scl : Bool) (b : Bus) : Bus :=
  if scl = b.scl then b
  else if scl then { b with scl, slave := b.slave.rise b.line }
  else { b with scl, slave := b.slave.fall d }

/-- Between two transfers: both lines are high, and the memory is idle at address `ptr`. -/
def quiet (ptr : ℕ) : Bus := ⟨true, true, true, ⟨.idle, ptr⟩⟩

end Bus

end TwoWire
