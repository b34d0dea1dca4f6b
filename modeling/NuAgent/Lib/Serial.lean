import Mathlib.Data.List.Basic
import Mathlib.Data.Nat.Notation
import Mathlib.Tactic.Common

/-!
# Serial frames of eight data bits

The waveform of asynchronous frames with one start bit, eight data bits and one stop bit, as the
list of its levels bit time by bit time, and the shift register that collects the data bits again.
The second part has the bits of a byte in the other order, as a two-wire bus carries them.
-/

namespace Serial

/-- The data bits of a byte, least significant first. -/
def dataBits (b : UInt8) : List Bool := (List.range 8).map b.toNat.testBit

/-- One frame: a low start bit, the data bits and a high stop bit. -/
def frame (b : UInt8) : List Bool := false :: (dataBits b ++ [true])

/-- Frames with a number of idle bit times before each, and idle bit times after the last. -/
def wave (frames : List (ℕ × UInt8)) (trailing : ℕ) : List Bool :=
  frames.flatMap (fun f => List.replicate f.1 true ++ frame f.2) ++ List.replicate trailing true

/-- A shift register takes a bit in at its most significant end. -/
def shiftIn (acc : UInt8) (bit : Bool) : UInt8 :=
  if bit then acc >>> 1 ||| 0x80 else acc >>> 1

theorem length_dataBits (b : UInt8) : (dataBits b).length = 8 := by
  simp [dataBits]

/-- A property of all bytes is checked on the 256 of them. -/
theorem forall_byte {p : UInt8 → Prop} (h : ∀ n < 256, p (UInt8.ofNat n)) (b : UInt8) : p b := by
  have hb := h b.toNat b.toNat_lt
  rwa [UInt8.ofNat_toNat] at hb

/-- Shifting in the eight data bits of a byte gives the byte. -/
theorem foldl_shiftIn_dataBits (b : UInt8) : (dataBits b).foldl shiftIn 0 = b := by
  revert b
  apply forall_byte
  decide +kernel

/-- The bit that `(b >> i) & 1` tests. -/
theorem shiftRight_and_one (b : UInt8) {i : ℕ} (hi : i < 8) :
    (b >>> UInt8.ofNat i &&& 1 != 0) = b.toNat.testBit i := by
  revert i b
  apply forall_byte
  decide +kernel

@[simp]
theorem wave_nil (trailing : ℕ) : wave [] trailing = List.replicate trailing true := rfl

theorem wave_cons (f : ℕ × UInt8) (frames : List (ℕ × UInt8)) (trailing : ℕ) :
    wave (f :: frames) trailing
      = List.replicate f.1 true ++ (frame f.2 ++ wave frames trailing) := by
  simp [wave, List.append_assoc]

/-! ## Most significant bit first -/

/-- The `n` most significant bits of a byte. -/
def topBits : ℕ → UInt8 → List Bool
  | 0, _ => []
  | n + 1, b => b.toNat.testBit 7 :: topBits n (b <<< 1)

/-- The bits of a byte from bit `n` downwards. -/
def bitsDown (b : UInt8) : ℕ → List Bool
  | 0 => [b.toNat.testBit 0]
  | n + 1 => b.toNat.testBit (n + 1) :: bitsDown b n

/-- A shift register takes a bit in at its least significant end. -/
def shiftUp (acc : UInt8) (bit : Bool) : UInt8 :=
  if bit then acc <<< 1 + 1 else acc <<< 1

/-- The bit that `(b & 0x80) >> 7` gives. -/
theorem and_shiftRight_seven (b : UInt8) :
    ((b &&& 0x80) >>> 7 != 0) = b.toNat.testBit 7 := by
  revert b
  apply forall_byte
  decide +kernel

theorem foldl_shiftUp_topBits (b : UInt8) : (topBits 8 b).foldl shiftUp 0 = b := by
  revert b
  apply forall_byte
  decide +kernel

theorem foldl_shiftUp_bitsDown (b : UInt8) : (bitsDown b 7).foldl shiftUp 0 = b := by
  revert b
  apply forall_byte
  decide +kernel

end Serial
