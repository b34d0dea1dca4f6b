import Mathlib.Algebra.Ring.Int.Defs
import Mathlib.Data.List.Forall2
import NuAgent.SmartConfig.Crc8

/-!
# Smart-config packets and their length coding

Reference: `ConfigwlHelper.buildConfigPacket` and the sending loop of `ConfigWireless.checkRetry`.

The phone transmits its credentials to a station that cannot yet decrypt anything by the lengths of
broadcast datagrams alone, one datagram length for each byte of the packet. A byte is sent as its
unsigned value with zero replaced by 129, above 156 at even and below 156 at odd positions. Two
things can go wrong: the length below 156 can fail to be positive, and a zero byte and a byte 129
look the same. `length_coding` says that nothing else does.
-/

namespace NuAgent.SmartConfig

/-! ## `buildConfigPacket` -/

/-- `ByteBuffer.put` on the buffer of capacity 1024; `none` is `BufferOverflowException`. -/
def put (buffer bs : List Int8) : Option (List Int8) :=
  if buffer.length + bs.length ≤ 1024 then some (buffer ++ bs) else none

/-- A string is put only when it is not empty. -/
def putString (buffer bs : List Int8) : Option (List Int8) :=
  if bs.length ≠ 0 then put buffer bs else some buffer

/-- `String.getBytes` in the platform's charset, UTF-8. -/
def getBytes (key : String) : List Int8 := key.toByteArray.data.toList.map UInt8.toInt8

/-- `(byte) ((crc8 & 0xF0) >> 4)`. -/
def highNibble (crc8 : Int8) : Int8 := ((crc8.toInt32 &&& 0xF0) >>> 4).toInt8

/-- `(byte) (crc8 & 0x0F)`. -/
def lowNibble (crc8 : Int8) : Int8 := (crc8.toInt32 &&& 0x0F).toInt8

/-- `ConfigwlHelper.buildConfigPacket`; a `null` argument is `none`, an exception is `none`. -/
def buildConfigPacket (ssid : Option (List Int8)) (key : Option String) : Option (List Int8) := do
  let ssids := ssid.getD []
  let keys := (key.map getBytes).getD []
  let buffer ← put [] (List.replicate 8 4)
  let buffer ← put buffer [5, 6, 7, 8]
  let buffer ← put buffer [Int8.ofNat ssids.length]
  let buffer ← putString buffer ssids
  let buffer ← put buffer [Int8.ofNat keys.length]
  let buffer ← putString buffer keys
  let crc8 ← getCrc8 (buffer.drop 12)
  let buffer ← put buffer [highNibble crc8]
  let buffer ← put buffer [lowNibble crc8]
  put buffer [9, 10, 11, 12]

/-! ## The loop of `checkRetry` -/

/-- A Java byte as `checkRetry` sends it: `(b + 256) % 256`, and 129 for zero. -/
def code (b : Int8) : ℤ :=
  let l := (b.toInt + 256) % 256
  if l = 0 then 129 else l

/-- The datagram lengths of the loop over a packet; `k` alternates between one and zero. -/
def lengthsFrom (k : ℕ) : List Int8 → List ℤ
  | [] => []
  | b :: bs => (if k = 1 then 156 + code b else 156 - code b) :: lengthsFrom (1 - k) bs

/-- The datagram lengths `checkRetry` computes for a packet. -/
def checkRetryLengths (configPacket : List Int8) : List ℤ := lengthsFrom 1 configPacket

/-! ## The shape of a packet -/

/-- The bytes the check covers: each string after its length, which is truncated to a byte. -/
def configBody (ssid key : List Int8) : List Int8 :=
  Int8.ofNat ssid.length :: ssid ++ Int8.ofNat key.length :: key

/-- The check of a body. -/
def bodyCrc8 (body : List Int8) : Int8 := (nstGetCrc8 (body.map Int8.toUInt8)).toInt8

/-- The packet around a body. -/
def frame (body : List Int8) : List Int8 :=
  [4, 4, 4, 4, 4, 4, 4, 4, 5, 6, 7, 8] ++ body ++
    [highNibble (bodyCrc8 body), lowNibble (bodyCrc8 body), 9, 10, 11, 12]

theorem getCrc8_eq (bytes : List Int8) : getCrc8 bytes = some (bodyCrc8 bytes) := by
  have hbytes : bytes = (bytes.map Int8.toUInt8).map UInt8.toInt8 := by
    rw [List.map_map]
    exact (List.map_id bytes).symm
  conv_lhs => rw [hbytes]
  exact getCrc8_foldlM (bytes.map Int8.toUInt8) 0

/-- A put that is followed by something goes on with the longer buffer, or overflows. -/
theorem put_bind (buffer bs : List Int8) (f : List Int8 → Option (List Int8)) :
    (put buffer bs).bind f =
      if buffer.length + bs.length ≤ 1024 then f (buffer ++ bs) else none := by
  unfold put
  split_ifs <;> rfl

/-- Skipping an empty string is putting it. -/
theorem putString_eq {buffer bs : List Int8} (h : buffer.length ≤ 1024) :
    putString buffer bs = put buffer bs := by
  unfold putString
  split_ifs with hbs
  · rfl
  · obtain rfl : bs = [] := List.length_eq_zero_iff.mp (by omega)
    rw [put, if_pos (by simpa using h), List.append_nil]

/-- A packet is built exactly when it fits the buffer. -/
theorem buildConfigPacket_eq (ssid : Option (List Int8)) (key : Option String) :
    buildConfigPacket ssid key =
      if (ssid.getD []).length + ((key.map getBytes).getD []).length ≤ 1004 then
        some (frame (configBody (ssid.getD []) ((key.map getBytes).getD [])))
      else none := by
  unfold buildConfigPacket
  generalize ssid.getD [] = ssids
  generalize (key.map getBytes).getD [] = keys
  simp only [bind, put_bind, getCrc8_eq, Option.bind_some]
  rw [if_pos (by decide), if_pos (by decide), if_pos (by simp), putString_eq (by simp), put_bind]
  by_cases hs : 14 + ssids.length ≤ 1024
  · -- both lengths and the first string fit, so the second string is put on a buffer in bounds
    rw [if_pos (by simp; omega), if_pos (by simp; omega), putString_eq (by simp; omega), put_bind]
    by_cases hfit : ssids.length + keys.length ≤ 1004
    · rw [if_pos (by simp; omega), if_pos (by simp; omega), if_pos (by simp; omega), put,
        if_pos (by simp; omega), if_pos hfit]
      simp [frame, configBody]
    · rw [if_neg hfit]
      split_ifs with h₁ h₂ h₃
      · exact if_neg (by simp; omega)
      · rfl
      · rfl
      · rfl
  · rw [if_neg (show ¬ ssids.length + keys.length ≤ 1004 by omega)]
    split_ifs with h₁ h₂
    · simp at h₂
      omega
    · rfl
    · rfl

/-! ## What a listener sees -/

/-- Two byte strings that differ only in zero bytes of one where the other has a byte 129. -/
def Confusable : List Int8 → List Int8 → Prop :=
  List.Forall₂ fun b c => b = c ∨ (b = 0 ∧ c = -127) ∨ (b = -127 ∧ c = 0)

theorem code_eq_iff (b c : Int8) :
    code b = code c ↔ b = c ∨ (b = 0 ∧ c = -127) ∨ (b = -127 ∧ c = 0) := by
  have hb := b.le_toInt
  have hb' := b.toInt_lt
  have hc := c.le_toInt
  have hc' := c.toInt_lt
  have hneg : (-127 : Int8).toInt = -127 := rfl
  rw [← Int8.toInt_inj, ← Int8.toInt_inj, ← Int8.toInt_inj, ← Int8.toInt_inj, ← Int8.toInt_inj,
    hneg, Int8.toInt_zero]
  simp only [code]
  split_ifs <;> omega

/-- The bytes a listener cannot tell apart. -/
theorem map_code_eq_iff (p q : List Int8) : p.map code = q.map code ↔ Confusable p q := by
  rw [← List.forall₂_eq_eq_eq, List.forall₂_map_left_iff, List.forall₂_map_right_iff, Confusable]
  simp only [code_eq_iff]

/-- The lengths carry the codes of the bytes and nothing else. -/
theorem lengthsFrom_inj (k : ℕ) (p q : List Int8) :
    lengthsFrom k p = lengthsFrom k q ↔ p.map code = q.map code := by
  induction p generalizing k q with
  | nil => cases q <;> simp [lengthsFrom]
  | cons b p ih =>
    cases q with
    | nil => simp [lengthsFrom]
    | cons c q =>
      rw [lengthsFrom, lengthsFrom, List.map_cons, List.map_cons, List.cons_eq_cons,
        List.cons_eq_cons, ih]
      split_ifs with hk
      · rw [Int.add_right_inj]
      · have hsub : 156 - code b = 156 - code c ↔ code b = code c := by omega
        rw [hsub]

theorem unsigned_eq (b : Int8) : (b.toInt + 256) % 256 = b.toUInt8.toNat := by
  have hlt := b.toUInt8.toNat_lt
  have hint : b.toInt = b.toUInt8.toNat ∨ b.toInt = b.toUInt8.toNat - 256 := by
    rw [Int8.toInt, BitVec.toInt_eq_toNat_cond]
    split_ifs
    · exact .inl rfl
    · exact .inr rfl
  omega

theorem sub_code_pos_iff (b : Int8) : 0 < 156 - code b ↔ b.toUInt8.toNat < 156 := by
  simp only [code, unsigned_eq]
  split_ifs <;> omega

theorem add_code_pos (b : Int8) : 0 < 156 + code b := by
  simp only [code, unsigned_eq]
  split_ifs <;> omega

/-- A length fails to be positive only where a byte from 156 on is subtracted. -/
theorem lengthsFrom_pos (k : ℕ) (hk : k ≤ 1) (p : List Int8) :
    (∀ l ∈ lengthsFrom k p, 0 < l) ↔
      ∀ i b, p[i]? = some b → (i + k) % 2 = 0 → b.toUInt8.toNat < 156 := by
  induction p generalizing k with
  | nil => simp [lengthsFrom]
  | cons b p ih =>
    have hhead : 0 < (if k = 1 then 156 + code b else 156 - code b) ↔
        (k % 2 = 0 → b.toUInt8.toNat < 156) := by
      split_ifs with h
      · exact ⟨fun _ h0 => by omega, fun _ => add_code_pos b⟩
      · rw [sub_code_pos_iff]
        exact ⟨fun hb _ => hb, fun hb => hb (by omega)⟩
    rw [lengthsFrom, List.forall_mem_cons, hhead, ih (1 - k) (by omega)]
    constructor
    · rintro ⟨h0, hs⟩ i c hc hi
      cases i with
      | zero =>
        obtain rfl : b = c := by simpa using hc
        exact h0 (by omega)
      | succ i => exact hs i c (by simpa using hc) (by omega)
    · intro h
      exact ⟨fun h0 => h 0 b rfl (by omega),
        fun i c hc hi => h (i + 1) c (by simpa using hc) (by omega)⟩

/-! ## The frame around a body -/

theorem nibbles_eq : ∀ i : Fin 256,
    let c := Int8.ofBitVec (BitVec.ofFin i)
    highNibble c * 16 + lowNibble c = c ∧ (highNibble c).toUInt8.toNat < 16 ∧
      (lowNibble c).toUInt8.toNat < 16 := by
  decide +kernel

/-- The nibbles of a check are small and determine it. -/
theorem nibbles_spec (c : Int8) :
    highNibble c * 16 + lowNibble c = c ∧ (highNibble c).toUInt8.toNat < 16 ∧
      (lowNibble c).toUInt8.toNat < 16 := nibbles_eq c.toBitVec.toFin

/-- Small bytes are never confused with others. -/
theorem eq_of_code_eq {b c : Int8} (hb : b.toUInt8.toNat < 16) (hc : c.toUInt8.toNat < 16)
    (h : code b = code c) : b = c := by
  rcases (code_eq_iff b c).mp h with h | ⟨-, rfl⟩ | ⟨rfl, -⟩
  · exact h
  · exact absurd hc (by decide)
  · exact absurd hb (by decide)

/-- A listener confuses two packets when it confuses their bodies and the checks agree. -/
theorem frame_code_iff (x y : List Int8) :
    (frame x).map code = (frame y).map code ↔ Confusable x y ∧ bodyCrc8 x = bodyCrc8 y := by
  obtain ⟨hx, hxh, hxl⟩ := nibbles_spec (bodyCrc8 x)
  obtain ⟨hy, hyh, hyl⟩ := nibbles_spec (bodyCrc8 y)
  rw [← map_code_eq_iff]
  simp only [frame, List.map_append]
  constructor
  · intro h
    obtain ⟨hbody, htail⟩ := List.append_inj' h (by simp)
    obtain ⟨-, hbody⟩ := List.append_inj hbody (by simp)
    simp only [List.map_cons, List.map_nil, List.cons.injEq, and_true] at htail
    have hhigh := eq_of_code_eq hxh hyh htail.1
    have hlow := eq_of_code_eq hxl hyl htail.2
    exact ⟨hbody, by rw [← hx, ← hy, hhigh, hlow]⟩
  · rintro ⟨hbody, hcrc⟩
    rw [hbody, hcrc]

/-- The bytes of a frame other than those of its body are small. -/
theorem frame_getElem? {body : List Int8} {i : ℕ} {b : Int8} (h : (frame body)[i]? = some b) :
    b.toUInt8.toNat < 16 ∨ ∃ j, i = 12 + j ∧ body[j]? = some b := by
  obtain ⟨-, hhigh, hlow⟩ := nibbles_spec (bodyCrc8 body)
  rw [frame, List.getElem?_append, List.getElem?_append] at h
  split_ifs at h with h₁ h₂
  · -- the leading bytes
    have hmem := List.mem_of_getElem? h
    revert hmem
    simp only [List.mem_cons, List.not_mem_nil, or_false]
    rintro (rfl | rfl | rfl | rfl | rfl | rfl | rfl | rfl | rfl | rfl | rfl | rfl) <;>
      exact .inl (by decide)
  · simp only [List.length_cons, List.length_nil] at h h₂
    exact .inr ⟨i - 12, by omega, h⟩
  · -- the check and the trailing bytes
    have hmem := List.mem_of_getElem? h
    simp only [List.mem_cons, List.not_mem_nil, or_false] at hmem
    left
    rcases hmem with rfl | rfl | rfl | rfl | rfl | rfl
    exacts [hhigh, hlow, by decide, by decide, by decide, by decide]

/-- The lengths of a packet are positive exactly when those of its body's odd positions are. -/
theorem frame_pos_iff (body : List Int8) :
    (∀ l ∈ checkRetryLengths (frame body), 0 < l) ↔
      ∀ i b, body[i]? = some b → i % 2 = 1 → b.toUInt8.toNat < 156 := by
  rw [checkRetryLengths, lengthsFrom_pos 1 (Nat.le_refl 1)]
  constructor
  · intro h i b hb hi
    refine h (12 + i) b ?_ (by omega)
    have hlt := (List.getElem?_eq_some_iff.mp hb).1
    rw [frame, List.append_assoc, List.getElem?_append_right (by simp)]
    rw [List.getElem?_append_left (by simp; omega)]
    simpa using hb
  · intro h i b hb hi
    rcases frame_getElem? hb with hsmall | ⟨j, rfl, hj⟩
    · omega
    · exact h j b hj (by omega)

/-! ## When the coding works -/

section
variable (ssid : Option (List Int8)) (key : Option String)

/-- The body of the packet for two arguments, a `null` being empty. -/
def bodyOf : List Int8 := configBody (ssid.getD []) ((key.map getBytes).getD [])

/-- The arguments fit the buffer. -/
def Fits : Prop := (ssid.getD []).length + ((key.map getBytes).getD []).length ≤ 1004

theorem buildConfigPacket_some_iff (p : List Int8) :
    buildConfigPacket ssid key = some p ↔ Fits ssid key ∧ p = frame (bodyOf ssid key) := by
  rw [buildConfigPacket_eq, Fits, bodyOf]
  split_ifs with h
  · exact ⟨fun hp => ⟨h, (Option.some.inj hp).symm⟩, fun hp => by rw [hp.2]⟩
  · exact ⟨fun hp => hp.elim, fun hp => absurd hp.1 h⟩

end

/-- **When the length coding works.** For arguments that `buildConfigPacket` accepts, every datagram
length is positive and no other packet has the same lengths exactly when the body has no byte from
156 on at an odd position and no other arguments that fit have a body that agrees with this one up
to zeros for 129s and has the same check. -/
theorem length_coding (ssid : Option (List Int8)) (key : Option String) (p : List Int8)
    (hp : buildConfigPacket ssid key = some p) :
    ((∀ l ∈ checkRetryLengths p, 0 < l) ∧
      ∀ ssid' key' p', buildConfigPacket ssid' key' = some p' →
        checkRetryLengths p' = checkRetryLengths p → p' = p) ↔
    ((∀ i b, (bodyOf ssid key)[i]? = some b → i % 2 = 1 → b.toUInt8.toNat < 156) ∧
      ∀ ssid' key', Fits ssid' key' → Confusable (bodyOf ssid' key') (bodyOf ssid key) →
        bodyCrc8 (bodyOf ssid' key') = bodyCrc8 (bodyOf ssid key) →
        bodyOf ssid' key' = bodyOf ssid key) := by
  obtain ⟨-, rfl⟩ := (buildConfigPacket_some_iff ssid key p).mp hp
  have hlengths : ∀ x y : List Int8, checkRetryLengths (frame x) = checkRetryLengths (frame y) ↔
      Confusable x y ∧ bodyCrc8 x = bodyCrc8 y := by
    intro x y
    rw [checkRetryLengths, checkRetryLengths, lengthsFrom_inj, frame_code_iff]
  have hframe : ∀ x y : List Int8, frame x = frame y → x = y := by
    intro x y h
    obtain ⟨h, -⟩ := List.append_inj' h (by simp)
    exact (List.append_inj h rfl).2
  rw [frame_pos_iff]
  refine and_congr_right fun _ => ⟨?_, ?_⟩
  · intro h ssid' key' hfits hconf hcrc
    exact hframe _ _ (h ssid' key' _ ((buildConfigPacket_some_iff ssid' key' _).mpr ⟨hfits, rfl⟩)
      ((hlengths _ _).mpr ⟨hconf, hcrc⟩))
  · rintro h ssid' key' p' hp' hlen
    obtain ⟨hfits, rfl⟩ := (buildConfigPacket_some_iff ssid' key' p').mp hp'
    obtain ⟨hconf, hcrc⟩ := (hlengths _ _).mp hlen
    rw [h ssid' key' hfits hconf hcrc]

/-- `length_coding` at the network name `A` without a key, whose packet can be decoded. -/
theorem length_coding_ascii :
    ∃ p, buildConfigPacket (some [65]) none = some p ∧ (∀ l ∈ checkRetryLengths p, 0 < l) ∧
      ∀ ssid' key' p', buildConfigPacket ssid' key' = some p' →
        checkRetryLengths p' = checkRetryLengths p → p' = p := by
  have hbody : bodyOf (some [65]) none = [1, 65, 0] := by decide
  refine ⟨_, rfl, (length_coding (some [65]) none _ rfl).mpr ⟨?_, ?_⟩⟩
  · intro i b hb _
    have hmem := List.mem_of_getElem? hb
    rw [hbody] at hmem
    simp only [List.mem_cons, List.not_mem_nil, or_false] at hmem
    rcases hmem with rfl | rfl | rfl <;> decide
  · intro ssid' key' _ hconf hcrc
    rw [hbody] at hconf hcrc ⊢
    generalize bodyOf ssid' key' = body at hconf hcrc ⊢
    -- only the last byte could be another one, and then the check differs
    obtain _ | ⟨h₁, _ | ⟨h₂, _ | ⟨h₃, _ | _⟩⟩⟩ := hconf
    obtain rfl := h₁.resolve_right (by simp)
    obtain rfl := h₂.resolve_right (by simp)
    rcases h₃ with rfl | ⟨-, h₃⟩ | ⟨rfl, -⟩
    · rfl
    · exact absurd h₃ (by decide)
    · exact absurd hcrc (by decide)

/-- A name with `é` in UTF-8 gives a negative length, and two names of zeros and 129s are sent as
the same lengths. -/
theorem length_coding_fails :
    (∃ p, buildConfigPacket (some [-61, -87]) (some "") = some p ∧
      ¬ ∀ l ∈ checkRetryLengths p, 0 < l) ∧
    ∃ p q, buildConfigPacket (some [-127, 0, 0, 0, 0, 0, 0, 0]) (some "") = some p ∧
      buildConfigPacket (some [0, -127, -127, -127, -127, -127, 0, -127]) (some "") = some q ∧
      p ≠ q ∧ checkRetryLengths p = checkRetryLengths q := by
  refine ⟨⟨_, rfl, by decide⟩, _, _, rfl, rfl, by decide, by decide⟩

end NuAgent.SmartConfig
