import NuAgent.Lib.Bytes

/-!
# The wire format of DNS messages

A message is a header of twelve bytes with the numbers of entries of four sections, and the entries.
A name is a sequence of labels with a length byte each that ends in a zero byte, or in a pointer to
an earlier name. The decoders return what they have read and the bytes behind it; the whole message
goes along for the pointers. `decodeName_wire` and `decodeName_pointer` are the two ways in which a
name is read, `decode_of_sections` puts a message together from its sections.
-/

namespace DnsWire

/-! ## Names -/

/-- A label: one to 63 bytes of any value. -/
structure Label where
  bytes : List UInt8
  length_pos : 0 < bytes.length
  length_le : bytes.length ≤ 63

/-- A name is the list of the bytes of its labels. -/
abbrev Name := List (List UInt8)

/-- A label in a message: its length byte and its bytes. -/
def Label.wire (l : Label) : List UInt8 := UInt8.ofNat l.bytes.length :: l.bytes

/-- A name in a message: its labels and the zero byte that ends them. -/
def nameWire (labels : List Label) : List UInt8 := labels.flatMap Label.wire ++ [0]

/-- The byte at the start. -/
def takeByte : List UInt8 → Option (UInt8 × List UInt8)
  | [] => none
  | b :: mem => some (b, mem)

/-- The `n` bytes at the start. -/
def takeBytes (n : ℕ) (mem : List UInt8) : Option (List UInt8 × List UInt8) :=
  if n ≤ mem.length then some (mem.take n, mem.drop n) else none

/-- Read a name; every label and every pointer takes one unit of fuel. -/
def decodeName (msg : List UInt8) : ℕ → List UInt8 → Option (Name × List UInt8)
  | 0, _ => none
  | fuel + 1, mem => do
      let (n, mem) ← takeByte mem
      if n = 0 then some ([], mem)
      else if n &&& 0xc0 = 0xc0 then
        let (lo, mem) ← takeByte mem
        let (name, _) ← decodeName msg fuel (msg.drop ((n &&& 0x3f).toNat * 256 + lo.toNat))
        some (name, mem)
      else if n &&& 0xc0 = 0 then
        let (label, mem) ← takeBytes n.toNat mem
        let (name, mem) ← decodeName msg fuel mem
        some (label :: name, mem)
      else none

@[simp] theorem takeByte_cons (b : UInt8) (mem : List UInt8) :
    takeByte (b :: mem) = some (b, mem) := rfl

theorem takeBytes_append (l mem : List UInt8) : takeBytes l.length (l ++ mem) = some (l, mem) := by
  rw [takeBytes, if_pos (by rw [List.length_append]; omega), List.take_left, List.drop_left]

theorem Label.toNat_length (l : Label) : (UInt8.ofNat l.bytes.length).toNat = l.bytes.length :=
  Nat.mod_eq_of_lt (by have := l.length_le; omega)

/-- The two high bits of a length byte are zero, and the byte is not. -/
theorem Label.length_byte (l : Label) :
    UInt8.ofNat l.bytes.length ≠ 0 ∧ ¬ UInt8.ofNat l.bytes.length &&& 0xc0 = 0xc0 ∧
      UInt8.ofNat l.bytes.length &&& 0xc0 = 0 := by
  have hall : ∀ i : Fin 64, 0 < i.val →
      UInt8.ofNat i ≠ 0 ∧ ¬ UInt8.ofNat i &&& 0xc0 = 0xc0 ∧ UInt8.ofNat i &&& 0xc0 = 0 := by
    decide
  exact hall ⟨l.bytes.length, Nat.lt_succ_of_le l.length_le⟩ l.length_pos

theorem length_nameWire (labels : List Label) :
    (nameWire labels).length = (labels.flatMap Label.wire).length + 1 := by
  rw [nameWire, List.length_append, List.length_singleton]

/-- There are less labels than bytes. -/
theorem length_lt_nameWire (labels : List Label) : labels.length < (nameWire labels).length := by
  induction labels with
  | nil => exact Nat.one_pos
  | cons l labels ih =>
    rw [length_nameWire] at ih ⊢
    rw [List.flatMap_cons, List.length_append, Label.wire, List.length_cons, List.length_cons]
    omega

/-- A name without a pointer is read as its labels. -/
theorem decodeName_wire (msg : List UInt8) (labels : List Label) (mem : List UInt8) {fuel : ℕ}
    (hfuel : labels.length < fuel) :
    decodeName msg fuel (nameWire labels ++ mem) = some (labels.map Label.bytes, mem) := by
  obtain ⟨k, rfl⟩ : ∃ k, fuel = k + 1 := ⟨fuel - 1, by omega⟩
  induction labels generalizing k with
  | nil => rfl
  | cons l labels ih =>
    rw [List.length_cons] at hfuel
    obtain ⟨j, rfl⟩ : ∃ j, k = j + 1 := ⟨k - 1, by omega⟩
    obtain ⟨hne, hnotptr, hlabel⟩ := l.length_byte
    have hwire : nameWire (l :: labels) ++ mem =
        UInt8.ofNat l.bytes.length :: (l.bytes ++ (nameWire labels ++ mem)) := by
      simp [nameWire, Label.wire]
    rw [hwire, decodeName]
    simp only [takeByte_cons, Option.bind_eq_bind, Option.bind_some, if_neg hne, if_neg hnotptr,
      if_pos hlabel, l.toNat_length, takeBytes_append, ih j (by omega), List.map_cons]

/-- A pointer is read as the name that it points to. -/
theorem decodeName_pointer {msg mem mem' : List UInt8} {name : Name} {fuel : ℕ} (n lo : UInt8)
    (hn : n &&& 0xc0 = 0xc0)
    (htarget : decodeName msg fuel (msg.drop ((n &&& 0x3f).toNat * 256 + lo.toNat)) =
      some (name, mem')) :
    decodeName msg (fuel + 1) (n :: lo :: mem) = some (name, mem) := by
  have hne : n ≠ 0 := by
    rintro rfl
    exact absurd hn (by decide)
  rw [decodeName]
  simp only [takeByte_cons, Option.bind_eq_bind, Option.bind_some, if_neg hne, if_pos hn, htarget]

/-! ## Messages -/

/-- An entry of the question section. -/
structure Question where
  name : Name
  type : ℕ
  cls : ℕ
deriving DecidableEq

/-- An entry of the other sections. -/
structure Resource where
  name : Name
  type : ℕ
  cls : ℕ
  ttl : ℕ
  data : List UInt8
deriving DecidableEq

/-- A message with its four sections; the flags are the third and the fourth byte. -/
structure Message where
  id : ℕ
  flags : UInt8 × UInt8
  questions : List Question
  answers : List Resource
  authority : List Resource
  additional : List Resource
deriving DecidableEq

/-- A 16-bit number, high byte first. -/
def be16 (x : UInt16) : List UInt8 := [(x >>> 8).toUInt8, x.toUInt8]

/-- Read a 16-bit number. -/
def word16 : List UInt8 → Option (ℕ × List UInt8)
  | hi :: lo :: mem => some (hi.toNat * 256 + lo.toNat, mem)
  | _ => none

@[simp] theorem word16_be16 (x : UInt16) (mem : List UInt8) :
    word16 (be16 x ++ mem) = some (x.toNat, mem) := by
  have hhi : (x >>> 8).toUInt8.toNat = x.toNat / 256 := by
    have := x.toNat_lt
    simp only [UInt16.toNat_toUInt8, UInt16.toNat_shiftRight, Nat.shiftRight_eq_div_pow]
    simp only [UInt16.reduceToNat, Nat.reduceMod, Nat.reducePow]
    omega
  have hlo : x.toUInt8.toNat = x.toNat % 256 := UInt16.toNat_toUInt8 x
  have hread : word16 (be16 x ++ mem) =
      some ((x >>> 8).toUInt8.toNat * 256 + x.toUInt8.toNat, mem) := rfl
  rw [hread, hhi, hlo, Nat.div_add_mod']

def decodeQuestion (msg mem : List UInt8) : Option (Question × List UInt8) := do
  let (name, mem) ← decodeName msg msg.length mem
  let (type, mem) ← word16 mem
  let (cls, mem) ← word16 mem
  some (⟨name, type, cls⟩, mem)

def decodeResource (msg mem : List UInt8) : Option (Resource × List UInt8) := do
  let (name, mem) ← decodeName msg msg.length mem
  let (type, mem) ← word16 mem
  let (cls, mem) ← word16 mem
  let (ttlHigh, mem) ← word16 mem
  let (ttlLow, mem) ← word16 mem
  let (len, mem) ← word16 mem
  let (data, mem) ← takeBytes len mem
  some (⟨name, type, cls, ttlHigh * 65536 + ttlLow, data⟩, mem)

/-- Read a section of `n` entries. -/
def decodeMany {α : Type} (item : List UInt8 → Option (α × List UInt8)) :
    ℕ → List UInt8 → Option (List α × List UInt8)
  | 0, mem => some ([], mem)
  | n + 1, mem => do
      let (a, mem) ← item mem
      let (as, mem) ← decodeMany item n mem
      some (a :: as, mem)

/-- Read a message that fills its datagram. -/
def decode (msg : List UInt8) : Option Message := do
  let (id, mem) ← word16 msg
  let (flag1, mem) ← takeByte mem
  let (flag2, mem) ← takeByte mem
  let (qdCount, mem) ← word16 mem
  let (anCount, mem) ← word16 mem
  let (nsCount, mem) ← word16 mem
  let (arCount, mem) ← word16 mem
  let (questions, mem) ← decodeMany (decodeQuestion msg) qdCount mem
  let (answers, mem) ← decodeMany (decodeResource msg) anCount mem
  let (authority, mem) ← decodeMany (decodeResource msg) nsCount mem
  let (additional, mem) ← decodeMany (decodeResource msg) arCount mem
  if mem = [] then
    some ⟨id, (flag1, flag2), questions, answers, authority, additional⟩
  else none

/-- The fixed fields of a question behind its name. -/
def questionWire (type cls : UInt16) : List UInt8 := be16 type ++ be16 cls

/-- The header of a message. -/
def headerWire (id : UInt16) (flags : UInt8 × UInt8) (qdCount anCount nsCount arCount : UInt16) :
    List UInt8 :=
  be16 id ++ ([flags.1, flags.2] ++ (be16 qdCount ++ (be16 anCount ++ (be16 nsCount ++
    be16 arCount))))

/-- The fixed fields of a resource record behind its name, and its data. -/
def resourceWire (type cls ttlHigh ttlLow len : UInt16) (data : List UInt8) : List UInt8 :=
  be16 type ++ (be16 cls ++ (be16 ttlHigh ++ (be16 ttlLow ++ (be16 len ++ data))))

variable {msg mem mem' : List UInt8} {name : Name}

theorem decodeQuestion_wire (type cls : UInt16)
    (hname : decodeName msg msg.length mem = some (name, questionWire type cls ++ mem')) :
    decodeQuestion msg mem = some (⟨name, type.toNat, cls.toNat⟩, mem') := by
  simp only [decodeQuestion, hname, questionWire, List.append_assoc, Option.bind_eq_bind,
    Option.bind_some, word16_be16]

theorem decodeResource_wire (type cls ttlHigh ttlLow len : UInt16) {data : List UInt8}
    (hlen : data.length = len.toNat)
    (hname : decodeName msg msg.length mem =
      some (name, resourceWire type cls ttlHigh ttlLow len data ++ mem')) :
    decodeResource msg mem = some (⟨name, type.toNat, cls.toNat,
      ttlHigh.toNat * 65536 + ttlLow.toNat, data⟩, mem') := by
  simp only [decodeResource, hname, resourceWire, List.append_assoc, Option.bind_eq_bind,
    Option.bind_some, word16_be16, ← hlen, takeBytes_append]

/-- A section of one entry. -/
theorem decodeMany_one {α : Type} {item : List UInt8 → Option (α × List UInt8)} {a : α}
    (h : item mem = some (a, mem')) : decodeMany item 1 mem = some ([a], mem') := by
  simp only [decodeMany, h, Option.bind_eq_bind, Option.bind_some]

/-- A message is its header and its sections, up to the end of the datagram. -/
theorem decode_of_sections {id qdCount anCount nsCount arCount : UInt16} {flags : UInt8 × UInt8}
    {questions : List Question} {answers authority additional : List Resource}
    {mem₁ mem₂ mem₃ : List UInt8}
    (hmsg : msg = headerWire id flags qdCount anCount nsCount arCount ++ mem)
    (hqd : decodeMany (decodeQuestion msg) qdCount.toNat mem = some (questions, mem₁))
    (han : decodeMany (decodeResource msg) anCount.toNat mem₁ = some (answers, mem₂))
    (hns : decodeMany (decodeResource msg) nsCount.toNat mem₂ = some (authority, mem₃))
    (har : decodeMany (decodeResource msg) arCount.toNat mem₃ = some (additional, [])) :
    decode msg = some ⟨id.toNat, flags, questions, answers, authority, additional⟩ := by
  have hread : msg = be16 id ++ (flags.1 :: flags.2 :: (be16 qdCount ++ (be16 anCount ++
      (be16 nsCount ++ (be16 arCount ++ mem))))) := by
    rw [hmsg]
    simp [headerWire]
  rw [decode]
  -- only the first occurrence is taken apart: the message itself stays for the pointers
  rw [show word16 msg = some (id.toNat, _) by rw [hread, word16_be16]]
  simp only [Option.bind_eq_bind, Option.bind_some, takeByte_cons, word16_be16, hqd, han, hns, har,
    if_true]

end DnsWire
