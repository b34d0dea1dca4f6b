import NuAgent.Lib.DnsWire
import NuAgent.Lib.Overlay
import NuAgent.Net.DnsServer

/-!
# The answers of the DNS server

Reference: `DNSS_RecvCb`, `_DNSAnswerGenAndSend` and `_DNSNameErrGenAndSend` of
`App/DnsServer/dns_server.c`.

A query is copied to a block of its own length. What behind the name is taken for type and class is
found with `strlen`, and the filter drops a query only if both are not the expected ones: a query
for another type of the class `IN`, or for an address in another class, is answered like one for an
address. What is answered is a well-formed message in every case.
-/

namespace NuAgent.Net

open CInt CString Holes
open DnsWire (be16 nameWire questionWire headerWire resourceWire)
open NuAgent.Dhcp (wordBytes htonl)

/-! ## Numbers in memory -/

/-- The two bytes of a 16-bit number in memory, lowest first. -/
def halfBytes (x : UInt16) : List UInt8 := [x.toUInt8, (x >>> 8).toUInt8]

/-- The 16-bit number that two bytes of memory hold. -/
def half (lo hi : UInt8) : UInt16 := lo.toUInt16 ||| hi.toUInt16 <<< 8

/-- `htons` on the little-endian core: the two bytes swapped. -/
def htons (x : UInt16) : UInt16 := half (x >>> 8).toUInt8 x.toUInt8

/-- A number that was sent is read with its bytes swapped. -/
theorem half_be16 (x : UInt16) : half (x >>> 8).toUInt8 x.toUInt8 = htons x := rfl

theorem halfBytes_half (lo hi : UInt8) : halfBytes (half lo hi) = [lo, hi] := by
  have hlo : (half lo hi).toUInt8 = lo := by
    apply UInt8.eq_of_toBitVec_eq
    ext i hi
    simp [half]
  have hhi : (half lo hi >>> 8).toUInt8 = hi := by
    apply UInt8.eq_of_toBitVec_eq
    ext i hi
    simp [half]
    interval_cases i <;> simp
  rw [halfBytes, hlo, hhi]

theorem half_inj {lo hi lo' hi' : UInt8} : half lo hi = half lo' hi' ↔ lo = lo' ∧ hi = hi' := by
  constructor
  · intro h
    have hbytes := congrArg halfBytes h
    rw [halfBytes_half, halfBytes_half] at hbytes
    simpa using hbytes
  · rintro ⟨rfl, rfl⟩
    rfl

/-- The bytes the other way round. -/
theorem half_swap (lo hi : UInt8) : half lo hi = htons (half hi lo) := by
  have hbytes := halfBytes_half hi lo
  rw [halfBytes, List.cons.injEq, List.cons.injEq] at hbytes
  rw [htons, hbytes.1, hbytes.2.1]

/-- A number in network order has its high byte first. -/
theorem halfBytes_htons (x : UInt16) : halfBytes (htons x) = be16 x := halfBytes_half _ _

/-! ## The source -/

/-- `DNS_RRTYPE_A`. -/
def dnsRrtypeA : UInt16 := 1
/-- `DNS_RRCLASS_IN`. -/
def dnsRrclassIn : UInt16 := 1
/-- `DNS_DEFAULT_TTL`. -/
def dnsDefaultTtl : UInt32 := 3600
/-- `DNS_FLAG1_RESPONSE`. -/
def dnsFlag1Response : UInt8 := 0x80
/-- `DNS_FLAG1_OPCODE_STANDARD`. -/
def dnsFlag1OpcodeStandard : UInt8 := 0x00
/-- `DNS_FLAG2_ERR_NONE`. -/
def dnsFlag2ErrNone : UInt8 := 0x00
/-- `DNS_FLAG2_ERR_NAME`. -/
def dnsFlag2ErrName : UInt8 := 0x03
/-- `DNS_NAME_OFFSET`. -/
def dnsNameOffset : UInt16 := 0xC000
/-- `sizeof(DNS_HEADER)`. -/
def sizeofHeader : ℕ := 12

/-- `DNS_QUERY`. -/
structure DnsQuery where
  type : UInt16
  cls : UInt16

/-- `DNS_QUERY` in memory. -/
def DnsQuery.mem (q : DnsQuery) : List UInt8 := halfBytes q.type ++ halfBytes q.cls

/-- What the allocators answer: `OSMMalloc` for the copy of the message, `OSMMalloc` for the reply
with what the block holds, and `pbuf_alloc`. -/
structure Alloc where
  msg : Bool
  reply : Option (ℕ → UInt8)
  pbuf : Bool

/-- A reply under construction: the block, the offset of `Body` in it, and `Len`. -/
structure Draft where
  block : List UInt8
  body : ℕ
  len : ℕ

/-- Copy a piece to `Body` and count it; `none` is a write outside of the block. -/
def Draft.move (d : Draft) (piece : List UInt8) : Option Draft := do
  let block ← Block.write d.block d.body piece
  some ⟨block, d.body + piece.length, d.len + piece.length⟩

/-- Build a reply of the pieces in a block of `size` bytes, and send it. -/
def genAndSend (alloc : Alloc) (size : ℕ) (pieces : List (List UInt8)) :
    Option (Option (List UInt8)) :=
  match alloc.reply with
  | none => some none
  | some junk => do
      let d ← pieces.foldlM Draft.move ⟨Memory.window junk 0 size, 0, 0⟩
      some (if alloc.pbuf then some (d.block.take d.len) else none)

/-- What `_DNSNameErrGenAndSend` moves to the reply. -/
def nameErrPieces (dnsQuery : DnsQuery) (queryName : List UInt8) (tansactionId : UInt16) :
    List (List UInt8) :=
  [ -- Header.
    halfBytes tansactionId ++ [dnsFlag1Response, dnsFlag2ErrName] ++ halfBytes (htons 1) ++
      halfBytes 0 ++ halfBytes 0 ++ halfBytes 0,
    -- Querry.
    queryName.take (strlen queryName + 1), dnsQuery.mem]

/-- `_DNSNameErrGenAndSend`. -/
def dnsNameErrGenAndSend (alloc : Alloc) (dnsQuery : DnsQuery) (queryName : List UInt8)
    (tansactionId : UInt16) : Option (Option (List UInt8)) :=
  genAndSend alloc ((sizeofHeader + (strlen queryName + 1) + 4 + 3) >>> 2 <<< 2)
    (nameErrPieces dnsQuery queryName tansactionId)

/-- What `_DNSAnswerGenAndSend` moves to the reply. -/
def answerPieces (hostIp : UInt32) (dnsQuery : DnsQuery) (queryName : List UInt8)
    (tansactionId : UInt16) : List (List UInt8) :=
  [ -- Header.
    halfBytes tansactionId ++ [dnsFlag1Response, dnsFlag2ErrNone] ++ halfBytes (htons 1) ++
      halfBytes (htons 1) ++ halfBytes 0 ++ halfBytes 0,
    -- Querry.
    queryName.take (strlen queryName + 1), dnsQuery.mem,
    -- NAME: provided as offset to first occurence in response.
    halfBytes (htons (dnsNameOffset ||| UInt16.ofNat sizeofHeader)),
    -- Answer.
    halfBytes (htons dnsRrtypeA) ++ halfBytes (htons dnsRrclassIn) ++
      wordBytes (htonl dnsDefaultTtl),
    -- Length.
    halfBytes (htons 4),
    -- IP Address.
    wordBytes hostIp]

/-- `_DNSAnswerGenAndSend`. -/
def dnsAnswerGenAndSend (hostIp : UInt32) (alloc : Alloc) (dnsQuery : DnsQuery)
    (queryName : List UInt8) (tansactionId : UInt16) : Option (Option (List UInt8)) :=
  genAndSend alloc
    ((sizeofHeader + (strlen queryName + 1) + 4 + 2 + 8 + 2 + 4 + 3) >>> 2 <<< 2)
    (answerPieces hostIp dnsQuery queryName tansactionId)

/-- The string of a piece of memory, with its NUL byte inside of it: `none` is a read outside. -/
def strlenInside (mem : List UInt8) : Option ℕ := if 0 ∈ mem then some (strlen mem) else none

/-- `NST_MOVE_MEM(&DnsQuery, ..)` from an offset of the memory. -/
def DnsQuery.read (mem : List UInt8) (off : ℕ) : Option DnsQuery := do
  let t0 ← mem[off]?
  let t1 ← mem[off + 1]?
  let c0 ← mem[off + 2]?
  let c1 ← mem[off + 3]?
  some ⟨half t0 t1, half c0 c1⟩

/-- `DNSS_RecvCb`: what is sent for the datagram `msg`. `own` is the memory that `DnsName` stands in,
and `none` is a read outside of either, or a write outside of the reply. -/
def dnssRecvCb (own : List UInt8) (hostIp : UInt32) (alloc : Alloc) (msg : List UInt8) :
    Option (Option (List UInt8)) :=
  if !alloc.msg then some none
  else do
    let dnsFlag1 ← msg[2]?
    if dnsFlag1 &&& dnsFlag1Response ≠ 0 ∨
        dnsFlag1 &&& (0xf : UInt8) <<< 3 ≠ dnsFlag1OpcodeStandard then some none
    else
      let dnsName := msg.drop sizeofHeader
      let len ← strlenInside dnsName
      let dnsQuery ← DnsQuery.read dnsName (len + 1)
      if dnsQuery.cls ≠ htons dnsRrclassIn ∧ dnsQuery.type ≠ htons dnsRrtypeA then some none
      else
        let r ← dnsCompareName own dnsName
        let id0 ← msg[0]?
        let id1 ← msg[1]?
        if r ≠ 0 then dnsNameErrGenAndSend alloc dnsQuery dnsName (half id0 id1)
        else dnsAnswerGenAndSend hostIp alloc dnsQuery dnsName (half id0 id1)

/-! ## Building a reply -/

/-- The pieces moved so far fill the block up to `Body`, and `Len` counts them. -/
structure Draft.Holds (size : ℕ) (done : List UInt8) (d : Draft) : Prop where
  size_eq : d.block.length = size
  body_eq : d.body = done.length
  len_eq : d.len = done.length
  take_eq : d.block.take done.length = done

theorem Draft.Holds.move {size : ℕ} {done : List UInt8} {d : Draft} (h : d.Holds size done)
    (piece : List UInt8) (hfit : done.length + piece.length ≤ size) :
    ∃ d', d.move piece = some d' ∧ d'.Holds size (done ++ piece) := by
  have hinside : d.body + piece.length ≤ d.block.length := by rw [h.body_eq, h.size_eq]; exact hfit
  refine ⟨_, by rw [Draft.move, Block.write_of_le hinside]; rfl, ?_, ?_, ?_, ?_⟩
  · rw [Block.length_splice hinside, h.size_eq]
  · rw [h.body_eq, List.length_append]
  · rw [h.len_eq, List.length_append]
  · rw [h.body_eq, Block.splice, h.take_eq, List.take_left]

theorem Draft.Holds.moves {size : ℕ} {done : List UInt8} {d : Draft} (h : d.Holds size done)
    {pieces : List (List UInt8)} (hfit : done.length + pieces.flatten.length ≤ size) :
    ∃ d', pieces.foldlM Draft.move d = some d' ∧ d'.Holds size (done ++ pieces.flatten) := by
  induction pieces generalizing d done with
  | nil => exact ⟨d, rfl, by rwa [List.flatten_nil, List.append_nil]⟩
  | cons piece pieces ih =>
    rw [List.flatten_cons, List.length_append] at hfit
    obtain ⟨d₁, hmove, hd₁⟩ := h.move piece (by omega)
    obtain ⟨d₂, hmoves, hd₂⟩ := ih hd₁ (by rw [List.length_append]; omega)
    refine ⟨d₂, ?_, by rwa [List.flatten_cons, ← List.append_assoc]⟩
    rw [List.foldlM_cons, hmove]
    exact hmoves

/-- Pieces that fit in the block are sent one behind the other. -/
theorem genAndSend_of_le {alloc : Alloc} {size : ℕ} {pieces : List (List UInt8)}
    (hfit : pieces.flatten.length ≤ size) :
    genAndSend alloc size pieces =
      some (if alloc.reply.isSome ∧ alloc.pbuf then some pieces.flatten else none) := by
  rw [genAndSend]
  cases alloc.reply with
  | none => simp
  | some junk =>
    have hstart : Draft.Holds size [] ⟨Memory.window junk 0 size, 0, 0⟩ :=
      ⟨Memory.length_window, rfl, rfl, rfl⟩
    obtain ⟨d, hmoves, hd⟩ := hstart.moves (by simpa using hfit)
    rw [List.nil_append] at hd
    simp only [hmoves, Option.bind_eq_bind, Option.bind_some, hd.len_eq, hd.take_eq,
      Option.isSome_some, true_and]

/-- The round-up to whole words leaves room for the pieces. -/
theorem le_round (n : ℕ) : n ≤ (n + 3) >>> 2 <<< 2 := by
  rw [Nat.shiftRight_eq_div_pow, Nat.shiftLeft_eq]
  omega

theorem length_take_strlen {mem : List UInt8} (hzero : 0 ∈ mem) :
    (mem.take (strlen mem + 1)).length = strlen mem + 1 := by
  have hlt := strlen_lt_of_mem hzero
  rw [List.length_take]
  omega

section
variable {hostIp : UInt32} {alloc : Alloc} {q : DnsQuery} {name : List UInt8} {id : UInt16}

/-- The reply of `_DNSNameErrGenAndSend`. -/
theorem dnsNameErrGenAndSend_eq (hzero : 0 ∈ name) :
    dnsNameErrGenAndSend alloc q name (htons id) = some
      (if alloc.reply.isSome ∧ alloc.pbuf then
        some (headerWire id (0x80, 3) 1 0 0 0 ++ (name.take (strlen name + 1) ++ q.mem))
      else none) := by
  have hlen := length_take_strlen hzero
  have hheader : halfBytes (htons id) ++ [dnsFlag1Response, dnsFlag2ErrName] ++
      halfBytes (htons 1) ++ halfBytes 0 ++ halfBytes 0 ++ halfBytes 0 =
        headerWire id (0x80, 3) 1 0 0 0 := by
    rw [halfBytes_htons]
    rfl
  rw [dnsNameErrGenAndSend, genAndSend_of_le, nameErrPieces]
  · rw [hheader]
    simp
  · refine le_trans (le_of_eq ?_) (le_round _)
    simp [nameErrPieces, hlen, sizeofHeader, halfBytes, DnsQuery.mem]
    omega

/-- The reply of `_DNSAnswerGenAndSend`. -/
theorem dnsAnswerGenAndSend_eq (hzero : 0 ∈ name) :
    dnsAnswerGenAndSend hostIp alloc q name (htons id) = some
      (if alloc.reply.isSome ∧ alloc.pbuf then
        some (headerWire id (0x80, 0) 1 1 0 0 ++ (name.take (strlen name + 1) ++ (q.mem ++
          ([0xc0, 12] ++ resourceWire 1 1 0 3600 4 (wordBytes hostIp)))))
      else none) := by
  have hlen := length_take_strlen hzero
  have hheader : halfBytes (htons id) ++ [dnsFlag1Response, dnsFlag2ErrNone] ++
      halfBytes (htons 1) ++ halfBytes (htons 1) ++ halfBytes 0 ++ halfBytes 0 =
        headerWire id (0x80, 0) 1 1 0 0 := by
    rw [halfBytes_htons]
    rfl
  have hoffset : halfBytes (htons (dnsNameOffset ||| UInt16.ofNat sizeofHeader)) = [0xc0, 12] := by
    decide
  have hanswer : halfBytes (htons dnsRrtypeA) ++ halfBytes (htons dnsRrclassIn) ++
      wordBytes (htonl dnsDefaultTtl) = be16 1 ++ (be16 1 ++ (be16 0 ++ be16 3600)) := by
    decide
  rw [dnsAnswerGenAndSend, genAndSend_of_le, answerPieces]
  · rw [hheader, hoffset, hanswer, halfBytes_htons]
    simp [resourceWire]
  · refine le_trans (le_of_eq ?_) (le_round _)
    simp [answerPieces, hlen, sizeofHeader, halfBytes, DnsQuery.mem, wordBytes]
    omega

end

/-- An answer whose name points to the question is read as the question and one record with the name
of the question. -/
theorem decode_answer (id type cls : UInt16) (labels : List DnsWire.Label) {data : List UInt8}
    (hdata : data.length = 4) :
    DnsWire.decode (headerWire id (0x80, 0) 1 1 0 0 ++ (nameWire labels ++ (questionWire type cls ++
        ([0xc0, 12] ++ resourceWire 1 1 0 3600 4 data)))) =
      some ⟨id.toNat, (0x80, 0), [⟨labels.map DnsWire.Label.bytes, type.toNat, cls.toNat⟩],
        [⟨labels.map DnsWire.Label.bytes, 1, 1, 3600, data⟩], [], []⟩ := by
  generalize hmsg : headerWire id (0x80, 0) 1 1 0 0 ++ (nameWire labels ++ (questionWire type cls ++
    ([0xc0, 12] ++ resourceWire 1 1 0 3600 4 data))) = msg
  have hlen : 12 + (nameWire labels).length < msg.length := by
    rw [← hmsg]
    simp [headerWire, be16]
    omega
  have hfuel := DnsWire.length_lt_nameWire labels
  have hquestion := DnsWire.decodeQuestion_wire type cls
    (DnsWire.decodeName_wire msg labels (questionWire type cls ++
      ([0xc0, 12] ++ resourceWire 1 1 0 3600 4 data)) (show labels.length < msg.length by omega))
  -- the pointer leads behind the header, where the name of the question is
  have htarget : msg.drop 12 = nameWire labels ++ (questionWire type cls ++
      ([0xc0, 12] ++ resourceWire 1 1 0 3600 4 data)) := by
    rw [← hmsg]
    exact List.drop_left' rfl
  have hname : DnsWire.decodeName msg msg.length
      ([0xc0, 12] ++ (resourceWire 1 1 0 3600 4 data ++ [])) =
        some (labels.map DnsWire.Label.bytes, resourceWire 1 1 0 3600 4 data ++ []) := by
    obtain ⟨k, hk⟩ : ∃ k, msg.length = k + 1 := ⟨msg.length - 1, by omega⟩
    have hname := DnsWire.decodeName_wire msg labels (questionWire type cls ++
      ([0xc0, 12] ++ resourceWire 1 1 0 3600 4 data)) (show labels.length < k by omega)
    rw [← htarget] at hname
    rw [hk]
    exact DnsWire.decodeName_pointer 0xc0 12 rfl hname
  have hanswer := DnsWire.decodeResource_wire 1 1 0 3600 4 hdata hname
  rw [List.append_nil] at hanswer
  exact DnsWire.decode_of_sections hmsg.symm (DnsWire.decodeMany_one hquestion)
    (DnsWire.decodeMany_one hanswer) rfl rfl

/-! ## What the comparison accepts -/

section
variable (own : List UInt8)

/-- The labels of a name with a hole between each two. -/
def namePattern (labels : List DnsWire.Label) : List (Option UInt8) :=
  separated (labels.map DnsWire.Label.bytes)

/-- The loop accepts a name iff all labels agree with the memory and the byte behind is zero. -/
theorem compareLoop_zero_iff (l : DnsWire.Label) (labels : List DnsWire.Label) (rest : List UInt8)
    (m : ℕ) :
    compareLoop own (nameWire (l :: labels) ++ rest) m = some 0 ↔
      Fits nstToUpper own m (namePattern (l :: labels)) ∧
        own[m + (namePattern (l :: labels)).length]? = some 0 := by
  induction labels generalizing l m with
  | nil =>
    have hquery : nameWire [l] ++ rest = UInt8.ofNat l.bytes.length :: (l.bytes ++ 0 :: rest) := by
      simp [nameWire, DnsWire.Label.wire]
    have hpattern : namePattern [l] = l.bytes.map some := separated_singleton _
    rw [hquery, compareLoop, if_neg l.length_byte.2.1, l.toNat_length, List.drop_left, hpattern,
      List.length_map, ← compareLabel_true_iff own _ (0 :: rest), ← compareEnd_zero_iff]
    cases compareLabel own l.bytes.length (l.bytes ++ 0 :: rest) m with
    | none => simp
    | some b => cases b <;> simp
  | cons l' labels ih =>
    have hquery : nameWire (l :: l' :: labels) ++ rest =
        UInt8.ofNat l.bytes.length :: (l.bytes ++ (nameWire (l' :: labels) ++ rest)) := by
      simp [nameWire, DnsWire.Label.wire]
    have hhead : (nameWire (l' :: labels) ++ rest).head? = some (UInt8.ofNat l'.bytes.length) :=
      rfl
    have hpattern : namePattern (l :: l' :: labels) =
        l.bytes.map some ++ none :: namePattern (l' :: labels) :=
      separated_cons _ (List.cons_ne_nil _ _)
    have hend : m + (l.bytes.length + ((namePattern (l' :: labels)).length + 1)) =
        m + l.bytes.length + 1 + (namePattern (l' :: labels)).length := by omega
    rw [hquery, compareLoop, if_neg l.length_byte.2.1, l.toNat_length, List.drop_left, hhead,
      hpattern, fits_append, fits_cons_none, List.length_append, List.length_map, List.length_cons,
      hend, and_assoc, ← ih, ← compareLabel_true_iff own _ (nameWire (l' :: labels) ++ rest)]
    cases compareLabel own l.bytes.length (l.bytes ++ (nameWire (l' :: labels) ++ rest)) m with
    | none => simp
    | some b =>
      cases b with
      | true => simp [l'.length_byte.1]
      | false => simp

end

/-! ## Queries -/

/-- A datagram with one question, whose name has no pointer; `rest` are the entries of the other
sections. -/
structure Query where
  id : UInt16
  flag1 : UInt8
  flag2 : UInt8
  labels : List DnsWire.Label
  type : UInt16
  cls : UInt16
  anCount : UInt16
  nsCount : UInt16
  arCount : UInt16
  rest : List UInt8
  length_lt : 12 + (nameWire labels).length + 4 + rest.length < 65536

namespace Query

variable (q : Query)

/-- What follows the header. -/
def body : List UInt8 := nameWire q.labels ++ (questionWire q.type q.cls ++ q.rest)

/-- The datagram. -/
def wire : List UInt8 :=
  headerWire q.id (q.flag1, q.flag2) 1 q.anCount q.nsCount q.arCount ++ q.body

/-- What stands behind the first zero byte: type and class, unless a label has a zero byte. -/
def found : DnsQuery where
  type := half (q.body.getD (strlen q.body + 1) 0) (q.body.getD (strlen q.body + 2) 0)
  cls := half (q.body.getD (strlen q.body + 3) 0) (q.body.getD (strlen q.body + 4) 0)

/-- The name of the question agrees with the memory of the own name outside of the separators, and a
zero byte follows there. -/
def Matches (own : List UInt8) : Prop :=
  q.labels ≠ [] ∧ strlen q.body ≤ 33 ∧ Fits nstToUpper own 0 (namePattern q.labels) ∧
    own[(namePattern q.labels).length]? = some 0

/-- The filter lets the query pass, and the comparison accepts the name. -/
def Answered (own : List UInt8) : Prop :=
  q.flag1 &&& 0x80 = 0 ∧ q.flag1 &&& (0xf : UInt8) <<< 3 = 0 ∧
    (q.found.cls = htons 1 ∨ q.found.type = htons 1) ∧ q.Matches own

theorem zero_mem_body : 0 ∈ q.body := by
  simp [body, nameWire]

theorem strlen_body_lt : strlen q.body < (nameWire q.labels).length := by
  have hzero : 0 ∈ nameWire q.labels := by simp [nameWire]
  rw [strlen, body, cstr_append_of_mem hzero]
  exact strlen_lt_of_mem hzero

theorem length_body :
    q.body.length = (nameWire q.labels).length + 4 + q.rest.length := by
  simp [body, questionWire, be16]
  omega

theorem dnsCompareName_zero_iff (own : List UInt8) :
    dnsCompareName own q.body = some 0 ↔ q.Matches own := by
  have hlt := q.strlen_body_lt
  have hlen := q.length_lt
  rw [dnsCompareName, Matches]
  cases hlabels : q.labels with
  | nil =>
    have hempty : strlen q.body = 0 := by
      rw [body, hlabels]
      rfl
    rw [hempty, if_pos (by decide)]
    exact iff_of_false (by decide) fun h => h.1 rfl
  | cons l labels =>
    have hpos : 1 ≤ strlen q.body := by
      rw [body, hlabels, nameWire, List.flatMap_cons, DnsWire.Label.wire]
      simp [strlen, cstr, l.length_byte.1]
    have hcount : u32 ((strlen q.body : ℤ) - 1) = strlen q.body - 1 := by
      rw [u32_of_lt (by omega) (by omega)]
      omega
    have hloop := compareLoop_zero_iff own l labels
      (questionWire q.type q.cls ++ q.rest) 0
    rw [← hlabels, Nat.zero_add] at hloop
    rw [hcount, ← hlabels, ← hloop, ← body]
    split_ifs with hlong
    · exact iff_of_false (by decide) fun h => by omega
    · rw [and_iff_right (by rw [hlabels]; exact List.cons_ne_nil _ _), and_iff_right (by omega)]

/-- The bytes behind the first zero byte lie inside of the datagram. -/
theorem read_found : DnsQuery.read q.body (strlen q.body + 1) = some q.found := by
  have hlt := q.strlen_body_lt
  have hlen := q.length_body
  have hget : ∀ i < 4, q.body[strlen q.body + 1 + i]? =
      some (q.body.getD (strlen q.body + 1 + i) 0) := by
    intro i hi
    rw [List.getD_eq_getElem?_getD, List.getElem?_eq_getElem (by omega), Option.getD_some]
  have h0 := hget 0 (by decide)
  have h1 := hget 1 (by decide)
  have h2 := hget 2 (by decide)
  have h3 := hget 3 (by decide)
  simp only [Nat.add_zero, Nat.add_assoc, Nat.reduceAdd] at h0 h1 h2 h3
  simp only [DnsQuery.read, Nat.add_assoc, Nat.reduceAdd, h0, h1, h2, h3, Option.bind_eq_bind,
    Option.bind_some, found]

/-- The reply with the address of the server, built from the bytes up to the first zero byte and the
four behind it. -/
def answer (hostIp : UInt32) : List UInt8 :=
  headerWire q.id (0x80, 0) 1 1 0 0 ++ (q.body.take (strlen q.body + 1) ++ (q.found.mem ++
    ([0xc0, 12] ++ resourceWire 1 1 0 3600 4 (wordBytes hostIp))))

/-- What the callback does with a query. -/
theorem dnssRecvCb_wire (own : List UInt8) (hostIp : UInt32) (junk : ℕ → UInt8) :
    dnssRecvCb own hostIp ⟨true, some junk, true⟩ q.wire =
      if q.flag1 &&& 0x80 ≠ 0 ∨ q.flag1 &&& (0xf : UInt8) <<< 3 ≠ 0 then some none
      else if q.found.cls ≠ htons 1 ∧ q.found.type ≠ htons 1 then some none
      else (dnsCompareName own q.body).bind fun r =>
        if r ≠ 0 then
          some (some (headerWire q.id (0x80, 3) 1 0 0 0 ++
            (q.body.take (strlen q.body + 1) ++ q.found.mem)))
        else some (some (q.answer hostIp)) := by
  have hflag : q.wire[2]? = some q.flag1 := rfl
  have hid0 : q.wire[0]? = some (q.id >>> 8).toUInt8 := rfl
  have hid1 : q.wire[1]? = some q.id.toUInt8 := rfl
  have hdrop : q.wire.drop sizeofHeader = q.body := List.drop_left' rfl
  have hlen : strlenInside q.body = some (strlen q.body) := if_pos q.zero_mem_body
  rw [dnssRecvCb]
  simp only [hflag, hid0, hid1, hdrop, hlen, q.read_found, half_be16,
    dnsNameErrGenAndSend_eq q.zero_mem_body, dnsAnswerGenAndSend_eq q.zero_mem_body,
    Option.bind_eq_bind, Option.bind_some, Bool.not_true, Bool.false_eq_true, if_false,
    Option.isSome_some, and_self, if_true]
  rfl

/-- A question without zero bytes in its labels is where the code looks for it. -/
theorem found_of_noNul (h : ∀ l ∈ q.labels, NoNul l.bytes) :
    q.body.take (strlen q.body + 1) = nameWire q.labels ∧
      q.found = ⟨htons q.type, htons q.cls⟩ := by
  have hnul : NoNul (q.labels.flatMap DnsWire.Label.wire) := by
    intro b hb
    obtain ⟨l, hl, hbl⟩ := List.mem_flatMap.mp hb
    rcases List.mem_cons.mp hbl with rfl | hbl
    · exact l.length_byte.1
    · exact h l hl b hbl
  have hbody : q.body = q.labels.flatMap DnsWire.Label.wire ++
      0 :: (be16 q.type ++ (be16 q.cls ++ q.rest)) := by
    simp [body, nameWire, questionWire]
  have hlen : strlen q.body = (q.labels.flatMap DnsWire.Label.wire).length := by
    rw [strlen, hbody, cstr_terminated hnul]
  have htake : q.body.take (strlen q.body + 1) = nameWire q.labels := by
    rw [hlen, ← DnsWire.length_nameWire, body, List.take_left]
  have hget : ∀ i, q.body.getD (strlen q.body + 1 + i) 0 =
      (be16 q.type ++ (be16 q.cls ++ q.rest)).getD i 0 := by
    intro i
    rw [hlen, hbody, List.getD_eq_getElem?_getD, List.getElem?_append_right (by omega),
      Nat.add_assoc, Nat.add_sub_cancel_left, Nat.add_comm 1, List.getElem?_cons_succ,
      List.getD_eq_getElem?_getD]
  refine ⟨htake, ?_⟩
  rw [found, hget 0, show strlen q.body + 2 = strlen q.body + 1 + 1 from rfl, hget 1,
    show strlen q.body + 3 = strlen q.body + 1 + 2 from rfl, hget 2,
    show strlen q.body + 4 = strlen q.body + 1 + 3 from rfl, hget 3]
  rfl

end Query

/-- A reply with a record in its answer section. -/
def CarriesAnswer (reply : List UInt8) : Prop := (reply.drop 6).take 2 ≠ [0, 0]

/-- The name of the server, the string in its field. -/
def DnsServer.name (s : DnsServer) : List UInt8 := cstr s.dnsName.val

/-- The labels joined with dots are the name, up to the case of letters. -/
def Named (labels : List DnsWire.Label) (name : List UInt8) : Prop :=
  ([dot].intercalate (labels.map DnsWire.Label.bytes)).map nstToUpper = name.map nstToUpper

instance (labels : List DnsWire.Label) (name : List UInt8) : Decidable (Named labels name) :=
  inferInstanceAs (Decidable (_ = _))

section
variable {mem : List UInt8} {s : DnsServer} {q : Query} {own : List UInt8} {hostIp : UInt32}

/-- The string in the field is the name that was set. -/
theorem Accepted.name_eq (h : Accepted mem s) : s.name = cstr mem := by
  obtain ⟨hlen, hname⟩ := h.dnsName
  rw [DnsServer.name, hname, DnsName.val_ofString]
  by_cases hroom : (cstr mem).length < 32
  · obtain ⟨k, hk⟩ : ∃ k, 32 - (cstr mem).length = k + 1 := ⟨31 - (cstr mem).length, by omega⟩
    rw [hk, List.replicate_succ, cstr_terminated (noNul_cstr mem)]
  · have hzero : 32 - (cstr mem).length = 0 := by omega
    rw [hzero, List.replicate_zero, cstr_append (noNul_cstr mem)]
    exact List.append_nil _

/-- A query for the name of the server has no zero byte in a label. -/
theorem Named.noNul {labels : List DnsWire.Label} (h : Named labels s.name) :
    ∀ l ∈ labels, NoNul l.bytes := by
  intro l hl b hb hzero
  have hjoined : b ∈ [dot].intercalate (labels.map DnsWire.Label.bytes) :=
    mem_intercalate (List.mem_map_of_mem hl) hb
  have hupper : nstToUpper b ∈ s.name.map nstToUpper := by
    rw [← h]
    exact List.mem_map_of_mem hjoined
  obtain ⟨c, hc, hcb⟩ := List.mem_map.mp hupper
  rw [hzero, (nstToUpper_eq_zero 0).mpr rfl, nstToUpper_eq_zero] at hcb
  exact noNul_cstr _ c hc hcb

/-- A record is sent just for the queries that pass the filter and the comparison. -/
theorem answered_iff (junk : ℕ → UInt8) (reply : List UInt8) :
    dnssRecvCb own hostIp ⟨true, some junk, true⟩ q.wire = some (some reply) ∧
      CarriesAnswer reply ↔ q.Answered own ∧ reply = q.answer hostIp := by
  rw [q.dnssRecvCb_wire, Query.Answered]
  by_cases hflags : q.flag1 &&& 0x80 ≠ 0 ∨ q.flag1 &&& (0xf : UInt8) <<< 3 ≠ 0
  · rw [if_pos hflags]
    refine iff_of_false (by simp) fun h => ?_
    rcases hflags with hflag | hflag
    · exact hflag h.1.1
    · exact hflag h.1.2.1
  rw [if_neg hflags]
  rw [not_or, not_not, not_not] at hflags
  by_cases hfilter : q.found.cls ≠ htons 1 ∧ q.found.type ≠ htons 1
  · rw [if_pos hfilter]
    refine iff_of_false (by simp) fun h => ?_
    rcases h.1.2.2.1 with hcls | htype
    · exact hfilter.1 hcls
    · exact hfilter.2 htype
  rw [if_neg hfilter]
  rw [not_and_or, not_not, not_not] at hfilter
  rw [and_iff_right hflags.1, and_iff_right hflags.2, and_iff_right hfilter,
    ← q.dnsCompareName_zero_iff]
  cases dnsCompareName own q.body with
  | none => simp
  | some r =>
    rw [Option.bind_some, Option.some.injEq]
    by_cases hr : r ≠ 0
    · -- the reply of a name error counts no answer
      rw [if_pos hr]
      refine iff_of_false ?_ fun h => hr h.1
      rintro ⟨hreply, hcarries⟩
      cases hreply
      exact hcarries rfl
    · have hcount : ((q.answer hostIp).drop 6).take 2 = [0, 1] := rfl
      rw [if_neg hr, and_iff_right (not_not.mp hr), Option.some.injEq, Option.some.injEq]
      constructor
      · exact fun h => h.1.symm
      · rintro rfl
        exact ⟨rfl, by rw [CarriesAnswer, hcount]; decide⟩

/-- The server answers a query only if it is a standard query for the address of its name, and then
with a message that has the question of the query and one record with the address. -/
def OnlyAsked (s : DnsServer) (after : List UInt8) (q : Query) : Prop :=
  ∀ junk reply,
    dnssRecvCb (s.mem ++ after) s.hostIp ⟨true, some junk, true⟩ q.wire = some (some reply) →
    CarriesAnswer reply →
      q.flag1 &&& 0x80 = 0 ∧ q.flag1 &&& (0xf : UInt8) <<< 3 = 0 ∧ q.type = dnsRrtypeA ∧
        q.cls = dnsRrclassIn ∧ Named q.labels s.name ∧
        DnsWire.decode reply = some
          { id := q.id.toNat
            flags := (0x80, 0)
            questions := [⟨q.labels.map DnsWire.Label.bytes, q.type.toNat, q.cls.toNat⟩]
            answers := [⟨q.labels.map DnsWire.Label.bytes, 1, 1, 3600, wordBytes s.hostIp⟩]
            authority := []
            additional := [] }

/-- The answer to a query without zero bytes in its labels is a well-formed message. -/
theorem Query.decode_answer (q : Query) (h : ∀ l ∈ q.labels, NoNul l.bytes) (hostIp : UInt32) :
    DnsWire.decode (q.answer hostIp) = some ⟨q.id.toNat, (0x80, 0),
      [⟨q.labels.map DnsWire.Label.bytes, q.type.toNat, q.cls.toNat⟩],
      [⟨q.labels.map DnsWire.Label.bytes, 1, 1, 3600, wordBytes hostIp⟩], [], []⟩ := by
  obtain ⟨htake, hfound⟩ := q.found_of_noNul h
  have hmem : q.found.mem = questionWire q.type q.cls := by
    rw [hfound, DnsQuery.mem, halfBytes_htons, halfBytes_htons, questionWire]
  rw [Query.answer, htake, hmem]
  exact NuAgent.Net.decode_answer q.id q.type q.cls q.labels rfl

/-- For every state of the server, every memory behind it and every query, the server answers only
what it was asked iff a query that passes the filter and the comparison is one for the address of
its name. -/
theorem onlyAsked_iff (s : DnsServer) (after : List UInt8) (q : Query) :
    OnlyAsked s after q ↔
      (q.Answered (s.mem ++ after) →
        q.type = dnsRrtypeA ∧ q.cls = dnsRrclassIn ∧ Named q.labels s.name) := by
  constructor
  · intro h hanswered
    obtain ⟨hreply, hcarries⟩ := (answered_iff (fun _ => 0) _).mpr ⟨hanswered, rfl⟩
    obtain ⟨-, -, htype, hcls, hnamed, -⟩ := h _ _ hreply hcarries
    exact ⟨htype, hcls, hnamed⟩
  · intro h junk reply hreply hcarries
    obtain ⟨hanswered, rfl⟩ := (answered_iff junk reply).mp ⟨hreply, hcarries⟩
    obtain ⟨htype, hcls, hnamed⟩ := h hanswered
    exact ⟨hanswered.1, hanswered.2.1, htype, hcls, hnamed,
      q.decode_answer hnamed.noNul s.hostIp⟩

/-- The query for the name `a`, of another type than an address. -/
def queryAaaa : Query where
  id := 7
  flag1 := 1
  flag2 := 0
  labels := [⟨[97], Nat.one_pos, by decide⟩]
  type := 28
  cls := 1
  anCount := 0
  nsCount := 0
  arCount := 0
  rest := []
  length_lt := by decide

/-- The server with the name `a` sends its address in answer to a query of type 28. -/
theorem a_answers_aaaa : ¬ ∀ mem s, Accepted mem s → ∀ after q, OnlyAsked s after q := by
  intro hall
  have hacc := accepted_config [97, 0] blankServer (by decide)
  have hreply : ∃ reply, dnssRecvCb (DnsServer.mem { blankServer with
      dnsName := .ofString [97, 0] (by decide) } ++ []) 0 ⟨true, some fun _ => 0, true⟩
        queryAaaa.wire = some (some reply) ∧ CarriesAnswer reply := by
    have hpattern : namePattern queryAaaa.labels = [some 97] := rfl
    refine ⟨_, (answered_iff _ _).mpr ⟨⟨by decide, by decide, .inl (by decide),
      List.cons_ne_nil _ _, by decide, ?_, by decide⟩, rfl⟩⟩
    rw [hpattern, fits_some]
    exact ⟨97, rfl, rfl⟩
  obtain ⟨reply, hsent, hcarries⟩ := hreply
  exact absurd (hall _ _ hacc [] queryAaaa _ _ hsent hcarries).2.2.1 (by decide)

end

end NuAgent.Net
