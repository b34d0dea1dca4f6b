import NuAgent.Net.DnsReply

/-!
# What the DNS server reads

Reference: `DNSS_RecvCb` and `_DnsCompareName` of `App/DnsServer/dns_server.c`.

Nothing compares an offset with the length of the datagram. The flags are read without a check, the
name ends where a zero byte is found, four bytes are taken from behind it, and the labels are
followed by the length bytes that they claim. `Walk` describes the names that `_DnsCompareName` gets
through inside of both names: the labels agree with the field until a byte differs, or until a zero
byte or a pointer ends them, not at the start of the name and not behind the field.
-/

namespace NuAgent.Net

open CInt CString Holes
open NuAgent.Dhcp (wordBytes)

/-! ## The walk of the comparison -/

section
variable {own : List UInt8} {query : List UInt8} {m k : ℕ}

/-- The `i`-th byte of a label is there in both names and differs. -/
def DiffersAt (own query : List UInt8) (m i : ℕ) : Prop :=
  ∃ a b, own[m + i]? = some a ∧ query[i]? = some b ∧ nstToUpper a ≠ nstToUpper b

/-- The walk from a length byte on stays inside of both names. -/
inductive Walk (own : List UInt8) : List UInt8 → ℕ → Prop
  | pointer {n query m} (hn : n &&& 0xc0 = 0xc0) (hpos : m ≠ 0) (hm : m ≤ own.length) :
      Walk own (n :: query) m
  | differs {n query m i} (hn : ¬ n &&& 0xc0 = 0xc0) (hi : i < n.toNat)
      (hagree : Agree own query m i) (hdiff : DiffersAt own query m i) : Walk own (n :: query) m
  | last {n query m} (hn : ¬ n &&& 0xc0 = 0xc0) (hagree : Agree own query m n.toNat)
      (hzero : query[n.toNat]? = some 0) (hm : m + n.toNat < own.length) : Walk own (n :: query) m
  | next {n query m b} (hn : ¬ n &&& 0xc0 = 0xc0) (hagree : Agree own query m n.toNat)
      (hbyte : query[n.toNat]? = some b) (hb : b ≠ 0)
      (hwalk : Walk own (query.drop n.toNat) (m + n.toNat + 1)) : Walk own (n :: query) m

theorem differsAt_cons {c : UInt8} :
    DiffersAt own (c :: query) m (k + 1) ↔ DiffersAt own query (m + 1) k := by
  rw [DiffersAt, DiffersAt, List.getElem?_cons_succ, Nat.add_assoc, Nat.add_comm 1]

/-- The inner loop ends with a difference iff it gets to one. -/
theorem compareLabel_eq_false_iff (n : ℕ) :
    compareLabel own n query m = some false ↔
      ∃ i < n, Agree own query m i ∧ DiffersAt own query m i := by
  induction n generalizing query m with
  | zero =>
    refine iff_of_false (by simp [compareLabel]) ?_
    rintro ⟨i, hi, -⟩
    exact absurd hi (Nat.not_lt_zero i)
  | succ n ih =>
    cases query with
    | nil =>
      refine iff_of_false ?_ ?_
      · rw [compareLabel]
        cases own[m]? <;> simp
      · rintro ⟨i, -, -, a, b, -, hb, -⟩
        cases hb
    | cons c query =>
      have hsplit : (∃ i < n + 1, Agree own (c :: query) m i ∧ DiffersAt own (c :: query) m i) ↔
          DiffersAt own (c :: query) m 0 ∨
            (∃ d, own[m]? = some d ∧ nstToUpper d = nstToUpper c) ∧
              ∃ i < n, Agree own query (m + 1) i ∧ DiffersAt own query (m + 1) i := by
        constructor
        · rintro ⟨i, hi, hagree, hdiff⟩
          cases i with
          | zero => exact .inl hdiff
          | succ i =>
            obtain ⟨hsame, hagree⟩ := agree_cons.mp hagree
            exact .inr ⟨hsame, i, by omega, hagree, differsAt_cons.mp hdiff⟩
        · rintro (hdiff | ⟨hsame, i, hi, hagree, hdiff⟩)
          · exact ⟨0, Nat.succ_pos n, agree_zero, hdiff⟩
          · exact ⟨i + 1, by omega, agree_cons.mpr ⟨hsame, hagree⟩, differsAt_cons.mpr hdiff⟩
      rw [hsplit, ← ih, compareLabel, DiffersAt, Nat.add_zero, List.getElem?_cons_zero]
      cases own[m]? with
      | none => simp
      | some d =>
        simp only [Option.bind_eq_bind, Option.bind_some, List.head?_cons, List.tail_cons,
          Option.some.injEq, exists_eq_left', exists_and_left]
        by_cases hsame : nstToUpper d = nstToUpper c
        · rw [if_neg (not_not.mpr hsame)]
          simp [hsame]
        · rw [if_pos hsame]
          simp [hsame]

theorem isSome_getElem? (i : ℕ) : (own[i]?).isSome ↔ i < own.length := by
  rw [Option.isSome_iff_ne_none, Ne, List.getElem?_eq_none_iff, not_le]

theorem compareEnd_isSome_iff : (compareEnd own m).isSome ↔ m ≠ 0 ∧ m ≤ own.length := by
  rw [compareEnd]
  by_cases hm : m = 0
  · rw [if_pos hm]
    exact iff_of_false (by simp) fun h => h.1 hm
  · rw [if_neg hm, Option.isSome_map, and_iff_right hm, isSome_getElem?]
    omega

/-- Where a pointer stands, the walk ends. -/
theorem walk_pointer_iff {n : UInt8} (hn : n &&& 0xc0 = 0xc0) :
    Walk own (n :: query) m ↔ m ≠ 0 ∧ m ≤ own.length := by
  constructor
  · intro h
    cases h with
    | pointer _ hpos hm => exact ⟨hpos, hm⟩
    | differs hnot => exact absurd hn hnot
    | last hnot => exact absurd hn hnot
    | next hnot => exact absurd hn hnot
  · exact fun h => .pointer hn h.1 h.2

/-- Where a label stands, the walk ends inside of it or behind it, or goes on behind it. -/
theorem walk_label_iff {n : UInt8} (hn : ¬ n &&& 0xc0 = 0xc0) :
    Walk own (n :: query) m ↔
      (∃ i < n.toNat, Agree own query m i ∧ DiffersAt own query m i) ∨
      (Agree own query m n.toNat ∧ ∃ b, query[n.toNat]? = some b ∧
        if b ≠ 0 then Walk own (query.drop n.toNat) (m + n.toNat + 1)
        else m + n.toNat < own.length) := by
  constructor
  · intro h
    cases h with
    | pointer hptr => exact absurd hptr hn
    | differs _ hi hagree hdiff => exact .inl ⟨_, hi, hagree, hdiff⟩
    | last _ hagree hzero hm => exact .inr ⟨hagree, 0, hzero, by rwa [if_neg (by simp)]⟩
    | next _ hagree hbyte hb hwalk => exact .inr ⟨hagree, _, hbyte, by rwa [if_pos hb]⟩
  · rintro (⟨i, hi, hagree, hdiff⟩ | ⟨hagree, b, hbyte, hrest⟩)
    · exact .differs hn hi hagree hdiff
    · by_cases hb : b ≠ 0
      · rw [if_pos hb] at hrest
        exact .next hn hagree hbyte hb hrest
      · rw [if_neg hb] at hrest
        rw [not_not.mp hb] at hbyte
        exact .last hn hagree hbyte hrest

/-- The loop over the labels reads inside of both names iff there is a walk. -/
theorem compareLoop_isSome_iff : (compareLoop own query m).isSome ↔ Walk own query m := by
  induction hlen : query.length using Nat.strong_induction_on generalizing query m with
  | _ len ih =>
    cases query with
    | nil =>
      rw [compareLoop]
      exact iff_of_false (by simp) fun h => by cases h
    | cons n query =>
      rw [compareLoop]
      by_cases hn : n &&& 0xc0 = 0xc0
      · rw [if_pos hn, compareEnd_isSome_iff, walk_pointer_iff hn]
      · have hhead : (query.drop n.toNat).head? = query[n.toNat]? := List.head?_drop
        rw [if_neg hn, walk_label_iff hn, ← compareLabel_eq_true_iff, ← compareLabel_eq_false_iff,
          hhead]
        cases compareLabel own n.toNat query m with
        | none => simp
        | some agree =>
          cases agree with
          | false => simp
          | true =>
            cases hbyte : query[n.toNat]? with
            | none => simp
            | some b =>
              have hdrop : (query.drop n.toNat).length < len := by
                rw [← hlen, List.length_drop, List.length_cons]
                omega
              have hrest : (compareLoop own (query.drop n.toNat) (m + n.toNat + 1)).isSome ↔
                  Walk own (query.drop n.toNat) (m + n.toNat + 1) := ih _ hdrop rfl
              by_cases hb : b ≠ 0
              · simp [hb, hrest]
              · simp [not_not.mp hb, compareEnd_isSome_iff, Nat.add_one_le_iff]

end

/-! ## The datagrams that are parsed inside -/

/-- What a packet holds: its length is a 16-bit number. -/
abbrev Datagram := { msg : List UInt8 // msg.length < 65536 }

/-- The two bytes at an offset are the number 1 in network order. -/
def IsOne (mem : List UInt8) (off : ℕ) : Prop := mem[off]? = some 0 ∧ mem[off + 1]? = some 1

/-- A name that `_DnsCompareName` gets through: it is empty, or too long for the field, or there is
a walk. -/
def NameInside (own query : List UInt8) : Prop :=
  strlen query = 0 ∨ 33 < strlen query ∨ Walk own query 0

/-- The part behind the header is parsed inside: the name ends in a zero byte with four bytes behind
it, and unless these are dropped, the comparison gets through the name. -/
def BodyInside (own body : List UInt8) : Prop :=
  0 ∈ body ∧ strlen body + 4 < body.length ∧
    (IsOne body (strlen body + 1) ∨ IsOne body (strlen body + 3) → NameInside own body)

/-- The flags drop a message. -/
def Dropped (flag1 : UInt8) : Prop :=
  flag1 &&& dnsFlag1Response ≠ 0 ∨ flag1 &&& (0xf : UInt8) <<< 3 ≠ dnsFlag1OpcodeStandard

/-- The datagrams that are parsed inside of their bytes and of the field `own`. -/
def ParsedInside (own msg : List UInt8) : Prop :=
  ∃ flag1, msg[2]? = some flag1 ∧ (Dropped flag1 ∨ BodyInside own (msg.drop sizeofHeader))

section
variable {own : List UInt8} {msg body : List UInt8} {alloc : Alloc} {hostIp : UInt32}


theorem dnsCompareName_isSome_iff (hlen : body.length < 65536) :
    (dnsCompareName own body).isSome ↔ NameInside own body := by
  have hle : strlen body ≤ body.length := (List.takeWhile_prefix _).length_le
  rw [dnsCompareName, NameInside]
  by_cases hempty : strlen body = 0
  · rw [hempty, if_pos (by decide)]
    exact iff_of_true rfl (.inl rfl)
  · have hcount : u32 ((strlen body : ℤ) - 1) = strlen body - 1 := by
      rw [u32_of_lt (by omega) (by omega)]
      omega
    rw [hcount, ← compareLoop_isSome_iff]
    by_cases hlong : strlen body - 1 > 32
    · rw [if_pos hlong]
      exact iff_of_true rfl (.inr (.inl (by omega)))
    · rw [if_neg hlong]
      constructor
      · exact fun h => .inr (.inr h)
      · rintro (h | h | h)
        · exact absurd h hempty
        · omega
        · exact h

/-- Four bytes are read as type and class; the filter compares each with the number 1. -/
theorem read_isSome (off : ℕ) (hoff : off + 3 < body.length) :
    ∃ q, DnsQuery.read body off = some q ∧
      (q.cls = htons dnsRrclassIn ∨ q.type = htons dnsRrtypeA ↔
        IsOne body off ∨ IsOne body (off + 2)) := by
  have hone : htons 1 = half 0 1 := rfl
  obtain ⟨t0, h0⟩ : ∃ b, body[off]? = some b := ⟨_, List.getElem?_eq_getElem (by omega)⟩
  obtain ⟨t1, h1⟩ : ∃ b, body[off + 1]? = some b := ⟨_, List.getElem?_eq_getElem (by omega)⟩
  obtain ⟨c0, h2⟩ : ∃ b, body[off + 2]? = some b := ⟨_, List.getElem?_eq_getElem (by omega)⟩
  obtain ⟨c1, h3⟩ : ∃ b, body[off + 3]? = some b := ⟨_, List.getElem?_eq_getElem (by omega)⟩
  refine ⟨⟨half t0 t1, half c0 c1⟩, ?_, ?_⟩
  · simp only [DnsQuery.read, h0, h1, h2, h3, Option.bind_eq_bind, Option.bind_some]
  · rw [dnsRrclassIn, dnsRrtypeA, hone, half_inj, half_inj, IsOne, IsOne, h0, h1, h2,
      show off + 2 + 1 = off + 3 from rfl, h3]
    simp only [Option.some.injEq]
    exact or_comm

theorem read_eq_none (off : ℕ) (hoff : body.length ≤ off + 3) : DnsQuery.read body off = none := by
  rw [DnsQuery.read, List.getElem?_eq_none hoff]
  cases body[off]? <;> cases body[off + 1]? <;> cases body[off + 2]? <;> rfl

/-- The callback reads inside of the datagram and of the field exactly for these datagrams, or if it
gets no block for the copy. -/
theorem dnssRecvCb_isSome_iff (s : DnsServer) (alloc : Alloc) (msg : Datagram) :
    (dnssRecvCb s.dnsName.val s.hostIp alloc msg.val).isSome ↔
      alloc.msg = false ∨ ParsedInside s.dnsName.val msg.val := by
  rw [dnssRecvCb, ParsedInside]
  cases alloc.msg with
  | false => simp
  | true =>
    simp only [Bool.not_true, Bool.false_eq_true, if_false, Bool.true_eq_false, false_or]
    cases hflag : msg.val[2]? with
    | none => simp
    | some flag1 =>
      simp only [Option.bind_eq_bind, Option.bind_some, Option.some.injEq, exists_eq_left']
      rw [Dropped]
      by_cases hdrop : flag1 &&& dnsFlag1Response ≠ 0 ∨
          flag1 &&& (0xf : UInt8) <<< 3 ≠ dnsFlag1OpcodeStandard
      · rw [if_pos hdrop]
        exact iff_of_true rfl (.inl hdrop)
      rw [if_neg hdrop, or_iff_right hdrop, BodyInside, strlenInside]
      by_cases hzero : 0 ∈ msg.val.drop sizeofHeader
      swap
      · rw [if_neg hzero]
        exact iff_of_false (by simp) fun h => hzero h.1
      rw [if_pos hzero, and_iff_right hzero, Option.bind_some]
      by_cases hfour : strlen (msg.val.drop sizeofHeader) + 4 < (msg.val.drop sizeofHeader).length
      swap
      · rw [read_eq_none _ (by omega)]
        exact iff_of_false (by simp) fun h => hfour h.1
      obtain ⟨q, hread, hfilter⟩ := read_isSome (strlen (msg.val.drop sizeofHeader) + 1) hfour
      rw [hread, and_iff_right hfour, Option.bind_some, ← hfilter]
      by_cases hpass : q.cls ≠ htons dnsRrclassIn ∧ q.type ≠ htons dnsRrtypeA
      · rw [if_pos hpass]
        exact iff_of_true rfl fun h => absurd h (not_or.mpr hpass)
      have hmsg : sizeofHeader < msg.val.length := by
        rw [List.length_drop] at hfour
        omega
      have hbody : (msg.val.drop sizeofHeader).length < 65536 := by
        rw [List.length_drop]
        have := msg.property
        omega
      rw [sizeofHeader] at hmsg
      obtain ⟨id0, h0⟩ : ∃ b, msg.val[0]? = some b := ⟨_, List.getElem?_eq_getElem (by omega)⟩
      obtain ⟨id1, h1⟩ : ∃ b, msg.val[1]? = some b := ⟨_, List.getElem?_eq_getElem (by omega)⟩
      have hwanted : q.cls = htons dnsRrclassIn ∨ q.type = htons dnsRrtypeA := by
        by_contra hnot
        exact hpass (not_or.mp hnot)
      rw [if_neg hpass, h0, h1, forall_prop_of_true hwanted, ← dnsCompareName_isSome_iff hbody]
      cases dnsCompareName s.dnsName.val (msg.val.drop sizeofHeader) with
      | none => simp
      | some r =>
        simp only [Option.bind_some, half_swap id0 id1, dnsNameErrGenAndSend_eq hzero,
          dnsAnswerGenAndSend_eq hzero]
        split_ifs <;> simp

/-- A datagram that is a header of a query and nothing else. -/
def headerOnly : Datagram := ⟨[0, 7, 1, 0, 0, 1, 0, 0, 0, 0, 0, 0], by decide⟩

/-- The name is looked for behind a datagram that ends with its header. -/
theorem headerOnly_read_outside : ¬ ∀ mem s, Accepted mem s → ∀ alloc (msg : Datagram),
    (dnssRecvCb s.dnsName.val s.hostIp alloc msg.val).isSome := by
  intro hall
  have hacc := accepted_config [97, 0] blankServer (by decide)
  exact absurd (hall _ _ hacc ⟨true, none, true⟩ headerOnly) (by decide)

end

end NuAgent.Net
