import Mathlib.Tactic.SplitIfs
import NuAgent.Dhcp.Server
import NuAgent.Lib.CInt
import NuAgent.Lib.CString
import NuAgent.Lib.Holes

/-!
# The name of the DNS server

Reference: `App/DnsServer/dns_server.c` and `dns_server.h`.

The server answers for one name, a dotted string in a field of 32 bytes, and a query spells its name
as labels with a length byte each. `_DnsCompareName` walks both in step: it skips a byte of the name
behind each label without looking at it, and in the end asks whether the byte behind the last label
is zero, which for a name that fills the field is the first byte of `HostIp`.
-/

namespace NuAgent.Net

open CInt CString Holes
open NuAgent.Dhcp (wordBytes)

/-! ## The server -/

/-- The field `DnsName` of `DNS_SERVER`. -/
abbrev DnsName := { name : List UInt8 // name.length = 32 }

/-- The field of zeros with the string `mem` copied to its start. -/
def DnsName.ofString (mem : List UInt8) (h : ¬ strlen mem > 32) : DnsName :=
  ⟨Block.splice (List.replicate 32 0) 0 (cstr mem), by
    rw [Block.length_splice] <;> rw [List.length_replicate]
    unfold strlen at h
    omega⟩

theorem DnsName.val_ofString (mem : List UInt8) (h : ¬ strlen mem > 32) :
    (DnsName.ofString mem h).val = cstr mem ++ List.replicate (32 - (cstr mem).length) 0 :=
  Block.splice_replicate 32 0 (cstr mem)

/-- `DNS_SERVER`; `socket` is `none` for `NULL`. -/
structure DnsServer where
  socket : Option ℕ
  dnsName : DnsName
  hostIp : UInt32

/-- Memory from the field `DnsName` on to the end of the structure. -/
def DnsServer.mem (s : DnsServer) : List UInt8 := s.dnsName.val ++ wordBytes s.hostIp

/-- `DNSS_ERR_SUCCESS`. -/
def dnssErrSuccess : ℤ := 0
/-- `DNSS_ERR_LINKDOWN`. -/
def dnssErrLinkdown : ℤ := -1
/-- `DNSS_ERR_PARAM`. -/
def dnssErrParam : ℤ := -2
/-- `DNSS_ERR_MEM`. -/
def dnssErrMem : ℤ := -3

/-- `DNSS_Config`; `dnsName` is the memory at the pointer, `none` for `NULL`. -/
def dnssConfig (s : DnsServer) (dnsName : Option (List UInt8)) : ℤ × DnsServer :=
  match dnsName with
  | none => (dnssErrParam, s)
  | some mem =>
      if h : strlen mem > 32 then (dnssErrParam, s)
      else (dnssErrSuccess, { s with dnsName := .ofString mem h })

/-- What `DNSS_Start` reads of a `struct netif`. -/
structure Netif where
  flags : UInt8
  ipAddr : UInt32

/-- `netif_is_up`. -/
def netifIsUp (netif : Netif) : Bool := netif.flags &&& 0x01 ≠ 0

/-- `DNSS_Start`, with the answer of `udp_new`. -/
def dnssStart (s : DnsServer) (netif : Option Netif) (dnsName : List UInt8) (udpNew : Option ℕ) :
    ℤ × DnsServer :=
  match netif with
  | none => (dnssErrParam, s)
  | some netif =>
      if h : strlen dnsName > 32 then (dnssErrParam, s)
      else if !netifIsUp netif then (dnssErrLinkdown, s)
      else
        let s := { socket := udpNew, dnsName := .ofString dnsName h, hostIp := netif.ipAddr }
        if udpNew = none then (dnssErrMem, s) else (dnssErrSuccess, s)

/-! ## `_DnsCompareName` -/

/-- `Nst_ToUpper`. -/
def nstToUpper (c : UInt8) : UInt8 :=
  if 'a'.toUInt8 ≤ c ∧ c ≤ 'z'.toUInt8 then c - 'a'.toUInt8 + 'A'.toUInt8 else c

/-- The inner loop: whether the next `n` bytes of both names agree. `myDns` is the memory of the own
name and `m` the index in it, `query` the memory from the query pointer on; `none` is a read outside
of either. -/
def compareLabel (myDns : List UInt8) : ℕ → List UInt8 → ℕ → Option Bool
  | 0, _, _ => some true
  | n + 1, query, m => do
      let src := nstToUpper (← myDns[m]?)
      let dest := nstToUpper (← query.head?)
      if src ≠ dest then some false else compareLabel myDns n query.tail (m + 1)

/-- `return ((*(--MyDns) == 0) ? 0 : 1)`. -/
def compareEnd (myDns : List UInt8) (m : ℕ) : Option ℤ :=
  if m = 0 then none else myDns[m - 1]?.map fun b => if b = 0 then 0 else 1

/-- The `do`-`while` loop over the labels. -/
def compareLoop (myDns : List UInt8) : List UInt8 → ℕ → Option ℤ
  | [], _ => none
  | n :: query, m =>
      if n &&& 0xc0 = 0xc0 then compareEnd myDns m
      else do
        if ← compareLabel myDns n.toNat query m then
          let b ← (query.drop n.toNat).head?
          if b ≠ 0 then compareLoop myDns (query.drop n.toNat) (m + n.toNat + 1)
          else compareEnd myDns (m + n.toNat + 1)
        else some 1
termination_by query => query.length
decreasing_by
  rw [List.length_drop, List.length_cons]
  omega

/-- `_DnsCompareName`. -/
def dnsCompareName (myDns query : List UInt8) : Option ℤ :=
  if u32 ((strlen query : ℤ) - 1) > 32 then some 1 else compareLoop myDns query 0

/-! ## Query names -/

/-- A label of a query name that is not compressed. -/
structure Label where
  bytes : List UInt8
  length_pos : 0 < bytes.length
  length_le : bytes.length ≤ 63
  noNul : NoNul bytes

/-- A label in a query: its length byte and its bytes. -/
def Label.wire (l : Label) : List UInt8 := UInt8.ofNat l.bytes.length :: l.bytes

/-- The labels in a query, with the zero byte that ends them. -/
def queryName (labels : List Label) : List UInt8 := labels.flatMap Label.wire ++ [0]

/-- The labels with a hole between each two. -/
def pattern (labels : List Label) : List (Option UInt8) := separated (labels.map Label.bytes)

theorem Label.toNat_length (l : Label) : (UInt8.ofNat l.bytes.length).toNat = l.bytes.length :=
  Nat.mod_eq_of_lt (by have := l.length_le; omega)

theorem Label.length_ne_zero (l : Label) : UInt8.ofNat l.bytes.length ≠ 0 := by
  intro h
  have hlen := l.toNat_length
  rw [h] at hlen
  exact absurd hlen (Nat.ne_of_lt l.length_pos)

/-- The length byte of a label is not the start of a compressed name. -/
theorem Label.not_compressed (l : Label) : ¬ UInt8.ofNat l.bytes.length &&& 0xc0 = 0xc0 := by
  have hall : ∀ i : Fin 64, ¬ UInt8.ofNat i &&& 0xc0 = 0xc0 := by decide
  exact hall ⟨l.bytes.length, Nat.lt_succ_of_le l.length_le⟩

theorem Label.noNul_wire (l : Label) : NoNul l.wire := by
  intro b hb
  rcases List.mem_cons.mp hb with rfl | hb
  · exact l.length_ne_zero
  · exact l.noNul b hb

theorem strlen_queryName (labels : List Label) (rest : List UInt8) :
    strlen (queryName labels ++ rest) = (labels.flatMap Label.wire).length := by
  have hnul : NoNul (labels.flatMap Label.wire) := by
    intro b hb
    obtain ⟨l, -, hbl⟩ := List.mem_flatMap.mp hb
    exact l.noNul_wire b hbl
  rw [strlen, queryName, List.append_assoc, List.singleton_append, cstr_terminated hnul]

theorem pattern_singleton (l : Label) : pattern [l] = l.bytes.map some := separated_singleton _

theorem pattern_cons_cons (l l' : Label) (labels : List Label) :
    pattern (l :: l' :: labels) = l.bytes.map some ++ none :: pattern (l' :: labels) :=
  separated_cons _ (List.cons_ne_nil _ _)

theorem length_pattern (l : Label) (labels : List Label) :
    ((l :: labels).flatMap Label.wire).length = (pattern (l :: labels)).length + 1 := by
  induction labels generalizing l with
  | nil => simp [pattern_singleton, Label.wire]
  | cons l' labels ih =>
    rw [List.flatMap_cons, List.length_append, ih, pattern_cons_cons, List.length_append,
      List.length_map, List.length_cons, Label.wire, List.length_cons]
    omega

/-- The last cell of a query name is no hole. -/
theorem pattern_last (l : Label) (labels : List Label) :
    ∃ k c, (pattern (l :: labels)).length = k + 1 ∧ (pattern (l :: labels))[k]? = some (some c) ∧
      c ≠ 0 := by
  induction labels generalizing l with
  | nil =>
    obtain ⟨k, hk⟩ := Nat.exists_eq_add_one.mpr l.length_pos
    refine ⟨k, l.bytes[k], ?_, ?_, l.noNul _ (List.getElem_mem _)⟩
    · rw [pattern_singleton, List.length_map, hk]
    · rw [pattern_singleton, List.getElem?_map, List.getElem?_eq_getElem (by omega),
        Option.map_some]
  | cons l' labels ih =>
    obtain ⟨k, c, hlen, hcell, hc⟩ := ih l'
    refine ⟨l.bytes.length + (k + 1), c, ?_, ?_, hc⟩
    · rw [pattern_cons_cons, List.length_append, List.length_map, List.length_cons, hlen]
      omega
    · rw [pattern_cons_cons, List.getElem?_append_right (by rw [List.length_map]; omega),
        List.length_map, Nat.add_sub_cancel_left, List.getElem?_cons_succ, hcell]

/-! ## What the loops find -/

section
variable {own : List UInt8} {query : List UInt8} {m k : ℕ}

/-- The first `k` bytes of the query are there and agree with the own name. -/
def Agree (own query : List UInt8) (m k : ℕ) : Prop :=
  k ≤ query.length ∧ Fits nstToUpper own m ((query.take k).map some)

theorem agree_zero : Agree own query m 0 := ⟨Nat.zero_le _, fits_nil⟩

theorem agree_cons {c : UInt8} : Agree own (c :: query) m (k + 1) ↔
    (∃ d, own[m]? = some d ∧ nstToUpper d = nstToUpper c) ∧ Agree own query (m + 1) k := by
  rw [Agree, Agree, List.length_cons, List.take_succ_cons, List.map_cons, fits_cons_some,
    Nat.add_le_add_iff_right, and_left_comm]

/-- The inner loop ends well iff it gets through the label. -/
theorem compareLabel_eq_true_iff (n : ℕ) :
    compareLabel own n query m = some true ↔ Agree own query m n := by
  induction n generalizing query m with
  | zero => exact iff_of_true rfl agree_zero
  | succ n ih =>
    cases query with
    | nil =>
      refine iff_of_false ?_ fun h => absurd h.1 (Nat.not_succ_le_zero n)
      rw [compareLabel]
      cases own[m]? <;> simp
    | cons c query =>
      rw [agree_cons, ← ih, compareLabel]
      cases own[m]? with
      | none => simp
      | some d =>
        simp only [Option.bind_eq_bind, Option.bind_some, List.head?_cons, List.tail_cons,
          Option.some.injEq, exists_eq_left']
        by_cases hsame : nstToUpper d = nstToUpper c
        · rw [if_neg (not_not.mpr hsame), and_iff_right hsame]
        · rw [if_pos hsame]
          exact iff_of_false (by simp) fun h => hsame h.1

theorem compareLabel_true_iff (own bytes rest : List UInt8) (m : ℕ) :
    compareLabel own bytes.length (bytes ++ rest) m = some true ↔
      Fits nstToUpper own m (bytes.map some) := by
  rw [compareLabel_eq_true_iff, Agree, List.take_left, List.length_append]
  exact and_iff_right (Nat.le_add_right _ _)

/-- The inner loop has a result if it stays inside of both names. -/
theorem compareLabel_some (n : ℕ) (hquery : n ≤ query.length) (hlen : m + n ≤ own.length) :
    ∃ b, compareLabel own n query m = some b := by
  induction n generalizing query m with
  | zero => exact ⟨true, rfl⟩
  | succ n ih =>
    cases query with
    | nil => exact absurd hquery (Nat.not_succ_le_zero n)
    | cons c query =>
      rw [compareLabel, List.getElem?_eq_getElem (show m < own.length by omega)]
      simp only [Option.bind_eq_bind, Option.bind_some, List.head?_cons, List.tail_cons]
      split_ifs
      · exact ⟨false, rfl⟩
      · exact ih (Nat.le_of_succ_le_succ hquery) (by omega)

theorem compareEnd_zero_iff (own : List UInt8) (m : ℕ) :
    compareEnd own (m + 1) = some 0 ↔ own[m]? = some 0 := by
  rw [compareEnd, if_neg (Nat.succ_ne_zero m), Nat.add_sub_cancel]
  cases own[m]? with
  | none => simp
  | some d =>
    rw [Option.map_some, Option.some.injEq, Option.some.injEq]
    split_ifs with hd
    · exact iff_of_true rfl hd
    · exact iff_of_false (by decide) hd

end

section
variable {myDns : List UInt8}

/-- The inner loop compares a label with the bytes at the pointer. -/
theorem compareLabel_spec (bytes rest : List UInt8) {m : ℕ}
    (hlen : m + bytes.length ≤ myDns.length) :
    ∃ b, compareLabel myDns bytes.length (bytes ++ rest) m = some b ∧
      (b = true ↔ Fits nstToUpper myDns m (bytes.map some)) := by
  have hquery : bytes.length ≤ (bytes ++ rest).length := by
    rw [List.length_append]
    exact Nat.le_add_right _ _
  obtain ⟨b, hb⟩ := compareLabel_some bytes.length hquery hlen
  exact ⟨b, hb, by rw [← compareLabel_true_iff myDns bytes rest m, hb, Option.some.injEq]⟩

theorem compareEnd_spec {m : ℕ} (hlen : m < myDns.length) :
    ∃ r, compareEnd myDns (m + 1) = some r ∧ (r = 0 ↔ myDns[m]? = some 0) := by
  obtain ⟨r, hr⟩ : ∃ r, compareEnd myDns (m + 1) = some r := by
    rw [compareEnd, if_neg (Nat.succ_ne_zero m), Nat.add_sub_cancel,
      List.getElem?_eq_getElem hlen]
    exact ⟨_, rfl⟩
  exact ⟨r, hr, by rw [← compareEnd_zero_iff, hr, Option.some.injEq]⟩

/-- The loop over the labels compares all of them and looks at the byte behind the last one. -/
theorem compareLoop_spec (l : Label) (labels : List Label) (rest : List UInt8) {m : ℕ}
    (hlen : m + (pattern (l :: labels)).length < myDns.length) :
    ∃ r, compareLoop myDns (queryName (l :: labels) ++ rest) m = some r ∧
      (r = 0 ↔ Fits nstToUpper myDns m (pattern (l :: labels)) ∧
        myDns[m + (pattern (l :: labels)).length]? = some 0) := by
  induction labels generalizing l m with
  | nil =>
    rw [pattern_singleton, List.length_map] at hlen ⊢
    obtain ⟨b, hb, hiff⟩ := compareLabel_spec l.bytes (0 :: rest) hlen.le
    obtain ⟨r, hr, hzero⟩ := compareEnd_spec hlen
    have hquery : queryName [l] ++ rest = UInt8.ofNat l.bytes.length :: (l.bytes ++ 0 :: rest) := by
      simp [queryName, Label.wire]
    rw [hquery, compareLoop, if_neg l.not_compressed, l.toNat_length, hb, List.drop_left]
    cases b with
    | true => exact ⟨r, hr, by rw [hzero, and_iff_right (hiff.mp rfl)]⟩
    | false => exact ⟨1, rfl, by simp [← hiff]⟩
  | cons l' labels ih =>
    rw [pattern_cons_cons, List.length_append, List.length_map, List.length_cons] at hlen
    have hlabel : m + l.bytes.length ≤ myDns.length := by omega
    obtain ⟨b, hb, hiff⟩ := compareLabel_spec l.bytes (queryName (l' :: labels) ++ rest) hlabel
    obtain ⟨r, hr, hzero⟩ := ih l' (m := m + l.bytes.length + 1) (by omega)
    have hquery : queryName (l :: l' :: labels) ++ rest =
        UInt8.ofNat l.bytes.length :: (l.bytes ++ (queryName (l' :: labels) ++ rest)) := by
      simp [queryName, Label.wire]
    have hhead : (queryName (l' :: labels) ++ rest).head? = some (UInt8.ofNat l'.bytes.length) :=
      rfl
    have hend : m + (l.bytes.length + ((pattern (l' :: labels)).length + 1)) =
        m + l.bytes.length + 1 + (pattern (l' :: labels)).length := by omega
    rw [hquery, compareLoop, if_neg l.not_compressed, l.toNat_length, hb, List.drop_left, hhead,
      pattern_cons_cons, fits_append, fits_cons_none, List.length_append, List.length_map,
      List.length_cons, hend]
    cases b with
    | true =>
      simp only [Option.bind_eq_bind, Option.bind_some, if_true, if_pos l'.length_ne_zero]
      exact ⟨r, hr, by rw [hzero, and_iff_right (hiff.mp rfl)]⟩
    | false => exact ⟨1, rfl, by simp [← hiff]⟩

end

/-! ## The name of the server -/

/-- The name that a call has set: `mem` is the memory at the pointer that it accepted. -/
def Accepted (mem : List UInt8) (s' : DnsServer) : Prop :=
  (∃ s, dnssConfig s (some mem) = (dnssErrSuccess, s')) ∨
    ∃ s netif udpNew, dnssStart s netif mem udpNew = (dnssErrSuccess, s')

theorem Accepted.dnsName {mem : List UInt8} {s' : DnsServer} (h : Accepted mem s') :
    ∃ hlen, s'.dnsName = .ofString mem hlen := by
  rcases h with ⟨s, h⟩ | ⟨s, netif, udpNew, h⟩
  · unfold dnssConfig at h
    dsimp only at h
    split_ifs at h with hlen
    · cases h
    · cases h
      exact ⟨hlen, rfl⟩
  · cases netif with
    | none => cases h
    | some netif =>
      unfold dnssStart at h
      dsimp only at h
      split_ifs at h with hlen hup hnew
      · cases h
      · cases h
      · cases h
      · cases h
        exact ⟨hlen, rfl⟩

/-- Memory from an accepted name on. -/
theorem Accepted.mem_eq {mem : List UInt8} {s' : DnsServer} (h : Accepted mem s') :
    (cstr mem).length ≤ 32 ∧ s'.mem =
      cstr mem ++ List.replicate (32 - (cstr mem).length) 0 ++ wordBytes s'.hostIp := by
  obtain ⟨hlen, hname⟩ := h.dnsName
  refine ⟨Nat.le_of_not_lt hlen, ?_⟩
  rw [DnsServer.mem, hname, DnsName.val_ofString]

/-- The separator of a name. -/
def dot : UInt8 := '.'.toUInt8

/-- The labels joined with dots are the name, up to the case of letters. -/
def SameName (labels : List Label) (name : List UInt8) : Prop :=
  ([dot].intercalate (labels.map Label.bytes)).map nstToUpper = name.map nstToUpper

instance (labels : List Label) (name : List UInt8) : Decidable (SameName labels name) :=
  inferInstanceAs (Decidable (_ = _))

/-- The name has the length of the labels joined, and the same bytes up to the case of letters
everywhere but between two labels. -/
def LinesUp (labels : List Label) (name : List UInt8) : Prop :=
  name.length = (pattern labels).length ∧ Fits nstToUpper name 0 (pattern labels)

/-- The name has dots between the labels. -/
def Dotted (labels : List Label) (name : List UInt8) : Prop :=
  Filled nstToUpper dot name (pattern labels)

/-- The byte behind the name is zero: the field has room for it, or the address of the server starts
with it. -/
def EndsInZero (s : DnsServer) (name : List UInt8) : Prop :=
  name.length < 32 ∨ s.hostIp.toUInt8 = 0

theorem sameName_iff (labels : List Label) (name : List UInt8) :
    SameName labels name ↔ LinesUp labels name ∧ Dotted labels name := by
  rw [SameName, ← fill_separated, map_fill_eq_iff, LinesUp, Dotted, pattern, and_assoc]

theorem nstToUpper_eq_zero (c : UInt8) : nstToUpper c = 0 ↔ c = 0 := by
  have ha : 'a'.toUInt8 = 97 := rfl
  have hz : 'z'.toUInt8 = 122 := rfl
  have hA : 'A'.toUInt8 = 65 := rfl
  unfold nstToUpper
  rw [ha, hz, hA]
  split_ifs with hlower
  · grind
  · rfl

section
variable {mem : List UInt8} {s : DnsServer} {i : ℕ}

theorem Accepted.cell_name (h : Accepted mem s) (hi : i < (cstr mem).length) :
    s.mem[i]? = (cstr mem)[i]? := by
  rw [h.mem_eq.2, List.append_assoc, List.getElem?_append_left hi]

theorem Accepted.cell_zero (h : Accepted mem s) (hi : (cstr mem).length ≤ i) (hlt : i < 32) :
    s.mem[i]? = some 0 := by
  have hle := h.mem_eq.1
  rw [h.mem_eq.2, List.append_assoc, List.getElem?_append_right hi,
    List.getElem?_append_left (by rw [List.length_replicate]; omega),
    List.getElem?_replicate_of_lt (by omega)]

theorem Accepted.cell_hostIp (h : Accepted mem s) : s.mem[32]? = some s.hostIp.toUInt8 := by
  have hle := h.mem_eq.1
  have hlen : (cstr mem ++ List.replicate (32 - (cstr mem).length) (0 : UInt8)).length = 32 := by
    rw [List.length_append, List.length_replicate]
    omega
  rw [h.mem_eq.2, List.getElem?_append_right (by omega), hlen]
  rfl

/-- What the loop finds in memory is what there is to find about the name. -/
theorem Accepted.fits_iff (h : Accepted mem s) (l : Label) (labels : List Label)
    (hle : (pattern (l :: labels)).length ≤ 32) :
    (Fits nstToUpper s.mem 0 (pattern (l :: labels)) ∧
        s.mem[(pattern (l :: labels)).length]? = some 0) ↔
      LinesUp (l :: labels) (cstr mem) ∧ EndsInZero s (cstr mem) := by
  obtain ⟨hshort, hmem⟩ := h.mem_eq
  rw [List.append_assoc] at hmem
  obtain ⟨k, c, hk, hcell, hc⟩ := pattern_last l labels
  constructor
  · rintro ⟨hfits, hend⟩
    -- the last byte of the query is not zero, so it is compared with a byte of the name
    obtain ⟨d, hd, hdc⟩ := hfits k c hcell
    rw [Nat.zero_add] at hd
    have hd0 : d ≠ 0 := by
      rintro rfl
      rw [(nstToUpper_eq_zero 0).mpr rfl] at hdc
      exact hc ((nstToUpper_eq_zero c).mp hdc.symm)
    have hkl : k < (cstr mem).length := by
      by_contra hout
      rw [h.cell_zero (by omega) (by omega), Option.some.injEq] at hd
      exact hd0 hd.symm
    -- and the byte behind the query is none of the name
    have hlen : (cstr mem).length = (pattern (l :: labels)).length := by
      by_contra hne
      have hin : (pattern (l :: labels)).length < (cstr mem).length := by omega
      rw [h.cell_name hin] at hend
      exact noNul_cstr mem 0 (List.mem_of_getElem? hend) rfl
    rw [hmem, fits_append_mem (by omega)] at hfits
    refine ⟨⟨hlen, hfits⟩, ?_⟩
    by_cases hroom : (cstr mem).length < 32
    · exact .inl hroom
    · rw [← hlen, show (cstr mem).length = 32 by omega, h.cell_hostIp, Option.some.injEq] at hend
      exact .inr hend
  · rintro ⟨⟨hlen, hfits⟩, hend⟩
    refine ⟨by rw [hmem, fits_append_mem (by omega)]; exact hfits, ?_⟩
    rw [← hlen]
    by_cases hroom : (cstr mem).length < 32
    · exact h.cell_zero le_rfl hroom
    · rw [show (cstr mem).length = 32 by omega, h.cell_hostIp, hend.resolve_left hroom]

/-- `_DnsCompareName` reads inside of both names and returns `0` iff the query lines up with the
name and the byte behind the name is zero. -/
theorem dnsCompareName_spec (h : Accepted mem s) (hname : cstr mem ≠ []) (labels : List Label)
    (rest : List UInt8) (hquery : (queryName labels).length ≤ 2 ^ 32) :
    ∃ r, dnsCompareName s.mem (queryName labels ++ rest) = some r ∧
      (r = 0 ↔ LinesUp labels (cstr mem) ∧ EndsInZero s (cstr mem)) := by
  have hshort := h.mem_eq.1
  rw [dnsCompareName, strlen_queryName]
  cases labels with
  | nil =>
    rw [if_pos (by decide)]
    refine ⟨1, rfl, iff_of_false (by decide) fun hlines => hname ?_⟩
    exact List.length_eq_zero_iff.mp hlines.1.1
  | cons l labels =>
    have hlen := length_pattern l labels
    rw [queryName, List.length_append, hlen, List.length_singleton] at hquery
    have hcount : u32 ((((l :: labels).flatMap Label.wire).length : ℤ) - 1) =
        (pattern (l :: labels)).length := by
      rw [hlen, u32_of_lt (by omega) (by omega)]
      omega
    rw [hcount]
    by_cases hlong : (pattern (l :: labels)).length > 32
    · rw [if_pos hlong]
      refine ⟨1, rfl, iff_of_false (by decide) fun hlines => ?_⟩
      have := hlines.1.1
      omega
    · rw [if_neg hlong]
      have hmem : s.mem.length = 36 := by
        rw [DnsServer.mem, List.length_append, s.dnsName.property]
        rfl
      have hbound : 0 + (pattern (l :: labels)).length < s.mem.length := by omega
      obtain ⟨r, hr, hzero⟩ := compareLoop_spec l labels rest hbound
      rw [Nat.zero_add, h.fits_iff l labels (by omega)] at hzero
      exact ⟨r, hr, hzero⟩

/-- For every name that `DNSS_Start` or `DNSS_Config` accepted and every query that is not
compressed, the comparison is exact iff the two do not line up, or the byte behind the name is zero
just when the name has dots between the labels. -/
theorem dnsCompareName_exact_iff (h : Accepted mem s) (hname : cstr mem ≠ []) (labels : List Label)
    (rest : List UInt8) (hquery : (queryName labels).length ≤ 2 ^ 32) :
    ∃ r, dnsCompareName s.mem (queryName labels ++ rest) = some r ∧
      ((r = 0 ↔ SameName labels (cstr mem)) ↔
        (LinesUp labels (cstr mem) → (EndsInZero s (cstr mem) ↔ Dotted labels (cstr mem)))) := by
  obtain ⟨r, hr, hzero⟩ := dnsCompareName_spec h hname labels rest hquery
  refine ⟨r, hr, ?_⟩
  rw [hzero, sameName_iff]
  exact and_congr_right_iff

/-- A name that fills the field is not found once the address of the server does not start with
zero. -/
theorem full_name_not_found (h : Accepted mem s) (hfull : (cstr mem).length = 32)
    (haddr : s.hostIp.toUInt8 ≠ 0) (labels : List Label) (rest : List UInt8)
    (hquery : (queryName labels).length ≤ 2 ^ 32) :
    ∃ r, dnsCompareName s.mem (queryName labels ++ rest) = some r ∧ r ≠ 0 := by
  have hname : cstr mem ≠ [] := List.length_pos_iff.mp (by omega)
  obtain ⟨r, hr, hzero⟩ := dnsCompareName_spec h hname labels rest hquery
  refine ⟨r, hr, fun h0 => ?_⟩
  rcases (hzero.mp h0).2 with hroom | hip
  · omega
  · exact haddr hip

end

/-- A label of one byte. -/
def Label.single (c : UInt8) (h : c ≠ 0) : Label :=
  ⟨[c], Nat.one_pos, by simp, by simpa [NoNul] using h⟩

/-- `DNSS_Config` accepts a string of at most 32 bytes. -/
theorem accepted_config (mem : List UInt8) (s : DnsServer) (h : ¬ strlen mem > 32) :
    Accepted mem { s with dnsName := .ofString mem h } :=
  .inl ⟨s, by rw [dnssConfig]; exact dif_neg h⟩

/-- The server of the examples, before a name is set. -/
def blankServer : DnsServer where
  socket := none
  dnsName := ⟨List.replicate 32 0, rfl⟩
  hostIp := 0

/-- `dnsCompareName_exact_iff` for the name `a.b` and the query for it. -/
theorem dnsCompareName_exact_ab : ∃ s r, Accepted [97, 46, 98, 0] s ∧
    dnsCompareName s.mem (queryName [.single 97 (by decide), .single 98 (by decide)] ++ []) =
      some r ∧ r = 0 := by
  have hacc := accepted_config [97, 46, 98, 0] blankServer (by decide)
  have hsame : SameName [.single 97 (by decide), .single 98 (by decide)]
      (cstr [97, 46, 98, 0]) := by decide
  obtain ⟨r, hr, hiff⟩ := dnsCompareName_exact_iff hacc (by decide)
    [.single 97 (by decide), .single 98 (by decide)] [] (by decide)
  refine ⟨_, r, hacc, hr, (hiff.mpr fun _ => ?_).mpr hsame⟩
  exact iff_of_true (.inl (by decide)) ((sameName_iff _ _).mp hsame).2

/-- Labels that are not empty, separated by dots. -/
def WellFormed (name : List UInt8) : Prop :=
  ∃ parts, parts ≠ [] ∧ (∀ part ∈ parts, part ≠ [] ∧ dot ∉ part) ∧ name = [dot].intercalate parts

/-- The server with the name `axb` answers the query for `a.b`. -/
theorem axb_answers_ab : ¬ ∀ mem s, Accepted mem s → WellFormed (cstr mem) →
    ∀ (labels : List Label) (rest : List UInt8), (queryName labels).length ≤ 2 ^ 32 →
      ∃ r, dnsCompareName s.mem (queryName labels ++ rest) = some r ∧
        (r = 0 ↔ SameName labels (cstr mem)) := by
  intro hall
  have hacc := accepted_config [97, 120, 98, 0] blankServer (by decide)
  have hform : WellFormed (cstr [97, 120, 98, 0]) :=
    ⟨[[97, 120, 98]], by decide, by decide, by decide⟩
  obtain ⟨r, hr, hiff⟩ := hall _ _ hacc hform
    [.single 97 (by decide), .single 98 (by decide)] [] (by decide)
  obtain ⟨r', hr', hzero⟩ := dnsCompareName_spec hacc (by decide)
    [.single 97 (by decide), .single 98 (by decide)] [] (by decide)
  rw [hr'] at hr
  cases hr
  have hlines : LinesUp [.single 97 (by decide), .single 98 (by decide)]
      (cstr [97, 120, 98, 0]) := by
    have hpattern : pattern [.single 97 (by decide), .single 98 (by decide)] =
        [some 97, none, some 98] := rfl
    refine ⟨by decide, ?_⟩
    rw [hpattern, fits_cons_some, fits_cons_none, fits_some]
    exact ⟨⟨97, rfl, rfl⟩, ⟨98, rfl, rfl⟩⟩
  exact absurd (hiff.mp (hzero.mpr ⟨hlines, .inl (by decide)⟩)) (by decide)

end NuAgent.Net
