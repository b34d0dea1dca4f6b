import Mathlib.Data.Nat.Notation
import Mathlib.Tactic.SplitIfs

/-!
# Recognising the login response

Reference: `UDPServer.java` and `NetDataPackage.java` of `NLConfigTool` and `OTAUpdateFw_src`, and
the datagram of `RespondConnBroadcast` in `wifi_conn.c`.

A joined station announces itself with a 24-byte frame. The phone reads every datagram into a fresh
buffer of 48 bytes and feeds it byte by byte, as hexadecimal text, to a parser whose position and
accumulated fields survive from one datagram to the next. The two copies of the parser are the same;
only the message they send differs.
-/

namespace NuAgent.Wifi

/-! ## Hexadecimal text -/

/-- The lower-case hexadecimal digit of a number below sixteen. -/
def hexDigit (n : ℕ) : Char := Char.ofNat (if n < 10 then 48 + n else 87 + n)

/-- `Integer.toHexString` on a byte. -/
def toHexString (b : UInt8) : List Char :=
  if b.toNat < 16 then [hexDigit b.toNat] else [hexDigit (b.toNat / 16), hexDigit (b.toNat % 16)]

/-- The text `printHexString` hands to the parser for a byte. -/
def hexText (b : UInt8) : List Char :=
  let hex := toHexString b
  let hex := if hex.length = 1 then '0' :: hex else hex
  hex.map Char.toUpper

/-! ## The parser -/

/-- The texts of `NetDataPackage` that the parser writes. -/
structure NetDataPackage where
  totalsize : List Char := []
  reqNum : List Char := []
  funType : List Char := []
  mesType : List Char := []
  exb : List Char := []
  exo : List Char := []
  exd : List Char := []
  resd : List Char := []
deriving DecidableEq

/-- `NetDataPackage.Clear`. -/
def NetDataPackage.clear (_ : NetDataPackage) : NetDataPackage := {}

/-- The fields of `UDPServer` that survive a datagram. -/
structure UdpServer where
  datapackage : NetDataPackage := {}
  flag : Bool := false
  index : ℕ := 0
deriving DecidableEq

/-- The two copies of `UDPServer`. -/
inductive Copy
  | nlConfigTool
  | otaUpdateFw
deriving DecidableEq

/-- `MES_UDP_LOGIN`. -/
def mesUdpLogin : ℕ := 0

/-- A message sent to the handler; `ip` is its bundle's entry. -/
structure Message (Addr : Type) where
  what : ℕ
  ip : Option Addr
deriving DecidableEq

variable {Addr : Type}

/-- `CheckDataString`: the messages it sends for a datagram from `addr`. Only the second copy
attaches the sender's address. -/
def checkDataString (copy : Copy) (addr : Addr) (d : NetDataPackage) : List (Message Addr) :=
  if d.funType = ['0', '6', '0', '0'] ∧ d.mesType = ['0', '1', '0', '0'] then
    match copy with
    | .nlConfigTool => [{ what := mesUdpLogin, ip := none }]
    | .otaUpdateFw => [{ what := mesUdpLogin, ip := some addr }]
  else []

/-- The first statement of `ParseString`: a byte `0x18` starts a frame, whatever came before it. The
texts accumulated so far are kept. -/
def startFrame (u : UdpServer) (str : List Char) : UdpServer :=
  if str.map Char.toUpper = ['1', '8'] then { u with index := 0, flag := true } else u

/-- The chain of range tests of `ParseString`. -/
def storeField (u : UdpServer) (str : List Char) : UdpServer :=
  let d := u.datapackage
  if u.flag = true ∧ u.index < 4 then
    { u with datapackage := { d with totalsize := d.totalsize ++ str }, index := u.index + 1 }
  else if 4 ≤ u.index ∧ u.index < 8 then
    { u with datapackage := { d with reqNum := d.reqNum ++ str }, index := u.index + 1 }
  else if 8 ≤ u.index ∧ u.index < 10 then
    { u with datapackage := { d with funType := d.funType ++ str }, index := u.index + 1 }
  else if 10 ≤ u.index ∧ u.index < 12 then
    { u with datapackage := { d with mesType := d.mesType ++ str }, index := u.index + 1 }
  else if 12 ≤ u.index ∧ u.index < 14 then
    { u with datapackage := { d with exb := d.exb ++ str }, index := u.index + 1 }
  else if 14 ≤ u.index ∧ u.index < 16 then
    { u with datapackage := { d with exo := d.exo ++ str }, index := u.index + 1 }
  else if 16 ≤ u.index ∧ u.index < 20 then
    { u with datapackage := { d with exd := d.exd ++ str }, index := u.index + 1 }
  else if 20 ≤ u.index ∧ u.index < 24 then
    { datapackage := { d with resd := d.resd ++ str }, index := u.index + 1, flag := false }
  else u

/-- `ParseString`: the server after one byte's text and the messages sent. -/
def parseString (copy : Copy) (addr : Addr) (u : UdpServer) (str : List Char) :
    UdpServer × List (Message Addr) :=
  let u := storeField (startFrame u str) str
  if u.index = 24 then
    ({ u with datapackage := u.datapackage.clear, index := 0 },
      checkDataString copy addr u.datapackage)
  else (u, [])

/-- `printHexString`: a buffer, byte by byte, with all messages it makes the parser send. -/
def printHexString (copy : Copy) (addr : Addr) :
    UdpServer → List UInt8 → UdpServer × List (Message Addr)
  | u, [] => (u, [])
  | u, b :: bs =>
      let r := parseString copy addr u (hexText b)
      let rs := printHexString copy addr r.1 bs
      (rs.1, r.2 ++ rs.2)

/-- `Receive` reads a datagram into a fresh array of `LENGTH` bytes. -/
def receiveBuffer (datagram : List UInt8) : List UInt8 :=
  datagram.take 48 ++ List.replicate (48 - datagram.length) 0

/-- The server after a sequence of datagrams, each with its sender and the whole receive buffer. -/
def runBuffers (copy : Copy) (bufs : List (Addr × Vector UInt8 48)) : UdpServer :=
  bufs.foldl (fun u buf => (printHexString copy buf.1 u buf.2.toList).1) {}

/-! ## The datagram -/

/-- `sendbuf` of `RespondConnBroadcast`. -/
def respondConnBroadcast : List UInt8 :=
  ((((List.replicate 24 0).set 0 0x18).set 8 0x06).set 10 0x01)

/-! ## A whole frame -/

/-- The field of a frame that the byte at position `i` belongs to, extended by `str`. -/
def NetDataPackage.store (d : NetDataPackage) (i : ℕ) (str : List Char) : NetDataPackage :=
  if i < 4 then { d with totalsize := d.totalsize ++ str }
  else if i < 8 then { d with reqNum := d.reqNum ++ str }
  else if i < 10 then { d with funType := d.funType ++ str }
  else if i < 12 then { d with mesType := d.mesType ++ str }
  else if i < 14 then { d with exb := d.exb ++ str }
  else if i < 16 then { d with exo := d.exo ++ str }
  else if i < 20 then { d with exd := d.exd ++ str }
  else { d with resd := d.resd ++ str }

/-- The bytes from position `i` of a frame on, stored one after the other. -/
def NetDataPackage.storeAll (d : NetDataPackage) (i : ℕ) : List UInt8 → NetDataPackage
  | [] => d
  | b :: bs => (d.store i (hexText b)).storeAll (i + 1) bs

theorem storeField_eq {d : NetDataPackage} {flag : Bool} {i : ℕ} (str : List Char)
    (hopen : flag = true ∨ 4 ≤ i) (hi : i < 24) :
    storeField ⟨d, flag, i⟩ str = ⟨d.store i str, flag && decide (i < 20), i + 1⟩ := by
  have hflag : i < 20 → (flag && decide (i < 20)) = flag := fun h => by
    rw [decide_eq_true h, Bool.and_true]
  unfold storeField NetDataPackage.store
  dsimp only
  by_cases h4 : i < 4
  · rw [if_pos ⟨hopen.resolve_right (by omega), h4⟩, if_pos h4, hflag (by omega)]
  rw [if_neg fun h => h4 h.2, if_neg h4]
  by_cases h8 : i < 8
  · rw [if_pos ⟨by omega, h8⟩, if_pos h8, hflag (by omega)]
  rw [if_neg fun h => h8 h.2, if_neg h8]
  by_cases h10 : i < 10
  · rw [if_pos ⟨by omega, h10⟩, if_pos h10, hflag (by omega)]
  rw [if_neg fun h => h10 h.2, if_neg h10]
  by_cases h12 : i < 12
  · rw [if_pos ⟨by omega, h12⟩, if_pos h12, hflag (by omega)]
  rw [if_neg fun h => h12 h.2, if_neg h12]
  by_cases h14 : i < 14
  · rw [if_pos ⟨by omega, h14⟩, if_pos h14, hflag (by omega)]
  rw [if_neg fun h => h14 h.2, if_neg h14]
  by_cases h16 : i < 16
  · rw [if_pos ⟨by omega, h16⟩, if_pos h16, hflag (by omega)]
  rw [if_neg fun h => h16 h.2, if_neg h16]
  by_cases h20 : i < 20
  · rw [if_pos ⟨by omega, h20⟩, if_pos h20, hflag h20]
  rw [if_neg fun h => h20 h.2, if_neg h20, if_pos ⟨by omega, hi⟩, decide_eq_false h20,
    Bool.and_false]

theorem hexText_upper : ∀ i : Fin 256,
    (hexText (UInt8.ofFin i)).map Char.toUpper = ['1', '8'] → i = 24 := by
  decide +kernel

theorem startFrame_of_ne {b : UInt8} (hb : b ≠ 0x18) (u : UdpServer) :
    startFrame u (hexText b) = u := by
  refine if_neg fun h => hb ?_
  have hfin := hexText_upper b.toFin h
  exact UInt8.toFin_inj.mp hfin

/-- The bytes of an open frame, none of which starts another one, lead to its check. -/
theorem printHexString_open (copy : Copy) (addr : Addr) (bs : List UInt8) {d : NetDataPackage}
    {flag : Bool} {i : ℕ} (hopen : flag = true ∨ 4 ≤ i) (hne : ∀ b ∈ bs, b ≠ 0x18)
    (hlen : i + bs.length = 24) (hi : i < 24) :
    printHexString copy addr ⟨d, flag, i⟩ bs =
      ({}, checkDataString copy addr (d.storeAll i bs)) := by
  induction bs generalizing d flag i with
  | nil =>
    rw [List.length_nil] at hlen
    omega
  | cons b bs ih =>
    rw [List.length_cons] at hlen
    have hstore := storeField_eq (d := d) (hexText b) hopen hi
    rw [printHexString, parseString, startFrame_of_ne (hne b List.mem_cons_self), hstore]
    dsimp only
    by_cases hlast : i + 1 = 24
    · obtain rfl : bs = [] := List.length_eq_zero_iff.mp (by omega)
      have h20 : ¬ i < 20 := by omega
      rw [if_pos hlast, decide_eq_false h20, Bool.and_false]
      simp [printHexString, NetDataPackage.clear, NetDataPackage.storeAll]
    · rw [if_neg hlast]
      have hopen' : (flag && decide (i < 20)) = true ∨ 4 ≤ i + 1 := by
        rcases hopen with rfl | h
        · by_cases h : i < 20
          · exact .inl (by simp [h])
          · exact .inr (by omega)
        · exact .inr (by omega)
      rw [ih hopen' (fun c hc => hne c (List.mem_cons_of_mem b hc)) (by omega) (by omega)]
      rfl

/-- A frame is checked with everything it adds to the texts already there. -/
theorem printHexString_frame (copy : Copy) (addr : Addr) (u : UdpServer) (bs : List UInt8)
    (hne : ∀ b ∈ bs, b ≠ 0x18) (hlen : bs.length = 23) :
    printHexString copy addr u (0x18 :: bs) =
      ({}, checkDataString copy addr (u.datapackage.storeAll 0 (0x18 :: bs))) := by
  have hstart : startFrame u (hexText 0x18) = ⟨u.datapackage, true, 0⟩ := if_pos rfl
  have hstore := storeField_eq (d := u.datapackage) (i := 0) (hexText 0x18) (.inl rfl) (by decide)
  rw [printHexString, parseString, hstart, hstore]
  have hopen : (true && decide (0 < 20)) = true ∨ 4 ≤ 0 + 1 := .inl rfl
  rw [if_neg (by decide : ¬ 0 + 1 = 24)]
  dsimp only
  rw [printHexString_open copy addr bs hopen hne (by omega) (by decide)]
  rfl

/-! ## The response -/

theorem printHexString_append (copy : Copy) (addr : Addr) (u : UdpServer) (xs ys : List UInt8) :
    printHexString copy addr u (xs ++ ys) =
      let r := printHexString copy addr u xs
      let rs := printHexString copy addr r.1 ys
      (rs.1, r.2 ++ rs.2) := by
  induction xs generalizing u with
  | nil => rfl
  | cons x xs ih =>
    rw [List.cons_append, printHexString, ih]
    simp only [printHexString, List.append_assoc]

/-- Between frames the parser ignores zero bytes. -/
theorem printHexString_zeros (copy : Copy) (addr : Addr) (n : ℕ) :
    printHexString copy addr {} (List.replicate n 0) = ({}, []) := by
  induction n with
  | zero => rfl
  | succ n ih =>
    rw [List.replicate_succ, printHexString]
    show (let rs := printHexString copy addr {} (List.replicate n 0); (rs.1, [] ++ rs.2)) = _
    rw [ih]
    rfl

theorem storeAll_respond (d : NetDataPackage) :
    (d.storeAll 0 respondConnBroadcast).funType = d.funType ++ ['0', '6', '0', '0'] ∧
      (d.storeAll 0 respondConnBroadcast).mesType = d.mesType ++ ['0', '1', '0', '0'] := by
  have hlist : respondConnBroadcast =
    [0x18, 0, 0, 0, 0, 0, 0, 0, 6, 0, 1, 0, 0, 0, 0, 0, 0, 0, 0, 0, 0, 0, 0, 0] := rfl
  have h0 : hexText 0 = ['0', '0'] := rfl
  have h6 : hexText 6 = ['0', '6'] := rfl
  have h1 : hexText 1 = ['0', '1'] := rfl
  simp [hlist, NetDataPackage.storeAll, NetDataPackage.store, h0, h6, h1]

/-- **When the login response is recognised.** Whatever buffers came before, the next datagram's
response makes either copy send exactly one login message when no function or message type text is
left over from an unfinished frame, and otherwise none. -/
theorem login_recognised (copy : Copy) (bufs : List (Addr × Vector UInt8 48)) (addr : Addr) :
    (printHexString copy addr (runBuffers copy bufs)
        (receiveBuffer respondConnBroadcast)).2.map Message.what = [mesUdpLogin] ↔
      (runBuffers copy bufs).datapackage.funType = [] ∧
        (runBuffers copy bufs).datapackage.mesType = [] := by
  generalize runBuffers copy bufs = u
  have hbuf : receiveBuffer respondConnBroadcast =
      respondConnBroadcast ++ List.replicate 24 0 := rfl
  have hplain : (respondConnBroadcast.drop 1).all (fun b => b != 0x18) = true := by decide
  have hframe := printHexString_frame copy addr u (respondConnBroadcast.drop 1)
    (fun b hb => bne_iff_ne.mp (List.all_eq_true.mp hplain b hb)) rfl
  have hrespond : printHexString copy addr u respondConnBroadcast =
      ({}, checkDataString copy addr (u.datapackage.storeAll 0 respondConnBroadcast)) := hframe
  obtain ⟨hfun, hmes⟩ := storeAll_respond u.datapackage
  rw [hbuf, printHexString_append, hrespond]
  dsimp only
  rw [printHexString_zeros, List.append_nil]
  unfold checkDataString
  rw [hfun, hmes]
  simp only [List.append_left_eq_self]
  split_ifs with h
  · cases copy <;> simp [h]
  · simp [h]

/-- A buffer of zeros with a byte `0x18` at offset 38, which opens a frame and is over before the
frame is. -/
def cutFrame : Vector UInt8 48 := (Vector.replicate 48 0).set 38 0x18

/-- After `cutFrame` the response goes unrecognised in both copies. -/
theorem login_missed :
    (printHexString .nlConfigTool () (runBuffers .nlConfigTool [((), cutFrame)])
      (receiveBuffer respondConnBroadcast)).2 = [] ∧
    (printHexString .otaUpdateFw () (runBuffers .otaUpdateFw [((), cutFrame)])
      (receiveBuffer respondConnBroadcast)).2 = [] := by
  decide +kernel

end NuAgent.Wifi
