import NuAgent.Lan.Dispatch
import NuAgent.Lib.CString

/-!
# Soft-AP provisioning

Reference: `NLConfigTool/src/com/nufront/nusmartconfig/ConfigWireless.java`, the methods
`DataPacket` and `sendData`.

The phone writes the name and the key of a network into a datagram of 200 bytes, and the device
reads them out of it. The two sides agree: the device connects with the phone's strings. A length
that does not fit the device's arrays is refused before anything happens.
-/

namespace NuAgent.Lan

open CInt Memory CString

/-! ## The phone -/

/-- The two bytes of a `short`, low byte first. -/
def putShort (x : ℕ) : List UInt8 := [UInt8.ofNat (x &&& 0xff), UInt8.ofNat ((x >>> 8) &&& 0xff)]

/-- The capacity of the packet's buffer and the length of the datagram. -/
def packetSize : ℕ := 200

/-- `DataPacket`, with `none` for a Java `null`. The result is `none` when a `put` overflows the
buffer. -/
def dataPacket (ssid key : Option (List UInt8)) : Option (List UInt8) :=
  let size := 200
  let cmd := 0x11
  let func := 0
  let msg := 0
  let ssids := ssid.getD []
  let keys := key.getD []
  let buffer := putShort size ++ putShort cmd ++ putShort func ++ putShort msg ++
    [UInt8.ofNat ssids.length] ++ ssids ++ [UInt8.ofNat keys.length] ++ keys ++
    [0x08, 0x09, 0x0A, 0x0B]
  if buffer.length ≤ packetSize then some buffer else none

/-- The datagram of `sendData`: the packet at the start of an array of zeros. -/
def sendData (ssid key : Option (List UInt8)) : Option (List UInt8) := do
  let configPacket ← dataPacket ssid key
  some (Block.splice (List.replicate packetSize 0) 0 configPacket)

/-! ## The round trip -/

/-- The head of a configuration request. -/
def configHead : List UInt8 := [0xC8, 0, 0x11, 0, 0, 0, 0, 0]

/-- A configuration request: the head, and the two strings behind their lengths. -/
def configRequest (ssid key tail : List UInt8) : List UInt8 :=
  configHead ++ ([UInt8.ofNat ssid.length] ++ (ssid ++ ([UInt8.ofNat key.length] ++ (key ++ tail))))

/-- The phone sends a configuration request. -/
theorem sendData_eq {ssid : List UInt8} {key : Option (List UInt8)} (hssid : ssid.length ≤ 32)
    (hkey : (key.getD []).length ≤ 64) :
    ∃ tail, sendData (some ssid) key = some (configRequest ssid (key.getD []) tail) ∧
      (configRequest ssid (key.getD []) tail).length = packetSize := by
  set keys := key.getD [] with hkeys
  have hpacket : dataPacket (some ssid) key =
      some (configRequest ssid keys [0x08, 0x09, 0x0A, 0x0B]) := by
    have hbuf : putShort 200 ++ putShort 0x11 ++ putShort 0 ++ putShort 0 ++
        [UInt8.ofNat ssid.length] ++ ssid ++ [UInt8.ofNat keys.length] ++ keys ++
        [0x08, 0x09, 0x0A, 0x0B] = configRequest ssid keys [0x08, 0x09, 0x0A, 0x0B] := by
      simp only [configRequest, List.append_assoc]
      rfl
    unfold dataPacket
    simp only [Option.getD_some, ← hkeys, hbuf]
    rw [if_pos]
    simp only [configRequest, configHead, packetSize, List.length_append, List.length_cons,
      List.length_nil]
    omega
  refine ⟨[0x08, 0x09, 0x0A, 0x0B] ++
    List.replicate (packetSize - (configRequest ssid keys [0x08, 0x09, 0x0A, 0x0B]).length) 0,
    ?_, ?_⟩
  · rw [sendData, hpacket]
    simp only [Option.bind_eq_bind, Option.bind_some, Block.splice_replicate]
    simp only [configRequest, List.append_assoc]
  · simp only [configRequest, configHead, packetSize, List.length_append, List.length_cons,
      List.length_nil, List.length_replicate]
    omega

section
variable (ssid key : List UInt8)

/-- A byte of a request that lies at the start of the buffer. -/
theorem overlay_configRequest (buffer : ℕ → UInt8) (tail : List UInt8) {i : ℕ} {b : UInt8}
    (h : (configRequest ssid key tail)[i]? = some b) :
    overlay buffer 0 (configRequest ssid key tail) i = b := by
  have hi : i < (configRequest ssid key tail).length := (List.getElem?_eq_some_iff.mp h).1
  have hget : some (overlay buffer 0 (configRequest ssid key tail) (0 + i)) = _ := overlay_add hi
  rw [Nat.zero_add, h] at hget
  exact Option.some_inj.mp hget

/-- The length of the key stands behind the name. -/
theorem getElem?_configRequest_keyLength (tail : List UInt8) :
    (configRequest ssid key tail)[headSize + (ssid.length + 1)]? =
      some (UInt8.ofNat key.length) := by
  have hidx : headSize + (ssid.length + 1) = configHead.length + (1 + (ssid.length + 0)) := by
    change 8 + (ssid.length + 1) = 8 + (1 + (ssid.length + 0))
    omega
  rw [hidx, configRequest, List.getElem?_append_right (by omega), Nat.add_sub_cancel_left,
    List.getElem?_append_right (by simp), List.length_singleton, Nat.add_sub_cancel_left,
    List.getElem?_append_right (by omega), Nat.add_sub_cancel_left]
  rfl

/-- The name of a request. -/
theorem window_configRequest_ssid (buffer : ℕ → UInt8) (tail : List UInt8) :
    window (fun i => overlay buffer 0 (configRequest ssid key tail) (headSize + i)) 1 ssid.length =
      ssid := by
  rw [window_shift]
  exact window_overlay_middle (configHead ++ [UInt8.ofNat ssid.length]) ssid _

/-- The key of a request. -/
theorem window_configRequest_key (buffer : ℕ → UInt8) (tail : List UInt8) :
    window (fun i => overlay buffer 0 (configRequest ssid key tail) (headSize + i))
      (1 + ssid.length + 1) key.length = key := by
  set before := configHead ++ ([UInt8.ofNat ssid.length] ++ (ssid ++ [UInt8.ofNat key.length]))
    with hbefore
  have hreq : configRequest ssid key tail = before ++ (key ++ tail) := by
    simp only [configRequest, hbefore, List.append_assoc]
  have hpos : headSize + (1 + ssid.length + 1) = 0 + before.length := by
    simp only [hbefore, headSize, configHead, List.length_append, List.length_cons,
      List.length_nil]
    omega
  rw [window_shift, hreq, hpos]
  exact window_overlay_middle before key tail

variable {ssid key}

/-- The device reads the two strings out of a configuration request. -/
theorem dispatch_configRequest {Addr : Type} (ret : ℤ) (buffer : ℕ → UInt8) (tail : List UInt8)
    (hpos : 1 ≤ ssid.length) (hssid : ssid.length ≤ 32) (hkey : key.length ≤ 64) (recvCount : ℕ)
    (clientAddr : Addr) :
    ∃ rest, socketDispatchUDPData ret (overlay buffer 0 (configRequest ssid key tail)) recvCount
        clientAddr =
      .setOnboarding .onboarding :: .staModeConnStart
        (Block.splice (List.replicate 33 0) 0 ssid) (Block.splice (List.replicate 65 0) 0 key) 1 ::
        rest := by
  have hssids := window_configRequest_ssid ssid key buffer tail
  have hkeys := window_configRequest_key ssid key buffer tail
  have h2 := overlay_configRequest ssid key buffer tail (i := 2) (b := 0x11) rfl
  have h3 := overlay_configRequest ssid key buffer tail (i := 3) (b := 0) rfl
  have h8 := overlay_configRequest ssid key buffer tail (i := headSize + 0)
    (b := UInt8.ofNat ssid.length) rfl
  have h9 := overlay_configRequest ssid key buffer tail
    (getElem?_configRequest_keyLength ssid key tail)
  generalize overlay buffer 0 (configRequest ssid key tail) = recvData at *
  have hcmd : (readHead recvData).cmd = cmdSoftapConfig := by
    simp [readHead, readShort, h2, h3, i16, cmdSoftapConfig]
  have hlen : (recvData (headSize + 0)).toNat = ssid.length := by
    rw [h8, UInt8.toNat_ofNat']
    omega
  have hklen : (recvData (headSize + (ssid.length + 1))).toNat = key.length := by
    rw [h9, UInt8.toNat_ofNat']
    omega
  have hconn := lanSoftapConfig_connects Addr ret (fun i => recvData (headSize + i))
    (u32 (recvCount - headSize)) (by omega) (by omega) (by rw [hlen, hklen]; exact hkey)
  simp only [hlen, hklen, hssids, hkeys] at hconn
  unfold socketDispatchUDPData
  rw [if_pos hcmd]
  exact hconn

end

/-- The phone's datagram makes the device connect with the phone's strings, and a request with a
length byte out of range makes it do nothing. -/
theorem provisioning_round_trip {Addr : Type} (ret : ℤ) (clientAddr : Addr) :
    (∀ (buffer : ℕ → UInt8) (ssid : List UInt8) (key : Option (List UInt8)),
      1 ≤ ssid.length → ssid.length ≤ 32 → (key.getD []).length ≤ 64 → NoNul ssid →
      NoNul (key.getD []) →
      ∃ datagram staSsid staPass rest, sendData (some ssid) key = some datagram ∧
        datagram.length = 200 ∧
        socketDispatchUDPData ret (recvfrom buffer datagram) datagram.length clientAddr =
          .setOnboarding .onboarding :: .staModeConnStart staSsid staPass 1 :: rest ∧
        cstr staSsid = ssid ∧ cstr staPass = key.getD []) ∧
    (∀ (data : ℕ → UInt8) (dataLen : ℕ),
      (data 0).toNat = 0 ∨ (data 0).toNat > 32 ∨ (data ((data 0).toNat + 1)).toNat > 64 →
      lanSoftapConfig ret data dataLen = ([] : List (Call Addr))) := by
  refine ⟨?_, fun data dataLen h => lanSoftapConfig_refuses Addr ret data dataLen h⟩
  intro buffer ssid key hpos hssid hkey hs hk
  obtain ⟨tail, hsend, hlen⟩ := sendData_eq hssid hkey
  obtain ⟨rest, hcalls⟩ := dispatch_configRequest ret buffer tail hpos hssid hkey
    (configRequest ssid (key.getD []) tail).length clientAddr
  refine ⟨_, _, _, rest, hsend, hlen, ?_,
    cstr_splice_replicate hs (show ssid.length < 33 by omega),
    cstr_splice_replicate hk (show (key.getD []).length < 65 by omega)⟩
  rw [← hcalls, recvfrom, List.take_of_length_le]
  rw [hlen]
  decide

/-- The network `ab` with the key `c`, and a request whose name is 200 bytes long. -/
theorem provisioning_round_trip_ab :
    (∃ datagram staSsid staPass rest, sendData (some [0x61, 0x62]) (some [0x63]) = some datagram ∧
      datagram.length = 200 ∧
      socketDispatchUDPData 0 (recvfrom (fun _ => 0xFF) datagram) datagram.length () =
        .setOnboarding .onboarding :: .staModeConnStart staSsid staPass 1 :: rest ∧
      cstr staSsid = [0x61, 0x62] ∧ cstr staPass = [0x63]) ∧
    lanSoftapConfig 0 (fun _ => 200) 192 = ([] : List (Call Unit)) :=
  ⟨(provisioning_round_trip 0 ()).1 (fun _ => 0xFF) [0x61, 0x62] (some [0x63]) (by decide)
      (by decide) (by decide) (by decide) (by decide),
    (provisioning_round_trip 0 ()).2 (fun _ => 200) 192 (.inr (.inl (by decide)))⟩

end NuAgent.Lan
