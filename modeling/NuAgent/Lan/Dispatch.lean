import NuAgent.Lib.Bytes
import NuAgent.Lib.CInt
import NuAgent.Lib.Overlay

/-!
# Dispatching UDP datagrams

Reference: `App/NuAgent/User/lan.c`, `lan.h` and the loop of `Socket_UDPServerRecvData` in
`App/NuAgent/System/network_adapter.c`.

The receive buffer is read as it stands after a datagram was stored at its start. What a datagram
makes the device do is the list of its calls, in order, up to the chip reset. Logging is left out. A
plain `char` is unsigned on this compiler, so that a length byte is between 0 and 255.
-/

namespace NuAgent.Lan

open CInt Memory

/-! ## Effects -/

/-- The values of `sys_status.onboarding` that a configuration request sets. -/
inductive Onboarding
  | onboarding
  | onboardingSuccess
deriving DecidableEq, Repr

/-- The calls that handling a datagram makes; arrays are passed with all of their bytes. -/
inductive Call (Addr : Type)
  | setOnboarding (status : Onboarding)
  | staModeConnStart (staSsid staPass : List UInt8) (flag : ℕ)
  | saveSSIDAndKey (ssid key : List UInt8)
  | respondConnBroadcast
  | chipReset
  | udpServerSendData (sendbuf : List UInt8) (clientAddr : Addr)
deriving DecidableEq, Repr

/-! ## Handlers -/

section
variable {Addr : Type}

/-- `lan_softap_config`, where the connection attempt returns `ret`. The length of the data is not
read. -/
def lanSoftapConfig (ret : ℤ) (data : ℕ → UInt8) (_dataLen : ℕ) : List (Call Addr) :=
  let ssidLen := (data 0).toNat
  if ssidLen > 32 ∨ ssidLen ≤ 0 then []
  else
    let ssid := Block.splice (List.replicate 33 0) 0 (window data 1 ssidLen)
    let passwdlen := (data (ssidLen + 1)).toNat
    if passwdlen > 64 then []
    else
      let passwd := Block.splice (List.replicate 65 0) 0 (window data (1 + ssidLen + 1) passwdlen)
      [.setOnboarding .onboarding, .staModeConnStart ssid passwd 1] ++
        if ret = 0 then
          [.setOnboarding .onboardingSuccess, .saveSSIDAndKey ssid passwd, .respondConnBroadcast,
            .chipReset]
        else []

/-- A length byte that does not fit is refused. -/
theorem lanSoftapConfig_refuses (Addr : Type) (ret : ℤ) (data : ℕ → UInt8) (dataLen : ℕ)
    (h : (data 0).toNat = 0 ∨ (data 0).toNat > 32 ∨ (data ((data 0).toNat + 1)).toNat > 64) :
    lanSoftapConfig ret data dataLen = ([] : List (Call Addr)) := by
  unfold lanSoftapConfig
  by_cases hbad : (data 0).toNat > 32 ∨ (data 0).toNat ≤ 0
  · rw [if_pos hbad]
  · rw [if_neg hbad, if_pos (by omega)]

/-- A request with both lengths in range starts a connection. -/
theorem lanSoftapConfig_connects (Addr : Type) (ret : ℤ) (data : ℕ → UInt8) (dataLen : ℕ)
    (hpos : 0 < (data 0).toNat) (hssid : (data 0).toNat ≤ 32)
    (hpass : (data ((data 0).toNat + 1)).toNat ≤ 64) :
    ∃ rest : List (Call Addr), lanSoftapConfig ret data dataLen =
      .setOnboarding .onboarding :: .staModeConnStart
        (Block.splice (List.replicate 33 0) 0 (window data 1 (data 0).toNat))
        (Block.splice (List.replicate 65 0) 0 (window data (1 + (data 0).toNat + 1)
          (data ((data 0).toNat + 1)).toNat)) 1 :: rest := by
  unfold lanSoftapConfig
  rw [if_neg (by omega), if_neg (by omega)]
  exact ⟨_, rfl⟩

/-- `UDP_SCAN_RESPONSE_TIME`. -/
def udpScanResponseTime : ℕ := 5

/-- `lan_device_discover_response`: the answer "ok", and its repetitions. -/
def lanDeviceDiscoverResponse (clientAddr : Addr) : List (Call Addr) :=
  List.replicate (udpScanResponseTime + 1) (.udpServerSendData [0x6F, 0x6B] clientAddr)

/-- `LAN_NETDATA_HEAD`, of which only the command is used. -/
structure LanNetdataHead where
  cmd : ℤ

/-- A little-endian `short` at offset `off`. -/
def readShort (data : ℕ → UInt8) (off : ℕ) : ℤ :=
  i16 ((data off).toNat + 256 * (data (off + 1)).toNat)

/-- `sizeof(LAN_NETDATA_HEAD)`. -/
def headSize : ℕ := 8

/-- The head of a datagram. -/
def readHead (recvData : ℕ → UInt8) : LanNetdataHead where
  cmd := readShort recvData 2

/-- `LAN_NETDATA_CMD_SOFTAP_CONFIG`. -/
def cmdSoftapConfig : ℤ := 0x11
/-- `LAN_NETDATA_CMD_DEV_DISCOVER`. -/
def cmdDevDiscover : ℤ := 0x31

/-- `Socket_DispatchUDPData`. -/
def socketDispatchUDPData (ret : ℤ) (recvData : ℕ → UInt8) (recvCount : ℕ) (clientAddr : Addr) :
    List (Call Addr) :=
  let head := readHead recvData
  if head.cmd = cmdSoftapConfig then
    lanSoftapConfig ret (fun i => recvData (headSize + i)) (u32 (recvCount - headSize))
  else if head.cmd = cmdDevDiscover then lanDeviceDiscoverResponse clientAddr
  else []

end

/-! ## The receive buffer -/

/-- `UDP_SERVER_BUFFER_SIZE`. -/
def udpServerBufferSize : ℕ := 2048

/-- `recvfrom` stores a datagram at the start of the buffer and cuts it off at the buffer's size. -/
def recvfrom (buffer : ℕ → UInt8) (datagram : List UInt8) : ℕ → UInt8 :=
  overlay buffer 0 (datagram.take udpServerBufferSize)

/-- The buffer after the datagrams of a history. -/
def bufferAfter (buffer : ℕ → UInt8) (history : List (List UInt8)) : ℕ → UInt8 :=
  history.foldl recvfrom buffer

/-- One turn of the loop of `Socket_UDPServerRecvData` that receives `datagram`. -/
def socketUDPServerRecvData {Addr : Type} (ret : ℤ) (buffer : ℕ → UInt8) (datagram : List UInt8)
    (clientAddr : Addr) : List (Call Addr) :=
  let recvCount := (datagram.take udpServerBufferSize).length
  if recvCount = 0 then []
  else socketDispatchUDPData ret (recvfrom buffer datagram) recvCount clientAddr

end NuAgent.Lan
