import NuAgent.Lib.Bytes
import NuAgent.Lib.CInt
import NuAgent.Lib.CString

/-!
# System parameters

Reference: `Sys/param.c`, `Include/param.h` and the function `DRV_WiFi_StaModeConnStart` of
`App/NuAgent/Wifi/wifi_conn.c`.

The parameters are a record of arrays and small numbers that setters change one by one. A setter
gets the memory at the pointer it is given, `none` for a null pointer, and a length that was
converted to eight bits on the way.
-/

namespace NuAgent.Config

open CInt CString

/-! ## The record -/

/-- `WIFI_CFG`. -/
structure WifiCfg where
  ssid : List UInt8
  ssidBrdEnable : ℕ
  phyMode : ℕ
  channel : ℕ
  encry : ℕ
  authMode : ℕ
  protocol : ℕ
  keyLength : ℕ
  keyIndex : ℕ
  psk : List UInt8
  wscEn : ℕ
  conTryTimes : ℕ
  wmmEn : ℕ
deriving DecidableEq, Repr

/-- `IP_CFG`. -/
structure IpCfg where
  ip : List UInt8
  netmask : List UInt8
  gateWay : List UInt8
  dns : List UInt8
  bDhcp : ℕ
  dhcpTryTimes : ℕ
deriving DecidableEq, Repr

/-- `CFG_PARAM`. -/
structure CfgParam where
  wifiCfg : WifiCfg
  ipCfg : IpCfg
  bDhcpServer : ℕ
  bDnsServer : ℕ
  dnsName : List UInt8
deriving DecidableEq, Repr

/-- The bytes of an ASCII text. -/
def ascii (s : String) : List UInt8 := s.toList.map fun c => UInt8.ofNat c.toNat

/-- A digit of the conversion `%x`. -/
def hexDigit (n : ℕ) : UInt8 := if n < 10 then UInt8.ofNat (0x30 + n) else UInt8.ofNat (0x61 + n - 10)

/-- The conversion `%02x` of a byte. -/
def hex2 (b : UInt8) : List UInt8 := [hexDigit (b.toNat / 16), hexDigit (b.toNat % 16)]

/-- An array of `n` zeros with a text stored at its start, as `sprintf` and `strcpy` do it. -/
def textArray (n : ℕ) (text : List UInt8) : List UInt8 := Block.splice (List.replicate n 0) 0 text

/-- `InfLoadDefaultParam`, for a device with the address `permanentAddress`. -/
def infLoadDefaultParam (permanentAddress : List UInt8) : CfgParam where
  wifiCfg :=
    { ssid := textArray 33
        (ascii "NuAgent-" ++ (((permanentAddress.drop 2).take 4).map hex2).flatten)
      ssidBrdEnable := 1
      phyMode := 0
      channel := 11
      encry := 3
      authMode := 3
      protocol := 2
      keyLength := 9
      keyIndex := 0
      psk := textArray 64 (ascii "123456789")
      wscEn := 0
      conTryTimes := 0
      wmmEn := 0 }
  ipCfg :=
    { ip := [10, 10, 10, 1]
      netmask := [255, 255, 255, 0]
      gateWay := [10, 10, 100, 254]
      dns := [10, 10, 100, 254]
      bDhcp := 1
      dhcpTryTimes := 0 }
  bDhcpServer := 1
  bDnsServer := 1
  dnsName := textArray 33 (ascii "local.nufront")

/-! ## Setters -/

/-- `InfSsidSet`. A rejected name empties the one that is set. -/
def infSsidSet (p : CfgParam) (pSsid : Option (List UInt8)) (ssidLen : ℕ) : CfgParam × ℤ :=
  match pSsid with
  | none => ({ p with wifiCfg := { p.wifiCfg with ssid := p.wifiCfg.ssid.set 0 0 } }, -1)
  | some mem =>
      if ssidLen > 32 ∨ ssidLen = 0 then
        ({ p with wifiCfg := { p.wifiCfg with ssid := p.wifiCfg.ssid.set 0 0 } }, -1)
      else
        let ssid := Block.splice p.wifiCfg.ssid 0 (mem.take ssidLen)
        ({ p with wifiCfg := { p.wifiCfg with ssid := ssid.set ssidLen 0 } }, 0)

/-- `InfKeySet`. -/
def infKeySet (p : CfgParam) (index : ℕ) (keyBuf : Option (List UInt8)) (keyLen : ℕ) :
    CfgParam × ℤ :=
  match keyBuf with
  | none => (p, -1)
  | some mem =>
      if index > 3 ∨ keyLen > 64 then (p, -1)
      else
        let psk := Block.splice p.wifiCfg.psk 0 (mem.take keyLen)
        let psk := if keyLen < 64 then psk.set keyLen 0 else psk
        ({ p with
            wifiCfg := { p.wifiCfg with keyIndex := index, keyLength := keyLen, psk := psk } }, 0)

/-- `InfNetModeSet`, with `PARAM_NET_MODE_MAX` equal to 3. -/
def infNetModeSet (p : CfgParam) (mode : ℕ) : CfgParam × ℤ :=
  if mode ≥ 3 then (p, -1) else ({ p with wifiCfg := { p.wifiCfg with protocol := mode } }, 0)

/-- `InfEncModeSet`, with `PARAM_ENC_MODE_MAX` equal to 5. -/
def infEncModeSet (p : CfgParam) (encMode : ℕ) : CfgParam × ℤ :=
  if encMode ≥ 5 then (p, -1) else ({ p with wifiCfg := { p.wifiCfg with encry := encMode } }, 0)

/-- `InfConTryTimesSet`. -/
def infConTryTimesSet (p : CfgParam) (tryTimes : ℕ) : CfgParam × ℤ :=
  ({ p with wifiCfg := { p.wifiCfg with conTryTimes := tryTimes } }, 0)

/-- `InfDnsSrvSet`. The name is copied without the NUL byte that ends it. -/
def infDnsSrvSet (p : CfgParam) (enable : ℕ) (dnsName : Option (List UInt8)) (dnsNameLen : ℕ) :
    CfgParam × ℤ :=
  if enable ≠ 0 then
    match dnsName with
    | none => (p, -1)
    | some mem =>
        if dnsNameLen > 32 then (p, -1)
        else
          ({ p with
              bDnsServer := 1
              dnsName := Block.splice p.dnsName 0 (mem.take dnsNameLen) }, 0)
  else ({ p with bDnsServer := 0 }, 0)

/-- `InfConfigQuery`: the memory at `pParam` afterwards, which is a copy of the parameters. -/
def infConfigQuery (sysParam : CfgParam) (pParam : Option CfgParam) : Option CfgParam × ℤ :=
  match pParam with
  | none => (none, -1)
  | some _ => (some sysParam, 0)

/-- `InfIpSet`. -/
def infIpSet (p : CfgParam) (ipParam : IpCfg) : CfgParam × ℤ := ({ p with ipCfg := ipParam }, 0)

/-- The parameters that `DRV_WiFi_StaModeConnStart` starts the connection with. `staSsid` and
`staPass` are the memory at the two pointers. -/
def drvWiFiStaModeConnStart (permanentAddress : List UInt8) (sysParam : CfgParam)
    (staSsid staPass : List UInt8) (flag : ℕ) : CfgParam :=
  if flag = 1 then
    let p := infLoadDefaultParam permanentAddress
    let ipParam : IpCfg :=
      { ip := [0, 0, 0, 0], netmask := [0, 0, 0, 0], gateWay := [0, 0, 0, 0], dns := [0, 0, 0, 0]
        bDhcp := 1, dhcpTryTimes := 0 }
    let p := (infIpSet p ipParam).1
    let p := (infConTryTimesSet p 5).1
    let p := (infNetModeSet p 0).1
    let p := (infEncModeSet p 4).1
    let p := (infSsidSet p (some staSsid) (u8 (strlen staSsid))).1
    (infKeySet p 0 (some staPass) (u8 (strlen staPass))).1
  else
    let p := (infNetModeSet sysParam 0).1
    (infConTryTimesSet p 5).1

/-! ## What a connection uses -/

/-- The name that is set. -/
def CfgParam.ssid (p : CfgParam) : List UInt8 := cstr p.wifiCfg.ssid

/-- The key that is set: the first `KeyLength` bytes of the key field. -/
def CfgParam.key (p : CfgParam) : List UInt8 := p.wifiCfg.psk.take p.wifiCfg.keyLength

/-- A text that fits leaves the length of its array as it is. -/
theorem length_textArray {n : ℕ} {text : List UInt8} (h : text.length ≤ n) :
    (textArray n text).length = n := by
  rw [textArray, Block.splice_replicate, List.length_append, List.length_replicate]
  omega

/-- The conversion of an address takes two digits for each byte. -/
theorem length_flatten_hex2 (l : List UInt8) : (l.map hex2).flatten.length = 2 * l.length := by
  induction l with
  | nil => rfl
  | cons b l ih =>
    rw [List.map_cons, List.flatten_cons, List.length_append, ih, List.length_cons]
    change 2 + 2 * l.length = 2 * (l.length + 1)
    omega

theorem length_ssid_default (permanentAddress : List UInt8) :
    (infLoadDefaultParam permanentAddress).wifiCfg.ssid.length = 33 := by
  apply length_textArray
  rw [List.length_append, length_flatten_hex2, List.length_take]
  change 8 + 2 * min 4 _ ≤ 33
  omega

/-- A string stored at the start of a longer array and terminated there. -/
theorem cstr_set_splice {a s : List UInt8} (hs : NoNul s) (hlen : s.length < a.length) :
    cstr ((Block.splice a 0 s).set s.length 0) = s := by
  obtain ⟨x, rest, hdrop⟩ : ∃ x rest, a.drop s.length = x :: rest :=
    List.exists_cons_of_ne_nil (by rw [Ne, List.drop_eq_nil_iff]; omega)
  rw [Block.splice, List.take_zero, List.nil_append, Nat.zero_add, hdrop,
    List.set_append_right _ _ (Nat.le_refl _), Nat.sub_self, List.set_cons_zero, cstr_terminated hs]

/-- The name that is set is the string at the pointer when its length fits. A length that does not
fit leaves no name. -/
theorem infSsidSet_ssid {p : CfgParam} (mem : List UInt8) {n : ℕ}
    (hlen : p.wifiCfg.ssid.length = 33) (hn : n ≤ strlen mem) :
    (infSsidSet p (some mem) n).1.ssid = if n > 32 ∨ n = 0 then [] else (cstr mem).take n := by
  unfold infSsidSet CfgParam.ssid
  dsimp only
  split_ifs with hbad
  · obtain ⟨x, rest, hcons⟩ := List.exists_cons_of_length_eq_add_one hlen
    rw [hcons, List.set_cons_zero]
    rfl
  · have htake := take_eq_take_cstr hn
    have hl : (mem.take n).length = n := by
      rw [htake, List.length_take]
      exact Nat.min_eq_left hn
    have hs : NoNul (mem.take n) := by
      rw [htake]
      exact fun b hb => noNul_cstr mem b (List.mem_of_mem_take hb)
    have hset := cstr_set_splice (a := p.wifiCfg.ssid) hs (by omega)
    rw [hl] at hset
    rw [← htake]
    exact hset

/-- The key that is set is the string at the pointer when its length fits. A length that does not
fit leaves the key as it is. -/
theorem infKeySet_key {p : CfgParam} (mem : List UInt8) {n : ℕ} (hn : n ≤ strlen mem) :
    (infKeySet p 0 (some mem) n).1.key = (if n > 64 then p.key else (cstr mem).take n) ∧
      (infKeySet p 0 (some mem) n).1.wifiCfg.keyLength =
        (if n > 64 then p.wifiCfg.keyLength else n) := by
  by_cases hbad : n > 64
  · have hcall : infKeySet p 0 (some mem) n = (p, -1) := if_pos (.inr hbad)
    rw [hcall, if_pos hbad, if_pos hbad]
    exact ⟨rfl, rfl⟩
  · have hcond : ¬ (0 > 3 ∨ n > 64) := by omega
    have hl : (mem.take n).length = n := by
      rw [take_eq_take_cstr hn, List.length_take]
      exact Nat.min_eq_left hn
    have hsplice : (Block.splice p.wifiCfg.psk 0 (mem.take n)).take n = mem.take n := by
      rw [Block.splice, List.take_zero, List.nil_append, List.take_append_of_le_length (by omega),
        List.take_of_length_le (by omega)]
    rw [if_neg hbad, if_neg hbad, ← take_eq_take_cstr hn, infKeySet, if_neg hcond, CfgParam.key]
    refine ⟨?_, rfl⟩
    dsimp only
    split_ifs
    · rw [List.take_set_of_le (Nat.le_refl n), hsplice]
    · exact hsplice

/-- Setting the name leaves the key as it is. -/
theorem infSsidSet_frame (p : CfgParam) (pSsid : Option (List UInt8)) (n : ℕ) :
    (infSsidSet p pSsid n).1.wifiCfg.psk = p.wifiCfg.psk ∧
      (infSsidSet p pSsid n).1.wifiCfg.keyLength = p.wifiCfg.keyLength := by
  cases pSsid with
  | none => exact ⟨rfl, rfl⟩
  | some mem =>
    unfold infSsidSet
    dsimp only
    split_ifs <;> exact ⟨rfl, rfl⟩

/-- Setting the key leaves the name as it is. -/
theorem infKeySet_frame (p : CfgParam) (index : ℕ) (keyBuf : Option (List UInt8)) (n : ℕ) :
    (infKeySet p index keyBuf n).1.wifiCfg.ssid = p.wifiCfg.ssid := by
  cases keyBuf with
  | none => rfl
  | some mem =>
    unfold infKeySet
    dsimp only
    split_ifs <;> rfl

/-- The name and the key with which a station starts. -/
theorem drvWiFiStaModeConnStart_spec (permanentAddress : List UInt8) (sysParam : CfgParam)
    (staSsid staPass : List UInt8) :
    (drvWiFiStaModeConnStart permanentAddress sysParam staSsid staPass 1).ssid =
        (if u8 (strlen staSsid) > 32 ∨ u8 (strlen staSsid) = 0 then []
        else (cstr staSsid).take (u8 (strlen staSsid))) ∧
      (drvWiFiStaModeConnStart permanentAddress sysParam staSsid staPass 1).key =
        (if u8 (strlen staPass) > 64 then ascii "123456789"
        else (cstr staPass).take (u8 (strlen staPass))) ∧
      (drvWiFiStaModeConnStart permanentAddress sysParam staSsid staPass 1).wifiCfg.keyLength =
        (if u8 (strlen staPass) > 64 then 9 else u8 (strlen staPass)) := by
  have hle : ∀ n : ℕ, u8 n ≤ n := fun n => by
    rw [u8, unsigned_natCast]
    exact Nat.mod_le _ _
  unfold drvWiFiStaModeConnStart
  rw [if_pos rfl]
  dsimp only
  set p := (infEncModeSet _ 4).1
  have hlen : p.wifiCfg.ssid.length = 33 := length_ssid_default permanentAddress
  obtain ⟨hpsk, hkl⟩ := infSsidSet_frame p (some staSsid) (u8 (strlen staSsid))
  have hdefault : (infSsidSet p (some staSsid) (u8 (strlen staSsid))).1.key =
      ascii "123456789" := by
    rw [CfgParam.key, hpsk, hkl]
    change (textArray 64 (ascii "123456789")).take 9 = ascii "123456789"
    decide
  obtain ⟨hk, hl⟩ := infKeySet_key (p := (infSsidSet p (some staSsid) (u8 (strlen staSsid))).1)
    staPass (hle _)
  refine ⟨?_, ?_, ?_⟩
  · rw [← infSsidSet_ssid staSsid hlen (hle (strlen staSsid)), CfgParam.ssid, infKeySet_frame]
    rfl
  · rw [hk, hdefault]
  · rw [hl, hkl]
    rfl

end NuAgent.Config
