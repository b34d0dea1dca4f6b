import NuAgent.Config.Param
import NuAgent.Flash.Write

/-!
# Credentials in flash

Reference: `App/NuAgent/Include/nu_agent.h`, the functions `nl6621_GetConfigData`,
`nl6621_SaveConfigData` and `Agent_SaveSSIDAndKey` of `App/NuAgent/System/nuagent_drv.c`, and the
start of a station after a reboot in `App/NuAgent/Wifi/wifi_conn.c`.

The name and the key that a device was provisioned with are stored in fields of 32 bytes each, which
leave no room for a terminator when a string fills its field. After a reboot they are read back as C
strings, and a string that fills its field runs on into what follows it in memory.
-/

namespace NuAgent.Config

open CInt CString Memory Flash

/-! ## The record and its bytes -/

/-- `Agent_config_t`. -/
structure AgentConfig where
  magicNumber : ℕ
  flag : ℕ
  wifipasscode : List UInt8
  wifiSsid : List UInt8
  wifiKey : List UInt8
deriving DecidableEq, Repr

/-- The fields have the sizes of their types. -/
structure AgentConfig.WellSized (c : AgentConfig) : Prop where
  magicNumber : c.magicNumber < 2 ^ 32
  flag : c.flag < 2 ^ 32
  wifipasscode : c.wifipasscode.length = 16
  wifiSsid : c.wifiSsid.length = 32
  wifiKey : c.wifiKey.length = 32

/-- The four bytes of an `unsigned int`, low byte first. -/
def putWord (x : ℕ) : List UInt8 :=
  [UInt8.ofNat x, UInt8.ofNat (x / 256), UInt8.ofNat (x / 65536), UInt8.ofNat (x / 16777216)]

/-- The `unsigned int` at the start of some bytes. -/
def getWord (bs : List UInt8) : ℕ :=
  (bs.getD 0 0).toNat + 256 * (bs.getD 1 0).toNat + 65536 * (bs.getD 2 0).toNat +
    16777216 * (bs.getD 3 0).toNat

/-- The bytes of the record in memory. -/
def AgentConfig.bytes (c : AgentConfig) : List UInt8 :=
  putWord c.magicNumber ++ (putWord c.flag ++ (c.wifipasscode ++ (c.wifiSsid ++ c.wifiKey)))

/-- The record that some bytes in memory are. -/
def AgentConfig.ofBytes (bs : List UInt8) : AgentConfig where
  magicNumber := getWord bs
  flag := getWord (bs.drop 4)
  wifipasscode := (bs.drop 8).take 16
  wifiSsid := (bs.drop 24).take 32
  wifiKey := (bs.drop 56).take 32

theorem getWord_putWord {x : ℕ} (h : x < 2 ^ 32) (rest : List UInt8) :
    getWord (putWord x ++ rest) = x := by
  change (UInt8.ofNat x).toNat + 256 * (UInt8.ofNat (x / 256)).toNat +
    65536 * (UInt8.ofNat (x / 65536)).toNat + 16777216 * (UInt8.ofNat (x / 16777216)).toNat = x
  simp only [UInt8.toNat_ofNat']
  omega

/-- The bytes of a record are the record again. -/
theorem AgentConfig.ofBytes_bytes {c : AgentConfig} (h : c.WellSized) : ofBytes c.bytes = c := by
  have h4 : c.bytes.drop 4 =
      putWord c.flag ++ (c.wifipasscode ++ (c.wifiSsid ++ c.wifiKey)) := rfl
  have h8 : c.bytes.drop 8 = c.wifipasscode ++ (c.wifiSsid ++ c.wifiKey) := rfl
  have h24 : c.bytes.drop 24 = c.wifiSsid ++ c.wifiKey := by
    have hdrop : c.bytes.drop 24 = (c.bytes.drop 8).drop 16 := by rw [List.drop_drop]
    rw [hdrop, h8, List.drop_left' h.wifipasscode]
  have h56 : c.bytes.drop 56 = c.wifiKey := by
    have hdrop : c.bytes.drop 56 = (c.bytes.drop 24).drop 32 := by rw [List.drop_drop]
    rw [hdrop, h24, List.drop_left' h.wifiSsid]
  unfold ofBytes
  rw [h4, h8, h24, h56, getWord_putWord h.flag, List.take_left' h.wifipasscode,
    List.take_left' h.wifiSsid, List.take_of_length_le (Nat.le_of_eq h.wifiKey), bytes,
    getWord_putWord h.magicNumber]

theorem AgentConfig.length_bytes {c : AgentConfig} (h : c.WellSized) : c.bytes.length = 88 := by
  unfold bytes putWord
  simp only [List.length_append, List.length_cons, List.length_nil, h.wifipasscode, h.wifiSsid,
    h.wifiKey]

/-! ## Saving and reading back -/

/-- `AGENT_CONFIG_DATA_ADDR`. -/
def agentConfigDataAddr : ℕ := 0x64000
/-- `sizeof(Agent_config_t)`. -/
def agentConfigSize : ℕ := 88
/-- `XPG_CFG_FLAG_CONNECTED`. -/
def xpgCfgFlagConnected : ℕ := 1

section
variable {σ : Type} (dev : Device σ)

/-- `nl6621_GetConfigData`. -/
def nl6621GetConfigData (s : σ) : AgentConfig :=
  AgentConfig.ofBytes (qSpiFlashRead dev s agentConfigDataAddr agentConfigSize)

/-- `nl6621_SaveConfigData`, with the sector buffer allocated. -/
def nl6621SaveConfigData (s : σ) (c : AgentConfig) : Option σ :=
  writeFlash dev true s c.bytes agentConfigSize agentConfigDataAddr

/-- The record that `Agent_SaveSSIDAndKey` saves: 32 bytes are copied from each pointer. -/
def withCredentials (c : AgentConfig) (pSSID pKey : List UInt8) : AgentConfig :=
  { c with
    wifiSsid := Block.splice (List.replicate 32 0) 0 (pSSID.take 32)
    wifiKey := Block.splice (List.replicate 32 0) 0 (pKey.take 32)
    flag := xpgCfgFlagConnected }

/-- `Agent_SaveSSIDAndKey`. -/
def agentSaveSSIDAndKey (s : σ) (c : AgentConfig) (pSSID pKey : List UInt8) : Option σ :=
  nl6621SaveConfigData dev s (withCredentials c pSSID pKey)

/-- The start after a reboot: a device that was connected starts as a station with the strings in
its record. `after` is what follows the record in memory up to the first NUL byte. -/
def startStation (permanentAddress : List UInt8) (sysParam : CfgParam) (c : AgentConfig)
    (after : List UInt8) : Option CfgParam :=
  if c.flag = xpgCfgFlagConnected then
    some (drvWiFiStaModeConnStart permanentAddress sysParam
      (c.wifiSsid ++ (c.wifiKey ++ (after ++ [0]))) (c.wifiKey ++ (after ++ [0])) 1)
  else none

end

theorem withCredentials_wellSized {c : AgentConfig} (h : c.WellSized) (pSSID pKey : List UInt8) :
    (withCredentials c pSSID pKey).WellSized := by
  have hlen : ∀ l : List UInt8, (Block.splice (List.replicate 32 0) 0 (l.take 32)).length = 32 := by
    intro l
    rw [Block.splice_replicate, List.length_append, List.length_replicate, List.length_take]
    omega
  exact ⟨h.magicNumber, show 1 < 2 ^ 32 by decide, h.wifipasscode, hlen pSSID, hlen pKey⟩

/-- On a NOR flash the record that was saved is the record that is read after a reboot. -/
theorem saved_record {c : AgentConfig} (h : c.WellSized) (s : Nor) (pSSID pKey : List UInt8) :
    ∃ s', agentSaveSSIDAndKey nor s c pSSID pKey = some s' ∧
      nl6621GetConfigData nor s' = withCredentials c pSSID pKey := by
  have hw := withCredentials_wellSized h pSSID pKey
  have hlen := AgentConfig.length_bytes hw
  obtain ⟨s', hwrite, hst⟩ := writeFlash_nor s (withCredentials c pSSID pKey).bytes
    agentConfigDataAddr (by rw [hlen]; decide)
  rw [hlen] at hwrite
  refine ⟨s', hwrite, ?_⟩
  rw [nl6621GetConfigData, qSpiFlashRead, flashReadLoop_nor _ _ _ _ (by decide), hst.cells]
  change AgentConfig.ofBytes (window _ _ 88) = _
  rw [← hlen, window_overlay, AgentConfig.ofBytes_bytes hw]

/-! ## Strings that fill their field -/

/-- The field of 32 bytes that a string of an array of `n` bytes is copied to. -/
theorem field_eq {n : ℕ} {s : List UInt8} (hn : 32 ≤ n) (hs : s.length ≤ n) :
    Block.splice (List.replicate 32 0) 0 ((textArray n s).take 32) =
      s.take 32 ++ List.replicate (32 - s.length) 0 := by
  have htake : (textArray n s).take 32 = s.take 32 ++ List.replicate (32 - s.length) 0 := by
    rw [textArray, Block.splice_replicate, List.take_append, List.take_replicate]
    congr 2
    omega
  rw [htake, Block.splice_replicate, List.length_append, List.length_take, List.length_replicate]
  have hfull : 32 - (min 32 s.length + (32 - s.length)) = 0 := by omega
  rw [hfull, List.replicate_zero, List.append_nil]

/-- A string that does not fill its field ends there. -/
theorem cstr_field_of_lt {s : List UInt8} (hs : NoNul s) (hlt : s.length < 32) (mem : List UInt8) :
    cstr (s.take 32 ++ List.replicate (32 - s.length) 0 ++ mem) = s := by
  obtain ⟨k, hk⟩ : ∃ k, 32 - s.length = k + 1 := ⟨31 - s.length, by omega⟩
  rw [List.take_of_length_le (by omega), hk, List.replicate_succ, List.append_assoc,
    List.cons_append, cstr_terminated hs]

/-- A string that fills its field runs on into the memory behind it. -/
theorem cstr_field_of_ge {s : List UInt8} (hs : NoNul s) (hge : 32 ≤ s.length) (mem : List UInt8) :
    cstr (s.take 32 ++ List.replicate (32 - s.length) 0 ++ mem) = s.take 32 ++ cstr mem := by
  have hzero : 32 - s.length = 0 := by omega
  rw [hzero, List.replicate_zero, List.append_nil,
    cstr_append fun b hb => hs b (List.mem_of_mem_take hb)]

/-- The name, the key and its length are what they were when the device was provisioned. -/
def SameCredentials (p q : CfgParam) : Prop :=
  p.ssid = q.ssid ∧ p.key = q.key ∧ p.wifiCfg.keyLength = q.wifiCfg.keyLength

instance (p q : CfgParam) : Decidable (SameCredentials p q) := inferInstanceAs (Decidable (_ ∧ _))

section
variable {ssid key : List UInt8} (permanentAddress : List UInt8) (sysParam : CfgParam)

/-- Strings whose lengths fit are the name and the key of the station. -/
theorem drvWiFiStaModeConnStart_fits (staSsid staPass : List UInt8) (hpos : 1 ≤ strlen staSsid)
    (hssid : strlen staSsid ≤ 32) (hkey : strlen staPass ≤ 64) :
    (drvWiFiStaModeConnStart permanentAddress sysParam staSsid staPass 1).ssid = cstr staSsid ∧
      (drvWiFiStaModeConnStart permanentAddress sysParam staSsid staPass 1).key = cstr staPass ∧
      (drvWiFiStaModeConnStart permanentAddress sysParam staSsid staPass 1).wifiCfg.keyLength =
        strlen staPass := by
  obtain ⟨hs, hk, hl⟩ :=
    drvWiFiStaModeConnStart_spec permanentAddress sysParam staSsid staPass
  have hus : u8 (strlen staSsid) = strlen staSsid := by
    rw [u8_of_lt (by omega) (by omega)]
    omega
  have huk : u8 (strlen staPass) = strlen staPass := by
    rw [u8_of_lt (by omega) (by omega)]
    omega
  rw [hus, if_neg (by omega), take_strlen] at hs
  rw [huk, if_neg (by omega), take_strlen] at hk
  rw [huk, if_neg (by omega)] at hl
  exact ⟨hs, hk, hl⟩

/-- The onboarding itself uses the strings it was sent. -/
theorem onboarding_credentials (hpos : 1 ≤ ssid.length) (hssid : ssid.length ≤ 32)
    (hkey : key.length ≤ 64) (hs : NoNul ssid) (hk : NoNul key) :
    (drvWiFiStaModeConnStart permanentAddress sysParam (textArray 33 ssid) (textArray 65 key) 1).ssid
        = ssid ∧
      (drvWiFiStaModeConnStart permanentAddress sysParam (textArray 33 ssid) (textArray 65 key)
        1).key = key ∧
      (drvWiFiStaModeConnStart permanentAddress sysParam (textArray 33 ssid) (textArray 65 key)
        1).wifiCfg.keyLength = key.length := by
  have hcs : cstr (textArray 33 ssid) = ssid := cstr_splice_replicate hs (by omega)
  have hck : cstr (textArray 65 key) = key := cstr_splice_replicate hk (by omega)
  have hfit := drvWiFiStaModeConnStart_fits permanentAddress sysParam (textArray 33 ssid)
    (textArray 65 key)
  unfold strlen at hfit
  rw [hcs, hck] at hfit
  exact hfit hpos hssid hkey

/-- The memory at the two strings of a saved record. -/
theorem startStation_saved (c : AgentConfig) (hssid : ssid.length ≤ 32) (hkey : key.length ≤ 64)
    (after : List UInt8) :
    startStation permanentAddress sysParam
        (withCredentials c (textArray 33 ssid) (textArray 65 key)) after =
      some (drvWiFiStaModeConnStart permanentAddress sysParam
        (ssid.take 32 ++ List.replicate (32 - ssid.length) 0 ++
          (key.take 32 ++ List.replicate (32 - key.length) 0 ++ (after ++ [0])))
        (key.take 32 ++ List.replicate (32 - key.length) 0 ++ (after ++ [0])) 1) := by
  have hs := field_eq (n := 33) (by decide) (show ssid.length ≤ 33 by omega)
  have hk := field_eq (n := 65) (by decide) (show key.length ≤ 65 by omega)
  rw [startStation, withCredentials, if_pos rfl, hs, hk]

/-- With a terminator left in both fields, or an empty key behind a full name, the strings are read
back. -/
theorem saved_credentials (c : AgentConfig) (hpos : 1 ≤ ssid.length) (hssid : ssid.length ≤ 32)
    (hs : NoNul ssid) (hk : NoNul key) (hroom : ssid.length < 32 ∨ key = [])
    (hkey : key.length < 32) (after : List UInt8) :
    ∃ p, startStation permanentAddress sysParam
        (withCredentials c (textArray 33 ssid) (textArray 65 key)) after = some p ∧
      p.ssid = ssid ∧ p.key = key ∧ p.wifiCfg.keyLength = key.length := by
  have hck := cstr_field_of_lt hk hkey (after ++ [0])
  have hcs : cstr (ssid.take 32 ++ List.replicate (32 - ssid.length) 0 ++
      (key.take 32 ++ List.replicate (32 - key.length) 0 ++ (after ++ [0]))) = ssid := by
    by_cases hlt : ssid.length < 32
    · exact cstr_field_of_lt hs hlt _
    · rw [cstr_field_of_ge hs (by omega), hck, hroom.resolve_left hlt, List.append_nil,
        List.take_of_length_le hssid]
  refine ⟨_, startStation_saved permanentAddress sysParam c hssid (by omega) after, ?_⟩
  have hfit := drvWiFiStaModeConnStart_fits permanentAddress sysParam
    (ssid.take 32 ++ List.replicate (32 - ssid.length) 0 ++
      (key.take 32 ++ List.replicate (32 - key.length) 0 ++ (after ++ [0])))
    (key.take 32 ++ List.replicate (32 - key.length) 0 ++ (after ++ [0]))
  unfold strlen at hfit
  rw [hcs, hck] at hfit
  exact hfit hpos hssid (by omega)

/-- A key that fills its field is read back with a length that depends on the memory behind the
record. -/
theorem saved_key_length (c : AgentConfig) (hssid : ssid.length ≤ 32) (hkey : key.length ≤ 64)
    (hk : NoNul key) (hfull : 32 ≤ key.length) {after : List UInt8} (hna : NoNul after)
    (hafter : after.length ≤ 32) :
    ∃ p, startStation permanentAddress sysParam
        (withCredentials c (textArray 33 ssid) (textArray 65 key)) after = some p ∧
      p.wifiCfg.keyLength = 32 + after.length := by
  have hck := cstr_field_of_ge hk hfull (after ++ [0])
  rw [cstr_terminated hna] at hck
  refine ⟨_, startStation_saved permanentAddress sysParam c hssid hkey after, ?_⟩
  rw [(drvWiFiStaModeConnStart_spec _ _ _ _).2.2, strlen, hck, List.length_append, List.length_take,
    u8_of_lt (by omega) (by omega), if_neg (by omega)]
  omega

/-- A name that fills its field in front of a key is too long to be set again. -/
theorem saved_ssid_lost (c : AgentConfig) (hssid : ssid.length = 32) (hs : NoNul ssid)
    (hk : NoNul key) (hne : key ≠ []) (hkey : key.length < 32) (after : List UInt8) :
    ∃ p, startStation permanentAddress sysParam
        (withCredentials c (textArray 33 ssid) (textArray 65 key)) after = some p ∧
      p.ssid = [] := by
  have hcs := cstr_field_of_ge hs (Nat.le_of_eq hssid.symm)
    (key.take 32 ++ List.replicate (32 - key.length) 0 ++ (after ++ [0]))
  rw [cstr_field_of_lt hk hkey] at hcs
  have hlen := List.length_pos_iff.mpr hne
  refine ⟨_, startStation_saved permanentAddress sysParam c (by omega) (by omega) after, ?_⟩
  rw [(drvWiFiStaModeConnStart_spec _ _ _ _).1, strlen, hcs, List.length_append, List.length_take,
    u8_of_lt (by omega) (by omega), if_pos (by omega)]

end

/-- After the credentials were saved and the device has started again, with `after` behind its
record in memory, the station has the name and the key of the onboarding. -/
def Survives (permanentAddress : List UInt8) (sysParam sysParam' : CfgParam) (flash : Nor)
    (c : AgentConfig) (ssid key after : List UInt8) : Prop :=
  ∃ flash' p,
    agentSaveSSIDAndKey nor flash c (textArray 33 ssid) (textArray 65 key) = some flash' ∧
    startStation permanentAddress sysParam' (nl6621GetConfigData nor flash') after = some p ∧
    SameCredentials p (drvWiFiStaModeConnStart permanentAddress sysParam (textArray 33 ssid)
      (textArray 65 key) 1)

section
variable {permanentAddress : List UInt8} {sysParam sysParam' : CfgParam} {flash : Nor}
  {c : AgentConfig} {ssid key after : List UInt8}

/-- The credentials survive when the station that starts from the saved record has them. -/
theorem survives_iff (hc : c.WellSized) (hpos : 1 ≤ ssid.length) (hssid : ssid.length ≤ 32)
    (hkey : key.length ≤ 64) (hs : NoNul ssid) (hk : NoNul key) {p : CfgParam}
    (hp : startStation permanentAddress sysParam'
      (withCredentials c (textArray 33 ssid) (textArray 65 key)) after = some p) :
    Survives permanentAddress sysParam sysParam' flash c ssid key after ↔
      p.ssid = ssid ∧ p.key = key ∧ p.wifiCfg.keyLength = key.length := by
  obtain ⟨flash', hsave, hread⟩ := saved_record hc flash (textArray 33 ssid) (textArray 65 key)
  obtain ⟨hos, hok, hol⟩ :=
    onboarding_credentials permanentAddress sysParam hpos hssid hkey hs hk
  constructor
  · rintro ⟨flash'', q, hsave', hq, hsame⟩
    rw [hsave, Option.some_inj] at hsave'
    rw [← hsave', hread, hp, Option.some_inj] at hq
    rw [hq]
    exact ⟨hsame.1.trans hos, hsame.2.1.trans hok, hsame.2.2.trans hol⟩
  · rintro ⟨hps, hpk, hpl⟩
    refine ⟨flash', p, hsave, ?_, hps.trans hos.symm, hpk.trans hok.symm, hpl.trans hol.symm⟩
    rw [hread]
    exact hp

end

/-- The credentials with which a device was provisioned are those it starts with after a reboot,
whatever follows its record in memory, exactly when the key leaves room for a terminator in its
field and so does the name, unless the key behind it is empty. -/
theorem credentials_survive_iff (permanentAddress : List UInt8) (sysParam sysParam' : CfgParam)
    (flash : Nor) (c : AgentConfig) (hc : c.WellSized) (ssid key : List UInt8)
    (hpos : 1 ≤ ssid.length) (hssid : ssid.length ≤ 32) (hkey : key.length ≤ 64) (hs : NoNul ssid)
    (hk : NoNul key) :
    (∀ after, Survives permanentAddress sysParam sysParam' flash c ssid key after) ↔
      (ssid.length < 32 ∨ key = []) ∧ key.length < 32 := by
  constructor
  · intro h
    have hshort : key.length < 32 := by
      by_contra hfull
      -- the length of the key changes with the byte behind the record
      obtain ⟨p, hp, hlen⟩ := saved_key_length permanentAddress sysParam' c hssid hkey hk (by omega)
        (show NoNul [] by decide) (by decide)
      obtain ⟨q, hq, hlen'⟩ := saved_key_length permanentAddress sysParam' c hssid hkey hk (by omega)
        (show NoNul [1] by decide) (by decide)
      have hp' := ((survives_iff hc hpos hssid hkey hs hk hp).mp (h [])).2.2
      have hq' := ((survives_iff hc hpos hssid hkey hs hk hq).mp (h [1])).2.2
      simp only [List.length_cons, List.length_nil] at hlen hlen'
      omega
    refine ⟨?_, hshort⟩
    by_contra hroom
    obtain ⟨hge, hne⟩ := not_or.mp hroom
    obtain ⟨p, hp, hempty⟩ := saved_ssid_lost permanentAddress sysParam' c
      (show ssid.length = 32 by omega) hs hk hne hshort []
    rw [((survives_iff hc hpos hssid hkey hs hk hp).mp (h [])).1] at hempty
    rw [hempty] at hpos
    exact absurd hpos (by decide)
  · rintro ⟨hroom, hshort⟩ after
    obtain ⟨p, hp, hcred⟩ :=
      saved_credentials permanentAddress sysParam' c hpos hssid hs hk hroom hshort after
    exact (survives_iff hc hpos hssid hkey hs hk hp).mpr hcred

/-- An erased record. -/
def blankConfig : AgentConfig where
  magicNumber := 0
  flag := 0
  wifipasscode := List.replicate 16 0
  wifiSsid := List.replicate 32 0
  wifiKey := List.replicate 32 0

theorem blankConfig_wellSized : blankConfig.WellSized := by
  constructor <;> decide

/-- A short name and a short key survive. -/
theorem credentials_survive_short :
    Survives [] (infLoadDefaultParam []) (infLoadDefaultParam []) ⟨fun _ => 0xFF, []⟩ blankConfig
      [0x61, 0x62] [0x63] [1, 2, 3] :=
  (credentials_survive_iff [] (infLoadDefaultParam []) (infLoadDefaultParam []) ⟨fun _ => 0xFF, []⟩
    blankConfig (by constructor <;> decide) [0x61, 0x62] [0x63] (by decide) (by decide) (by decide)
    (by decide) (by decide)).mpr (by decide) [1, 2, 3]

/-- A name of 32 bytes with a key of one byte does not survive: the station starts without a
name. -/
theorem full_ssid_lost :
    ¬ Survives [] (infLoadDefaultParam []) (infLoadDefaultParam []) ⟨fun _ => 0xFF, []⟩ blankConfig
      (List.replicate 32 0x61) [0x62] [] := by
  have hs : NoNul (List.replicate 32 0x61) := by
    intro b hb
    rw [List.eq_of_mem_replicate hb]
    decide
  have hk : NoNul [0x62] := by decide
  obtain ⟨p, hp, hempty⟩ := saved_ssid_lost [] (infLoadDefaultParam []) blankConfig
    (List.length_replicate) hs hk (by decide) (by decide) []
  intro h
  have hsame := (survives_iff blankConfig_wellSized (by decide) (by decide) (by decide) hs hk
    hp).mp h
  rw [hempty] at hsame
  exact absurd hsame.1 (by decide)

end NuAgent.Config
