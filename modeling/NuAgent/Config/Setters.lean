import NuAgent.Config.Param
import NuAgent.Lib.Trace

/-!
# Runs of the setters

Reference: `InfSsidSet`, `InfKeySet`, `InfDnsSrvSet` and `InfConfigQuery` of `Sys/param.c`, and the
fields of `Include/param.h` that are to end with a NUL byte.

Each setter overwrites an array in place. Beside the parameters a run keeps a `History`, which is what
the calls were given and accepted. The name and the key end where they should. The DNS name is stored
without a NUL byte, so the bytes of a longer one that was set before stay behind it.
-/

namespace NuAgent.Config

open CString Trace

/-! ## Calls -/

/-- A pointer with a length of eight bits: `NULL`, or the address of at least as many bytes. -/
structure Buffer where
  mem : Option (List UInt8)
  len : UInt8
  readable : ∀ m, mem = some m → len.toNat ≤ m.length

/-- The bytes that are passed. -/
def Buffer.bytes (b : Buffer) : List UInt8 := (b.mem.getD []).take b.len.toNat

/-- A call of a setter. -/
inductive Call
  | ssid (pSsid : Buffer)
  | key (index : UInt8) (keyBuf : Buffer)
  | dns (enable : UInt8) (dnsName : Buffer)

/-- The parameters after a call, and what the call returns. -/
def Call.exec (p : CfgParam) : Call → CfgParam × ℤ
  | .ssid b => infSsidSet p b.mem b.len.toNat
  | .key index b => infKeySet p index.toNat b.mem b.len.toNat
  | .dns enable b => infDnsSrvSet p enable.toNat b.mem b.len.toNat

/-- The call was to leave the parameters alone if it fails. -/
def Call.Keeps : Call → Prop
  | .ssid _ => False
  | _ => True

/-- What the calls of a run were given: the name that is set, or no name after a rejected call, the
key, the DNS name and the DNS names that were set before it. -/
structure History where
  ssid : List UInt8
  key : List UInt8
  dnsName : List UInt8
  earlier : List (List UInt8)

/-- The history after a call that has returned `code`. -/
def History.record (h : History) (code : ℤ) : Call → History
  | .ssid b => { h with ssid := if code = 0 then b.bytes else [] }
  | .key _ b => if code = 0 then { h with key := b.bytes } else h
  | .dns enable b =>
      if code = 0 ∧ enable ≠ 0 then { h with dnsName := b.bytes, earlier := h.dnsName :: h.earlier }
      else h

/-- The parameters of a run and its history. -/
structure Session where
  sysParam : CfgParam
  history : History

/-- A session after a call. -/
def Session.step (s : Session) (c : Call) : Session :=
  ⟨(c.exec s.sysParam).1, s.history.record (c.exec s.sysParam).2 c⟩

/-- A session that starts with `InfLoadDefaultParam`. -/
def startSession (permanentAddress : List UInt8) : Session where
  sysParam := infLoadDefaultParam permanentAddress
  history :=
    { ssid := ascii "NuAgent-" ++ (((permanentAddress.drop 2).take 4).map hex2).flatten
      key := ascii "123456789"
      dnsName := ascii "local.nufront"
      earlier := [] }

/-- What a reader of the parameters expects: each field shows what was set last. -/
structure Readable (p : CfgParam) (h : History) : Prop where
  dnsName : cstr p.dnsName = h.dnsName
  ssid : p.wifiCfg.ssid.take h.ssid.length = h.ssid
  ssidEnd : p.wifiCfg.ssid[h.ssid.length]? = some 0
  key : p.wifiCfg.psk.take p.wifiCfg.keyLength = h.key
  keyLength : p.wifiCfg.keyLength ≤ 64
  keyIndex : p.wifiCfg.keyIndex ≤ 3

/-! ## What a call writes -/

section
variable {p : CfgParam} {b : Buffer}

theorem Buffer.length_bytes {m : List UInt8} (h : b.mem = some m) :
    b.bytes.length = b.len.toNat := by
  rw [Buffer.bytes, h, Option.getD_some, List.length_take]
  exact Nat.min_eq_left (b.readable m h)

/-- An array that is written from its start, up to `n` bytes. -/
theorem take_splice (a data : List UInt8) :
    (Block.splice a 0 data).take data.length = data := by
  rw [Block.splice, List.take_zero, List.nil_append, List.take_append_of_le_length (Nat.le_refl _),
    List.take_length]

/-- The name field: the name, a NUL byte behind it, and its size. -/
structure NameStored (a name : List UInt8) : Prop where
  length : a.length = 33
  start : a.take name.length = name
  stop : a[name.length]? = some 0

/-- `InfSsidSet` leaves the name it accepts in the field, or no name. -/
theorem infSsidSet_stored {name : List UInt8} (h : NameStored p.wifiCfg.ssid name) :
    NameStored (infSsidSet p b.mem b.len.toNat).1.wifiCfg.ssid
      (if (infSsidSet p b.mem b.len.toNat).2 = 0 then b.bytes else []) := by
  have hreject : NameStored (p.wifiCfg.ssid.set 0 0) [] := by
    have hlen := h.length
    refine ⟨by rw [List.length_set, hlen], rfl, ?_⟩
    exact List.getElem?_set_self (by omega)
  cases hmem : b.mem with
  | none => exact hreject
  | some m =>
    by_cases hbad : b.len.toNat > 32 ∨ b.len.toNat = 0
    · have hcall : infSsidSet p (some m) b.len.toNat =
          ({ p with wifiCfg := { p.wifiCfg with ssid := p.wifiCfg.ssid.set 0 0 } }, -1) :=
        if_pos hbad
      rw [hcall]
      exact hreject
    · have hbytes : b.bytes = m.take b.len.toNat := by rw [Buffer.bytes, hmem, Option.getD_some]
      have hlen := b.length_bytes hmem
      have hfit : 0 + b.bytes.length ≤ p.wifiCfg.ssid.length := by
        have := h.length
        omega
      have hcall : infSsidSet p (some m) b.len.toNat =
          ({ p with wifiCfg := { p.wifiCfg with
              ssid := (Block.splice p.wifiCfg.ssid 0 b.bytes).set b.bytes.length 0 } }, 0) := by
        rw [infSsidSet, if_neg hbad, hbytes, ← hbytes, hlen]
      rw [hcall, if_pos rfl]
      refine ⟨?_, ?_, ?_⟩
      · rw [List.length_set, Block.length_splice hfit, h.length]
      · rw [List.take_set_of_le (Nat.le_refl _), take_splice]
      · apply List.getElem?_set_self
        rw [Block.length_splice hfit, h.length]
        omega

/-- The key fields: the key at the start of its array, its length and an index in range. -/
structure KeyStored (w : WifiCfg) (key : List UInt8) : Prop where
  length : w.psk.length = 64
  start : w.psk.take key.length = key
  keyLength : w.keyLength = key.length
  keyLength_le : w.keyLength ≤ 64
  keyIndex : w.keyIndex ≤ 3

/-- A key that is rejected changes nothing. -/
theorem infKeySet_rejected {index keyLen : ℕ} {keyBuf : Option (List UInt8)}
    (h : (infKeySet p index keyBuf keyLen).2 ≠ 0) : (infKeySet p index keyBuf keyLen).1 = p := by
  unfold infKeySet at h ⊢
  cases keyBuf with
  | none => rfl
  | some m =>
    dsimp only at h ⊢
    split_ifs at h ⊢
    · rfl
    · exact absurd rfl h
    · exact absurd rfl h

/-- `InfKeySet` leaves the key it accepts in the fields, or the key that was there. -/
theorem infKeySet_stored (index : ℕ) {key : List UInt8} (h : KeyStored p.wifiCfg key) :
    KeyStored (infKeySet p index b.mem b.len.toNat).1.wifiCfg
      (if (infKeySet p index b.mem b.len.toNat).2 = 0 then b.bytes else key) := by
  by_cases hcode : (infKeySet p index b.mem b.len.toNat).2 = 0
  · rw [if_pos hcode]
    obtain ⟨m, hmem⟩ : ∃ m, b.mem = some m := by
      cases hmem : b.mem with
      | none =>
        rw [hmem] at hcode
        exact absurd hcode (by decide : (-1 : ℤ) ≠ 0)
      | some m => exact ⟨m, rfl⟩
    have hgood : ¬ (index > 3 ∨ b.len.toNat > 64) := by
      intro hbad
      rw [hmem, infKeySet, if_pos hbad] at hcode
      exact absurd hcode (by decide : (-1 : ℤ) ≠ 0)
    have hbytes : b.bytes = m.take b.len.toNat := by rw [Buffer.bytes, hmem, Option.getD_some]
    have hlen := b.length_bytes hmem
    have hpsk : (Block.splice p.wifiCfg.psk 0 b.bytes).length = 64 := by
      rw [Block.length_splice (by have := h.length; omega), h.length]
    rw [hmem, infKeySet, if_neg hgood, ← hbytes]
    refine ⟨?_, ?_, hlen.symm, by dsimp only; omega, by dsimp only; omega⟩
    · dsimp only
      split_ifs
      · rw [List.length_set, hpsk]
      · exact hpsk
    · dsimp only
      split_ifs
      · rw [← hlen, List.take_set_of_le (Nat.le_refl _), take_splice]
      · exact take_splice _ _
  · rw [if_neg hcode, infKeySet_rejected hcode]
    exact h

/-- The DNS name field: it starts with the name that was set last, and its NUL bytes are those that
no name has overwritten. -/
structure DnsStored (a dnsName : List UInt8) (earlier : List (List UInt8)) : Prop where
  length : a.length = 33
  start : a.take dnsName.length = dnsName
  short : dnsName.length ≤ 32
  nul_iff : ∀ i < 33, a[i]? = some 0 ↔ ∀ name ∈ dnsName :: earlier, name.length ≤ i

theorem infDnsSrvSet_rejected {enable len : ℕ} {dnsName : Option (List UInt8)}
    (h : (infDnsSrvSet p enable dnsName len).2 ≠ 0) :
    (infDnsSrvSet p enable dnsName len).1 = p := by
  by_cases henable : enable ≠ 0
  · simp only [infDnsSrvSet, if_pos henable] at h ⊢
    cases dnsName with
    | none => rfl
    | some m =>
      dsimp only at h ⊢
      split_ifs at h ⊢
      · rfl
      · exact absurd rfl h
  · simp only [infDnsSrvSet, if_neg henable] at h
    exact absurd rfl h

/-- A call that does not set a name leaves the name as it is. -/
theorem infDnsSrvSet_frame {enable len : ℕ} {dnsName : Option (List UInt8)}
    (h : ¬ ((infDnsSrvSet p enable dnsName len).2 = 0 ∧ enable ≠ 0)) :
    (infDnsSrvSet p enable dnsName len).1.dnsName = p.dnsName := by
  by_cases hcode : (infDnsSrvSet p enable dnsName len).2 = 0
  · have hoff : ¬ enable ≠ 0 := fun henable => h ⟨hcode, henable⟩
    simp only [infDnsSrvSet, if_neg hoff]
  · rw [infDnsSrvSet_rejected hcode]

/-- A name that is set overwrites the field up to its own length only. -/
theorem infDnsSrvSet_stored {enable : ℕ} {dnsName : List UInt8} {earlier : List (List UInt8)}
    (hset : (infDnsSrvSet p enable b.mem b.len.toNat).2 = 0 ∧ enable ≠ 0) (hnul : NoNul b.bytes)
    (h : DnsStored p.dnsName dnsName earlier) :
    DnsStored (infDnsSrvSet p enable b.mem b.len.toNat).1.dnsName b.bytes
      (dnsName :: earlier) := by
  obtain ⟨hcode, henable⟩ := hset
  simp only [infDnsSrvSet, if_pos henable] at hcode ⊢
  cases hmem : b.mem with
  | none =>
    rw [hmem] at hcode
    exact absurd hcode (by decide : (-1 : ℤ) ≠ 0)
  | some m =>
    rw [hmem] at hcode
    have hgood : ¬ b.len.toNat > 32 := by
      intro hbad
      dsimp only at hcode
      rw [if_pos hbad] at hcode
      exact absurd hcode (by decide : (-1 : ℤ) ≠ 0)
    have hbytes : b.bytes = m.take b.len.toNat := by rw [Buffer.bytes, hmem, Option.getD_some]
    have hlen := b.length_bytes hmem
    have hfit : 0 + b.bytes.length ≤ p.dnsName.length := by
      have := h.length
      omega
    dsimp only
    rw [if_neg hgood, ← hbytes]
    refine ⟨by rw [Block.length_splice hfit, h.length], take_splice _ _, by omega, fun i hi => ?_⟩
    rw [Block.getElem?_splice hfit, List.forall_mem_cons]
    by_cases hin : i < b.bytes.length
    · -- the name has no NUL byte
      have hget := List.getElem?_eq_getElem hin
      rw [if_pos ⟨Nat.zero_le i, by omega⟩, Nat.sub_zero, hget, Option.some.injEq]
      exact ⟨fun h0 => absurd h0 (hnul _ (List.getElem_mem hin)), fun hle => absurd hle.1 (by omega)⟩
    · rw [if_neg (by omega), h.nul_iff i hi]
      exact ⟨fun hle => ⟨by omega, hle⟩, fun hle => hle.2⟩

/-- The field shows the name that was set last when no longer one was set before. -/
theorem DnsStored.cstr_iff {a dnsName : List UInt8} {earlier : List (List UInt8)}
    (h : DnsStored a dnsName earlier) (hnul : NoNul dnsName) :
    cstr a = dnsName ↔ ∀ name ∈ earlier, name.length ≤ dnsName.length := by
  have hshort := h.short
  rw [cstr_eq_iff hnul h.start (by rw [h.length]; omega), h.nul_iff _ (by omega),
    List.forall_mem_cons]
  exact ⟨fun hle => hle.2, fun hle => ⟨Nat.le_refl _, hle⟩⟩

end

/-! ## Runs -/

/-- The parameters against the history; the DNS name is described as long as no name has a NUL
byte. -/
structure Session.Inv (s : Session) : Prop where
  ssid : NameStored s.sysParam.wifiCfg.ssid s.history.ssid
  key : KeyStored s.sysParam.wifiCfg s.history.key
  dns : (∀ name ∈ s.history.dnsName :: s.history.earlier, NoNul name) →
    DnsStored s.sysParam.dnsName s.history.dnsName s.history.earlier

/-- A text shorter than its array is followed by a NUL byte. -/
theorem getElem?_textArray {n i : ℕ} {text : List UInt8} (hlen : text.length ≤ i) (hi : i < n) :
    (textArray n text)[i]? = some 0 := by
  rw [textArray, Block.splice_replicate, List.getElem?_append_right hlen,
    List.getElem?_replicate, if_pos (by omega)]

theorem take_textArray {n : ℕ} {text : List UInt8} : (textArray n text).take text.length = text :=
  take_splice _ _

theorem startSession_inv (permanentAddress : List UInt8) : (startSession permanentAddress).Inv where
  ssid := by
    have hlen : (startSession permanentAddress).history.ssid.length < 33 := by
      change (ascii "NuAgent-" ++ _).length < 33
      rw [List.length_append, length_flatten_hex2, List.length_take]
      change 8 + 2 * min 4 _ < 33
      omega
    exact ⟨length_ssid_default permanentAddress, take_textArray,
      getElem?_textArray (Nat.le_refl _) hlen⟩
  key :=
    { length := length_textArray (by decide)
      start := take_textArray
      keyLength := rfl
      keyLength_le := show 9 ≤ 64 by decide
      keyIndex := Nat.zero_le 3 }
  dns _ :=
    { length := length_textArray (by decide)
      start := take_textArray
      short := show (ascii "local.nufront").length ≤ 32 by decide
      nul_iff := by
        change ∀ i < 33, (textArray 33 (ascii "local.nufront"))[i]? = some 0 ↔
          ∀ name ∈ [ascii "local.nufront"], name.length ≤ i
        decide }

/-- Setting the name leaves everything but the name as it is. -/
theorem infSsidSet_other (p : CfgParam) (pSsid : Option (List UInt8)) (n : ℕ) :
    (infSsidSet p pSsid n).1 = { p with wifiCfg := { p.wifiCfg with
      ssid := (infSsidSet p pSsid n).1.wifiCfg.ssid } } := by
  unfold infSsidSet
  split
  · rfl
  · split_ifs <;> rfl

/-- Setting the key leaves the DNS name as it is. -/
theorem infKeySet_dnsName (p : CfgParam) (index : ℕ) (keyBuf : Option (List UInt8)) (n : ℕ) :
    (infKeySet p index keyBuf n).1.dnsName = p.dnsName := by
  unfold infKeySet
  split
  · rfl
  · split_ifs <;> rfl

/-- The DNS setter leaves the name and the key as they are. -/
theorem infDnsSrvSet_wifiCfg (p : CfgParam) (enable : ℕ) (dnsName : Option (List UInt8)) (n : ℕ) :
    (infDnsSrvSet p enable dnsName n).1.wifiCfg = p.wifiCfg := by
  by_cases henable : enable ≠ 0
  · simp only [infDnsSrvSet, if_pos henable]
    split
    · rfl
    · split_ifs <;> rfl
  · simp only [infDnsSrvSet, if_neg henable]

/-- A call keeps the parameters and the history together. -/
theorem Session.Inv.step {s : Session} (h : s.Inv) (c : Call) : (s.step c).Inv := by
  cases c with
  | ssid b =>
    have hother := infSsidSet_other s.sysParam b.mem b.len.toNat
    refine ⟨infSsidSet_stored h.ssid, ?_, fun hnul => ?_⟩
    · have hkey := h.key
      change KeyStored (infSsidSet s.sysParam b.mem b.len.toNat).1.wifiCfg s.history.key
      rw [hother]
      exact ⟨hkey.length, hkey.start, hkey.keyLength, hkey.keyLength_le, hkey.keyIndex⟩
    · change DnsStored (infSsidSet s.sysParam b.mem b.len.toNat).1.dnsName _ _
      rw [hother]
      exact h.dns hnul
  | key index b =>
    have hstored := infKeySet_stored index.toNat (b := b) h.key
    have hssid := infKeySet_frame s.sysParam index.toNat b.mem b.len.toNat
    have hdns := infKeySet_dnsName s.sysParam index.toNat b.mem b.len.toNat
    have hstep : s.step (.key index b) = ⟨(infKeySet s.sysParam index.toNat b.mem b.len.toNat).1,
        if (infKeySet s.sysParam index.toNat b.mem b.len.toNat).2 = 0 then
          { s.history with key := b.bytes }
        else s.history⟩ := rfl
    rw [hstep]
    by_cases hcode : (infKeySet s.sysParam index.toNat b.mem b.len.toNat).2 = 0
    · rw [if_pos hcode] at hstored ⊢
      exact ⟨hssid ▸ h.ssid, hstored, fun hnul => hdns ▸ h.dns hnul⟩
    · rw [if_neg hcode] at hstored ⊢
      exact ⟨hssid ▸ h.ssid, hstored, fun hnul => hdns ▸ h.dns hnul⟩
  | dns enable b =>
    have hwifi := infDnsSrvSet_wifiCfg s.sysParam enable.toNat b.mem b.len.toNat
    have henable : enable ≠ 0 ↔ enable.toNat ≠ 0 := by
      rw [Ne, Ne, ← UInt8.toNat_inj]
      rfl
    have hstep : s.step (.dns enable b) =
        ⟨(infDnsSrvSet s.sysParam enable.toNat b.mem b.len.toNat).1,
          if (infDnsSrvSet s.sysParam enable.toNat b.mem b.len.toNat).2 = 0 ∧ enable ≠ 0 then
            { s.history with dnsName := b.bytes, earlier := s.history.dnsName :: s.history.earlier }
          else s.history⟩ := rfl
    rw [hstep]
    simp only [henable]
    by_cases hset : (infDnsSrvSet s.sysParam enable.toNat b.mem b.len.toNat).2 = 0 ∧
        enable.toNat ≠ 0
    · rw [if_pos hset]
      refine ⟨hwifi ▸ h.ssid, hwifi ▸ h.key, fun hnul => ?_⟩
      obtain ⟨hb, hrest⟩ := List.forall_mem_cons.mp hnul
      exact infDnsSrvSet_stored hset hb (h.dns hrest)
    · rw [if_neg hset]
      have hdns := infDnsSrvSet_frame hset
      exact ⟨hwifi ▸ h.ssid, hwifi ▸ h.key, fun hnul => hdns ▸ h.dns hnul⟩

/-- The session after a run of calls. -/
def session (permanentAddress : List UInt8) (calls : List Call) : Session :=
  run Session.step (startSession permanentAddress) calls

theorem session_inv (permanentAddress : List UInt8) (calls : List Call) :
    (session permanentAddress calls).Inv :=
  run_inv (fun _ c h => h.step c) (startSession_inv permanentAddress) calls

/-- A call that is to leave the parameters alone when it fails does so. -/
theorem Call.exec_rejected {p : CfgParam} {c : Call} (hkeeps : c.Keeps) (h : (c.exec p).2 ≠ 0) :
    (c.exec p).1 = p := by
  cases c with
  | ssid b => exact absurd hkeeps id
  | key index b => exact infKeySet_rejected h
  | dns enable b => exact infDnsSrvSet_rejected h

/-- A one-letter DNS name is followed by what the default name leaves behind it. -/
theorem dnsName_stale :
    let s := session [0, 1, 2, 3, 4, 5] [.dns 1 ⟨some [0x61, 0], 1, by decide⟩]
    s.history.dnsName = ascii "a" ∧ cstr s.sysParam.dnsName = ascii "aocal.nufront" ∧
      ¬ Readable s.sysParam s.history := by
  intro s
  have hshow : cstr s.sysParam.dnsName = ascii "aocal.nufront" := by decide
  have hset : s.history.dnsName = ascii "a" := by decide
  refine ⟨hset, hshow, fun h => ?_⟩
  have heq := h.dnsName
  rw [hshow, hset] at heq
  exact absurd heq (by decide)

/-- **Which runs leave readable parameters.** After any calls of the setters, a reader that asks
`InfConfigQuery` finds the name, the key and the DNS name that were set last, and a rejected
`InfKeySet` or `InfDnsSrvSet` has changed nothing, exactly when no DNS name that was set before, the
default one included, is longer than the last one. -/
theorem setters_readable_iff (permanentAddress : List UInt8) (calls : List Call)
    (hnul : ∀ name ∈ (session permanentAddress calls).history.dnsName ::
      (session permanentAddress calls).history.earlier, NoNul name) (pParam : CfgParam) :
    ((∃ q, infConfigQuery (session permanentAddress calls).sysParam (some pParam) = (some q, 0) ∧
        Readable q (session permanentAddress calls).history) ∧
      ∀ pre c post, calls = pre ++ c :: post → c.Keeps →
        (c.exec (session permanentAddress pre).sysParam).2 ≠ 0 →
        (session permanentAddress (pre ++ [c])).sysParam =
          (session permanentAddress pre).sysParam) ↔
    ∀ name ∈ (session permanentAddress calls).history.earlier,
      name.length ≤ (session permanentAddress calls).history.dnsName.length := by
  have h := session_inv permanentAddress calls
  have hdns := (h.dns hnul).cstr_iff (List.forall_mem_cons.mp hnul).1
  constructor
  · rintro ⟨⟨q, hq, hread⟩, -⟩
    obtain rfl := Option.some.inj (Prod.mk.inj hq).1
    exact hdns.mp hread.dnsName
  · intro hlong
    refine ⟨⟨_, rfl, ?_⟩, ?_⟩
    · exact
        { dnsName := hdns.mpr hlong
          ssid := h.ssid.start
          ssidEnd := h.ssid.stop
          key := h.key.keyLength ▸ h.key.start
          keyLength := h.key.keyLength_le
          keyIndex := h.key.keyIndex }
    · intro pre c post _ hkeeps hcode
      have hlast : session permanentAddress (pre ++ [c]) =
          (session permanentAddress pre).step c := run_append _ _ _
      rw [hlast]
      exact Call.exec_rejected hkeeps hcode

/-- `setters_readable_iff` after a DNS name of sixteen bytes, which is longer than the default. -/
theorem setters_readable_longer :
    let s := session [0, 1, 2, 3, 4, 5]
      [.dns 1 ⟨some (ascii "lamp.nufront.com"), 16, by decide⟩]
    ∃ q, infConfigQuery s.sysParam (some s.sysParam) = (some q, 0) ∧
      cstr q.dnsName = ascii "lamp.nufront.com" := by
  intro s
  obtain ⟨⟨q, hq, hread⟩, -⟩ := (setters_readable_iff [0, 1, 2, 3, 4, 5]
    [.dns 1 ⟨some (ascii "lamp.nufront.com"), 16, by decide⟩] (by decide) s.sysParam).mpr
    (by decide)
  refine ⟨q, hq, hread.dnsName.trans ?_⟩
  decide

end NuAgent.Config
