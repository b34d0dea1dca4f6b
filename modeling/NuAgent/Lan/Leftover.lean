import NuAgent.Lan.Dispatch

/-!
# Leftovers in the receive buffer

The receive buffer of the UDP server is never cleared, and `lan_softap_config` does not look at the
length it is given. A datagram that ends before the last byte that is read is completed by what
earlier datagrams left behind it. `Determined` says of a datagram that this does not happen to it.
-/

namespace NuAgent.Lan

open CInt Memory

/-! ## What the dispatcher reads -/

section
variable {Addr : Type} {ret : ℤ} {clientAddr : Addr}

/-- A small command is one byte followed by a zero. -/
theorem readShort_eq_iff (g : ℕ → UInt8) {k : ℕ} (hk : k < 256) :
    readShort g 2 = k ↔ (g 2).toNat = k ∧ (g 3).toNat = 0 := by
  have h2 := (g 2).toNat_lt
  have h3 := (g 3).toNat_lt
  unfold readShort i16
  dsimp only [Nat.reduceAdd]
  split_ifs <;> omega

theorem dispatch_config (g : ℕ → UInt8) (n : ℕ) (h2 : (g 2).toNat = 0x11) (h3 : (g 3).toNat = 0) :
    socketDispatchUDPData ret g n clientAddr =
      lanSoftapConfig ret (fun i => g (8 + i)) (u32 (n - headSize)) :=
  if_pos ((readShort_eq_iff g (k := 0x11) (by decide)).mpr ⟨h2, h3⟩)

theorem dispatch_discover (g : ℕ → UInt8) (n : ℕ) (h2 : (g 2).toNat = 0x31)
    (h3 : (g 3).toNat = 0) :
    socketDispatchUDPData ret g n clientAddr = lanDeviceDiscoverResponse clientAddr := by
  have hcmd : (readHead g).cmd = cmdDevDiscover :=
    (readShort_eq_iff g (k := 0x31) (by decide)).mpr ⟨h2, h3⟩
  unfold socketDispatchUDPData
  dsimp only
  rw [hcmd, if_neg (by decide), if_pos rfl]

theorem dispatch_other (g : ℕ → UInt8) (n : ℕ)
    (h : (g 3).toNat ≠ 0 ∨ (g 2).toNat ≠ 0x11 ∧ (g 2).toNat ≠ 0x31) :
    socketDispatchUDPData ret g n clientAddr = [] := by
  have hconf : ¬ (readHead g).cmd = cmdSoftapConfig := by
    intro hcmd
    have := (readShort_eq_iff g (k := 0x11) (by decide)).mp hcmd
    omega
  have hdisc : ¬ (readHead g).cmd = cmdDevDiscover := by
    intro hcmd
    have := (readShort_eq_iff g (k := 0x31) (by decide)).mp hcmd
    omega
  unfold socketDispatchUDPData
  simp only [if_neg hconf, if_neg hdisc]

/-- A request is read no further than its two strings. -/
theorem lanSoftapConfig_congr {data data' : ℕ → UInt8} (dataLen : ℕ) (h0 : data 0 = data' 0)
    (h : 0 < (data 0).toNat → (data 0).toNat ≤ 32 →
      data ((data 0).toNat + 1) = data' ((data 0).toNat + 1) ∧
      ((data ((data 0).toNat + 1)).toNat ≤ 64 →
        window data 1 (data 0).toNat = window data' 1 (data 0).toNat ∧
        window data (1 + (data 0).toNat + 1) (data ((data 0).toNat + 1)).toNat =
          window data' (1 + (data 0).toNat + 1) (data ((data 0).toNat + 1)).toNat)) :
    lanSoftapConfig ret data dataLen = (lanSoftapConfig ret data' dataLen : List (Call Addr)) := by
  unfold lanSoftapConfig
  rw [← h0]
  by_cases hbad : (data 0).toNat > 32 ∨ (data 0).toNat ≤ 0
  · rw [if_pos hbad, if_pos hbad]
  · obtain ⟨hP, hwin⟩ := h (by omega) (by omega)
    rw [if_neg hbad, if_neg hbad, ← hP]
    by_cases hlong : (data ((data 0).toNat + 1)).toNat > 64
    · rw [if_pos hlong, if_pos hlong]
    · obtain ⟨hssid, hpass⟩ := hwin (by omega)
      rw [if_neg hlong, if_neg hlong, hssid, hpass]

/-- Requests with the same lengths that start the same connection have the same key. -/
theorem lanSoftapConfig_key_inj {data data' : ℕ → UInt8} {L P : ℕ} (dataLen : ℕ) (hpos : 0 < L)
    (hL32 : L ≤ 32) (hP64 : P ≤ 64) (hL : (data 0).toNat = L) (hL' : (data' 0).toNat = L)
    (hP : (data (L + 1)).toNat = P) (hP' : (data' (L + 1)).toNat = P)
    (heq : lanSoftapConfig ret data dataLen =
      (lanSoftapConfig ret data' dataLen : List (Call Addr))) :
    window data (1 + L + 1) P = window data' (1 + L + 1) P := by
  obtain ⟨rest, hrest⟩ := lanSoftapConfig_connects Addr ret data dataLen (by omega) (by omega)
    (by rw [hL, hP]; exact hP64)
  obtain ⟨rest', hrest'⟩ := lanSoftapConfig_connects Addr ret data' dataLen (by omega) (by omega)
    (by rw [hL', hP']; exact hP64)
  rw [hrest, hrest'] at heq
  simp only [List.cons.injEq, Call.staModeConnStart.injEq, true_and, hL, hL', hP, hP',
    Block.splice_replicate] at heq
  refine List.append_inj_left heq.1.2.1 ?_
  rw [length_window, length_window]

end

/-! ## Datagrams that determine what happens -/

/-- The byte at offset `i` of a datagram. -/
def byteAt (d : List UInt8) (i : ℕ) : ℕ := (d.getD i 0).toNat

/-- The bytes of a configuration request that are read all lie in the datagram. -/
def ConfigComplete (d : List UInt8) : Prop :=
  9 ≤ d.length ∧
    (byteAt d 8 = 0 ∨ 32 < byteAt d 8 ∨
      10 + byteAt d 8 ≤ d.length ∧
        (64 < byteAt d (9 + byteAt d 8) ∨
          10 + byteAt d 8 + byteAt d (9 + byteAt d 8) ≤ d.length))

/-- The bytes that are read all lie in the datagram, or those that do not make no difference: three
bytes are enough when the third one starts no known command. -/
def Determined (d : List UInt8) : Prop :=
  (d.length = 3 ∧ byteAt d 2 ≠ 0x11 ∧ byteAt d 2 ≠ 0x31) ∨
    (4 ≤ d.length ∧ (byteAt d 2 = 0x11 ∧ byteAt d 3 = 0 → ConfigComplete d))

instance (d : List UInt8) : Decidable (ConfigComplete d) := inferInstanceAs (Decidable (_ ∧ _))

instance (d : List UInt8) : Decidable (Determined d) := inferInstanceAs (Decidable (_ ∨ _))

section
variable {Addr : Type} {ret : ℤ} {clientAddr : Addr} {d : List UInt8}

/-- The byte of a received datagram. -/
theorem recvfrom_of_lt (b : ℕ → UInt8) (hfit : d.length ≤ udpServerBufferSize) {i : ℕ}
    (hi : i < d.length) : (recvfrom b d i).toNat = byteAt d i := by
  rw [recvfrom, List.take_of_length_le hfit, byteAt, overlay_zero hi 0]

/-- The byte behind a received datagram. -/
theorem recvfrom_of_ge (b : ℕ → UInt8) (hfit : d.length ≤ udpServerBufferSize) {i : ℕ}
    (hi : d.length ≤ i) : recvfrom b d i = b i := by
  rw [recvfrom, List.take_of_length_le hfit, overlay_of_ge (by omega)]

/-- A window inside the datagram does not depend on the old contents. -/
theorem window_recvfrom (b b' : ℕ → UInt8) (hfit : d.length ≤ udpServerBufferSize) {pos n : ℕ}
    (h : 8 + pos + n ≤ d.length) :
    window (fun i => recvfrom b d (8 + i)) pos n =
      window (fun i => recvfrom b' d (8 + i)) pos n := by
  refine List.map_congr_left fun i hi => ?_
  have hi := List.mem_range.mp hi
  apply UInt8.toNat_inj.mp
  rw [recvfrom_of_lt b hfit (by omega), recvfrom_of_lt b' hfit (by omega)]

/-- A determined datagram has one effect, whatever is left in the buffer. -/
theorem dispatch_of_determined (hdet : Determined d) (hfit : d.length ≤ udpServerBufferSize)
    (b b' : ℕ → UInt8) (n : ℕ) :
    socketDispatchUDPData ret (recvfrom b d) n clientAddr =
      socketDispatchUDPData ret (recvfrom b' d) n clientAddr := by
  have hbyte : ∀ i < d.length, (recvfrom b d i).toNat = byteAt d i :=
    fun i hi => recvfrom_of_lt b hfit hi
  have hbyte' : ∀ i < d.length, (recvfrom b' d i).toNat = byteAt d i :=
    fun i hi => recvfrom_of_lt b' hfit hi
  rcases hdet with ⟨hlen, h11, h31⟩ | ⟨hlen, hconf⟩
  · rw [dispatch_other _ _ (.inr (by rw [hbyte 2 (by omega)]; exact ⟨h11, h31⟩)),
      dispatch_other _ _ (.inr (by rw [hbyte' 2 (by omega)]; exact ⟨h11, h31⟩))]
  · have h2 := hbyte 2 (by omega)
    have h3 := hbyte 3 (by omega)
    have h2' := hbyte' 2 (by omega)
    have h3' := hbyte' 3 (by omega)
    by_cases hcmd : byteAt d 2 = 0x11 ∧ byteAt d 3 = 0
    · rw [dispatch_config _ _ (h2.trans hcmd.1) (h3.trans hcmd.2),
        dispatch_config _ _ (h2'.trans hcmd.1) (h3'.trans hcmd.2)]
      obtain ⟨hnine, hrest⟩ := hconf hcmd
      have hsame : ∀ i, 8 + i < d.length → recvfrom b d (8 + i) = recvfrom b' d (8 + i) := by
        intro i hi
        apply UInt8.toNat_inj.mp
        rw [hbyte _ hi, hbyte' _ hi]
      have hL : (recvfrom b d (8 + 0)).toNat = byteAt d 8 := hbyte 8 (by omega)
      refine lanSoftapConfig_congr _ (hsame 0 (by omega)) ?_
      rw [hL]
      intro hpos hle
      have hP : (recvfrom b d (8 + (byteAt d 8 + 1))).toNat = byteAt d (9 + byteAt d 8) := by
        rw [hbyte _ (by omega)]
        congr 1
        omega
      rw [hP]
      refine ⟨hsame _ (by omega), fun hshort => ⟨?_, ?_⟩⟩
      · exact window_recvfrom b b' hfit (by omega)
      · exact window_recvfrom b b' hfit (by omega)
    · by_cases hdisc : byteAt d 2 = 0x31 ∧ byteAt d 3 = 0
      · rw [dispatch_discover _ _ (h2.trans hdisc.1) (h3.trans hdisc.2),
          dispatch_discover _ _ (h2'.trans hdisc.1) (h3'.trans hdisc.2)]
      · rw [dispatch_other _ _ (by rw [h2, h3]; omega),
          dispatch_other _ _ (by rw [h2', h3']; omega)]

/-- What an earlier datagram has left to be completed: a device discovery, then a request with a
name of one byte and an empty key. -/
def leftoverZero (i : ℕ) : UInt8 := if i = 2 then 0x31 else if i = 8 then 1 else 0

/-- The contents of the two buffers behind the datagram. -/
structure Leftovers (d : List UInt8) (g g' : ℕ → UInt8) : Prop where
  inside : ∀ i < d.length, (g i).toNat = byteAt d i
  inside' : ∀ i < d.length, (g' i).toNat = byteAt d i
  behind : ∀ i, d.length ≤ i → i < 200 → g i = leftoverZero i
  behind' : ∀ i, d.length ≤ i → i < 200 → g' i = 0xFF

/-- With the first content, a request that ends before its key's length starts a connection. -/
theorem Leftovers.connects {g g' : ℕ → UInt8} (h : Leftovers d g g') (hpos : 0 < (g 8).toNat)
    (hle : (g 8).toNat ≤ 32) (hend : d.length ≤ 8 + ((g 8).toNat + 1)) (dataLen : ℕ) :
    (lanSoftapConfig ret (fun i => g (8 + i)) dataLen : List (Call Addr)) ≠ [] := by
  have hP : g (8 + ((g 8).toNat + 1)) = 0 := by
    rw [h.behind _ hend (by omega), leftoverZero, if_neg (by omega), if_neg (by omega)]
  obtain ⟨rest, hrest⟩ := lanSoftapConfig_connects Addr ret (fun i => g (8 + i)) dataLen
    hpos hle (by change (g (8 + ((g 8).toNat + 1))).toNat ≤ 64; rw [hP]; decide)
  rw [hrest]
  exact List.cons_ne_nil _ _

/-- A datagram of less than four bytes must be one of three bytes that starts no known command. -/
theorem Leftovers.short {g g' : ℕ → UInt8} (h : Leftovers d g g') (hone : 1 ≤ d.length)
    (hlt : d.length < 4) {n : ℕ} (heq : socketDispatchUDPData ret g n clientAddr =
      socketDispatchUDPData ret g' n clientAddr) :
    d.length = 3 ∧ byteAt d 2 ≠ 0x11 ∧ byteAt d 2 ≠ 0x31 := by
  have hnone : socketDispatchUDPData ret g' n clientAddr = [] :=
    dispatch_other _ _ (.inl (by rw [h.behind' 3 (by omega) (by decide)]; decide))
  have h3 : (g 3).toNat = 0 := by
    rw [h.behind 3 (by omega) (by decide)]
    rfl
  have hdisc : (g 2).toNat ≠ 0x31 := by
    intro h2
    rw [hnone, dispatch_discover _ _ h2 h3] at heq
    exact List.cons_ne_nil _ _ heq
  by_cases hlen : d.length = 3
  · have h2 := h.inside 2 (by omega)
    refine ⟨hlen, ?_, by rw [← h2]; exact hdisc⟩
    intro h11
    have h8 : g 8 = 1 := h.behind 8 (by omega) (by decide)
    rw [hnone, dispatch_config _ _ (h2.trans h11) h3] at heq
    exact h.connects (by rw [h8]; decide) (by rw [h8]; decide) (by omega) _ heq
  · exact absurd (by rw [h.behind 2 (by omega) (by decide)]; rfl) hdisc

/-- A configuration request must reach the length of its name. -/
theorem Leftovers.nine {g g' : ℕ → UInt8} (h : Leftovers d g g') {dataLen : ℕ}
    (heq : (lanSoftapConfig ret (fun i => g (8 + i)) dataLen : List (Call Addr)) =
      lanSoftapConfig ret (fun i => g' (8 + i)) dataLen) : 9 ≤ d.length := by
  by_contra hshort
  have h8 : g 8 = 1 := h.behind 8 (by omega) (by decide)
  have h8' : g' 8 = 0xFF := h.behind' 8 (by omega) (by decide)
  rw [lanSoftapConfig_refuses Addr ret (fun i => g' (8 + i)) dataLen
    (.inr (.inl (by change (g' 8).toNat > 32; rw [h8']; decide)))] at heq
  exact h.connects (by rw [h8]; decide) (by rw [h8]; decide) (by omega) _ heq

/-- A configuration request with a proper name must reach the length of its key. -/
theorem Leftovers.ten {g g' : ℕ → UInt8} (h : Leftovers d g g') (hnine : 9 ≤ d.length)
    (hpos : 0 < byteAt d 8) (hle : byteAt d 8 ≤ 32) {dataLen : ℕ}
    (heq : (lanSoftapConfig ret (fun i => g (8 + i)) dataLen : List (Call Addr)) =
      lanSoftapConfig ret (fun i => g' (8 + i)) dataLen) : 10 + byteAt d 8 ≤ d.length := by
  by_contra hshort
  have hL := h.inside 8 (by omega)
  have hL' := h.inside' 8 (by omega)
  have hP' : g' (8 + (byteAt d 8 + 1)) = 0xFF := h.behind' _ (by omega) (by omega)
  rw [lanSoftapConfig_refuses Addr ret (fun i => g' (8 + i)) dataLen (.inr (.inr (by
    change (g' (8 + ((g' 8).toNat + 1))).toNat > 64
    rw [hL', hP']
    decide)))] at heq
  exact h.connects (by omega) (by omega) (by omega) _ heq

/-- A configuration request with a proper name and key must reach the end of its key. -/
theorem Leftovers.key {g g' : ℕ → UInt8} (h : Leftovers d g g') (hpos : 0 < byteAt d 8)
    (hle : byteAt d 8 ≤ 32) (hten : 10 + byteAt d 8 ≤ d.length)
    (hkey : byteAt d (9 + byteAt d 8) ≤ 64) {dataLen : ℕ}
    (heq : (lanSoftapConfig ret (fun i => g (8 + i)) dataLen : List (Call Addr)) =
      lanSoftapConfig ret (fun i => g' (8 + i)) dataLen) :
    10 + byteAt d 8 + byteAt d (9 + byteAt d 8) ≤ d.length := by
  by_contra hcut
  have hidx : 8 + (byteAt d 8 + 1) = 9 + byteAt d 8 := by omega
  have hwin := lanSoftapConfig_key_inj dataLen hpos hle hkey (h.inside 8 (by omega))
    (h.inside' 8 (by omega)) (by rw [hidx]; exact h.inside _ (by omega))
    (by rw [hidx]; exact h.inside' _ (by omega)) heq
  -- the first byte of the key that is missing differs between the two buffers
  have hbyte := congrArg (fun l => l[d.length - (10 + byteAt d 8)]?) hwin
  have hlast : 8 + (1 + byteAt d 8 + 1 + (d.length - (10 + byteAt d 8))) = d.length := by omega
  rw [getElem?_window, getElem?_window, if_pos (by omega), if_pos (by omega), Option.some_inj,
    hlast, h.behind _ (by omega) (by omega), h.behind' _ (by omega) (by omega), leftoverZero,
    if_neg (by omega), if_neg (by omega)] at hbyte
  exact absurd hbyte (by decide)

/-- A configuration request must be complete. -/
theorem Leftovers.config {g g' : ℕ → UInt8} (h : Leftovers d g g') (hfour : 4 ≤ d.length)
    (h11 : byteAt d 2 = 0x11) (h0 : byteAt d 3 = 0) {n : ℕ}
    (heq : socketDispatchUDPData ret g n clientAddr =
      socketDispatchUDPData ret g' n clientAddr) : ConfigComplete d := by
  rw [dispatch_config _ _ ((h.inside 2 (by omega)).trans h11) ((h.inside 3 (by omega)).trans h0),
    dispatch_config _ _ ((h.inside' 2 (by omega)).trans h11) ((h.inside' 3 (by omega)).trans h0)]
    at heq
  have hnine := h.nine heq
  refine ⟨hnine, ?_⟩
  by_cases hbad : byteAt d 8 = 0 ∨ 32 < byteAt d 8
  · omega
  have hten := h.ten hnine (by omega) (by omega) heq
  refine .inr (.inr ⟨hten, ?_⟩)
  by_cases hlong : 64 < byteAt d (9 + byteAt d 8)
  · exact .inl hlong
  · exact .inr (h.key (by omega) (by omega) hten (by omega) heq)

/-- A datagram whose effect is the same for the two contents is determined. -/
theorem Leftovers.determined {g g' : ℕ → UInt8} (h : Leftovers d g g') (hone : 1 ≤ d.length)
    {n : ℕ} (heq : socketDispatchUDPData ret g n clientAddr =
      socketDispatchUDPData ret g' n clientAddr) : Determined d := by
  by_cases hlt : d.length < 4
  · exact .inl (h.short hone hlt heq)
  · exact .inr ⟨by omega, fun hcmd => h.config (by omega) hcmd.1 hcmd.2 heq⟩

end

/-! ## Two histories -/

section
variable {Addr : Type}

/-- For every datagram that is received, its effect is the same after any two histories of the
receive buffer exactly when it is determined. -/
theorem udp_effect_iff_determined (ret : ℤ) (clientAddr : Addr) (d : List UInt8)
    (hone : 1 ≤ d.length) (hfit : d.length ≤ udpServerBufferSize) :
    (∀ (buffer buffer' : ℕ → UInt8) (history history' : List (List UInt8)),
      socketUDPServerRecvData ret (bufferAfter buffer history) d clientAddr =
        socketUDPServerRecvData ret (bufferAfter buffer' history') d clientAddr) ↔
    Determined d := by
  have hturn : ∀ b : ℕ → UInt8, socketUDPServerRecvData ret b d clientAddr =
      socketDispatchUDPData ret (recvfrom b d) d.length clientAddr := by
    intro b
    unfold socketUDPServerRecvData
    rw [List.take_of_length_le hfit]
    exact if_neg (by omega)
  constructor
  · intro h
    have hwin : ∀ (f : ℕ → UInt8), ∀ i < 200,
        bufferAfter (fun _ => 0) [window f 0 200] i = f i := by
      intro f i hi
      have hshort : (window f 0 200).length ≤ udpServerBufferSize := by
        rw [length_window]
        decide
      rw [bufferAfter, List.foldl_cons, List.foldl_nil, recvfrom, List.take_of_length_le hshort,
        overlay_zero (by rw [length_window]; exact hi) 0, List.getD_eq_getElem?_getD,
        getElem?_window, if_pos hi, Option.getD_some, Nat.zero_add]
    -- two histories of one datagram each leave the two contents behind
    have heq := h (fun _ => 0) (fun _ => 0) [window leftoverZero 0 200]
      [window (fun _ => 0xFF) 0 200]
    rw [hturn, hturn] at heq
    refine Leftovers.determined ⟨fun i hi => recvfrom_of_lt _ hfit hi,
      fun i hi => recvfrom_of_lt _ hfit hi, fun i hi h200 => ?_, fun i hi h200 => ?_⟩ hone heq
    · rw [recvfrom_of_ge _ hfit hi, hwin _ i h200]
    · rw [recvfrom_of_ge _ hfit hi, hwin _ i h200]
  · intro hdet b b' history history'
    rw [hturn, hturn]
    exact dispatch_of_determined hdet hfit _ _ _

end

/-- A request that ends behind its command is completed by an earlier one: after the first history
it starts a connection with the earlier datagram's strings, after the second it does nothing. -/
theorem udp_effect_leftover :
    socketUDPServerRecvData 0 (bufferAfter (fun _ => 0) [[0, 0, 0, 0, 0, 0, 0, 0, 1, 0x61, 0]])
        [0xC8, 0, 0x11, 0] () ≠
      socketUDPServerRecvData 0 (bufferAfter (fun _ => 0) []) [0xC8, 0, 0x11, 0] () := by
  decide

/-- A device discovery is answered after a longer datagram as in a fresh buffer. -/
theorem udp_effect_discover :
    socketUDPServerRecvData 0 (bufferAfter (fun _ => 0) [[1, 2, 3, 4, 5]]) [8, 0, 0x31, 0] () =
      socketUDPServerRecvData 0 (bufferAfter (fun _ => 0xFF) []) [8, 0, 0x31, 0] () :=
  (udp_effect_iff_determined 0 () [8, 0, 0x31, 0] (by decide) (by decide)).mpr (by decide)
    (fun _ => 0) (fun _ => 0xFF) [[1, 2, 3, 4, 5]] []

end NuAgent.Lan
