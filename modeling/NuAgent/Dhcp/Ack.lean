import NuAgent.Dhcp.Lifetime

/-!
# What an `ACK` promises

An acknowledged client has one entry in the table, which is bound at the acknowledged address. That
address is the requested one except in one branch: a client with an active entry that asks for an
address outside the pool is taken to renew the one it has.
-/

namespace NuAgent.Dhcp

section
variable {s : Server} {m : Msg} {pbufAlloc : Bool}

/-- A `REQUEST` is refused with a `NAK`, or acknowledged at the entry its branch hands back. -/
theorem dhcpsRecvMsg_request (pbufAlloc : Bool) (hs : s.clients.Timed)
    (htype : m.msgType = msgRequest) :
    ∃ r t, RequestCase s.clients m.macAddr m.reqIpAddr (forMe s.serverIpAddr m.serverId) r t ∧
      dhcpsRecvMsg s m pbufAlloc = match r with
        | none => ({ s with clients := t }, dhcpNakGenAndSend s m.macAddr m.xid pbufAlloc)
        | some i => smeAck { s with clients := t } i m.xid pbufAlloc := by
  have hcase := clientTableLookup_request s.serverIpAddr s.clients m.macAddr m.reqIpAddr m.serverId
  have hanswer : m.msgType ≠ msgRelease ∧ m.msgType ≠ msgDecline := by
    rw [htype]
    decide
  rw [← htype] at hcase
  unfold dhcpsRecvMsg
  revert hcase
  rcases clientTableLookup s.serverIpAddr s.clients m.macAddr m.msgType m.reqIpAddr m.serverId
    with ⟨_ | i, t⟩ <;> intro hcase
  · exact ⟨none, t, hcase, by dsimp only; rw [if_pos hanswer]⟩
  · refine ⟨some i, t, hcase, ?_⟩
    have hnd : msgRequest ≠ msgDiscover := by decide
    have hnot := (hcase.effect.timed hs i).not_select
    dsimp only
    cases hst : (t i).state with
    | idle => rw [dhcpClientSMEHandle, hst, htype, if_neg hnd, if_pos rfl]
    | select => exact absurd hst hnot
    | request => rw [dhcpClientSMEHandle, hst]
    | bind => rw [dhcpClientSMEHandle, hst]

/-- A client that renews owns every entry with the requested address. -/
theorem renewed_address {t : Table} {mac : MacAddr} {ip : UInt32} {my : ClientRef}
    (ht : Exclusive t) (hmy : Own t mac my) (htaken : ¬ Taken t mac ip) (hfree : ¬ Free t ip)
    {i : ClientRef} (hi : (t i).ipAddr = ip) : i = my := by
  have hactive : ¬ (t i).Idle := fun hidle => hfree ⟨i, hidle, hi⟩
  have hmac : (t i).macAddr = mac := by
    by_contra hne
    exact htaken ⟨i, hactive, hne, hi⟩
  exact Own.unique ⟨hactive, hmac⟩ hmy ht

/-- An `ACK` is for the requested address, and the request did not name a server other than
`own`. -/
def AckMatches (own : UInt32) (m : Msg) (reply : Option DhcpMsg) : Prop :=
  ∀ ack, reply = some ack → ack.msgType = some msgAck →
    ack.yiaddr = m.reqIpAddr ∧ (m.serverId = 0 ∨ own = m.serverId)

theorem ackMatches_nak (own : UInt32) :
    AckMatches own m (dhcpNakGenAndSend s m.macAddr m.xid pbufAlloc) := by
  intro ack hreply htype
  rw [dhcpNakGenAndSend_some hreply] at htype
  exact absurd (Option.some.inj htype) (by decide)

/-- An acknowledgement carries the address of its entry. -/
theorem ackMatches_smeAck (own : UInt32) (t : Table) (i : ClientRef) :
    AckMatches own m (smeAck { s with clients := t } i m.xid pbufAlloc).2 ↔
      ((t i).ipAddr = m.reqIpAddr ∧ (m.serverId = 0 ∨ own = m.serverId)) ∨ pbufAlloc = false := by
  constructor
  · intro h
    cases pbufAlloc with
    | true => exact .inl (h _ rfl rfl)
    | false => exact .inr rfl
  · rintro (h | rfl) ack hreply htype
    · rw [(leaseGenAndSend_some hreply).2]
      exact h
    · cases hreply

end

/-- **Which requests are acknowledged as asked.** In every state a started server reaches, a
`REQUEST` for an address is acknowledged at that address only, and not when it names another server,
exactly when the address is in the pool, or the client has no active entry, or the request names
another server, or no reply can be allocated. -/
theorem ack_matches_iff (s₀ s : Server) (netif : Netif) (udpNew : Bool)
    (hstart : dhcpsStart s₀ netif udpNew = (.success, s)) (evs : List Event) (m : Msg)
    (htype : m.msgType = msgRequest) (_hip : m.reqIpAddr ≠ 0) (pbufAlloc : Bool) :
    AckMatches netif.ipAddr m (dhcpsRecvMsg (s.run evs) m pbufAlloc).2 ↔
      (∃ i, ((s.run evs).clients i).ipAddr = m.reqIpAddr) ∨
      (∀ i, ¬ Own (s.run evs).clients m.macAddr i) ∨
      ¬ (m.serverId = 0 ∨ netif.ipAddr = m.serverId) ∨ pbufAlloc = false := by
  have hidle := dhcpsStart_idle hstart
  obtain ⟨hex, -⟩ := s.run_inv evs (exclusive_of_idle hidle)
  have htimed := Server.run_timed (s := s) (fun i => (hidle i).timed) evs
  have hserver : (s.run evs).serverIpAddr = netif.ipAddr := by
    rw [Server.run_serverIpAddr, (dhcpsStart_success hstart).2.1]
  generalize s.run evs = s' at *
  obtain ⟨r, t, hcase, hanswer⟩ := dhcpsRecvMsg_request pbufAlloc htimed htype
  rw [hserver] at hcase
  have hme := forMe_iff netif.ipAddr m.serverId
  -- a refused request has the property, so its branch has to meet the condition
  have hrefused : ∀ {C : Prop}, r = none → C →
      (AckMatches netif.ipAddr m (dhcpsRecvMsg s' m pbufAlloc).2 ↔ C) := by
    rintro C rfl hC
    rw [hanswer]
    exact iff_of_true (ackMatches_nak _) hC
  cases hcase with
  | taken _ htaken =>
    obtain ⟨i, -, -, hi⟩ := htaken
    exact hrefused rfl (.inl ⟨i, hi⟩)
  | leave _ _ hfree =>
    obtain ⟨i, -, hi⟩ := hfree
    exact hrefused rfl (.inl ⟨i, hi⟩)
  | other _ _ _ hforMe =>
    refine hrefused rfl (.inr (.inr (.inl fun h => ?_)))
    rw [hme.mpr h] at hforMe
    cases hforMe
  | refuse hno => exact hrefused rfl (.inr (.inl hno))
  | @move my req _ _ _ hip hforMe =>
    rw [hanswer, ackMatches_smeAck, Function.update_self]
    exact iff_of_true (.inl ⟨hip, hme.mp hforMe⟩) (.inl ⟨req, hip⟩)
  | @assign req hno _ _ hip hforMe =>
    rw [hanswer, ackMatches_smeAck, Function.update_self]
    exact iff_of_true (.inl ⟨hip, hme.mp hforMe⟩) (.inl ⟨req, hip⟩)
  | @renew my hmy htaken hfree hforMe =>
    -- the one branch that takes the entry without comparing its address with the requested one
    rw [hanswer, ackMatches_smeAck]
    constructor
    · rintro (⟨hip, -⟩ | halloc)
      · exact .inl ⟨my, hip⟩
      · exact .inr (.inr (.inr halloc))
    · rintro (⟨i, hi⟩ | hno | hother | halloc)
      · rw [renewed_address hex hmy htaken hfree hi] at hi
        exact .inl ⟨hi, hme.mp hforMe⟩
      · exact absurd hmy (hno my)
      · exact absurd (hme.mp hforMe) hother
      · exact .inr halloc

/-- `ack_matches_iff` at `192.168.1.1/24`: a client without an entry asks for one of the pool. -/
theorem ack_matches_boot :
    let s := (dhcpsStart bootServer bootNetif true).2
    let m : Msg := ⟨#v[2, 0, 0, 0, 0, 1], msgRequest, 0x0201a8c0, 0, 7⟩
    AckMatches bootNetif.ipAddr m (dhcpsRecvMsg (s.run []) m true).2 := by
  intro s m
  exact (ack_matches_iff bootServer s bootNetif true rfl [] m rfl (by decide) true).mpr
    (.inr (.inl (by decide)))

/-- A client bound to `192.168.1.2` asks for `10.0.0.5` and is acknowledged `192.168.1.2`. -/
theorem ack_other_address :
    let s := (dhcpsStart bootServer bootNetif true).2
    let mac : MacAddr := #v[2, 0, 0, 0, 0, 1]
    let s' := s.run [.recv ⟨mac, msgDiscover, 0, 0, 7⟩ true,
      .recv ⟨mac, msgRequest, 0x0201a8c0, 0x0101a8c0, 8⟩ true]
    let m : Msg := ⟨mac, msgRequest, 0x0500000a, 0, 9⟩
    ¬ AckMatches bootNetif.ipAddr m (dhcpsRecvMsg s' m true).2 := by
  intro s mac s' m hmatch
  have hreply : (dhcpsRecvMsg s' m true).2.map (fun ack => (ack.msgType, ack.yiaddr)) =
      some (some msgAck, 0x0201a8c0) := by decide
  obtain ⟨ack, hack, heq⟩ := Option.map_eq_some_iff.mp hreply
  obtain ⟨htype, hip⟩ := Prod.mk.inj heq
  have hne : (0x0201a8c0 : UInt32) ≠ m.reqIpAddr := by decide
  exact hne (hip.symm.trans (hmatch ack hack htype).1)

/-! ## The binding an `ACK` leaves -/

/-- Cleaning the history of a client leaves its address in active entries only. -/
theorem own_of_cleanClientHistory {mac : MacAddr} {t : Table} (hmac : mac ≠ zeroMac) {j : ClientRef}
    (hj : (cleanClientHistory mac t j).macAddr = mac) : Own t mac j := by
  unfold cleanClientHistory at hj
  split_ifs at hj with hclean
  · exact absurd hj.symm hmac
  · exact ⟨fun hidle => hclean ⟨hidle, hj⟩, hj⟩

/-- After an `ACK` no entry but the acknowledged one carries the client's address: an active one was
ruled out before, and the history is cleaned. -/
theorem smeAck_only {s : Server} {mac : MacAddr} {i : ClientRef} (hr : Ready s.clients mac i)
    (hmac : mac ≠ zeroMac) (xid : UInt32) (pbufAlloc : Bool) (j : ClientRef) :
    ((smeAck s i xid pbufAlloc).1.clients j).macAddr = mac ↔ j = i := by
  constructor
  · intro hj
    by_contra hne
    rw [smeAck_of_ne hne, hr.stamped] at hj
    exact hne (hr.only j (own_of_cleanClientHistory hmac hj))
  · rintro rfl
    rw [smeAck_entry]
    exact hr.stamped

/-- A message that is answered with an `ACK` leaves one entry for its client, bound at the
acknowledged address. -/
theorem RecvEffect.entry_of_ack {s : Server} {m : Msg} {pbufAlloc : Bool}
    {r : Server × Option DhcpMsg} (h : RecvEffect s m pbufAlloc r) (hs : Exclusive s.clients)
    (hmac : m.macAddr ≠ zeroMac) {ack : DhcpMsg} (hreply : r.2 = some ack)
    (htype : ack.msgType = some msgAck) :
    ∃ i, (∀ j, (r.1.clients j).macAddr = m.macAddr ↔ j = i) ∧ (r.1.clients i).state = .bind ∧
      (r.1.clients i).ipAddr = ack.yiaddr ∧ (r.1.clients i).lease = defaultLeaseTime := by
  cases h with
  | refused h =>
    dsimp only at hreply
    split_ifs at hreply
    rw [dhcpNakGenAndSend_some hreply] at htype
    exact absurd (Option.some.inj htype) (by decide)
  | offered h =>
    rw [(leaseGenAndSend_some hreply).1] at htype
    exact absurd (Option.some.inj htype) (by decide)
  | @acked i t h =>
    refine ⟨i, smeAck_only (s := { s with clients := t }) (h.ready hs) hmac _ _, ?_, ?_, ?_⟩
      <;> rw [smeAck_entry]
    exact (leaseGenAndSend_some hreply).2.symm

/-- **An `ACK` leaves one clean binding.** In every state a started server reaches, a message from a
client with a hardware address that is answered with an `ACK` leaves exactly one entry that carries
the client's address, the idle ones included; it is bound at the acknowledged address with a full
lease. -/
theorem ack_one_binding (s₀ s : Server) (netif : Netif) (udpNew : Bool)
    (hstart : dhcpsStart s₀ netif udpNew = (.success, s)) (evs : List Event) (m : Msg)
    (hmac : m.macAddr ≠ zeroMac) (pbufAlloc : Bool) (ack : DhcpMsg)
    (hreply : (dhcpsRecvMsg (s.run evs) m pbufAlloc).2 = some ack)
    (htype : ack.msgType = some msgAck) :
    let t := (dhcpsRecvMsg (s.run evs) m pbufAlloc).1.clients
    ∃ i, (∀ j, (t j).macAddr = m.macAddr ↔ j = i) ∧ (t i).state = .bind ∧
      (t i).ipAddr = ack.yiaddr ∧ (t i).lease = defaultLeaseTime := by
  obtain ⟨hex, -⟩ := s.run_inv evs (exclusive_of_idle (dhcpsStart_idle hstart))
  exact (dhcpsRecvMsg_effect (s.run evs) m pbufAlloc).entry_of_ack hex hmac hreply htype

/-- `ack_one_binding` at `192.168.1.1/24`: the offer of `192.168.1.2` is taken. -/
theorem ack_one_binding_boot :
    let s := (dhcpsStart bootServer bootNetif true).2
    let mac : MacAddr := #v[2, 0, 0, 0, 0, 1]
    let evs : List Event := [.recv ⟨mac, msgDiscover, 0, 0, 7⟩ true]
    let m : Msg := ⟨mac, msgRequest, 0x0201a8c0, 0, 8⟩
    ∃ i, ((dhcpsRecvMsg (s.run evs) m true).1.clients i).ipAddr = 0x0201a8c0 := by
  intro s mac evs m
  have hreply : (dhcpsRecvMsg (s.run evs) m true).2.map
      (fun ack => (ack.msgType, ack.yiaddr)) = some (some msgAck, 0x0201a8c0) := by decide
  obtain ⟨ack, hack, heq⟩ := Option.map_eq_some_iff.mp hreply
  obtain ⟨htype, hip⟩ := Prod.mk.inj heq
  obtain ⟨i, -, -, hi, -⟩ := ack_one_binding bootServer s bootNetif true rfl evs m (by decide) true
    ack hack htype
  exact ⟨i, hi.trans hip⟩

end NuAgent.Dhcp
