import NuAgent.Dhcp.Offer

/-!
# What the answer to a message depends on

The type decides whether there is an answer, the requested address matters only to a `DISCOVER` and
a `REQUEST`, and the server identifier only to a `REQUEST`. To these they do matter: while the table
is idle, a request for an address in it is answered with that address, unless it names another
server.
-/

namespace NuAgent.Dhcp

section
variable (serverIpAddr : UInt32) (t : Table) (mac : MacAddr)

/-- The lookup reads the requested address and the server identifier for some types only. -/
theorem clientTableLookup_congr {type : UInt8} {ip ip' serverId serverId' : UInt32}
    (hip : type = msgDiscover ∨ type = msgRequest → ip = ip')
    (hid : type = msgRequest → serverId = serverId') :
    clientTableLookup serverIpAddr t mac type ip serverId =
      clientTableLookup serverIpAddr t mac type ip' serverId' := by
  have hmy : (scan t mac ip).pMyClient = (scan t mac ip').pMyClient := by
    rw [scan_pMyClient, scan_pMyClient]
  have hswitch : lookupSwitch serverIpAddr t (scan t mac ip) type serverId =
      lookupSwitch serverIpAddr t (scan t mac ip') type serverId' := by
    by_cases hreq : type = msgRequest
    · rw [hip (.inr hreq), hid hreq]
    · by_cases hdisc : type = msgDiscover
      · rw [hip (.inl hdisc), lookupSwitch, lookupSwitch, if_pos hdisc, if_pos hdisc]
      · simp only [lookupSwitch, if_neg hdisc, if_neg hreq, lookupRelease, hmy]
  rw [clientTableLookup, clientTableLookup, hswitch]

end

/-- A message is answered the same as another that differs only in what its type does not use. -/
theorem dhcpsRecvMsg_congr (s : Server) {m m' : Msg} (pbufAlloc : Bool)
    (hmac : m.macAddr = m'.macAddr) (htype : m.msgType = m'.msgType) (hxid : m.xid = m'.xid)
    (hip : m.msgType = msgDiscover ∨ m.msgType = msgRequest → m.reqIpAddr = m'.reqIpAddr)
    (hid : m.msgType = msgRequest → m.serverId = m'.serverId) :
    dhcpsRecvMsg s m pbufAlloc = dhcpsRecvMsg s m' pbufAlloc := by
  rw [dhcpsRecvMsg, dhcpsRecvMsg, clientTableLookup_congr _ _ _ hip hid, hmac, htype, hxid]

/-- Every message is answered but a release and a decline. -/
theorem dhcpsRecvMsg_isSome (s : Server) (m : Msg) :
    (dhcpsRecvMsg s m true).2.isSome ↔ m.msgType ≠ msgRelease ∧ m.msgType ≠ msgDecline := by
  by_cases hrel : m.msgType = msgRelease ∨ m.msgType = msgDecline
  · have htype : m.msgType ≠ msgDiscover ∧ m.msgType ≠ msgRequest := by
      rcases hrel with h | h <;> rw [h] <;> decide
    have hnone := clientTableLookup_none s.serverIpAddr s.clients m.macAddr m.reqIpAddr m.serverId
      htype.1 htype.2
    have hnot : ¬ (m.msgType ≠ msgRelease ∧ m.msgType ≠ msgDecline) := by
      rintro ⟨h1, h2⟩
      exact hrel.elim h1 h2
    rw [dhcpsRecvMsg]
    split
    · rw [if_neg hnot]
      exact ⟨fun h => absurd h Bool.false_ne_true, fun h => absurd h hnot⟩
    · rename_i heq
      rw [heq] at hnone
      exact absurd hnone (Option.some_ne_none _)
  · have hyes : m.msgType ≠ msgRelease ∧ m.msgType ≠ msgDecline := not_or.mp hrel
    refine ⟨fun _ => hyes, fun _ => ?_⟩
    have heff := dhcpsRecvMsg_effect s m true
    revert heff
    generalize dhcpsRecvMsg s m true = r
    rintro heff
    cases heff with
    | refused _ => rw [if_pos hyes]; rfl
    | offered _ _ => rfl
    | acked _ _ => rfl

/-! ## An idle table -/

section
variable {s : Server} {m : Msg}

/-- In an idle table nobody has an entry. -/
theorem not_own_of_idle (hidle : ∀ i, (s.clients i).Idle) {mac : MacAddr} {i : ClientRef} :
    ¬ Own s.clients mac i := fun h => h.1 (hidle i)

/-- In an idle table no address is in use. -/
theorem not_taken_of_idle (hidle : ∀ i, (s.clients i).Idle) {mac : MacAddr} {ip : UInt32} :
    ¬ Taken s.clients mac ip := fun ⟨i, hi, _⟩ => hi (hidle i)

/-- A client without an entry finds an idle address. -/
theorem DiscoverCase.assigns {t t' : Table} {mac : MacAddr} {ip : UInt32} {r : Option ClientRef}
    (h : DiscoverCase t mac ip r t') (hno : ∀ i, ¬ Own t mac i) (hfree : Free t ip) :
    ∃ i, r = some i ∧ (t i).ipAddr = ip := by
  obtain ⟨k, hidle, hk⟩ := hfree
  cases h with
  | assign _ hj =>
    rcases hj with hj | ⟨hnone, -⟩
    · exact ⟨_, rfl, hj.2⟩
    · exact absurd ⟨hidle, hk⟩ (hnone k)
  | full _ hfull => exact absurd hidle (hfull k)
  | move hmy => exact absurd hmy (hno _)
  | restart hmy => exact absurd hmy (hno _)

/-- A client without an entry that asks this server for an idle address gets it. -/
theorem RequestCase.assigns {t t' : Table} {mac : MacAddr} {ip : UInt32} {forMe : Bool}
    {r : Option ClientRef} (h : RequestCase t mac ip forMe r t') (hno : ∀ i, ¬ Own t mac i)
    (htaken : ¬ Taken t mac ip) (hfree : Free t ip) (hforMe : forMe = true) :
    ∃ i, r = some i ∧ (t i).ipAddr = ip := by
  cases h with
  | assign _ _ _ hip => exact ⟨_, rfl, hip⟩
  | refuse _ h =>
    rcases h with h | hother | hnot
    · exact absurd h htaken
    · exact absurd (hother.symm.trans hforMe) (by decide)
    · exact absurd hfree hnot
  | taken hmy => exact absurd hmy (hno _)
  | move hmy => exact absurd hmy (hno _)
  | leave hmy => exact absurd hmy (hno _)
  | renew hmy => exact absurd hmy (hno _)
  | other hmy => exact absurd hmy (hno _)

/-- A client finds the address it asks for in an idle table. -/
theorem clientTableLookup_idle (hidle : ∀ i, (s.clients i).Idle)
    (hip : ∃ i, (s.clients i).ipAddr = m.reqIpAddr)
    (htype : m.msgType = msgDiscover ∨
      m.msgType = msgRequest ∧ (m.serverId = 0 ∨ s.serverIpAddr = m.serverId)) :
    ∃ i t, clientTableLookup s.serverIpAddr s.clients m.macAddr m.msgType m.reqIpAddr m.serverId =
      (some i, t) ∧ (t i).ipAddr = m.reqIpAddr := by
  obtain ⟨k, hk⟩ := hip
  have hfree : Free s.clients m.reqIpAddr := ⟨k, hidle k, hk⟩
  have hno : ∀ i, ¬ Own s.clients m.macAddr i := fun _ => not_own_of_idle hidle
  obtain ⟨i, hi, hip⟩ : ∃ i, (clientTableLookup s.serverIpAddr s.clients m.macAddr m.msgType
      m.reqIpAddr m.serverId).1 = some i ∧ (s.clients i).ipAddr = m.reqIpAddr := by
    rcases htype with htype | ⟨htype, hid⟩
    · rw [htype]
      exact (clientTableLookup_discover _ _ _ _ _).assigns hno hfree
    · rw [htype]
      exact (clientTableLookup_request _ _ _ _ _).assigns hno (not_taken_of_idle hidle) hfree
        ((forMe_iff _ _).mpr hid)
  have hips := (clientTableLookup_effect s.serverIpAddr s.clients m.macAddr m.msgType m.reqIpAddr
    m.serverId).sameIps
  exact ⟨i, _, Prod.ext hi rfl, (hips i).trans hip⟩

theorem leaseGenAndSend_true (type : UInt8) (s : Server) (c : Client) (mac : MacAddr)
    (xid : UInt32) : ∃ reply, leaseGenAndSend type s c mac xid true = some reply ∧
      reply.msgType = some type ∧ reply.yiaddr = c.ipAddr :=
  ⟨_, rfl, rfl, rfl⟩

/-- A client that asks for an address of an idle table is answered with it. -/
theorem dhcpsRecvMsg_idle (hidle : ∀ i, (s.clients i).Idle)
    (hip : ∃ i, (s.clients i).ipAddr = m.reqIpAddr)
    (htype : m.msgType = msgDiscover ∨
      m.msgType = msgRequest ∧ (m.serverId = 0 ∨ s.serverIpAddr = m.serverId)) :
    ∃ reply, (dhcpsRecvMsg s m true).2 = some reply ∧ reply.yiaddr = m.reqIpAddr ∧
      reply.msgType ≠ some msgNak := by
  obtain ⟨i, t, hlookup, hi⟩ := clientTableLookup_idle hidle hip htype
  rw [dhcpsRecvMsg, hlookup]
  dsimp only
  rcases dhcpClientSMEHandle_cases { s with clients := t } i m.msgType m.xid true with
    ⟨-, h⟩ | ⟨-, h⟩
  · rw [h]
    obtain ⟨reply, hreply, hoffer, hyiaddr⟩ :=
      leaseGenAndSend_true msgOffer { s with clients := t } (t i) (t i).macAddr m.xid
    exact ⟨reply, hreply, hyiaddr.trans hi, by rw [hoffer]; decide⟩
  · rw [h]
    obtain ⟨reply, hreply, hack, hyiaddr⟩ :=
      leaseGenAndSend_true msgAck { s with clients := t } (t i) (t i).macAddr m.xid
    exact ⟨reply, hreply, hyiaddr.trans hi, by rw [hack]; decide⟩

/-- While the table is idle, a request that names another server is refused. -/
theorem dhcpsRecvMsg_idle_refused (hidle : ∀ i, (s.clients i).Idle)
    (htype : m.msgType = msgRequest) (hzero : m.serverId ≠ 0)
    (hid : s.serverIpAddr ≠ m.serverId) :
    ∃ reply, (dhcpsRecvMsg s m true).2 = some reply ∧ reply.msgType = some msgNak := by
  have hcase := clientTableLookup_request s.serverIpAddr s.clients m.macAddr m.reqIpAddr m.serverId
  have hother : forMe s.serverIpAddr m.serverId ≠ true := by
    rw [ne_eq, forMe_iff]
    exact fun h => h.elim hzero hid
  have hanswer : m.msgType ≠ msgRelease ∧ m.msgType ≠ msgDecline := by
    rw [htype]
    decide
  rw [dhcpsRecvMsg]
  rw [← htype] at hcase
  revert hcase
  rcases clientTableLookup s.serverIpAddr s.clients m.macAddr m.msgType m.reqIpAddr m.serverId
    with ⟨_ | i, t⟩
  · exact fun _ => ⟨_, if_pos hanswer, rfl⟩
  · intro hcase
    cases hcase with
    | move hmy => exact absurd hmy (not_own_of_idle hidle)
    | renew hmy => exact absurd hmy (not_own_of_idle hidle)
    | assign _ _ _ _ hforMe => exact absurd hforMe hother

end

/-- An idle server at the given address, with the given pool. -/
def idleServer (serverIpAddr : UInt32) (pool : ClientRef → UInt32) : Server :=
  { bootServer with
    serverIpAddr := serverIpAddr
    clients := fun i =>
      { state := .idle, timeout := 0, ipAddr := pool i, macAddr := zeroMac, lease := 0 } }

theorem idleServer_idle {serverIpAddr : UInt32} {pool : ClientRef → UInt32} (i : ClientRef) :
    ((idleServer serverIpAddr pool).clients i).Idle := rfl

/-- Two requests with different server identifiers are told apart by a server of the first's. -/
theorem serverId_matters {m m' : Msg} (htype : m.msgType = msgRequest)
    (htype' : m'.msgType = msgRequest) (hne : m.serverId ≠ m'.serverId) (hzero : m'.serverId ≠ 0) :
    ∃ s, dhcpsRecvMsg s m true ≠ dhcpsRecvMsg s m' true := by
  refine ⟨idleServer m.serverId fun _ => m.reqIpAddr, fun heq => ?_⟩
  obtain ⟨reply, hreply, -, hack⟩ := dhcpsRecvMsg_idle
    (s := idleServer m.serverId fun _ => m.reqIpAddr) idleServer_idle ⟨0, rfl⟩
    (.inr ⟨htype, .inr rfl⟩)
  obtain ⟨reply', hreply', hnak⟩ := dhcpsRecvMsg_idle_refused
    (s := idleServer m.serverId fun _ => m.reqIpAddr) idleServer_idle htype' hzero hne
  rw [heq, hreply'] at hreply
  obtain rfl := Option.some.inj hreply
  exact hack hnak

/-- Two messages for different addresses are told apart by a server whose pool has both. -/
theorem reqIpAddr_matters {m m' : Msg} (htype : m.msgType = m'.msgType)
    (huse : m.msgType = msgDiscover ∨ m.msgType = msgRequest ∧ m.serverId = m'.serverId)
    (hne : m.reqIpAddr ≠ m'.reqIpAddr) :
    ∃ s, dhcpsRecvMsg s m true ≠ dhcpsRecvMsg s m' true := by
  let pool : ClientRef → UInt32 := fun i => if i = 0 then m.reqIpAddr else m'.reqIpAddr
  refine ⟨idleServer m.serverId pool, fun heq => ?_⟩
  obtain ⟨reply, hreply, hip, -⟩ := dhcpsRecvMsg_idle (s := idleServer m.serverId pool)
    idleServer_idle ⟨0, rfl⟩ (huse.imp_right fun h => ⟨h.1, .inr rfl⟩)
  obtain ⟨reply', hreply', hip', -⟩ := dhcpsRecvMsg_idle (s := idleServer m.serverId pool) (m := m')
    idleServer_idle ⟨1, rfl⟩ (by
      rw [← htype]
      exact huse.imp_right fun h => ⟨h.1, .inr h.2⟩)
  rw [heq, hreply'] at hreply
  obtain rfl := Option.some.inj hreply
  exact hne (hip.symm.trans hip')

end NuAgent.Dhcp
