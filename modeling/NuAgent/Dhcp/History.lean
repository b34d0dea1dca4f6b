import NuAgent.Dhcp.Ack
import NuAgent.Dhcp.Discover

/-!
# The history law

An entry that stops being leased keeps its client's address as history, and one whose offer comes to
nothing forgets it. The decision is written out once for each way to let an entry go; all of them
agree (`Client.drop`, `tickClient`, `clientDeleteLoop`) but the one for a `DISCOVER`, which makes the
entry idle before it looks whether it was bound.
-/

namespace NuAgent.Dhcp

/-! ## Letting one entry go -/

/-- If the entry becomes idle, a lease leaves its client as history and an offer does not. -/
structure Client.LetGo (c c' : Client) : Prop where
  bind : c.state = .bind → c'.Idle → c'.macAddr = c.macAddr
  request : c.state = .request → c'.Idle → c'.macAddr = zeroMac

/-- Every entry that becomes idle is let go as it should be. -/
def Table.LetGo (t t' : Table) : Prop := ∀ i, (t i).LetGo (t' i)

section
variable {c c' : Client} {t t' : Table} {i : ClientRef}

theorem Client.LetGo.of_active (h : ¬ c'.Idle) : c.LetGo c' :=
  ⟨fun _ hidle => absurd hidle h, fun _ hidle => absurd hidle h⟩

theorem Client.LetGo.of_idle (h : c.Idle) : c.LetGo c' := by
  rw [Client.Idle] at h
  refine ⟨?_, ?_⟩ <;> rw [h] <;> simp

theorem Client.LetGo.refl (c : Client) : c.LetGo c := by
  by_cases h : c.Idle
  · exact .of_idle h
  · exact .of_active h

theorem Client.drop_letGo (c : Client) : c.LetGo c.drop := by
  refine ⟨fun hs _ => ?_, fun hs _ => ?_⟩
  · simp only [Client.drop, hs, ne_eq, not_true_eq_false, if_false]
  · simp only [Client.drop, hs, ne_eq, reduceCtorEq, not_false_eq_true, if_true]

/-- A deleted entry was bound. -/
theorem Client.LetGo.of_bind (h : c.state = .bind) : c.LetGo { c with state := .idle } := by
  refine ⟨fun _ _ => rfl, ?_⟩
  rw [h]
  simp

theorem tickClient_letGo (status : UInt8) (c : Client) : c.LetGo (tickClient status c) := by
  refine ⟨fun hs _ => ?_, fun hs hidle => ?_⟩
  · rw [tickClient, hs]
    dsimp only
    split_ifs <;> rfl
  · rw [tickClient, hs] at hidle ⊢
    dsimp only at hidle ⊢
    split_ifs at hidle ⊢
    · rfl
    · cases hidle
    · exact absurd (hs.symm.trans hidle) (by decide)

theorem Table.LetGo.refl (t : Table) : t.LetGo t := fun i => .refl (t i)

theorem Table.LetGo.update (h : t.LetGo t') (hc : (t i).LetGo c) :
    t.LetGo (Function.update t' i c) := by
  intro j
  rcases eq_or_ne j i with rfl | hne
  · rw [Function.update_self]
    exact hc
  · rw [Function.update_of_ne hne]
    exact h j

end

/-! ## The law -/

/-- The event acknowledges to the client `mac` an address other than `ip`. -/
def AcksOther (s : Server) (mac : MacAddr) (ip : UInt32) : Event → Prop
  | .recv m pbufAlloc => m.macAddr = mac ∧ ∃ ack, (dhcpsRecvMsg s m pbufAlloc).2 = some ack ∧
      ack.msgType = some msgAck ∧ ack.yiaddr ≠ ip
  | _ => False

/-- An entry that stops being leased at the event keeps its client's address, unless the event
acknowledges another address to that client; an entry whose offer ends forgets it. -/
def HistoryLaw (s : Server) (e : Event) : Prop :=
  ∀ i, let c := s.clients i
    let c' := (s.step e).clients i
    (c.state = .bind → c'.Idle → c'.macAddr = c.macAddr ∨ AcksOther s c.macAddr c.ipAddr e) ∧
      (c.state = .request → c'.Idle → c'.macAddr = zeroMac)

/-- The event is not a message by which a bound client changes to an idle address of the pool, or it
is a request for another address that can be answered. -/
def KeepsHistory (s : Server) : Event → Prop
  | .recv m pbufAlloc => m.macAddr ≠ zeroMac → Free s.clients m.reqIpAddr →
      ∀ k, (s.clients k).state = .bind → (s.clients k).macAddr = m.macAddr →
        m.msgType ≠ msgDiscover ∧
          (m.msgType = msgRequest → forMe s.serverIpAddr m.serverId = true →
            ¬ Taken s.clients m.macAddr m.reqIpAddr →
            pbufAlloc = true ∧ m.reqIpAddr ≠ (s.clients k).ipAddr)
  | _ => True

theorem HistoryLaw.of_letGo {s : Server} {e : Event} (h : s.clients.LetGo (s.step e).clients) :
    HistoryLaw s e := fun i => ⟨fun hs hidle => .inl ((h i).bind hs hidle), (h i).request⟩

/-- The law allows a lease to be forgotten only for an `ACK` of another address. -/
theorem HistoryLaw.acksOther {s : Server} {e : Event} (h : HistoryLaw s e) {k : ClientRef}
    (hbind : (s.clients k).state = .bind) (hmac : (s.clients k).macAddr ≠ zeroMac)
    (hidle : ((s.step e).clients k).Idle) (hzero : ((s.step e).clients k).macAddr = zeroMac) :
    AcksOther s (s.clients k).macAddr (s.clients k).ipAddr e :=
  ((h k).1 hbind hidle).resolve_left fun hkept => hmac (hkept.symm.trans hzero)

/-! ## Ticks and deletes -/

theorem tick_letGo (s : Server) (status : ClientRef → UInt8) :
    s.clients.LetGo (dhcpTickHandle s status).clients := by
  unfold dhcpTickHandle
  split
  · exact Table.LetGo.refl _
  · exact fun i => tickClient_letGo (status i) (s.clients i)

theorem delete_letGo (s : Server) (mac : Option MacAddr) :
    s.clients.LetGo (dhcpsClientDelete s mac).2.clients := by
  rcases dhcpsClientDelete_cases s mac with h | ⟨i, hbind, -, h⟩
  · rw [h]
    exact Table.LetGo.refl _
  · rw [h]
    exact (Table.LetGo.refl _).update (Client.LetGo.of_bind hbind)

/-! ## Messages without an entry -/

theorem LookupEffect.letGo_none {t t' : Table} {mac : MacAddr}
    (h : LookupEffect t mac none t') : t.LetGo t' := by
  cases h with
  | keep => exact Table.LetGo.refl t
  | @drop i => exact (Table.LetGo.refl t).update (Client.drop_letGo (t i))

theorem recv_letGo_none {s : Server} {m : Msg} {pbufAlloc : Bool} (hd : m.msgType ≠ msgDiscover)
    (hr : m.msgType ≠ msgRequest) : s.clients.LetGo (dhcpsRecvMsg s m pbufAlloc).1.clients := by
  have hnone := clientTableLookup_none s.serverIpAddr s.clients m.macAddr m.reqIpAddr m.serverId
    hd hr
  have heff := clientTableLookup_effect s.serverIpAddr s.clients m.macAddr m.msgType m.reqIpAddr
    m.serverId
  rw [hnone] at heff
  unfold dhcpsRecvMsg
  revert hnone heff
  rcases clientTableLookup s.serverIpAddr s.clients m.macAddr m.msgType m.reqIpAddr m.serverId
    with ⟨_ | i, t⟩
  · exact fun _ heff => heff.letGo_none
  · exact fun h => absurd h (Option.some_ne_none _)

/-! ## A `DISCOVER` -/

section
variable {t t' : Table} {mac : MacAddr} {ip : UInt32} {r : Option ClientRef} {i k : ClientRef}

/-- Unless a bound client moves, every entry but the offered one is let go as it should be. -/
theorem DiscoverCase.letGo (h : DiscoverCase t mac ip r t')
    (hkeep : mac ≠ zeroMac → Free t ip → ∀ k, (t k).state = .bind → (t k).macAddr ≠ mac) :
    ∀ j, r ≠ some j → (t j).LetGo (t' j) := by
  intro j hj
  cases h with
  | @move my req hmy hidle hip =>
    have hne : j ≠ req := fun heq => hj (by rw [heq])
    rw [Function.update_of_ne hne]
    refine (Table.LetGo.refl t).update (i := my) ⟨fun hbind _ => ?_, fun _ _ => rfl⟩ j
    by_contra hzero
    exact hkeep (fun hmac => hzero (hmac.symm.trans hmy.2.symm)) ⟨req, hidle, hip⟩ my hbind hmy.2
  | restart => rw [Function.update_of_ne fun heq => hj (by rw [heq])]; exact Client.LetGo.refl _
  | assign => rw [Function.update_of_ne fun heq => hj (by rw [heq])]; exact Client.LetGo.refl _
  | full => exact Client.LetGo.refl _

/-- A client that moves is forgotten where it was, whether it was bound there or not. -/
theorem DiscoverCase.forgets (h : DiscoverCase t mac ip r t') (ht : Exclusive t)
    (hk : Own t mac k) (hfree : Free t ip) :
    ∃ i, r = some i ∧ i ≠ k ∧ (t' k).Idle ∧ (t' k).macAddr = zeroMac := by
  cases h with
  | @move my req hmy hidle =>
    obtain rfl : k = my := hk.unique hmy ht
    refine ⟨req, rfl, hmy.ne_of_idle hidle, ?_⟩
    rw [Function.update_of_ne (hmy.ne_of_idle hidle).symm, Function.update_self]
    exact ⟨rfl, rfl⟩
  | restart _ hnot => exact absurd hfree hnot
  | assign hno => exact absurd hk (hno k)
  | full hno => exact absurd hk (hno k)

/-! ## A `REQUEST` -/

/-- Until the history is cleaned, every entry but the acknowledged one is let go as it should be. -/
theorem RequestCase.letGo {forMe : Bool} (h : RequestCase t mac ip forMe r t') :
    ∀ j, r ≠ some j → (t j).LetGo (t' j) := by
  intro j hj
  cases h with
  | @taken my => exact (Table.LetGo.refl t).update (Client.drop_letGo (t my)) j
  | @move my req =>
    have hne : j ≠ req := fun heq => hj (by rw [heq])
    rw [Function.update_of_ne hne]
    exact (Table.LetGo.refl t).update (Client.drop_letGo (t my)) j
  | @leave my => exact (Table.LetGo.refl t).update (Client.drop_letGo (t my)) j
  | renew => exact Client.LetGo.refl _
  | other => exact Client.LetGo.refl _
  | assign => rw [Function.update_of_ne fun heq => hj (by rw [heq])]; exact Client.LetGo.refl _
  | refuse => exact Client.LetGo.refl _

/-- A bound entry that an acknowledged request lets go is the client's own one, and the client
changes to an idle address. -/
theorem RequestCase.moved {forMe : Bool} (h : RequestCase t mac ip forMe (some i) t')
    (hbind : (t k).state = .bind) (hidle : (t' k).Idle) :
    (t k).macAddr = mac ∧ Free t ip ∧ ¬ Taken t mac ip ∧ forMe = true ∧ (t' i).ipAddr = ip := by
  have hactive : ¬ (t k).Idle := Client.Holds.not_idle (.inr hbind)
  cases h with
  | @move my _ hmy htaken hreq hip hforMe =>
    have hne : k ≠ i := fun heq => hactive (heq ▸ hreq)
    rw [Function.update_of_ne hne] at hidle
    rw [Function.update_self]
    have hk : k = my := by
      by_contra hk
      rw [Function.update_of_ne hk] at hidle
      exact hactive hidle
    exact ⟨hk ▸ hmy.2, ⟨i, hreq, hip⟩, htaken, hforMe, hip⟩
  | renew => exact absurd hidle hactive
  | assign _ _ hreq =>
    have hne : k ≠ i := fun heq => hactive (heq ▸ hreq)
    rw [Function.update_of_ne hne] at hidle
    exact absurd hidle hactive

/-- A bound client that asks for an idle address moves there. -/
theorem RequestCase.moves {forMe : Bool} (h : RequestCase t mac ip forMe r t') (ht : Exclusive t)
    (hk : Own t mac k) (hbind : (t k).state = .bind) (hfree : Free t ip) (htaken : ¬ Taken t mac ip)
    (hforMe : forMe = true) :
    ∃ i, r = some i ∧ k ≠ i ∧ (t' i).macAddr = mac ∧ (t' i).ipAddr = ip ∧ (t' k).Idle ∧
      (t' k).macAddr = mac := by
  cases h with
  | @move my req hmy _ hidle hip =>
    obtain rfl : k = my := hk.unique hmy ht
    refine ⟨req, rfl, (hmy.ne_of_idle hidle).symm, ?_⟩
    rw [Function.update_self, Function.update_of_ne (hmy.ne_of_idle hidle).symm,
      Function.update_self]
    exact ⟨rfl, hip, rfl, ((Client.drop_letGo (t k)).bind hbind rfl).trans hk.2⟩
  | taken _ h => exact absurd h htaken
  | leave _ _ _ h => exact absurd (h.symm.trans hforMe) (by decide)
  | renew _ _ hnot => exact absurd hfree hnot
  | other _ _ hnot => exact absurd hfree hnot
  | assign hno => exact absurd hk (hno k)
  | refuse hno => exact absurd hk (hno k)

end

/-! ## The law for messages -/

section
variable {s : Server} {m : Msg} {pbufAlloc : Bool}

/-- The acknowledged entry is bound. -/
theorem smeAck_active (s : Server) (i : ClientRef) (xid : UInt32) (pbufAlloc : Bool) :
    ¬ ((smeAck s i xid pbufAlloc).1.clients i).Idle := by
  rw [smeAck_entry]
  exact Client.Holds.not_idle (.inr rfl)

theorem cleanClientHistory_zero (mac : MacAddr) {t : Table} {i : ClientRef}
    (h : (t i).macAddr = zeroMac) : (cleanClientHistory mac t i).macAddr = zeroMac := by
  unfold cleanClientHistory
  split_ifs
  · rfl
  · exact h

theorem discover_law (hs : Exclusive s.clients) (htype : m.msgType = msgDiscover) :
    HistoryLaw s (.recv m pbufAlloc) ↔ KeepsHistory s (.recv m pbufAlloc) := by
  obtain ⟨mac, type, ip, serverId, xid⟩ := m
  obtain rfl : type = msgDiscover := htype
  have hstep := dhcpsRecvMsg_discover s mac ip serverId xid pbufAlloc
  have hcase := clientTableLookup_discover s.serverIpAddr s.clients mac ip serverId
  revert hstep hcase
  rcases clientTableLookup s.serverIpAddr s.clients mac msgDiscover ip serverId
    with ⟨r, t⟩
  intro hstep hcase
  constructor
  · intro hlaw hmac hfree k hbind hk
    have hown : Own s.clients mac k := ⟨Client.Holds.not_idle (.inr hbind), hk⟩
    obtain ⟨i, rfl, hne, hidle, hzero⟩ := hcase.forgets hs hown hfree
    have hafter : (s.step (.recv ⟨mac, msgDiscover, ip, serverId, xid⟩ pbufAlloc)).clients k =
        t k := by
      rw [Server.step, hstep]
      exact Function.update_of_ne hne.symm _ _
    obtain ⟨-, ack, hack, htype, -⟩ := hlaw.acksOther hbind (hk ▸ hmac)
      (by rw [hafter]; exact hidle) (by rw [hafter]; exact hzero)
    rw [hstep] at hack
    rw [(leaseGenAndSend_some hack).1] at htype
    exact absurd (Option.some.inj htype) (by decide)
  · intro hkeep
    have hletGo := hcase.letGo fun hmac hfree k hbind hk =>
      (hkeep hmac hfree k hbind hk).1 rfl
    refine HistoryLaw.of_letGo fun j => ?_
    rw [Server.step, hstep]
    cases r with
    | none => exact hletGo j (Option.some_ne_none j).symm
    | some i =>
      rcases eq_or_ne j i with rfl | hne
      · refine Client.LetGo.of_active ?_
        simp only [smeOffer, Function.update_self]
        exact Client.Holds.not_idle (.inl rfl)
      · simp only [smeOffer, Function.update_of_ne hne]
        exact hletGo j fun heq => hne (Option.some.inj heq).symm

theorem request_law (hs : Exclusive s.clients) (htimed : s.clients.Timed)
    (htype : m.msgType = msgRequest) :
    HistoryLaw s (.recv m pbufAlloc) ↔ KeepsHistory s (.recv m pbufAlloc) := by
  have hnd : m.msgType ≠ msgDiscover := by
    rw [htype]
    decide
  obtain ⟨r, t, hcase, hstep⟩ := dhcpsRecvMsg_request pbufAlloc htimed htype
  have hletGo := hcase.letGo
  constructor
  · intro hlaw hmac hfree k hbind hk
    refine ⟨hnd, fun _ hforMe htaken => ?_⟩
    have hown : Own s.clients m.macAddr k := ⟨Client.Holds.not_idle (.inr hbind), hk⟩
    obtain ⟨i, rfl, hne, hstamp, hip, hidle, hold⟩ :=
      hcase.moves hs hown hbind hfree htaken hforMe
    have hafter : (s.step (.recv m pbufAlloc)).clients k = { t k with macAddr := zeroMac } := by
      rw [Server.step, hstep]
      dsimp only
      rw [smeAck_of_ne hne, cleanClientHistory, hstamp, if_pos ⟨hidle, hold⟩]
    obtain ⟨-, ack, hack, -, hother⟩ :=
      hlaw.acksOther hbind (hk ▸ hmac) (by rw [hafter]; exact hidle) (by rw [hafter])
    rw [hstep] at hack
    rw [(leaseGenAndSend_some hack).2] at hother
    refine ⟨?_, fun heq => hother (hip.trans heq)⟩
    cases pbufAlloc with
    | true => rfl
    | false => cases hack
  · intro hkeep
    cases r with
    | none =>
      refine HistoryLaw.of_letGo fun j => ?_
      rw [Server.step, hstep]
      exact hletGo j (Option.some_ne_none j).symm
    | some i =>
      intro j
      rw [Server.step, hstep]
      dsimp only
      rcases eq_or_ne j i with rfl | hne
      · have hactive := smeAck_active { s with clients := t } j m.xid pbufAlloc
        exact ⟨fun _ hidle => absurd hidle hactive, fun _ hidle => absurd hidle hactive⟩
      · have hentry := hletGo j fun heq => hne (Option.some.inj heq).symm
        rw [smeAck_of_ne hne, cleanClientHistory_idle_iff]
        refine ⟨fun hbind hidle => ?_, fun hreq hidle => ?_⟩
        · -- the bound entry was left for another one
          obtain ⟨hmac, hfree, htaken, hforMe, hip⟩ := hcase.moved hbind hidle
          by_cases hzero : m.macAddr = zeroMac
          · have hold : (s.clients j).macAddr = zeroMac := hmac.trans hzero
            exact .inl ((cleanClientHistory_zero _ ((hentry.bind hbind hidle).trans hold)).trans
              hold.symm)
          · obtain ⟨rfl, hother⟩ := (hkeep hzero hfree j hbind hmac).2 htype hforMe htaken
            refine .inr ⟨hmac.symm, _, by rw [hstep]; rfl, rfl, ?_⟩
            exact fun heq => hother (hip.symm.trans heq)
        · exact cleanClientHistory_zero _ (hentry.request hreq hidle)

end

/-- One event keeps the history law exactly when `KeepsHistory` says so. -/
theorem Server.step_law {s : Server} (hs : Exclusive s.clients) (htimed : s.clients.Timed)
    (e : Event) : HistoryLaw s e ↔ KeepsHistory s e := by
  cases e with
  | recv m pbufAlloc =>
    by_cases hd : m.msgType = msgDiscover
    · exact discover_law hs hd
    · by_cases hr : m.msgType = msgRequest
      · exact request_law hs htimed hr
      · exact iff_of_true (HistoryLaw.of_letGo (recv_letGo_none hd hr))
          fun _ _ _ _ _ => ⟨hd, fun h => absurd h hr⟩
  | tick status => exact iff_of_true (HistoryLaw.of_letGo (tick_letGo s status)) trivial
  | delete mac => exact iff_of_true (HistoryLaw.of_letGo (delete_letGo s mac)) trivial

/-- **When the history is kept.** In every state a started server reaches, an event lets the entries
go as the history law says exactly when it is not a `DISCOVER` of a bound client for an idle address,
nor a `REQUEST` by which a bound client moves to an idle address without an `ACK` of an address other
than its own. -/
theorem history_law_iff (s₀ s : Server) (netif : Netif) (udpNew : Bool)
    (hstart : dhcpsStart s₀ netif udpNew = (.success, s)) (evs : List Event) (e : Event) :
    HistoryLaw (s.run evs) e ↔ KeepsHistory (s.run evs) e := by
  have hidle := dhcpsStart_idle hstart
  obtain ⟨hex, -⟩ := s.run_inv evs (exclusive_of_idle hidle)
  have htimed := Server.run_timed (s := s) (fun i => (hidle i).timed) evs
  exact Server.step_law hex htimed e

/-- `history_law_iff` at `192.168.1.1/24`: the station of a bound client is deleted. -/
theorem history_law_boot :
    let s := (dhcpsStart bootServer bootNetif true).2
    let mac : MacAddr := #v[2, 0, 0, 0, 0, 1]
    let evs : List Event := [.recv ⟨mac, msgDiscover, 0, 0, 7⟩ true,
      .recv ⟨mac, msgRequest, 0x0201a8c0, 0, 8⟩ true]
    HistoryLaw (s.run evs) (.delete (some mac)) := by
  intro s mac evs
  exact (history_law_iff bootServer s bootNetif true rfl evs (.delete (some mac))).mpr trivial

/-- A client bound to `192.168.1.2` discovers `192.168.1.3`, and its lease is forgotten. -/
theorem history_forgotten :
    let s := (dhcpsStart bootServer bootNetif true).2
    let mac : MacAddr := #v[2, 0, 0, 0, 0, 1]
    let s' := s.run [.recv ⟨mac, msgDiscover, 0, 0, 7⟩ true,
      .recv ⟨mac, msgRequest, 0x0201a8c0, 0, 8⟩ true]
    ¬ HistoryLaw s' (.recv ⟨mac, msgDiscover, 0x0301a8c0, 0, 9⟩ true) := by
  intro s mac s' hlaw
  rcases (hlaw 0).1 (by decide) (by decide) with hkept | ⟨-, ack, hack, htype, -⟩
  · exact absurd hkept (by decide)
  · have hreply : (dhcpsRecvMsg s' ⟨mac, msgDiscover, 0x0301a8c0, 0, 9⟩ true).2.map
        DhcpMsg.msgType = some (some msgOffer) := by decide
    rw [hack, Option.map_some, htype] at hreply
    exact absurd hreply (by decide)

end NuAgent.Dhcp
