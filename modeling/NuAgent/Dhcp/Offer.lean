import Mathlib.Algebra.Order.Ring.Nat
import NuAgent.Dhcp.Lease

/-!
# An offer is honoured

A client that was offered an address gets it, whatever other clients do in the meantime, as long as
it asks before the offer's ten ticks are over. The argument has three parts: an offer leaves an
entry in `REQUEST` (`RecvEffect.entry_of_offer`), no event of the allowed kinds takes that entry
away (`Offered.step`), and a request that meets such an entry is acknowledged (`Offered.ack`).
-/

namespace NuAgent.Dhcp

/-! ## Messages of other clients -/

/-- The lookup for `mac` leaves the active entries of other clients alone. -/
theorem LookupEffect.frame {t t' : Table} {mac : MacAddr} {r : Option ClientRef}
    (h : LookupEffect t mac r t') {k : ClientRef} (hk : ¬ (t k).Idle)
    (hmac : (t k).macAddr ≠ mac) : t' k = t k ∧ r ≠ some k := by
  have hown : ∀ {i}, Own t mac i → k ≠ i := by
    rintro i hi rfl
    exact hmac hi.2
  have hidle : ∀ {j}, (t j).Idle → k ≠ j := by
    rintro j hj rfl
    exact hk hj
  cases h with
  | keep => exact ⟨rfl, Option.some_ne_none k |>.symm⟩
  | drop hi => exact ⟨Function.update_of_ne (hown hi) _ _, Option.some_ne_none k |>.symm⟩
  | renew hi => exact ⟨rfl, fun h => hown hi (Option.some.inj h).symm⟩
  | restart hi =>
    exact ⟨Function.update_of_ne (hown hi) _ _, fun h => hown hi (Option.some.inj h).symm⟩
  | assign hj =>
    exact ⟨Function.update_of_ne (hidle hj) _ _, fun h => hidle hj (Option.some.inj h).symm⟩
  | move hi hj =>
    refine ⟨?_, fun h => hidle hj (Option.some.inj h).symm⟩
    rw [Function.update_of_ne (hidle hj), Function.update_of_ne (hown hi)]

/-- Acknowledging entry `i` leaves every other active entry alone. -/
theorem smeAck_frame (s : Server) (i : ClientRef) (xid : UInt32) (pbufAlloc : Bool) {k : ClientRef}
    (hk : ¬ (s.clients k).Idle) (hki : k ≠ i) :
    (smeAck s i xid pbufAlloc).1.clients k = s.clients k := by
  rw [smeAck_of_ne hki, cleanClientHistory_active hk]

/-- A message leaves every active entry of another client as it is. -/
theorem RecvEffect.frame {s : Server} {m : Msg} {pbufAlloc : Bool} {r : Server × Option DhcpMsg}
    (h : RecvEffect s m pbufAlloc r) {k : ClientRef} (hk : ¬ (s.clients k).Idle)
    (hmac : (s.clients k).macAddr ≠ m.macAddr) : r.1.clients k = s.clients k := by
  cases h with
  | refused h => exact (h.frame hk hmac).1
  | @offered i t h =>
    obtain ⟨ht, hne⟩ := h.frame hk hmac
    have hki : k ≠ i := fun hki => hne (by rw [hki])
    exact (Function.update_of_ne hki _ _).trans ht
  | @acked i t h =>
    obtain ⟨ht, hne⟩ := h.frame hk hmac
    have hki : k ≠ i := fun hki => hne (by rw [hki])
    have hkt : ¬ (t k).Idle := by rw [ht]; exact hk
    exact (smeAck_frame _ i _ _ hkt hki).trans ht

/-- **Clients do not interfere.** Whatever the table and whatever a client's message asks for,
handling it leaves every field of every entry that another client negotiates for or holds as it
was. -/
theorem recv_noninterference (s : Server) (m : Msg) (pbufAlloc : Bool) (k : ClientRef)
    (hk : ¬ (s.clients k).Idle) (hmac : (s.clients k).macAddr ≠ m.macAddr) :
    (dhcpsRecvMsg s m pbufAlloc).1.clients k = s.clients k :=
  (dhcpsRecvMsg_effect s m pbufAlloc).frame hk hmac

/-- `recv_noninterference` at `192.168.1.1/24`: a second client asks for the address that has just
been offered to the first. -/
theorem recv_noninterference_boot :
    let s := (dhcpsRecvMsg (dhcpsStart bootServer bootNetif true).2
      ⟨#v[2, 0, 0, 0, 0, 1], msgDiscover, 0, 0, 7⟩ true).1
    let m : Msg := ⟨#v[2, 0, 0, 0, 0, 2], msgRequest, (s.clients 0).ipAddr, 0, 8⟩
    (s.clients 0).state = .request ∧ (s.clients 0).macAddr = #v[2, 0, 0, 0, 0, 1] ∧
      (dhcpsRecvMsg s m true).1.clients 0 = s.clients 0 := by
  intro s m
  exact ⟨by decide, by decide, recv_noninterference s m true 0 (by decide) (by decide)⟩

/-! ## The rest of the record -/

theorem RecvEffect.record {s : Server} {m : Msg} {pbufAlloc : Bool} {r : Server × Option DhcpMsg}
    (h : RecvEffect s m pbufAlloc r) : r.1 = { s with clients := r.1.clients } := by
  cases h <;> rfl

/-- An event changes nothing but the table. -/
theorem Server.step_record (s : Server) (e : Event) :
    s.step e = { s with clients := (s.step e).clients } := by
  cases e with
  | recv m pbufAlloc => exact (dhcpsRecvMsg_effect s m pbufAlloc).record
  | tick status =>
    simp only [Server.step, dhcpTickHandle]
    split <;> rfl
  | delete mac =>
    simp only [Server.step, dhcpsClientDelete]
    split
    · rfl
    · cases mac <;> rfl

/-- A run keeps every field that is not the table. -/
theorem Server.run_field {β : Type*} {f : Server → β} (hf : ∀ s t, f { s with clients := t } = f s)
    (s : Server) (evs : List Event) : f (s.run evs) = f s := by
  induction evs generalizing s with
  | nil => rfl
  | cons e evs ih => rw [Server.run_cons, ih, s.step_record e, hf]

theorem Server.run_serverIpAddr (s : Server) (evs : List Event) :
    (s.run evs).serverIpAddr = s.serverIpAddr :=
  Server.run_field (f := Server.serverIpAddr) (fun _ _ => rfl) s evs

theorem Server.run_enable (s : Server) (evs : List Event) : (s.run evs).enable = s.enable :=
  Server.run_field (f := Server.enable) (fun _ _ => rfl) s evs

/-! ## The life of an offer -/

/-- Entry `k` is offered to `mac` at address `ip` for at least `ticks` more ticks. -/
structure Offered (s : Server) (mac : MacAddr) (ip : UInt32) (k : ClientRef) (ticks : ℕ) :
    Prop where
  state : (s.clients k).state = .request
  macAddr : (s.clients k).macAddr = mac
  ipAddr : (s.clients k).ipAddr = ip
  timeout : ticks ≤ (s.clients k).timeout

theorem Offered.not_idle {s : Server} {mac : MacAddr} {ip : UInt32} {k : ClientRef} {n : ℕ}
    (h : Offered s mac ip k n) : ¬ (s.clients k).Idle :=
  Client.Holds.not_idle (.inl h.state)

/-- Only the entry of the offer matters. -/
theorem Offered.of_entry_eq {s s' : Server} {mac : MacAddr} {ip : UInt32} {k : ClientRef} {n : ℕ}
    (h : Offered s mac ip k n) (he : s'.clients k = s.clients k) : Offered s' mac ip k n := by
  refine ⟨?_, ?_, ?_, ?_⟩ <;> rw [he]
  exacts [h.state, h.macAddr, h.ipAddr, h.timeout]

/-- The number of ticks an event takes from an offer. -/
def Event.ticks : Event → ℕ
  | .tick _ => 1
  | _ => 0

/-- The event is not a message of the client `mac`. -/
def Event.NotFrom (mac : MacAddr) : Event → Prop
  | .recv m _ => m.macAddr ≠ mac
  | _ => True

/-- The event is not a message by which the client `mac` asks again, takes the offer or refuses
it. -/
def Event.LeavesOffer (mac : MacAddr) : Event → Prop
  | .recv m _ => m.macAddr = mac →
      m.msgType ≠ msgDiscover ∧ m.msgType ≠ msgRequest ∧ m.msgType ≠ msgRelease ∧
        m.msgType ≠ msgDecline
  | _ => True

theorem Event.NotFrom.leavesOffer {mac : MacAddr} {e : Event} (h : e.NotFrom mac) :
    e.LeavesOffer mac := by
  cases e with
  | recv m pbufAlloc => exact fun hmac => absurd hmac h
  | tick status => trivial
  | delete mac => trivial

/-- A message of another type changes nothing. -/
theorem dhcpsRecvMsg_other {s : Server} {m : Msg} (h : m.msgType ≠ msgDiscover ∧
    m.msgType ≠ msgRequest ∧ m.msgType ≠ msgRelease ∧ m.msgType ≠ msgDecline) (pbufAlloc : Bool) :
    (dhcpsRecvMsg s m pbufAlloc).1 = s := by
  obtain ⟨hdisc, hreq, hrel, hdec⟩ := h
  have hlookup : clientTableLookup s.serverIpAddr s.clients m.macAddr m.msgType m.reqIpAddr
      m.serverId = (none, s.clients) := by
    rw [clientTableLookup, lookupSwitch, if_neg hdisc, if_neg hreq, if_neg hrel, if_neg hdec]
  rw [dhcpsRecvMsg, hlookup]

/-- A message that leaves the client's offer alone does not touch its entry. -/
theorem recv_leavesOffer {s : Server} {m : Msg} {pbufAlloc : Bool} {k : ClientRef}
    (hk : ¬ (s.clients k).Idle)
    (h : (Event.recv m pbufAlloc).LeavesOffer (s.clients k).macAddr) :
    (dhcpsRecvMsg s m pbufAlloc).1.clients k = s.clients k := by
  by_cases hmac : m.macAddr = (s.clients k).macAddr
  · rw [dhcpsRecvMsg_other (h hmac)]
  · exact (dhcpsRecvMsg_effect s m pbufAlloc).frame hk fun heq => hmac heq.symm

/-- Only bound entries are deleted. -/
theorem delete_request {s : Server} {mac : Option MacAddr} {k : ClientRef}
    (hk : (s.clients k).state = .request) :
    (dhcpsClientDelete s mac).2.clients k = s.clients k := by
  rcases dhcpsClientDelete_cases s mac with heq | ⟨i, hbind, -, heq⟩
  · rw [heq]
  · have hki : k ≠ i := by
      rintro rfl
      rw [hk] at hbind
      cases hbind
    rw [heq, Function.update_of_ne hki]

/-- A tick that is not the last one of an offer. -/
theorem tickClient_request (status : UInt8) {c : Client} (hc : c.state = .request)
    (htime : 2 ≤ c.timeout) : tickClient status c = { c with timeout := c.timeout - 1 } := by
  rw [tickClient, hc]
  dsimp only
  rw [if_pos (by omega), if_neg (by omega)]

/-- An event that is not a message of the client takes at most its tick from the offer. -/
theorem Offered.step {s : Server} {mac : MacAddr} {ip : UInt32} {k : ClientRef} {n : ℕ}
    {e : Event} (h : Offered s mac ip k (n + 1 + e.ticks)) (he : e.NotFrom mac) :
    Offered (s.step e) mac ip k (n + 1) := by
  have hleaves := he.leavesOffer
  cases e with
  | recv m pbufAlloc =>
    rw [← h.macAddr] at hleaves
    exact Offered.of_entry_eq h (recv_leavesOffer h.not_idle hleaves)
  | tick status =>
    have htime : n + 2 ≤ (s.clients k).timeout := h.timeout
    simp only [Server.step, dhcpTickHandle]
    split
    · exact ⟨h.state, h.macAddr, h.ipAddr, by omega⟩
    · have hk := tickClient_request (status k) h.state (by omega)
      refine ⟨?_, ?_, ?_, ?_⟩ <;> simp only [hk]
      exacts [h.state, h.macAddr, h.ipAddr, by omega]
  | delete m => exact Offered.of_entry_eq h (delete_request h.state)

/-- The total number of ticks in a run. -/
def ticksOf (evs : List Event) : ℕ := (evs.map Event.ticks).sum

/-- A run without messages of the client takes at most its ticks from the offer. -/
theorem Offered.run {mac : MacAddr} {ip : UInt32} {k : ClientRef} {n : ℕ} (evs : List Event)
    {s : Server} (h : Offered s mac ip k (n + 1 + ticksOf evs))
    (he : ∀ e ∈ evs, e.NotFrom mac) : Offered (s.run evs) mac ip k (n + 1) := by
  induction evs generalizing s with
  | nil => exact h
  | cons e evs ih =>
    have hcons : n + 1 + ticksOf (e :: evs) = n + ticksOf evs + 1 + e.ticks := by
      simp only [ticksOf, List.map_cons, List.sum_cons]
      omega
    have hstep : Offered (s.step e) mac ip k (n + ticksOf evs + 1) :=
      Offered.step (hcons ▸ h) (he e List.mem_cons_self)
    refine ih ?_ fun e' he' => he e' (List.mem_cons_of_mem e he')
    exact ⟨hstep.state, hstep.macAddr, hstep.ipAddr, by have := hstep.timeout; omega⟩

/-! ## Making the offer -/

theorem leaseGenAndSend_some {type : UInt8} {s : Server} {c : Client} {mac : MacAddr}
    {xid : UInt32} {pbufAlloc : Bool} {r : DhcpMsg}
    (h : leaseGenAndSend type s c mac xid pbufAlloc = some r) :
    r.msgType = some type ∧ r.yiaddr = c.ipAddr := by
  unfold leaseGenAndSend at h
  split_ifs at h
  obtain rfl := Option.some.inj h
  exact ⟨rfl, rfl⟩

theorem dhcpNakGenAndSend_some {s : Server} {mac : MacAddr} {xid : UInt32} {pbufAlloc : Bool}
    {r : DhcpMsg} (h : dhcpNakGenAndSend s mac xid pbufAlloc = some r) :
    r.msgType = some msgNak := by
  unfold dhcpNakGenAndSend at h
  split_ifs at h
  obtain rfl := Option.some.inj h
  rfl

/-- A message that is answered with an `OFFER` leaves an entry offered to its client, with a fresh
counter. -/
theorem RecvEffect.entry_of_offer {s : Server} {m : Msg} {pbufAlloc : Bool}
    {r : Server × Option DhcpMsg} (h : RecvEffect s m pbufAlloc r) (hs : Exclusive s.clients)
    {offer : DhcpMsg} (hreply : r.2 = some offer) (htype : offer.msgType = some msgOffer) :
    ∃ k, (r.1.clients k).state = .request ∧ (r.1.clients k).macAddr = m.macAddr ∧
      (r.1.clients k).ipAddr = offer.yiaddr ∧ (r.1.clients k).timeout = defaultTimeout := by
  cases h with
  | refused h =>
    dsimp only at hreply
    split_ifs at hreply
    rw [dhcpNakGenAndSend_some hreply] at htype
    exact absurd (Option.some.inj htype) (by decide)
  | @offered i t h =>
    obtain ⟨-, hip⟩ := leaseGenAndSend_some hreply
    refine ⟨i, ?_, ?_, ?_, ?_⟩ <;> simp only [smeOffer, Function.update_self]
    exacts [(h.ready hs).stamped, hip.symm]
  | acked h =>
    rw [(leaseGenAndSend_some hreply).1] at htype
    exact absurd (Option.some.inj htype) (by decide)

/-! ## Taking the offer -/

/-- A client that asks for the address it has gets its entry, and nothing changes. -/
theorem RequestCase.renews {t t' : Table} {mac : MacAddr} {ip : UInt32} {forMe : Bool}
    {r : Option ClientRef} (h : RequestCase t mac ip forMe r t') (ht : Exclusive t) {k : ClientRef}
    (hk : Own t mac k) (htaken : ¬ Taken t mac ip) (hfree : ¬ Free t ip) (hforMe : forMe = true) :
    r = some k ∧ t' = t := by
  cases h with
  | @renew my hmy => exact ⟨by rw [hk.unique hmy ht], rfl⟩
  | taken _ h => exact absurd h htaken
  | move _ _ hidle hip => exact absurd ⟨_, hidle, hip⟩ hfree
  | leave _ _ h => exact absurd h hfree
  | other _ _ _ h => exact absurd (h.symm.trans hforMe) (by decide)
  | assign hno => exact absurd hk (hno k)
  | refuse hno => exact absurd hk (hno k)

/-- The lookup for a request that takes the offer finds the offered entry and changes nothing. -/
theorem Offered.lookup {s : Server} {mac : MacAddr} {ip : UInt32} {k : ClientRef} {n : ℕ}
    (h : Offered s mac ip k n) (hs : Exclusive s.clients)
    (hpool : Function.Injective fun i => (s.clients i).ipAddr) {serverId : UInt32}
    (hid : serverId = 0 ∨ serverId = s.serverIpAddr) :
    clientTableLookup s.serverIpAddr s.clients mac msgRequest ip serverId
      = (some k, s.clients) := by
  have hown : Own s.clients mac k := ⟨h.not_idle, h.macAddr⟩
  have hentry : ∀ i, (s.clients i).ipAddr = ip → i = k := fun i hi =>
    hpool (hi.trans h.ipAddr.symm)
  -- the pool's addresses differ, so nobody else can have the requested one
  have htaken : ¬ Taken s.clients mac ip := by
    rintro ⟨i, -, hmac, hip⟩
    rw [hentry i hip] at hmac
    exact hmac h.macAddr
  have hfree : ¬ Free s.clients ip := by
    rintro ⟨j, hidle, hip⟩
    rw [hentry j hip] at hidle
    exact h.not_idle hidle
  have hforMe : forMe s.serverIpAddr serverId = true :=
    (forMe_iff _ _).mpr (hid.imp_right Eq.symm)
  have hcase := clientTableLookup_request s.serverIpAddr s.clients mac ip serverId
  obtain ⟨hr, ht⟩ := hcase.renews hs hown htaken hfree hforMe
  exact Prod.ext hr ht

/-- A request that takes the offer is acknowledged and binds the entry. -/
theorem Offered.ack {s : Server} {mac : MacAddr} {ip : UInt32} {k : ClientRef} {n : ℕ}
    (h : Offered s mac ip k n) (hs : Exclusive s.clients)
    (hpool : Function.Injective fun i => (s.clients i).ipAddr) {r : Msg}
    (hmac : r.macAddr = mac) (htype : r.msgType = msgRequest) (hip : r.reqIpAddr = ip)
    (hid : r.serverId = 0 ∨ r.serverId = s.serverIpAddr) (pbufAlloc : Bool) :
    dhcpsRecvMsg s r pbufAlloc = smeAck s k r.xid pbufAlloc := by
  have hlookup := h.lookup hs hpool hid
  rw [dhcpsRecvMsg, hmac, htype, hip, hlookup]
  dsimp only
  rw [dhcpClientSMEHandle, h.state]

/-- The entry the state machine acknowledges is bound, for its client and at its address. -/
theorem smeAck_entry (s : Server) (k : ClientRef) (xid : UInt32) (pbufAlloc : Bool) :
    (smeAck s k xid pbufAlloc).1.clients k
      = { s.clients k with lease := defaultLeaseTime, state := .bind } := by
  simp only [smeAck]
  rw [cleanClientHistory_active, Function.update_self]
  rw [Function.update_self]
  exact Client.Holds.not_idle (.inr rfl)

/-- **An offer is honoured.** In every state a started server reaches, if a `DISCOVER` (or any other
message `d`) is answered with an `OFFER`, and then fewer than ten ticks, any messages of other
clients and any deletes happen in any order, a `REQUEST` for the offered address is answered with an
`ACK` of that address whenever the reply can be allocated, and with nothing otherwise; the offered
entry is then bound. -/
theorem offer_honoured (s₀ s : Server) (netif : Netif) (udpNew : Bool)
    (hstart : dhcpsStart s₀ netif udpNew = (.success, s))
    (hpool : Function.Injective fun i => (s.clients i).ipAddr) (before : List Event)
    (d : Msg) (dAlloc : Bool) (offer : DhcpMsg)
    (hoffer : (dhcpsRecvMsg (s.run before) d dAlloc).2 = some offer)
    (htype : offer.msgType = some msgOffer) (between : List Event)
    (hticks : ticksOf between < defaultTimeout) (hothers : ∀ e ∈ between, e.NotFrom d.macAddr)
    (r : Msg) (hr : r.msgType = msgRequest) (hmac : r.macAddr = d.macAddr)
    (hip : r.reqIpAddr = offer.yiaddr) (hid : r.serverId = 0 ∨ r.serverId = netif.ipAddr)
    (rAlloc : Bool) :
    let s₁ := (dhcpsRecvMsg (s.run before) d dAlloc).1
    let answer := dhcpsRecvMsg (s₁.run between) r rAlloc
    ∃ k, ((s₁.clients k).state = .request ∧ (s₁.clients k).ipAddr = offer.yiaddr ∧
        (s₁.clients k).macAddr = d.macAddr) ∧
      ((answer.1.clients k).state = .bind ∧ (answer.1.clients k).ipAddr = offer.yiaddr ∧
        (answer.1.clients k).macAddr = d.macAddr) ∧
      (rAlloc = true → ∃ ack, answer.2 = some ack ∧ ack.msgType = some msgAck ∧
        ack.yiaddr = offer.yiaddr) ∧
      (rAlloc = false → answer.2 = none) := by
  intro s₁ answer
  -- the run before, the message and the run between keep the invariant and the addresses
  obtain ⟨hex₀, hips₀⟩ := s.run_inv before (exclusive_of_idle (dhcpsStart_idle hstart))
  have heff := dhcpsRecvMsg_effect (s.run before) d dAlloc
  obtain ⟨hex₁, hips₁⟩ := heff.inv hex₀
  obtain ⟨hex₂, hips₂⟩ := s₁.run_inv between hex₁
  have hips : SameIps s.clients (s₁.run between).clients := (hips₀.trans hips₁).trans hips₂
  have hpool₂ : Function.Injective fun i => ((s₁.run between).clients i).ipAddr := by
    intro i j hij
    exact hpool ((hips i).symm.trans (hij.trans (hips j)))
  have hserver : (s₁.run between).serverIpAddr = netif.ipAddr := by
    rw [Server.run_serverIpAddr, congrArg Server.serverIpAddr heff.record, Server.run_serverIpAddr,
      (dhcpsStart_success hstart).2.1]
  -- the offer starts with ten ticks and loses one at each tick between
  obtain ⟨k, hstate, hmac₁, hip₁, htime⟩ := heff.entry_of_offer hex₀ hoffer htype
  have hk₂ : Offered (s₁.run between) d.macAddr offer.yiaddr k 1 := by
    have htime : (s₁.clients k).timeout = defaultTimeout := htime
    exact Offered.run (n := 0) between ⟨hstate, hmac₁, hip₁, by omega⟩ hothers
  have hanswer : answer = smeAck (s₁.run between) k r.xid rAlloc :=
    hk₂.ack hex₂ hpool₂ hmac hr hip (hserver ▸ hid) rAlloc
  refine ⟨k, ⟨hstate, hip₁, hmac₁⟩, ?_, ?_, ?_⟩
  · rw [hanswer, smeAck_entry]
    exact ⟨rfl, hk₂.ipAddr, hk₂.macAddr⟩
  · rintro rfl
    rw [hanswer]
    refine ⟨_, rfl, rfl, hk₂.ipAddr⟩
  · rintro rfl
    rw [hanswer]
    rfl

/-- `offer_honoured` at `192.168.1.1/24`: another client asks for the offered address in vain. -/
theorem offer_honoured_boot :
    let s := (dhcpsStart bootServer bootNetif true).2
    let mac : MacAddr := #v[2, 0, 0, 0, 0, 1]
    let offered := dhcpsRecvMsg s ⟨mac, msgDiscover, 0, 0, 7⟩ true
    let between : List Event :=
      [.recv ⟨#v[2, 0, 0, 0, 0, 2], msgRequest, 0x0201a8c0, 0, 8⟩ true, .tick fun _ => 1]
    ∃ offer, offered.2 = some offer ∧ offer.msgType = some msgOffer ∧
      ∃ ack, (dhcpsRecvMsg (offered.1.run between)
          ⟨mac, msgRequest, offer.yiaddr, 0x0101a8c0, 9⟩ true).2 = some ack ∧
        ack.msgType = some msgAck ∧ ack.yiaddr = offer.yiaddr := by
  intro s mac offered between
  have hpool : Function.Injective fun i => (s.clients i).ipAddr := by
    intro i j
    revert i j
    decide
  have hothers : ∀ e ∈ between, e.NotFrom mac := by
    intro e he
    rcases List.mem_cons.mp he with rfl | he
    · show (#v[2, 0, 0, 0, 0, 2] : MacAddr) ≠ mac
      decide
    · rw [List.mem_singleton.mp he]
      trivial
  refine ⟨_, rfl, rfl, ?_⟩
  obtain ⟨-, -, -, hack, -⟩ := offer_honoured bootServer s bootNetif true rfl hpool []
    ⟨mac, msgDiscover, 0, 0, 7⟩ true _ rfl rfl between (by decide) hothers
    ⟨mac, msgRequest, _, 0x0101a8c0, 9⟩ rfl rfl rfl (.inr rfl) true
  exact hack rfl

end NuAgent.Dhcp
