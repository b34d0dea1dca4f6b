import NuAgent.Dhcp.Server

/-!
# Lease exclusivity

No hardware address ever has two entries that are not idle, and no entry ever changes its address;
so two clients never hold one address and one client never holds two.

Ticks, deletes and the cleaning of the history only let entries go (`Shrinks`). A message first
makes its entry ready for the client (`Ready`: stamped, and the only entry the client can own), and
the state machine then activates that entry.
-/

namespace NuAgent.Dhcp

/-- Each hardware address owns at most one entry that is not idle. -/
def Exclusive (t : Table) : Prop :=
  ∀ i j, ¬ (t i).Idle → ¬ (t j).Idle → (t i).macAddr = (t j).macAddr → i = j

/-- A client has at most one entry of its own. -/
theorem Own.unique {t : Table} {mac : MacAddr} {i j : ClientRef} (hi : Own t mac i)
    (hj : Own t mac j) (ht : Exclusive t) : i = j :=
  ht i j hi.1 hj.1 (hi.2.trans hj.2.symm)

/-- The entries of `t'` have the addresses they have in `t`. -/
def SameIps (t t' : Table) : Prop := ∀ i, (t' i).ipAddr = (t i).ipAddr

theorem SameIps.refl (t : Table) : SameIps t t := fun _ => rfl

theorem SameIps.trans {t t' t'' : Table} (h : SameIps t t') (h' : SameIps t' t'') :
    SameIps t t'' := fun i => (h' i).trans (h i)

/-- An update that keeps the address of the updated entry keeps all addresses. -/
theorem SameIps.update {t t' : Table} (h : SameIps t t') {i : ClientRef} {c : Client}
    (hc : c.ipAddr = (t i).ipAddr) : SameIps t (Function.update t' i c) := by
  intro j
  rcases eq_or_ne j i with rfl | hj
  · rw [Function.update_self, hc]
  · rw [Function.update_of_ne hj, h j]

/-! ## Steps that only let entries go -/

/-- Every entry that is active in `t'` is active in `t`, for the same client. -/
def Shrinks (t t' : Table) : Prop :=
  ∀ i, ¬ (t' i).Idle → ¬ (t i).Idle ∧ (t' i).macAddr = (t i).macAddr

theorem Shrinks.refl (t : Table) : Shrinks t t := fun _ h => ⟨h, rfl⟩

theorem Shrinks.exclusive {t t' : Table} (h : Shrinks t t') (ht : Exclusive t) :
    Exclusive t' := by
  intro i j hi hj hmac
  obtain ⟨hi', hmi⟩ := h i hi
  obtain ⟨hj', hmj⟩ := h j hj
  exact ht i j hi' hj' (by rw [← hmi, ← hmj, hmac])

theorem Shrinks.update_idle {t : Table} {i : ClientRef} {c : Client} (hc : c.Idle) :
    Shrinks t (Function.update t i c) := by
  intro j hj
  rcases eq_or_ne j i with rfl | hne
  · rw [Function.update_self] at hj
    exact absurd hc hj
  · rw [Function.update_of_ne hne] at hj ⊢
    exact ⟨hj, rfl⟩

theorem tickClient_ipAddr (status : UInt8) (c : Client) :
    (tickClient status c).ipAddr = c.ipAddr := by
  unfold tickClient
  split
  · split_ifs <;> rfl
  · dsimp only
    split_ifs <;> rfl
  · rfl

/-- A tick keeps the client of an entry that stays active. -/
theorem tickClient_active {status : UInt8} {c : Client} (h : ¬ (tickClient status c).Idle) :
    ¬ c.Idle ∧ (tickClient status c).macAddr = c.macAddr := by
  have hc : ¬ c.Idle := by
    intro hi
    apply h
    rw [Client.Idle] at hi ⊢
    simp [tickClient, hi]
  refine ⟨hc, ?_⟩
  unfold tickClient at h ⊢
  split
  · next hs =>
    simp only [hs] at h
    split_ifs at h ⊢
    · exact absurd rfl h
    · rfl
    · rfl
  · dsimp only
    split_ifs <;> rfl
  · rfl

theorem dhcpTickHandle_shrinks (s : Server) (status : ClientRef → UInt8) :
    Shrinks s.clients (dhcpTickHandle s status).clients := by
  unfold dhcpTickHandle
  split
  · exact Shrinks.refl _
  · exact fun i hi => tickClient_active hi

theorem dhcpTickHandle_sameIps (s : Server) (status : ClientRef → UInt8) :
    SameIps s.clients (dhcpTickHandle s status).clients := by
  unfold dhcpTickHandle
  split
  · exact SameIps.refl _
  · exact fun i => tickClient_ipAddr _ _

/-- The deletion loop changes nothing, or makes one bound entry of the client idle. -/
theorem clientDeleteLoop_cases (mac : MacAddr) (t : Table) (is : List ClientRef) :
    (clientDeleteLoop mac t is).2 = t ∨
      ∃ i, (t i).state = .bind ∧ (t i).macAddr = mac ∧
        (clientDeleteLoop mac t is).2 = Function.update t i { t i with state := .idle } := by
  induction is with
  | nil => exact .inl rfl
  | cons i is ih =>
    unfold clientDeleteLoop
    split_ifs with hown hstate
    · exact .inl rfl
    · exact .inr ⟨i, not_not.mp hstate, hown.2, rfl⟩
    · exact ih

/-- A delete changes nothing, or makes one bound entry of the client idle. -/
theorem dhcpsClientDelete_cases (s : Server) (mac : Option MacAddr) :
    (dhcpsClientDelete s mac).2.clients = s.clients ∨
      ∃ i, (s.clients i).state = .bind ∧ mac = some (s.clients i).macAddr ∧
        (dhcpsClientDelete s mac).2.clients =
          Function.update s.clients i { s.clients i with state := .idle } := by
  unfold dhcpsClientDelete
  split
  · exact .inl rfl
  · cases mac with
    | none => exact .inl rfl
    | some m =>
      rcases clientDeleteLoop_cases m s.clients (List.finRange historyClientNum) with h | h
      · exact .inl h
      · obtain ⟨i, hbind, hmac, h⟩ := h
        exact .inr ⟨i, hbind, by rw [hmac], h⟩

theorem cleanClientHistory_active {mac : MacAddr} {t : Table} {i : ClientRef}
    (h : ¬ (t i).Idle) : cleanClientHistory mac t i = t i := by
  rw [cleanClientHistory, if_neg fun h' => h h'.1]

theorem cleanClientHistory_idle_iff (mac : MacAddr) (t : Table) (i : ClientRef) :
    (cleanClientHistory mac t i).Idle ↔ (t i).Idle := by
  unfold cleanClientHistory
  split_ifs <;> rfl

theorem cleanClientHistory_shrinks (mac : MacAddr) (t : Table) :
    Shrinks t (cleanClientHistory mac t) := by
  intro i hi
  rw [cleanClientHistory_idle_iff] at hi
  rw [cleanClientHistory_active hi]
  exact ⟨hi, rfl⟩

theorem cleanClientHistory_sameIps (mac : MacAddr) (t : Table) :
    SameIps t (cleanClientHistory mac t) := by
  intro i
  unfold cleanClientHistory
  split_ifs <;> rfl

/-! ## Messages -/

/-- Entry `i` carries the client's address and no other entry is active for the client. -/
structure Ready (t : Table) (mac : MacAddr) (i : ClientRef) : Prop where
  stamped : (t i).macAddr = mac
  only : ∀ j, Own t mac j → j = i

theorem LookupEffect.sameIps {t t' : Table} {mac : MacAddr} {r : Option ClientRef}
    (h : LookupEffect t mac r t') : SameIps t t' := by
  cases h with
  | keep => exact SameIps.refl t
  | drop => exact (SameIps.refl t).update rfl
  | renew => exact SameIps.refl t
  | restart => exact (SameIps.refl t).update rfl
  | assign => exact (SameIps.refl t).update rfl
  | move _ _ _ hip => exact ((SameIps.refl t).update hip).update rfl

/-- The lookup keeps exclusivity: it activates nothing. -/
theorem LookupEffect.exclusive {t t' : Table} {mac : MacAddr} {r : Option ClientRef}
    (h : LookupEffect t mac r t') (ht : Exclusive t) : Exclusive t' := by
  cases h with
  | keep => exact ht
  | drop => exact (Shrinks.update_idle (Client.drop_idle _)).exclusive ht
  | renew => exact ht
  | @restart i => exact (Shrinks.update_idle (c := { t i with state := .idle }) rfl).exclusive ht
  | @assign j hj => exact (Shrinks.update_idle (c := { t j with macAddr := mac }) hj).exclusive ht
  | @move i j _ hj c hc =>
    have h := (Shrinks.update_idle (i := i) hc).exclusive ht
    exact (Shrinks.update_idle (c := { t j with macAddr := mac }) hj).exclusive h

/-- The entry the lookup returns is ready for the client. -/
theorem LookupEffect.ready {t t' : Table} {mac : MacAddr} {i : ClientRef}
    (h : LookupEffect t mac (some i) t') (ht : Exclusive t) : Ready t' mac i := by
  cases h with
  | renew hi => exact ⟨hi.2, fun j hj => hj.unique hi ht⟩
  | restart hi =>
    refine ⟨by rw [Function.update_self]; exact hi.2, fun j hj => ?_⟩
    by_contra hne
    rw [Own, Function.update_of_ne hne] at hj
    exact hne (Own.unique hj hi ht)
  | assign hj hno =>
    refine ⟨by rw [Function.update_self], fun k hk => ?_⟩
    by_contra hne
    rw [Own, Function.update_of_ne hne] at hk
    exact hno k hk
  | @move own _ hi hj c hc hip =>
    refine ⟨by rw [Function.update_self], fun k hk => ?_⟩
    by_contra hne
    rw [Own, Function.update_of_ne hne] at hk
    rcases eq_or_ne k own with rfl | hk'
    · rw [Function.update_self] at hk
      exact hk.1 hc
    · rw [Function.update_of_ne hk'] at hk
      exact hk' (Own.unique hk hi ht)

/-- At an entry other than the acknowledged one only the history is cleaned. -/
theorem smeAck_of_ne {s : Server} {i j : ClientRef} (hne : j ≠ i) (xid : UInt32)
    (pbufAlloc : Bool) : (smeAck s i xid pbufAlloc).1.clients j =
      cleanClientHistory (s.clients i).macAddr s.clients j := by
  simp only [smeAck, cleanClientHistory, Function.update_of_ne hne]

/-- Rewriting the entry that is ready for a client, for that client, keeps exclusivity. -/
theorem Ready.exclusive {t : Table} {mac : MacAddr} {i : ClientRef} (hr : Ready t mac i)
    (ht : Exclusive t) {c : Client} (hc : c.macAddr = mac) : Exclusive (Function.update t i c) := by
  have hother : ∀ j, j ≠ i → ¬ (t j).Idle → (t j).macAddr ≠ mac :=
    fun j hj hidle hmac => hj (hr.only j ⟨hidle, hmac⟩)
  intro j k hj hk hmac
  by_cases hji : j = i
  · subst hji
    by_contra hkj
    rw [Function.update_self, hc, Function.update_of_ne (Ne.symm hkj)] at hmac
    rw [Function.update_of_ne (Ne.symm hkj)] at hk
    exact hother k (Ne.symm hkj) hk hmac.symm
  · rw [Function.update_of_ne hji] at hj hmac
    by_cases hki : k = i
    · subst hki
      rw [Function.update_self, hc] at hmac
      exact absurd hmac (hother j hji hj)
    · rw [Function.update_of_ne hki] at hk hmac
      exact ht j k hj hk hmac

/-- Passing through `SELECT` on the way to an offer leaves no trace. -/
theorem smeOffer_select (s : Server) (i : ClientRef) (xid : UInt32) (pbufAlloc : Bool) :
    smeOffer
        { s with clients := Function.update s.clients i { s.clients i with state := .select } }
        i xid pbufAlloc
      = smeOffer s i xid pbufAlloc := by
  simp only [smeOffer, Function.update_self, Function.update_idem]
  rfl

/-- The state machine offers an entry that is in `SELECT`, or idle and not requested; in every other
case it acknowledges. -/
theorem dhcpClientSMEHandle_cases (s : Server) (i : ClientRef) (msgType : UInt8) (xid : UInt32)
    (pbufAlloc : Bool) :
    (((s.clients i).state = .select ∨ (s.clients i).Idle ∧ msgType ≠ msgRequest) ∧
        dhcpClientSMEHandle s i msgType xid pbufAlloc = smeOffer s i xid pbufAlloc) ∨
      (((s.clients i).Holds ∨ (s.clients i).Idle ∧ msgType = msgRequest) ∧
        dhcpClientSMEHandle s i msgType xid pbufAlloc = smeAck s i xid pbufAlloc) := by
  unfold dhcpClientSMEHandle
  cases hs : (s.clients i).state with
  | idle =>
    dsimp only
    split_ifs with hdisc hreq
    · exact .inl ⟨.inr ⟨hs, by rw [hdisc]; decide⟩, smeOffer_select s i xid pbufAlloc⟩
    · exact .inr ⟨.inr ⟨hs, hreq⟩, rfl⟩
    · exact .inl ⟨.inr ⟨hs, hreq⟩, rfl⟩
  | select => exact .inl ⟨.inl rfl, rfl⟩
  | request => exact .inr ⟨.inl (.inl hs), rfl⟩
  | bind => exact .inr ⟨.inl (.inr hs), rfl⟩

section
variable {s : Server} {i : ClientRef} {xid : UInt32} {pbufAlloc : Bool}

theorem smeOffer_sameIps : SameIps s.clients (smeOffer s i xid pbufAlloc).1.clients :=
  (SameIps.refl _).update rfl

theorem smeAck_sameIps : SameIps s.clients (smeAck s i xid pbufAlloc).1.clients := by
  have hupd : SameIps s.clients (Function.update s.clients i
      { s.clients i with lease := defaultLeaseTime, state := .bind }) :=
    (SameIps.refl _).update rfl
  exact hupd.trans (cleanClientHistory_sameIps _ _)

theorem smeOffer_exclusive {mac : MacAddr} (hr : Ready s.clients mac i)
    (ht : Exclusive s.clients) : Exclusive (smeOffer s i xid pbufAlloc).1.clients :=
  hr.exclusive ht hr.stamped

theorem smeAck_exclusive {mac : MacAddr} (hr : Ready s.clients mac i)
    (ht : Exclusive s.clients) : Exclusive (smeAck s i xid pbufAlloc).1.clients :=
  (cleanClientHistory_shrinks _ _).exclusive (hr.exclusive ht hr.stamped)

end

/-- Everything a message can do: the lookup finds no entry, and the client gets a `NAK` or no
answer; or it returns an entry, which the state machine offers or acknowledges. -/
inductive RecvEffect (s : Server) (m : Msg) (pbufAlloc : Bool) : Server × Option DhcpMsg → Prop
  | refused {t : Table} (h : LookupEffect s.clients m.macAddr none t) :
      RecvEffect s m pbufAlloc ({ s with clients := t },
        if m.msgType ≠ msgRelease ∧ m.msgType ≠ msgDecline then
          dhcpNakGenAndSend s m.macAddr m.xid pbufAlloc
        else none)
  | offered {i : ClientRef} {t : Table} (h : LookupEffect s.clients m.macAddr (some i) t)
      (hst : (t i).state = .select ∨ (t i).Idle ∧ m.msgType ≠ msgRequest) :
      RecvEffect s m pbufAlloc (smeOffer { s with clients := t } i m.xid pbufAlloc)
  | acked {i : ClientRef} {t : Table} (h : LookupEffect s.clients m.macAddr (some i) t)
      (hst : (t i).Holds ∨ (t i).Idle ∧ m.msgType = msgRequest) :
      RecvEffect s m pbufAlloc (smeAck { s with clients := t } i m.xid pbufAlloc)

theorem dhcpsRecvMsg_effect (s : Server) (m : Msg) (pbufAlloc : Bool) :
    RecvEffect s m pbufAlloc (dhcpsRecvMsg s m pbufAlloc) := by
  have heff := clientTableLookup_effect s.serverIpAddr s.clients m.macAddr m.msgType m.reqIpAddr
    m.serverId
  unfold dhcpsRecvMsg
  revert heff
  rcases clientTableLookup s.serverIpAddr s.clients m.macAddr m.msgType m.reqIpAddr m.serverId
    with ⟨_ | i, t⟩ <;> intro heff
  · exact .refused heff
  · dsimp only
    rcases dhcpClientSMEHandle_cases { s with clients := t } i m.msgType m.xid pbufAlloc with
      ⟨hst, h⟩ | ⟨hst, h⟩
    · rw [h]
      exact .offered heff hst
    · rw [h]
      exact .acked heff hst

/-- A message keeps exclusivity and the addresses of the entries. -/
theorem RecvEffect.inv {s : Server} {m : Msg} {pbufAlloc : Bool} {r : Server × Option DhcpMsg}
    (h : RecvEffect s m pbufAlloc r) (hs : Exclusive s.clients) :
    Exclusive r.1.clients ∧ SameIps s.clients r.1.clients := by
  cases h with
  | refused h => exact ⟨h.exclusive hs, h.sameIps⟩
  | offered h =>
    exact ⟨smeOffer_exclusive (h.ready hs) (h.exclusive hs), h.sameIps.trans smeOffer_sameIps⟩
  | acked h =>
    exact ⟨smeAck_exclusive (h.ready hs) (h.exclusive hs), h.sameIps.trans smeAck_sameIps⟩

/-! ## Runs -/

/-- One event keeps exclusivity and the addresses of the entries. -/
theorem Server.step_inv (s : Server) (e : Event) (hs : Exclusive s.clients) :
    Exclusive (s.step e).clients ∧ SameIps s.clients (s.step e).clients := by
  cases e with
  | recv m pbufAlloc => exact (dhcpsRecvMsg_effect s m pbufAlloc).inv hs
  | tick status =>
    exact ⟨(dhcpTickHandle_shrinks s status).exclusive hs, dhcpTickHandle_sameIps s status⟩
  | delete mac =>
    simp only [Server.step]
    rcases dhcpsClientDelete_cases s mac with h | ⟨i, -, -, h⟩
    · rw [h]
      exact ⟨hs, SameIps.refl _⟩
    · rw [h]
      have hidle : Client.Idle { s.clients i with state := .idle } := rfl
      exact ⟨(Shrinks.update_idle hidle).exclusive hs, (SameIps.refl _).update rfl⟩

/-- A run keeps exclusivity and the addresses of the entries. -/
theorem Server.run_inv (s : Server) (evs : List Event) (hs : Exclusive s.clients) :
    Exclusive (s.run evs).clients ∧ SameIps s.clients (s.run evs).clients := by
  induction evs generalizing s with
  | nil => exact ⟨hs, SameIps.refl _⟩
  | cons e evs ih =>
    obtain ⟨hstep, hips⟩ := s.step_inv e hs
    obtain ⟨hrun, hips'⟩ := ih (s.step e) hstep
    exact ⟨hrun, hips.trans hips'⟩

/-- A table with nothing but idle entries is exclusive. -/
theorem exclusive_of_idle {t : Table} (h : ∀ i, (t i).Idle) : Exclusive t :=
  fun i _ hi => absurd (h i) hi

/-- A successful start leaves an idle table. -/
theorem dhcpsStart_idle {s₀ s : Server} {netif : Netif} {udpNew : Bool}
    (h : dhcpsStart s₀ netif udpNew = (.success, s)) (i : ClientRef) : (s.clients i).Idle := by
  rw [(dhcpsStart_success h).2.2.2]
  rfl

/-- **Lease exclusivity.** In every state a started server reaches, each hardware address owns at
most one entry that is not idle and every entry has its original address; hence no address is held
by two clients and no client holds two addresses. -/
theorem lease_exclusivity (s₀ s : Server) (netif : Netif) (udpNew : Bool)
    (hstart : dhcpsStart s₀ netif udpNew = (.success, s))
    (hpool : Function.Injective fun i => (s.clients i).ipAddr) (evs : List Event) :
    let t := (s.run evs).clients
    (∀ i j, ¬ (t i).Idle → ¬ (t j).Idle → (t i).macAddr = (t j).macAddr → i = j) ∧
      (∀ i, (t i).ipAddr = (s.clients i).ipAddr) ∧
      (∀ i j, (t i).Holds → (t j).Holds → (t i).ipAddr = (t j).ipAddr →
        (t i).macAddr = (t j).macAddr) ∧
      (∀ i j, (t i).Holds → (t j).Holds → (t i).macAddr = (t j).macAddr →
        (t i).ipAddr = (t j).ipAddr) := by
  intro t
  obtain ⟨hex, hips⟩ := s.run_inv evs (exclusive_of_idle (dhcpsStart_idle hstart))
  refine ⟨hex, hips, fun i j _ _ hip => ?_, fun i j hi hj hmac => ?_⟩
  · have hij : i = j := hpool ((hips i).symm.trans (hip.trans (hips j)))
    rw [hij]
  · rw [hex i j hi.not_idle hj.not_idle hmac]

/-- The server record before anything has started. -/
def bootServer : Server :=
  { enable := false, socket := false, serverIpAddr := 0, startIpAddr := 0, subnetMask := 0
    gateWay := 0, dns1 := 0, dns2 := 0, leaseTime := 0, clients := initClients 0 0 }

/-- The interface `192.168.1.1/24`. -/
def bootNetif : Netif := { up := true, ipAddr := 0x0101a8c0, netmask := 0x00ffffff }

/-- `lease_exclusivity` at `192.168.1.1/24`, after a discover and a tick. -/
theorem lease_exclusivity_boot :
    let s := (dhcpsStart bootServer bootNetif true).2
    let t := (s.run [.recv ⟨#v[2, 0, 0, 0, 0, 1], msgDiscover, 0, 0, 7⟩ true,
      .tick fun _ => 1]).clients
    (dhcpsStart bootServer bootNetif true).1 = .success ∧
      ∀ i j, ¬ (t i).Idle → ¬ (t j).Idle → (t i).macAddr = (t j).macAddr → i = j := by
  have hstart : dhcpsStart bootServer bootNetif true
      = (.success, (dhcpsStart bootServer bootNetif true).2) := rfl
  have hpool : Function.Injective fun i =>
      ((dhcpsStart bootServer bootNetif true).2.clients i).ipAddr := by
    intro i j
    revert i j
    decide
  exact ⟨rfl, (lease_exclusivity _ _ bootNetif true hstart hpool _).1⟩

end NuAgent.Dhcp
