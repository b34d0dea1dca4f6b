import NuAgent.Dhcp.Offer

/-!
# What a `DISCOVER` is offered

The six findings of the scan overlap, since one entry can be the requested one, the client's history
and the first one with a history at once. What comes of them is a ranked choice among the entries:
the scan keeps one entry of each class, and the switch takes the best class that has one.
-/

namespace NuAgent.Dhcp

section
variable (t : Table) (mac : MacAddr) (ip : UInt32)

/-- What a `DISCOVER` gets, best first: the requested address if it is idle, the client's own active
entry, the client's history, an address that nobody has used, another client's history. -/
def discoverClasses : List (ClientRef → Prop) :=
  [fun i => (t i).Idle ∧ (t i).ipAddr = ip,
    Own t mac,
    fun i => (t i).Idle ∧ (t i).macAddr = mac,
    fun i => (t i).Idle ∧ (t i).macAddr = zeroMac,
    fun i => (t i).Idle ∧ (t i).macAddr ≠ zeroMac ∧ (t i).macAddr ≠ mac]

end

section
variable {t t' : Table} {mac : MacAddr} {ip : UInt32} {i : ClientRef}

theorem DiscoverCase.chosen (h : DiscoverCase t mac ip (some i) t') :
    Search.FirstOf (discoverClasses t mac ip) i := by
  cases h with
  | move _ hidle hip => exact .inl ⟨hidle, hip⟩
  | restart hmy hfree => exact .inr ⟨fun j hj => hfree ⟨j, hj⟩, .inl hmy⟩
  | assign hno hj => exact hj.insert_second hno

/-- Another client's history is chosen only when no idle entry is without a history. -/
theorem history_last (h : Search.FirstOf (discoverClasses t mac ip) i) (hidle : (t i).Idle)
    (hzero : (t i).macAddr ≠ zeroMac) (hmac : (t i).macAddr ≠ mac) (hip : (t i).ipAddr ≠ ip) :
    ∀ j, (t j).Idle → (t j).macAddr ≠ zeroMac := by
  have hsplit : Search.FirstOf
      ((discoverClasses t mac ip).take 4 ++ (discoverClasses t mac ip).drop 4) i := h
  have hearlier : ∀ P ∈ (discoverClasses t mac ip).take 4, ¬ P i := by
    intro P hP hi
    simp only [discoverClasses, List.take_succ_cons, List.take_zero, List.mem_cons,
      List.not_mem_nil, or_false] at hP
    rcases hP with rfl | rfl | rfl | rfl
    · exact hip hi.2
    · exact hi.1 hidle
    · exact hmac hi.2
    · exact hzero hi.2
  intro j hj hfresh
  refine hsplit.empty hearlier (fun i => (t i).Idle ∧ (t i).macAddr = zeroMac) ?_ j ⟨hj, hfresh⟩
  simp only [discoverClasses, List.take_succ_cons, List.mem_cons, true_or, or_true]

/-- The returned entry is idle, stamped and otherwise as it was. -/
theorem DiscoverCase.entry (h : DiscoverCase t mac ip (some i) t') :
    t' i = { t i with state := .idle, macAddr := mac } := by
  cases h with
  | move hmy hidle =>
    rw [Function.update_self, ← show (t i).state = .idle from hidle]
  | restart hmy => rw [Function.update_self, ← hmy.2]
  | assign _ hj =>
    rw [Function.update_self, ← show (t i).state = .idle from candidates_idle hj]

/-- Nothing is returned when everything is taken. -/
theorem DiscoverCase.none_iff {r : Option ClientRef} (h : DiscoverCase t mac ip r t') :
    r = none ↔ ∀ j, ¬ (t j).Idle ∧ (t j).macAddr ≠ mac := by
  cases h with
  | full hno hfull =>
    exact iff_of_true rfl fun j => ⟨hfull j, fun hmac => hno j ⟨hfull j, hmac⟩⟩
  | @move my req _ hidle => exact iff_of_false (Option.some_ne_none _) fun h => (h req).1 hidle
  | @restart my hmy => exact iff_of_false (Option.some_ne_none _) fun h => (h my).2 hmy.2
  | @assign j _ hj => exact iff_of_false (Option.some_ne_none _) fun h => (h j).1 (candidates_idle hj)

end

/-- A `DISCOVER` is refused with a `NAK`, or offered the entry its branch hands back. -/
theorem dhcpsRecvMsg_discover (s : Server) (mac : MacAddr) (ip serverId xid : UInt32)
    (pbufAlloc : Bool) :
    dhcpsRecvMsg s ⟨mac, msgDiscover, ip, serverId, xid⟩ pbufAlloc =
      match clientTableLookup s.serverIpAddr s.clients mac msgDiscover ip serverId with
      | (none, t) => ({ s with clients := t }, dhcpNakGenAndSend s mac xid pbufAlloc)
      | (some i, t) => smeOffer { s with clients := t } i xid pbufAlloc := by
  have hcase := clientTableLookup_discover s.serverIpAddr s.clients mac ip serverId
  have hanswer : msgDiscover ≠ msgRelease ∧ msgDiscover ≠ msgDecline := by decide
  unfold dhcpsRecvMsg
  revert hcase
  dsimp only
  rcases clientTableLookup s.serverIpAddr s.clients mac msgDiscover ip serverId
    with ⟨_ | i, t⟩ <;> intro hcase
  · dsimp only
    rw [if_pos hanswer]
  · have hidle : (t i).state = .idle := congrArg Client.state (DiscoverCase.entry hcase)
    dsimp only
    rw [dhcpClientSMEHandle, hidle]
    dsimp only
    rw [if_pos rfl]
    exact smeOffer_select { s with clients := t } i xid pbufAlloc

/-- **What a `DISCOVER` is offered.** Whatever the table, a `DISCOVER` is refused, and answered with
a `NAK`, exactly when every entry is active for another client. Otherwise the entry that is offered
is from the first of the classes that is not empty, and is offered at its own address. In particular
an entry with another client's history is given away without having been asked for only when every
idle entry has a history. -/
theorem discover_allocation (s : Server) (mac : MacAddr) (ip serverId xid : UInt32)
    (pbufAlloc : Bool) :
    let t := s.clients
    let found := (clientTableLookup s.serverIpAddr t mac msgDiscover ip serverId).1
    let answer := dhcpsRecvMsg s ⟨mac, msgDiscover, ip, serverId, xid⟩ pbufAlloc
    (found = none ↔ ∀ j, ¬ (t j).Idle ∧ (t j).macAddr ≠ mac) ∧
      (found = none → answer.2 = dhcpNakGenAndSend s mac xid pbufAlloc) ∧
      ∀ i, found = some i →
        Search.FirstOf (discoverClasses t mac ip) i ∧
        answer.1.clients i =
          { t i with state := .request, macAddr := mac, timeout := defaultTimeout } ∧
        answer.2 = dhcpOfferGenAndSend s (t i) mac xid pbufAlloc ∧
        ((t i).Idle → (t i).macAddr ≠ zeroMac → (t i).macAddr ≠ mac → (t i).ipAddr ≠ ip →
          ∀ j, (t j).Idle → (t j).macAddr ≠ zeroMac) := by
  have hcase := clientTableLookup_discover s.serverIpAddr s.clients mac ip serverId
  dsimp only
  rw [dhcpsRecvMsg_discover]
  revert hcase
  rcases clientTableLookup s.serverIpAddr s.clients mac msgDiscover ip serverId
    with ⟨_ | i, t⟩ <;> intro hcase
  · exact ⟨hcase.none_iff, fun _ => rfl, fun i hi => absurd hi.symm (Option.some_ne_none i)⟩
  · refine ⟨hcase.none_iff, fun hi => absurd hi (Option.some_ne_none i), fun k hk => ?_⟩
    obtain rfl := Option.some.inj hk
    have hentry : t i = { s.clients i with state := .idle, macAddr := mac } :=
      DiscoverCase.entry hcase
    have hchosen : Search.FirstOf (discoverClasses s.clients mac ip) i :=
      DiscoverCase.chosen hcase
    refine ⟨hchosen, ?_, ?_, history_last hchosen⟩
    · simp only [smeOffer, Function.update_self, hentry]
    · simp only [smeOffer, hentry]
      rfl

end NuAgent.Dhcp
