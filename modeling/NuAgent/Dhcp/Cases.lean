import NuAgent.Dhcp.Lookup

/-!
# The branches of `_ClientTableLookup`

The two cases of the switch that hand back entries are listed branch by branch (`DiscoverCase`,
`RequestCase`), with the condition under which each is taken. A condition is about the whole table:
who owns an active entry, which addresses idle entries have, and whether another client has the
requested one. `LookupEffect` lists what any message can do, for results that need no more. No later
proof opens the switch.
-/

namespace NuAgent.Dhcp

section
variable (t : Table) (mac : MacAddr) (ip : UInt32)

/-- Another client negotiates for the address or holds it. -/
def Taken : Prop := ∃ i, ¬ (t i).Idle ∧ (t i).macAddr ≠ mac ∧ (t i).ipAddr = ip

/-- The address is in the pool and free. -/
def Free : Prop := ∃ j, (t j).Idle ∧ (t j).ipAddr = ip

/-- What a `DISCOVER` of a client without an active entry gets, best first: the requested address,
the client's history, an address without history, another client's history. -/
def candidates : List (ClientRef → Prop) :=
  [fun i => (t i).Idle ∧ (t i).ipAddr = ip,
    fun i => (t i).Idle ∧ (t i).macAddr = mac,
    fun i => (t i).Idle ∧ (t i).macAddr = zeroMac,
    fun i => (t i).Idle ∧ (t i).macAddr ≠ zeroMac ∧ (t i).macAddr ≠ mac]

/-- The branches of `case DHCP_MSG_DISCOVER`, the returned entry stamped. -/
inductive DiscoverCase : Option ClientRef → Table → Prop
  | move {my req : ClientRef} (hmy : Own t mac my) (hidle : (t req).Idle)
      (hip : (t req).ipAddr = ip) :
      DiscoverCase (some req)
        (Function.update
          (Function.update t my { t my with state := .idle, macAddr := zeroMac }) req
          { t req with macAddr := mac })
  | restart {my : ClientRef} (hmy : Own t mac my) (hfree : ¬ Free t ip) :
      DiscoverCase (some my) (Function.update t my { t my with state := .idle })
  | assign {j : ClientRef} (hno : ∀ i, ¬ Own t mac i) (hj : Search.FirstOf (candidates t mac ip) j) :
      DiscoverCase (some j) (Function.update t j { t j with macAddr := mac })
  | full (hno : ∀ i, ¬ Own t mac i) (hfull : ∀ i, ¬ (t i).Idle) : DiscoverCase none t

/-- The branches of `case DHCP_MSG_REQUEST`, the returned entry stamped. -/
inductive RequestCase (forMe : Bool) : Option ClientRef → Table → Prop
  | taken {my : ClientRef} (hmy : Own t mac my) (htaken : Taken t mac ip) :
      RequestCase forMe none (Function.update t my (t my).drop)
  | move {my req : ClientRef} (hmy : Own t mac my) (htaken : ¬ Taken t mac ip)
      (hidle : (t req).Idle) (hip : (t req).ipAddr = ip) (hforMe : forMe = true) :
      RequestCase forMe (some req)
        (Function.update (Function.update t my (t my).drop) req { t req with macAddr := mac })
  | leave {my : ClientRef} (hmy : Own t mac my) (htaken : ¬ Taken t mac ip) (hfree : Free t ip)
      (hforMe : forMe = false) :
      RequestCase forMe none (Function.update t my (t my).drop)
  | renew {my : ClientRef} (hmy : Own t mac my) (htaken : ¬ Taken t mac ip) (hfree : ¬ Free t ip)
      (hforMe : forMe = true) : RequestCase forMe (some my) t
  | other {my : ClientRef} (hmy : Own t mac my) (htaken : ¬ Taken t mac ip) (hfree : ¬ Free t ip)
      (hforMe : forMe = false) : RequestCase forMe none t
  | assign {req : ClientRef} (hno : ∀ i, ¬ Own t mac i) (htaken : ¬ Taken t mac ip)
      (hidle : (t req).Idle) (hip : (t req).ipAddr = ip) (hforMe : forMe = true) :
      RequestCase forMe (some req) (Function.update t req { t req with macAddr := mac })
  | refuse (hno : ∀ i, ¬ Own t mac i)
      (h : Taken t mac ip ∨ forMe = false ∨ ¬ Free t ip) : RequestCase forMe none t

end

/-- Everything `_ClientTableLookup` can do for the client `mac`: nothing, let the client's own entry
go, hand back that entry (renewed or restarted), or hand back an idle entry, the client having none
or giving up the one it had. -/
inductive LookupEffect (t : Table) (mac : MacAddr) : Option ClientRef → Table → Prop
  | keep : LookupEffect t mac none t
  | drop {i} (hi : Own t mac i) : LookupEffect t mac none (Function.update t i (t i).drop)
  | renew {i} (hi : Own t mac i) : LookupEffect t mac (some i) t
  | restart {i} (hi : Own t mac i) :
      LookupEffect t mac (some i) (Function.update t i { t i with state := .idle })
  | assign {j} (hj : (t j).Idle) (hno : ∀ i, ¬ Own t mac i) :
      LookupEffect t mac (some j) (Function.update t j { t j with macAddr := mac })
  | move {i j} (hi : Own t mac i) (hj : (t j).Idle) {c : Client} (hc : c.Idle)
      (hip : c.ipAddr = (t i).ipAddr) :
      LookupEffect t mac (some j)
        (Function.update (Function.update t i c) j { t j with macAddr := mac })

@[simp] theorem Client.drop_idle (c : Client) : c.drop.Idle := rfl

/-- Stamping an entry the client already owns changes nothing. -/
theorem stamp_own {t : Table} {mac : MacAddr} {i : ClientRef} (hi : Own t mac i) :
    Function.update t i { t i with macAddr := mac } = t := by
  rw [← hi.2]
  exact Function.update_eq_self i t

/-- An idle entry is not the client's own one. -/
theorem Own.ne_of_idle {t : Table} {mac : MacAddr} {i j : ClientRef} (hi : Own t mac i)
    (hj : (t j).Idle) : j ≠ i := by
  rintro rfl
  exact hi.1 hj

/-! ## The findings of the scan -/

section
variable {t : Table} {mac : MacAddr} {ip : UInt32} {sc : Scan}

theorem ScanSpec.taken_iff (h : ScanSpec t mac ip sc) :
    sc.ipUnavailable = true ↔ Taken t mac ip := h.unavailable_iff

theorem ScanSpec.not_free (h : ScanSpec t mac ip sc) (hreq : sc.pReqClient = none) :
    ¬ Free t ip := by
  rintro ⟨j, hidle, hip⟩
  exact h.req_none hreq j hidle hip

/-- The candidates for a client without an active entry, in the order in which they are tried. -/
theorem ScanSpec.candidate (h : ScanSpec t mac ip sc) {j : ClientRef} :
    (sc.pReqClient.or (sc.pMyHistoryClient.or (sc.pFreeClient.or sc.pHistoryClient))) = some j →
      Search.FirstOf (candidates t mac ip) j := by
  refine .or h.req_some (fun hnone i hi => h.req_none hnone i hi.1 hi.2) fun _ => ?_
  refine .or h.myHistory_some (fun hnone i hi => h.myHistory_none hnone i hi.1 hi.2) fun hmine => ?_
  refine .or h.free_some (fun hnone i hi => h.free_none hnone i hi.1 hi.2) fun _ hj => ?_
  obtain ⟨hidle, hzero⟩ := h.history_some j hj
  exact .inl ⟨hidle, hzero, fun hmac => hmine j ⟨hidle, hmac⟩⟩

theorem candidates_idle {j : ClientRef} (h : Search.FirstOf (candidates t mac ip) j) :
    (t j).Idle := by
  obtain ⟨P, hP, hj⟩ := h.mem
  simp only [candidates, List.mem_cons, List.not_mem_nil, or_false] at hP
  rcases hP with rfl | rfl | rfl | rfl <;> exact hj.1

/-- Without a candidate no entry is idle. -/
theorem ScanSpec.full (h : ScanSpec t mac ip sc) (hzero : sc.pFreeClient = none)
    (hhistory : sc.pHistoryClient = none) (i : ClientRef) : ¬ (t i).Idle :=
  fun hidle => h.free_none hzero i hidle (h.history_none hhistory i hidle)

/-! ## The two cases of the switch -/

/-- A pair from the switch, its entry stamped, is one of the branches. -/
def StampedAs (mac : MacAddr) (P : Option ClientRef → Table → Prop)
    (r : Option ClientRef × Table) : Prop :=
  match r with
  | (some i, t') => P (some i) (Function.update t' i { t' i with macAddr := mac })
  | (none, t') => P none t'

/-- The first candidate for a client without an active entry. -/
theorem lookupDiscover_none (hmy : sc.pMyClient = none) : lookupDiscover t sc =
    (sc.pReqClient.or (sc.pMyHistoryClient.or (sc.pFreeClient.or sc.pHistoryClient)), t) := by
  rw [lookupDiscover, hmy]
  dsimp only
  cases sc.pReqClient with
  | some req => rfl
  | none =>
    cases sc.pMyHistoryClient with
    | some own => rfl
    | none =>
      cases sc.pFreeClient with
      | some i => rfl
      | none => cases sc.pHistoryClient <;> rfl

theorem lookupDiscover_case (h : ScanSpec t mac ip sc) :
    StampedAs mac (DiscoverCase t mac ip) (lookupDiscover t sc) := by
  cases hmy : sc.pMyClient with
  | some my =>
    have hown := h.my_some my hmy
    cases hreq : sc.pReqClient with
    | some req =>
      obtain ⟨hidle, hip⟩ := h.req_some req hreq
      -- the state compared with `BIND` is the `IDLE` written just before
      simp only [lookupDiscover, hmy, hreq, Function.update_self, ne_eq, reduceCtorEq,
        not_false_eq_true, if_true, Function.update_idem, StampedAs]
      rw [Function.update_of_ne (hown.ne_of_idle hidle)]
      exact .move hown hidle hip
    | none =>
      simp only [lookupDiscover, hmy, hreq, StampedAs, Function.update_self, Function.update_idem]
      have hstamp : ({ t my with state := .idle, macAddr := mac } : Client) =
          { t my with state := .idle } := by rw [← hown.2]
      rw [hstamp]
      exact .restart hown (h.not_free hreq)
  | none =>
    rw [lookupDiscover_none hmy]
    cases hj : sc.pReqClient.or
        (sc.pMyHistoryClient.or (sc.pFreeClient.or sc.pHistoryClient)) with
    | some j => exact .assign (h.my_none hmy) (h.candidate hj)
    | none =>
      obtain ⟨-, hj⟩ := Option.or_eq_none_iff.mp hj
      obtain ⟨-, hj⟩ := Option.or_eq_none_iff.mp hj
      obtain ⟨hzero, hhistory⟩ := Option.or_eq_none_iff.mp hj
      exact .full (h.my_none hmy) (h.full hzero hhistory)

theorem lookupRequest_case (h : ScanSpec t mac ip sc) (forMe : Bool) :
    StampedAs mac (RequestCase t mac ip forMe) (lookupRequest t sc forMe) := by
  have hfree : ∀ {req}, sc.pReqClient = some req → Free t ip := fun hreq =>
    ⟨_, h.req_some _ hreq⟩
  unfold lookupRequest
  cases hmy : sc.pMyClient with
  | some my =>
    have hown := h.my_some my hmy
    dsimp only
    split
    · next htaken => exact .taken hown (h.taken_iff.mp htaken)
    · next hun =>
      have htaken : ¬ Taken t mac ip := fun ht => hun (h.taken_iff.mpr ht)
      cases hreq : sc.pReqClient with
      | some req =>
        obtain ⟨hidle, hip⟩ := h.req_some req hreq
        cases forMe with
        | true =>
          simp only [StampedAs, if_true]
          rw [Function.update_of_ne (hown.ne_of_idle hidle)]
          exact .move hown htaken hidle hip rfl
        | false => exact .leave hown htaken (hfree hreq) rfl
      | none =>
        cases forMe with
        | true =>
          simp only [StampedAs, if_true]
          rw [stamp_own hown]
          exact .renew hown htaken (h.not_free hreq) rfl
        | false => exact .other hown htaken (h.not_free hreq) rfl
  | none =>
    have hno := h.my_none hmy
    dsimp only
    split
    · next htaken => exact .refuse hno (.inl (h.taken_iff.mp htaken))
    · next hun =>
      have htaken : ¬ Taken t mac ip := fun ht => hun (h.taken_iff.mpr ht)
      cases forMe with
      | true =>
        cases hreq : sc.pReqClient with
        | some req =>
          obtain ⟨hidle, hip⟩ := h.req_some req hreq
          exact .assign hno htaken hidle hip rfl
        | none => exact .refuse hno (.inr (.inr (h.not_free hreq)))
      | false => exact .refuse hno (.inr (.inl rfl))

theorem StampedAs.mono {P Q : Option ClientRef → Table → Prop} {r : Option ClientRef × Table}
    (h : StampedAs mac P r) (hPQ : ∀ r t', P r t' → Q r t') : StampedAs mac Q r := by
  obtain ⟨_ | i, t'⟩ := r
  · exact hPQ _ _ h
  · exact hPQ _ _ h

theorem lookupRelease_effect (h : ScanSpec t mac ip sc) :
    StampedAs mac (LookupEffect t mac) (lookupRelease t sc) := by
  unfold lookupRelease
  cases hmy : sc.pMyClient with
  | some my => exact .drop (h.my_some my hmy)
  | none => exact .keep

theorem DiscoverCase.effect {r : Option ClientRef} {t' : Table}
    (h : DiscoverCase t mac ip r t') : LookupEffect t mac r t' := by
  cases h with
  | move hmy hidle => exact .move hmy hidle rfl rfl
  | restart hmy => exact .restart hmy
  | assign hno hj => exact .assign (candidates_idle hj) hno
  | full => exact .keep

theorem RequestCase.effect {forMe : Bool} {r : Option ClientRef} {t' : Table}
    (h : RequestCase t mac ip forMe r t') : LookupEffect t mac r t' := by
  cases h with
  | taken hmy => exact .drop hmy
  | move hmy _ hidle => exact .move hmy hidle rfl rfl
  | leave hmy => exact .drop hmy
  | renew hmy => exact .renew hmy
  | other => exact .keep
  | assign hno _ hidle => exact .assign hidle hno
  | refuse => exact .keep

end

/-! ## The lookup -/

section
variable (serverIpAddr : UInt32) (t : Table) (mac : MacAddr) (ip serverId : UInt32)

/-- The lookup is the switch with its entry stamped. -/
theorem StampedAs.lookup {P : Option ClientRef → Table → Prop} {msgType : UInt8}
    (h : StampedAs mac P (lookupSwitch serverIpAddr t (scan t mac ip) msgType serverId)) :
    P (clientTableLookup serverIpAddr t mac msgType ip serverId).1
      (clientTableLookup serverIpAddr t mac msgType ip serverId).2 := by
  unfold clientTableLookup
  revert h
  rcases lookupSwitch serverIpAddr t (scan t mac ip) msgType serverId with ⟨_ | i, t'⟩
  · exact id
  · exact id

/-- The message names this server, or none. -/
def forMe : Bool := serverId == 0 || serverIpAddr == serverId

theorem forMe_iff : forMe serverIpAddr serverId = true ↔ serverId = 0 ∨ serverIpAddr = serverId := by
  rw [forMe, Bool.or_eq_true, beq_iff_eq, beq_iff_eq]

theorem clientTableLookup_discover : DiscoverCase t mac ip
    (clientTableLookup serverIpAddr t mac msgDiscover ip serverId).1
    (clientTableLookup serverIpAddr t mac msgDiscover ip serverId).2 :=
  StampedAs.lookup serverIpAddr t mac ip serverId (lookupDiscover_case (scan_spec t mac ip))

theorem clientTableLookup_request : RequestCase t mac ip (forMe serverIpAddr serverId)
    (clientTableLookup serverIpAddr t mac msgRequest ip serverId).1
    (clientTableLookup serverIpAddr t mac msgRequest ip serverId).2 := by
  have hnd : msgRequest ≠ msgDiscover := by decide
  apply StampedAs.lookup
  rw [lookupSwitch, if_neg hnd, if_pos rfl]
  exact lookupRequest_case (scan_spec t mac ip) _

end

/-- The lookup does one of the things `LookupEffect` lists, whatever the message asks for. -/
theorem clientTableLookup_effect (serverIpAddr : UInt32) (t : Table) (mac : MacAddr)
    (msgType : UInt8) (reqIpAddr serverId : UInt32) :
    LookupEffect t mac (clientTableLookup serverIpAddr t mac msgType reqIpAddr serverId).1
      (clientTableLookup serverIpAddr t mac msgType reqIpAddr serverId).2 := by
  have h := scan_spec t mac reqIpAddr
  apply StampedAs.lookup
  unfold lookupSwitch
  split_ifs
  · exact (lookupDiscover_case h).mono fun _ _ => DiscoverCase.effect
  · exact (lookupRequest_case h _).mono fun _ _ => RequestCase.effect
  · exact lookupRelease_effect h
  · exact lookupRelease_effect h
  · exact .keep

/-- Only a `DISCOVER` and a `REQUEST` get an entry. -/
theorem clientTableLookup_none (serverIpAddr : UInt32) (t : Table) (mac : MacAddr)
    {msgType : UInt8} (reqIpAddr serverId : UInt32) (hd : msgType ≠ msgDiscover)
    (hr : msgType ≠ msgRequest) :
    (clientTableLookup serverIpAddr t mac msgType reqIpAddr serverId).1 = none := by
  have hnone : ∀ sc, (lookupSwitch serverIpAddr t sc msgType serverId).1 = none := by
    intro sc
    rw [lookupSwitch, if_neg hd, if_neg hr]
    split_ifs
    · unfold lookupRelease
      split <;> rfl
    · unfold lookupRelease
      split <;> rfl
    · rfl
  have hsc := hnone (scan t mac reqIpAddr)
  unfold clientTableLookup
  revert hsc
  rcases lookupSwitch serverIpAddr t (scan t mac reqIpAddr) msgType serverId with ⟨_ | i, t'⟩
  · exact id
  · exact fun h => absurd h (Option.some_ne_none _)

end NuAgent.Dhcp
