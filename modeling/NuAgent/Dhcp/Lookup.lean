import NuAgent.Dhcp.Table
import NuAgent.Lib.Search

/-!
# `_ClientTableLookup`

The lookup scans the table once, collecting six findings about the client's hardware address and
requested address, and then decides by message type which entry to negotiate on. `scan` is the
loop; `scan_spec` states each finding as a search over the whole table, so that no later proof
looks inside the loop.
-/

namespace NuAgent.Dhcp

/-! ## Message types -/

/-- `DHCP_MSG_DISCOVER`. -/
def msgDiscover : UInt8 := 1
/-- `DHCP_MSG_OFFER`. -/
def msgOffer : UInt8 := 2
/-- `DHCP_MSG_REQUEST`. -/
def msgRequest : UInt8 := 3
/-- `DHCP_MSG_DECLINE`. -/
def msgDecline : UInt8 := 4
/-- `DHCP_MSG_ACK`. -/
def msgAck : UInt8 := 5
/-- `DHCP_MSG_NAK`. -/
def msgNak : UInt8 := 6
/-- `DHCP_MSG_RELEASE`. -/
def msgRelease : UInt8 := 7

/-! ## The scanning loop -/

/-- The pointers and the flag the scanning loop fills in. -/
structure Scan where
  pFreeClient : Option ClientRef := none
  pReqClient : Option ClientRef := none
  pMyHistoryClient : Option ClientRef := none
  pHistoryClient : Option ClientRef := none
  pMyClient : Option ClientRef := none
  ipUnavailable : Bool := false

/-- One turn of the scanning loop, at entry `i`. -/
def scanStep (t : Table) (mac : MacAddr) (reqIpAddr : UInt32) (sc : Scan) (i : ClientRef) : Scan :=
  if (t i).Idle then
    { sc with
      pMyHistoryClient :=
        if sc.pMyHistoryClient = none ∧ (t i).macAddr = mac then some i else sc.pMyHistoryClient
      pReqClient :=
        if sc.pReqClient = none ∧ (t i).ipAddr = reqIpAddr then some i else sc.pReqClient
      pFreeClient :=
        if sc.pFreeClient = none ∧ (t i).macAddr = zeroMac then some i else sc.pFreeClient
      pHistoryClient :=
        if sc.pHistoryClient = none ∧ (t i).macAddr ≠ zeroMac then some i
        else sc.pHistoryClient }
  else if (t i).macAddr = mac then { sc with pMyClient := some i }
  else if (t i).ipAddr = reqIpAddr then { sc with ipUnavailable := true }
  else sc

/-- The whole scan. -/
def scan (t : Table) (mac : MacAddr) (reqIpAddr : UInt32) : Scan :=
  (List.finRange historyClientNum).foldl (scanStep t mac reqIpAddr) {}

/-- Entry `i` is being negotiated or held by `mac`. -/
def Own (t : Table) (mac : MacAddr) (i : ClientRef) : Prop :=
  ¬ (t i).Idle ∧ (t i).macAddr = mac

instance (t : Table) (mac : MacAddr) : DecidablePred (Own t mac) := fun i =>
  inferInstanceAs (Decidable (¬ (t i).Idle ∧ (t i).macAddr = mac))

/-- What the scan finds, each finding a search over the table. -/
structure ScanSpec (t : Table) (mac : MacAddr) (reqIpAddr : UInt32) (sc : Scan) : Prop where
  my_some : ∀ i, sc.pMyClient = some i → Own t mac i
  my_none : sc.pMyClient = none → ∀ i, ¬ Own t mac i
  req_some : ∀ i, sc.pReqClient = some i → (t i).Idle ∧ (t i).ipAddr = reqIpAddr
  req_none : sc.pReqClient = none → ∀ i, (t i).Idle → (t i).ipAddr ≠ reqIpAddr
  myHistory_some : ∀ i, sc.pMyHistoryClient = some i → (t i).Idle ∧ (t i).macAddr = mac
  myHistory_none : sc.pMyHistoryClient = none → ∀ i, (t i).Idle → (t i).macAddr ≠ mac
  free_some : ∀ i, sc.pFreeClient = some i → (t i).Idle ∧ (t i).macAddr = zeroMac
  free_none : sc.pFreeClient = none → ∀ i, (t i).Idle → (t i).macAddr ≠ zeroMac
  history_some : ∀ i, sc.pHistoryClient = some i → (t i).Idle ∧ (t i).macAddr ≠ zeroMac
  history_none : sc.pHistoryClient = none → ∀ i, (t i).Idle → (t i).macAddr = zeroMac
  unavailable_iff : sc.ipUnavailable = true ↔
    ∃ i, ¬ (t i).Idle ∧ (t i).macAddr ≠ mac ∧ (t i).ipAddr = reqIpAddr

section
variable (t : Table) (mac : MacAddr) (reqIpAddr : UInt32)

theorem scan_pMyClient : (scan t mac reqIpAddr).pMyClient =
    (List.finRange historyClientNum).reverse.find? fun i => decide (Own t mac i) := by
  rw [scan, Search.foldl_last (g := Scan.pMyClient) (p := Own t mac), Option.or_none]
  intro sc i
  simp only [scanStep, Own]
  split_ifs <;> simp_all

/-- A finding that keeps the first idle entry with the property `q`. -/
theorem scan_firstIdle {g : Scan → Option ClientRef} {q : Client → Prop} [DecidablePred q]
    (hinit : g {} = none)
    (hstep : ∀ sc i, g (scanStep t mac reqIpAddr sc i) =
      if (t i).Idle then if g sc = none ∧ q (t i) then some i else g sc else g sc) :
    (∀ i, g (scan t mac reqIpAddr) = some i → (t i).Idle ∧ q (t i)) ∧
      (g (scan t mac reqIpAddr) = none → ∀ i, (t i).Idle → ¬ q (t i)) := by
  have hfind : g (scan t mac reqIpAddr) =
      (List.finRange historyClientNum).find? fun i => decide ((t i).Idle ∧ q (t i)) := by
    rw [scan, Search.foldl_first (g := g) (p := fun i => (t i).Idle ∧ q (t i)), hinit,
      Option.none_or]
    intro sc i
    rw [hstep]
    by_cases hidle : (t i).Idle <;> simp [hidle]
  rw [hfind]
  exact ⟨fun i h => Search.find?_finRange_some h,
    fun h i hi hq => Search.find?_finRange_none h i ⟨hi, hq⟩⟩

theorem scan_pReqClient :
    (∀ i, (scan t mac reqIpAddr).pReqClient = some i → (t i).Idle ∧ (t i).ipAddr = reqIpAddr) ∧
      ((scan t mac reqIpAddr).pReqClient = none → ∀ i, (t i).Idle → ¬ (t i).ipAddr = reqIpAddr) :=
  scan_firstIdle t mac reqIpAddr (q := fun c => c.ipAddr = reqIpAddr) rfl fun sc i => by
    unfold scanStep
    split_ifs <;> rfl

theorem scan_pMyHistoryClient :
    (∀ i, (scan t mac reqIpAddr).pMyHistoryClient = some i → (t i).Idle ∧ (t i).macAddr = mac) ∧
      ((scan t mac reqIpAddr).pMyHistoryClient = none → ∀ i, (t i).Idle → ¬ (t i).macAddr = mac) :=
  scan_firstIdle t mac reqIpAddr (q := fun c => c.macAddr = mac) rfl fun sc i => by
    unfold scanStep
    split_ifs <;> rfl

theorem scan_pFreeClient :
    (∀ i, (scan t mac reqIpAddr).pFreeClient = some i → (t i).Idle ∧ (t i).macAddr = zeroMac) ∧
      ((scan t mac reqIpAddr).pFreeClient = none → ∀ i, (t i).Idle → ¬ (t i).macAddr = zeroMac) :=
  scan_firstIdle t mac reqIpAddr (q := fun c => c.macAddr = zeroMac) rfl fun sc i => by
    unfold scanStep
    split_ifs <;> rfl

theorem scan_pHistoryClient :
    (∀ i, (scan t mac reqIpAddr).pHistoryClient = some i → (t i).Idle ∧ (t i).macAddr ≠ zeroMac) ∧
      ((scan t mac reqIpAddr).pHistoryClient = none →
        ∀ i, (t i).Idle → ¬ (t i).macAddr ≠ zeroMac) :=
  scan_firstIdle t mac reqIpAddr (q := fun c => c.macAddr ≠ zeroMac) rfl fun sc i => by
    unfold scanStep
    split_ifs <;> rfl

theorem scan_ipUnavailable : (scan t mac reqIpAddr).ipUnavailable =
    (List.finRange historyClientNum).any fun i =>
      decide (¬ (t i).Idle ∧ (t i).macAddr ≠ mac ∧ (t i).ipAddr = reqIpAddr) := by
  rw [scan, Search.foldl_flag (g := Scan.ipUnavailable)
    (p := fun i => ¬ (t i).Idle ∧ (t i).macAddr ≠ mac ∧ (t i).ipAddr = reqIpAddr), Bool.false_or]
  intro sc i
  simp only [scanStep]
  split_ifs <;> simp_all

/-- The loop finds what `ScanSpec` says. -/
theorem scan_spec : ScanSpec t mac reqIpAddr (scan t mac reqIpAddr) where
  my_some i h := by
    rw [scan_pMyClient] at h
    exact Search.find?_finRange_reverse_some h
  my_none h := by
    rw [scan_pMyClient] at h
    exact Search.find?_finRange_reverse_none h
  req_some := (scan_pReqClient t mac reqIpAddr).1
  req_none := (scan_pReqClient t mac reqIpAddr).2
  myHistory_some := (scan_pMyHistoryClient t mac reqIpAddr).1
  myHistory_none := (scan_pMyHistoryClient t mac reqIpAddr).2
  free_some := (scan_pFreeClient t mac reqIpAddr).1
  free_none := (scan_pFreeClient t mac reqIpAddr).2
  history_some := (scan_pHistoryClient t mac reqIpAddr).1
  history_none h i hi := not_not.mp ((scan_pHistoryClient t mac reqIpAddr).2 h i hi)
  unavailable_iff := by
    rw [scan_ipUnavailable, List.any_eq_true]
    constructor
    · rintro ⟨i, -, hi⟩
      exact ⟨i, by simpa using hi⟩
    · rintro ⟨i, hi⟩
      exact ⟨i, List.mem_finRange i, by simpa using hi⟩

end

/-! ## The switch on the message type -/

/-- The source's way to let an entry go in the `REQUEST`, `RELEASE` and `DECLINE` cases: the address
is kept as history only when the lease was established. -/
def Client.drop (c : Client) : Client :=
  { c with
    state := .idle
    macAddr := if c.state ≠ .bind then zeroMac else c.macAddr }

/-- `case DHCP_MSG_DISCOVER`. The client's own entry becomes `IDLE` before its state is compared
with `BIND`, so its hardware address is cleared whenever another entry is returned. -/
def lookupDiscover (t : Table) (sc : Scan) : Option ClientRef × Table :=
  match sc.pMyClient with
  | some my =>
      let t' := Function.update t my { t my with state := .idle }
      match sc.pReqClient with
      | some req =>
          (some req,
            if (t' my).state ≠ .bind then Function.update t' my { t' my with macAddr := zeroMac }
            else t')
      | none => (some my, t')
  | none =>
      if sc.pReqClient.isSome then (sc.pReqClient, t)
      else if sc.pMyHistoryClient.isSome then (sc.pMyHistoryClient, t)
      else if sc.pFreeClient.isSome then (sc.pFreeClient, t)
      else if sc.pHistoryClient.isSome then (sc.pHistoryClient, t)
      else (none, t)

/-- `case DHCP_MSG_REQUEST`; `forMe` is `(ServerId == 0) || (ServerIpAddr == ServerId)`. -/
def lookupRequest (t : Table) (sc : Scan) (forMe : Bool) : Option ClientRef × Table :=
  match sc.pMyClient with
  | some my =>
      if sc.ipUnavailable then (none, Function.update t my (t my).drop)
      else match sc.pReqClient with
        | some req =>
            (if forMe then some req else none, Function.update t my (t my).drop)
        | none => (if forMe then some my else none, t)
  | none =>
      if sc.ipUnavailable then (none, t)
      else if forMe then (sc.pReqClient, t)
      else (none, t)

/-- `case DHCP_MSG_RELEASE` and `case DHCP_MSG_DECLINE`. -/
def lookupRelease (t : Table) (sc : Scan) : Option ClientRef × Table :=
  match sc.pMyClient with
  | some my => (none, Function.update t my (t my).drop)
  | none => (none, t)

/-- The switch of `_ClientTableLookup`, before the returned entry is stamped. -/
def lookupSwitch (serverIpAddr : UInt32) (t : Table) (sc : Scan) (msgType : UInt8)
    (serverId : UInt32) : Option ClientRef × Table :=
  if msgType = msgDiscover then lookupDiscover t sc
  else if msgType = msgRequest then
    lookupRequest t sc (serverId == 0 || serverIpAddr == serverId)
  else if msgType = msgRelease then lookupRelease t sc
  else if msgType = msgDecline then lookupRelease t sc
  else (none, t)

/-- `_ClientTableLookup`: the entry to negotiate on, if any, and the table. The returned entry is
stamped with the client's hardware address. -/
def clientTableLookup (serverIpAddr : UInt32) (t : Table) (mac : MacAddr) (msgType : UInt8)
    (reqIpAddr serverId : UInt32) : Option ClientRef × Table :=
  match lookupSwitch serverIpAddr t (scan t mac reqIpAddr) msgType serverId with
  | (some i, t') => (some i, Function.update t' i { t' i with macAddr := mac })
  | (none, t') => (none, t')

end NuAgent.Dhcp
