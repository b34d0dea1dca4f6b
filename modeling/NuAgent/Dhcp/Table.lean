import Mathlib.Data.Nat.Notation
import Mathlib.Logic.Function.Basic
import Mathlib.Tactic.IntervalCases

/-!
# The DHCP server's client table

Reference: `App/DhcpServer/dhcp_server.h` and the table operations of `dhcp_server.c`
(`DHCPS_Start`, `_DhcpTickHandle`, `DHCPS_ClientDelete`, `_CleanClientHistory`).

The table is a function on its eight indices, so a pointer into it (`PDHCP_CLIENT`) is an index
and a `NULL` pointer is `none`. Addresses are kept in network order, as the source stores them; the
two countdown fields are natural numbers, since the source decrements them only when they are not
zero.
-/

namespace NuAgent.Dhcp

/-! ## Constants and records -/

/-- `DHCPS_HISTORY_CLIENT_NUM`, the number of entries of the table. -/
abbrev historyClientNum : ℕ := 8

/-- `DHCP_DEFAULT_LEASE_TIME`, ten years in seconds. -/
def defaultLeaseTime : ℕ := 3600 * 24 * 365 * 10

/-- `DHCP_DEFFAULT_TIMEOUT`, the number of ticks an offer stays open. -/
def defaultTimeout : ℕ := 10

/-- A hardware address, `INT8U [6]`; `memcmp` on two of them is equality. -/
abbrev MacAddr := Vector UInt8 6

/-- The address `memset(MacAddr, 0, 6)` leaves behind. -/
def zeroMac : MacAddr := Vector.replicate 6 0

/-- `DHCP_CLIENT_STATE`. -/
inductive ClientState
  | idle
  | select
  | request
  | bind
deriving DecidableEq, Repr

/-- `DHCP_CLIENT`, one entry of the table. -/
structure Client where
  state : ClientState
  timeout : ℕ
  ipAddr : UInt32
  macAddr : MacAddr
  lease : ℕ
deriving DecidableEq, Repr

/-- An index into the table, the model of a non-null `PDHCP_CLIENT`. -/
abbrev ClientRef := Fin historyClientNum

/-- The `Clients` array of `DHCP_SERVER`. -/
abbrev Table := ClientRef → Client

/-- `DHCP_SERVER`; `socket` says whether the `udp_pcb` pointer is not null. -/
structure Server where
  enable : Bool
  socket : Bool
  serverIpAddr : UInt32
  startIpAddr : UInt32
  subnetMask : UInt32
  gateWay : UInt32
  dns1 : UInt32
  dns2 : UInt32
  leaseTime : ℕ
  clients : Table

/-- The entry is in the pool and nobody negotiates for it or holds it. -/
def Client.Idle (c : Client) : Prop := c.state = .idle

instance (c : Client) : Decidable c.Idle := inferInstanceAs (Decidable (c.state = .idle))

/-- The entry's address is offered or leased (`REQUEST` or `BIND`). -/
def Client.Holds (c : Client) : Prop := c.state = .request ∨ c.state = .bind

instance (c : Client) : Decidable c.Holds :=
  inferInstanceAs (Decidable (c.state = .request ∨ c.state = .bind))

theorem Client.Holds.not_idle {c : Client} (h : c.Holds) : ¬ c.Idle := by
  rintro hi
  rcases h with h | h <;> rw [Client.Idle, h] at hi <;> cases hi

/-! ## `DHCPS_Start` -/

/-- `htonl` and `ntohl` on the little-endian core: the byte swap. -/
def htonl (x : UInt32) : UInt32 :=
  (x &&& (0xff : UInt32)) <<< (24 : UInt32) ||| (x &&& (0xff00 : UInt32)) <<< (8 : UInt32) |||
    (x >>> (8 : UInt32)) &&& (0xff00 : UInt32) ||| x >>> (24 : UInt32)

/-- Swapping the bytes twice gives the word back, bit by bit. -/
theorem htonl_htonl (x : UInt32) : htonl (htonl x) = x := by
  apply UInt32.eq_of_toBitVec_eq
  ext i hi
  simp [htonl]
  interval_cases i <;> simp

/-- The fields of `struct netif` the server reads. -/
structure Netif where
  up : Bool
  ipAddr : UInt32
  netmask : UInt32

/-- The host part `k` steps after the host part of `val`, never zero:
`((tmp + k) % (~Mask)) ? ((tmp + k) % (~Mask)) : 1`. -/
def nextHost (val mask k : UInt32) : UInt32 :=
  let tmp := val &&& ~~~mask
  if (tmp + k) % ~~~mask ≠ 0 then (tmp + k) % ~~~mask else 1

/-- `Val = htonl((Val & Mask) | tmp)` for the host part `k` steps after that of `val`. -/
def poolAddr (val mask k : UInt32) : UInt32 :=
  htonl ((val &&& mask) ||| nextHost val mask k)

/-- The return codes `DHCPS_ERR_*` of the server's interface. -/
inductive DhcpsErr
  | success
  | linkdown
  | param
  | mem
  | notBind
  | notFound
  | inactive
deriving DecidableEq, Repr

/-- The table after the initialising loop: every entry idle, with a zeroed hardware address and its
own address of the pool. -/
def initClients (startIpAddr mask : UInt32) : Table := fun i =>
  { state := .idle
    timeout := 0
    ipAddr := poolAddr (htonl startIpAddr) mask (UInt32.ofNat i)
    macAddr := zeroMac
    lease := defaultLeaseTime }

/-- `DHCPS_Start`: the return code and the server record. `udpNew` is the outcome of `udp_new`.
When the link is down the record `s` is left alone. `Dns1` is assigned twice and `Dns2` never. -/
def dhcpsStart (s : Server) (netif : Netif) (udpNew : Bool) : DhcpsErr × Server :=
  if !netif.up then (.linkdown, s)
  else
    let mask := htonl netif.netmask
    let startIpAddr := poolAddr (htonl netif.ipAddr) mask 1
    let s' : Server :=
      { enable := false
        socket := udpNew
        serverIpAddr := netif.ipAddr
        startIpAddr := startIpAddr
        subnetMask := netif.netmask
        gateWay := netif.ipAddr
        dns1 := netif.ipAddr
        dns2 := 0
        leaseTime := defaultLeaseTime
        clients := initClients startIpAddr mask }
    if !udpNew then (.mem, s') else (.success, { s' with enable := true })

/-- The record a successful start leaves. -/
theorem dhcpsStart_success {s₀ s : Server} {netif : Netif} {udpNew : Bool}
    (h : dhcpsStart s₀ netif udpNew = (.success, s)) :
    s.enable = true ∧ s.serverIpAddr = netif.ipAddr ∧
      s.startIpAddr = poolAddr (htonl netif.ipAddr) (htonl netif.netmask) 1 ∧
      s.clients = initClients s.startIpAddr (htonl netif.netmask) := by
  unfold dhcpsStart at h
  split at h
  · cases h
  · dsimp only at h
    split at h
    · cases h
    · obtain rfl := (Prod.mk.inj h).2
      exact ⟨rfl, rfl, rfl, rfl⟩

/-! ## `_DhcpTickHandle` -/

/-- One entry at a tick. `status` is the answer of `APGetStationStatus` for the entry's client,
asked only when the lease has not just run out. -/
def tickClient (status : UInt8) (c : Client) : Client :=
  match c.state with
  | .request =>
      if c.timeout ≠ 0 then
        if c.timeout - 1 = 0 then
          { c with timeout := 0, macAddr := zeroMac, state := .idle }
        else { c with timeout := c.timeout - 1 }
      else c
  | .bind =>
      let c' := if c.lease ≠ 0 then { c with lease := c.lease - 1 } else c
      if c.lease ≠ 0 ∧ c'.lease = 0 then { c' with state := .idle }
      else if status = 0 then { c' with state := .idle }
      else c'
  | _ => c

/-- `_DhcpTickHandle`; a stopped server does nothing. -/
def dhcpTickHandle (s : Server) (status : ClientRef → UInt8) : Server :=
  if !s.enable then s
  else { s with clients := fun i => tickClient (status i) (s.clients i) }

/-! ## `DHCPS_ClientDelete` -/

/-- The loop of `DHCPS_ClientDelete` over the indices still to visit. -/
def clientDeleteLoop (mac : MacAddr) (t : Table) : List ClientRef → DhcpsErr × Table
  | [] => (.notFound, t)
  | i :: is =>
      if ¬ (t i).Idle ∧ (t i).macAddr = mac then
        if (t i).state ≠ .bind then (.notBind, t)
        else (.success, Function.update t i { t i with state := .idle })
      else clientDeleteLoop mac t is

/-- `DHCPS_ClientDelete`; `none` is the `NULL` argument. -/
def dhcpsClientDelete (s : Server) (mac : Option MacAddr) : DhcpsErr × Server :=
  if !s.enable then (.inactive, s)
  else match mac with
    | none => (.param, s)
    | some m =>
        let r := clientDeleteLoop m s.clients (List.finRange historyClientNum)
        (r.1, { s with clients := r.2 })

/-! ## `_CleanClientHistory` -/

/-- `_CleanClientHistory`: forget `mac` in every idle entry. -/
def cleanClientHistory (mac : MacAddr) (t : Table) : Table := fun i =>
  if (t i).Idle ∧ (t i).macAddr = mac then { t i with macAddr := zeroMac } else t i

end NuAgent.Dhcp
