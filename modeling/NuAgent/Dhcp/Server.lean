import NuAgent.Dhcp.Cases

/-!
# Answering a client

Reference: `_DHCPNakGenAndSend`, `_DHCPAckGenAndSend`, `_DHCPOfferGenAndSend`,
`_DhcpClientSMEHandle` and the part of `DHCPS_RecvCb` that follows the parsing of the options.

A message is what `DHCPS_RecvCb` hands on: the client's hardware address, the message type byte, the
requested address and the server identifier (zero when the option is absent) and the transaction
number. The reply is the `DHCP_MSG` that is sent, or `none` when nothing is sent.
-/

namespace NuAgent.Dhcp

/-! ## Replies -/

/-- `DHCP_MSG`, a message as it is sent; `options` are the bytes written to the option area, the
rest of which is not transmitted. -/
structure DhcpMsg where
  op : UInt8
  hType : UInt8
  hLen : UInt8
  hOps : UInt8
  xid : UInt32
  secs : UInt16
  flags : UInt16
  ciaddr : UInt32
  yiaddr : UInt32
  siaddr : UInt32
  giaddr : UInt32
  chaddr : List UInt8
  sname : List UInt8
  file : List UInt8
  magic : UInt32
  options : List UInt8
deriving DecidableEq, Repr

/-- `DHCP_MAGIC`. -/
def dhcpMagic : UInt32 := 0x63825363

/-- The four bytes of a word in memory, lowest first. -/
def wordBytes (x : UInt32) : List UInt8 :=
  [x.toUInt8, (x >>> (8 : UInt32)).toUInt8, (x >>> (16 : UInt32)).toUInt8,
    (x >>> (24 : UInt32)).toUInt8]

/-- `DHCP_SET_OPTION_MSG_TYPE`. -/
def optionMsgType (type : UInt8) : List UInt8 := [53, 1, type]

/-- The options of one address or number: `DHCP_SET_OPTION_SUBNET_MASK`, `DHCP_SET_OPTION_GW`,
`DHCP_SET_OPTION_DNS`, `DHCP_SET_OPTION_SERVER_ID` and `DHCP_SET_OPTION_LEASE_TIME`. -/
def optionWord (id : UInt8) (x : UInt32) : List UInt8 := [id, 4] ++ wordBytes x

/-- `DHCP_SET_OPTION_END`. -/
def optionEnd : List UInt8 := [255]

/-- The header fields all three generators write into the zeroed message. -/
def replyHeader (mac : MacAddr) (xid : UInt32) : DhcpMsg :=
  { op := 2
    hType := 1
    hLen := 6
    hOps := 0
    xid := htonl xid
    secs := 0
    flags := 0
    ciaddr := 0
    yiaddr := 0
    siaddr := 0
    giaddr := 0
    chaddr := mac.toList ++ List.replicate 10 0
    sname := List.replicate 64 0
    file := List.replicate 128 0
    magic := htonl dhcpMagic
    options := [] }

/-- `_DHCPNakGenAndSend`; `pbufAlloc` is the outcome of `pbuf_alloc`. -/
def dhcpNakGenAndSend (s : Server) (mac : MacAddr) (xid : UInt32) (pbufAlloc : Bool) :
    Option DhcpMsg :=
  if !pbufAlloc then none
  else some
    { replyHeader mac xid with
      siaddr := s.serverIpAddr
      options := optionMsgType msgNak ++ optionEnd }

/-- The common body of the `ACK` and the `OFFER` generator, which differ in the message type. -/
def leaseGenAndSend (type : UInt8) (s : Server) (c : Client) (mac : MacAddr) (xid : UInt32)
    (pbufAlloc : Bool) : Option DhcpMsg :=
  if !pbufAlloc then none
  else some
    { replyHeader mac xid with
      yiaddr := c.ipAddr
      siaddr := 0
      options :=
        optionMsgType type ++ optionWord 51 (htonl (UInt32.ofNat defaultLeaseTime)) ++
          optionWord 54 s.serverIpAddr ++ optionWord 1 s.subnetMask ++ optionWord 3 s.gateWay ++
          optionWord 6 s.dns1 ++ optionEnd }

/-- `_DHCPAckGenAndSend`. -/
def dhcpAckGenAndSend := leaseGenAndSend msgAck

/-- `_DHCPOfferGenAndSend`. -/
def dhcpOfferGenAndSend := leaseGenAndSend msgOffer

/-- The message type a receiver reads off the first option of a reply. -/
def DhcpMsg.msgType (m : DhcpMsg) : Option UInt8 :=
  match m.options with
  | 53 :: 1 :: type :: _ => some type
  | _ => none

/-! ## The client state machine -/

/-- The `SELECT` branch: answer with an `OFFER` and wait for the request. -/
def smeOffer (s : Server) (i : ClientRef) (xid : UInt32) (pbufAlloc : Bool) :
    Server × Option DhcpMsg :=
  let c := s.clients i
  let t := Function.update s.clients i { c with timeout := defaultTimeout, state := .request }
  ({ s with clients := t },
    dhcpOfferGenAndSend s c c.macAddr xid pbufAlloc)

/-- The `REQUEST` and `BIND` branches: answer with an `ACK`, bind the entry and forget the client's
other addresses. -/
def smeAck (s : Server) (i : ClientRef) (xid : UInt32) (pbufAlloc : Bool) :
    Server × Option DhcpMsg :=
  let c := s.clients i
  let t := Function.update s.clients i { c with lease := defaultLeaseTime, state := .bind }
  ({ s with clients := cleanClientHistory c.macAddr t },
    dhcpAckGenAndSend s c c.macAddr xid pbufAlloc)

/-- `_DhcpClientSMEHandle`. The `IDLE` case has no `break` for types other than `REQUEST`, so it
runs on into the `SELECT` case. -/
def dhcpClientSMEHandle (s : Server) (i : ClientRef) (msgType : UInt8) (xid : UInt32)
    (pbufAlloc : Bool) : Server × Option DhcpMsg :=
  match (s.clients i).state with
  | .idle =>
      if msgType = msgDiscover then
        smeOffer
          { s with clients := Function.update s.clients i { s.clients i with state := .select } }
          i xid pbufAlloc
      else if msgType = msgRequest then smeAck s i xid pbufAlloc
      else smeOffer s i xid pbufAlloc
  | .select => smeOffer s i xid pbufAlloc
  | .request => smeAck s i xid pbufAlloc
  | .bind => smeAck s i xid pbufAlloc

/-! ## A received message -/

/-- What `DHCPS_RecvCb` has read from a datagram it does not filter out. -/
structure Msg where
  macAddr : MacAddr
  msgType : UInt8
  reqIpAddr : UInt32
  serverId : UInt32
  xid : UInt32
deriving DecidableEq, Repr

/-- `DHCPS_RecvCb` from the table lookup on. -/
def dhcpsRecvMsg (s : Server) (m : Msg) (pbufAlloc : Bool) : Server × Option DhcpMsg :=
  match clientTableLookup s.serverIpAddr s.clients m.macAddr m.msgType m.reqIpAddr m.serverId with
  | (none, t) =>
      ({ s with clients := t },
        if m.msgType ≠ msgRelease ∧ m.msgType ≠ msgDecline then
          dhcpNakGenAndSend s m.macAddr m.xid pbufAlloc
        else none)
  | (some i, t) => dhcpClientSMEHandle { s with clients := t } i m.msgType m.xid pbufAlloc

/-! ## Runs of the server -/

/-- What can happen to a running server. -/
inductive Event
  /-- A message, with the outcome of the reply's `pbuf_alloc`. -/
  | recv (m : Msg) (pbufAlloc : Bool)
  /-- The one-second tick, with the answers of `APGetStationStatus`. -/
  | tick (status : ClientRef → UInt8)
  /-- A call of `DHCPS_ClientDelete`. -/
  | delete (mac : Option MacAddr)

/-- The server after one event. -/
def Server.step (s : Server) : Event → Server
  | .recv m pbufAlloc => (dhcpsRecvMsg s m pbufAlloc).1
  | .tick status => dhcpTickHandle s status
  | .delete mac => (dhcpsClientDelete s mac).2

/-- The server after a sequence of events. -/
def Server.run (s : Server) (evs : List Event) : Server := evs.foldl Server.step s

@[simp] theorem Server.run_cons (s : Server) (e : Event) (evs : List Event) :
    s.run (e :: evs) = (s.step e).run evs := rfl

end NuAgent.Dhcp
