import Mathlib

/-!
# The DHCP server

Addresses are in host order; the code compares them in network order and converts where it
computes. A message is what `DHCPS_RecvCb` reads of it, its options as `_ParseDhcpOptions` returns
them. All code runs in the one thread of the stack.
-/

namespace WmIot.Dhcp
set_option autoImplicit false

/-- `DHCPS_HISTORY_CLIENT_NUM` -/
abbrev clientNum : Nat := 8
def defaultLeaseTime : Nat := 7200
def defaultTimeout : Nat := 10
def hwTypeEthernet : UInt8 := 1
def magicNumber : BitVec 32 := 0x63825363
def opRequest : UInt8 := 1

def msgDiscover : UInt8 := 1
def msgOffer : UInt8 := 2
def msgRequest : UInt8 := 3
def msgDecline : UInt8 := 4
def msgAck : UInt8 := 5
def msgNak : UInt8 := 6
def msgRelease : UInt8 := 7
def msgInform : UInt8 := 8

abbrev Addr := BitVec 32
abbrev Mac := Vector UInt8 6

def zeroMac : Mac := Vector.replicate 6 0

inductive ClientState where
  | idle
  | select
  | request
  | bind
deriving DecidableEq, Repr

structure Client where
  state : ClientState
  timeout : Nat
  ipAddr : Addr
  macAddr : Mac
  lease : Nat
deriving DecidableEq, Repr

abbrev Table := Fin clientNum → Client

structure Server where
  enable : Bool
  serverIpAddr : Addr
  startIpAddr : Addr
  subnetMask : Addr
  gateWay : Addr
  dns1 : Addr
  dns2 : Addr
  leaseTime : Nat
  clients : Table

structure Msg where
  len : Nat
  op : UInt8
  hType : UInt8
  magic : BitVec 32
  chaddr : Mac
  xid : BitVec 32
  flags : BitVec 16
  /-- `none` where the options name no message type -/
  msgType : Option UInt8
  /-- 0 where the options name none, like `serverId` -/
  reqIpAddr : Addr
  serverId : Addr
deriving DecidableEq, Repr

/-- The options of an OFFER or an ACK. -/
structure Grant where
  leaseTime : Nat
  serverId : Addr
  subnetMask : Addr
  gateWay : Addr
  dns1 : Addr
  dns2 : Addr
deriving DecidableEq, Repr

structure Reply where
  msgType : UInt8
  xid : BitVec 32
  yiaddr : Addr
  siaddr : Addr
  chaddr : Mac
  grant : Option Grant
  broadcast : Bool
deriving DecidableEq, Repr

section Table

def setClient (t : Table) (i : Fin clientNum) (c : Client) : Table := Function.update t i c

/-- The entry a scan of the table meets first. -/
def firstClient (t : Table) (p : Client → Bool) : Option (Fin clientNum) :=
  (List.finRange clientNum).find? fun i => p (t i)

/-- The entry a scan that overwrites what it found ends with. -/
def lastClient (t : Table) (p : Client → Bool) : Option (Fin clientNum) :=
  (List.finRange clientNum).reverse.find? fun i => p (t i)

def Client.clearMac (c : Client) : Client := { c with macAddr := zeroMac }

def Client.toIdle (c : Client) : Client := { c with state := .idle }

/-- An entry given up: what was not bound is forgotten, what was bound stays as history. -/
def Client.giveUp (c : Client) : Client :=
  (if c.state ≠ .bind then c.clearMac else c).toIdle

end Table

/-- What `_ClientTableLookup` finds in its scan. -/
structure Scan where
  myHistoryClient : Option (Fin clientNum)
  reqClient : Option (Fin clientNum)
  freeClient : Option (Fin clientNum)
  historyClient : Option (Fin clientNum)
  myClient : Option (Fin clientNum)
  ipUnavailable : Bool

def scan (t : Table) (macAddr : Mac) (reqIpAddr : Addr) : Scan where
  myHistoryClient := firstClient t fun c => c.state = .idle ∧ c.macAddr = macAddr
  reqClient := firstClient t fun c => c.state = .idle ∧ c.ipAddr = reqIpAddr
  freeClient := firstClient t fun c => c.state = .idle ∧ c.macAddr = zeroMac
  historyClient := firstClient t fun c => c.state = .idle ∧ c.macAddr ≠ zeroMac
  myClient := lastClient t fun c => c.state ≠ .idle ∧ c.macAddr = macAddr
  ipUnavailable := (firstClient t fun c =>
    c.state ≠ .idle ∧ c.macAddr ≠ macAddr ∧ c.ipAddr = reqIpAddr).isSome

/-- `ServerId == 0` or the server's own address -/
def forMe (serverIpAddr serverId : Addr) : Prop := serverId = 0 ∨ serverIpAddr = serverId

instance (a b : Addr) : Decidable (forMe a b) := inferInstanceAs (Decidable (_ ∨ _))

def lookupDiscover (t : Table) (f : Scan) : Table × Option (Fin clientNum) :=
  match f.myClient with
  | some my =>
    let t' := setClient t my (t my).toIdle
    match f.reqClient with
    | some req => (setClient t' my (t' my).giveUp, some req)
    | none => (t', some my)
  | none => (t, f.reqClient.or (f.myHistoryClient.or (f.freeClient.or f.historyClient)))

def lookupRequest (t : Table) (f : Scan) (serverIpAddr serverId : Addr) :
    Table × Option (Fin clientNum) :=
  match f.myClient with
  | some my =>
    if f.ipUnavailable then (setClient t my (t my).giveUp, none)
    else match f.reqClient with
      | some req =>
        (setClient t my (t my).giveUp, if forMe serverIpAddr serverId then some req else none)
      | none => (t, if forMe serverIpAddr serverId then some my else none)
  | none =>
    (t, if f.ipUnavailable then none
      else if forMe serverIpAddr serverId then f.reqClient else none)

/-- `DHCP_MSG_RELEASE` and `DHCP_MSG_DECLINE` -/
def lookupRelease (t : Table) (f : Scan) : Table × Option (Fin clientNum) :=
  match f.myClient with
  | some my => (setClient t my (t my).giveUp, none)
  | none => (t, none)

def clientTableLookup (s : Server) (macAddr : Mac) (msgType : UInt8) (reqIpAddr serverId : Addr) :
    Table × Option (Fin clientNum) :=
  let f := scan s.clients macAddr reqIpAddr
  let (t, ret) :=
    if msgType = msgDiscover then lookupDiscover s.clients f
    else if msgType = msgRequest then lookupRequest s.clients f s.serverIpAddr serverId
    else if msgType = msgRelease then lookupRelease s.clients f
    else if msgType = msgDecline then lookupRelease s.clients f
    else (s.clients, none)
  match ret with
  | some j => (setClient t j { t j with macAddr := macAddr }, some j)
  | none => (t, none)

/-- `IS_BROADCAST_SEND` -/
def isBroadcastSend (flags : BitVec 16) : Bool := flags >>> 15 = 1

/-- `_DHCPNakGenAndSend` -/
def nakGen (s : Server) (macAddr : Mac) (xid : BitVec 32) : Reply :=
  { msgType := msgNak, xid := xid, yiaddr := 0, siaddr := s.serverIpAddr, chaddr := macAddr,
    grant := none, broadcast := true }

/-- `_DHCPAckGenAndSend` and `_DHCPOfferGenAndSend`, which differ in the message type. -/
def grantGen (s : Server) (msgType : UInt8) (c : Client) (xid : BitVec 32) (flags : BitVec 16) :
    Reply :=
  { msgType := msgType, xid := xid, yiaddr := c.ipAddr, siaddr := 0, chaddr := c.macAddr,
    grant := some ⟨defaultLeaseTime, s.serverIpAddr, s.subnetMask, s.gateWay, s.dns1, s.dns2⟩,
    broadcast := isBroadcastSend flags }

def ackGen (s : Server) (c : Client) (xid : BitVec 32) (flags : BitVec 16) : Reply :=
  grantGen s msgAck c xid flags

def offerGen (s : Server) (c : Client) (xid : BitVec 32) (flags : BitVec 16) : Reply :=
  grantGen s msgOffer c xid flags

def cleanClientHistory (t : Table) (macAddr : Mac) : Table := fun i =>
  if (t i).state = .idle ∧ (t i).macAddr = macAddr then (t i).clearMac else t i

/-- The entry is bound and the client's other entries are forgotten. -/
def bindClient (t : Table) (j : Fin clientNum) : Table :=
  cleanClientHistory (setClient t j { t j with lease := defaultLeaseTime, state := .bind })
    (t j).macAddr

def offerClient (t : Table) (j : Fin clientNum) : Table :=
  setClient t j { t j with timeout := defaultTimeout, state := .request }

/-- `_DhcpClientSMEHandle` -/
def clientSMEHandle (s : Server) (t : Table) (j : Fin clientNum) (msgType : UInt8)
    (xid : BitVec 32) (flags : BitVec 16) : Table × Reply :=
  match (t j).state with
  | .idle =>
    -- a DISCOVER goes on to the offer, like any other message than a REQUEST
    if msgType ≠ msgDiscover ∧ msgType = msgRequest then
      (bindClient t j, ackGen s (t j) xid flags)
    else (offerClient t j, offerGen s (t j) xid flags)
  | .select => (offerClient t j, offerGen s (t j) xid flags)
  | .request => (bindClient t j, ackGen s (t j) xid flags)
  | .bind => (bindClient t j, ackGen s (t j) xid flags)

/-- What lets a message through to the table; `hwaddr` is the access point's own address, `none`
while it has no interface. -/
def passes (hwaddr : Option Mac) (m : Msg) : Bool :=
  m.len ≠ 0 ∧ m.op = opRequest ∧ m.magic = magicNumber ∧ m.hType = hwTypeEthernet ∧
    hwaddr.isSome ∧ hwaddr ≠ some m.chaddr

/-- `DHCPS_RecvCb`. The reply is lost where no buffer can be had for it. -/
def recvCb (s : Server) (hwaddr : Option Mac) (pbuf : Bool) (m : Msg) : Server × Option Reply :=
  if passes hwaddr m then
    match m.msgType with
    | none => (s, none)
    | some msgType =>
      if msgType = msgInform then (s, none)
      else
        let (t, ret) := clientTableLookup s m.chaddr msgType m.reqIpAddr m.serverId
        match ret with
        | none =>
          ({ s with clients := t },
            if msgType ≠ msgRelease ∧ msgType ≠ msgDecline ∧ pbuf then some (nakGen s m.chaddr m.xid)
            else none)
        | some j =>
          let (t', reply) := clientSMEHandle s t j msgType m.xid m.flags
          ({ s with clients := t' }, if pbuf then some reply else none)
  else (s, none)

/-- A second for one entry. -/
def Client.tick (c : Client) : Client :=
  match c.state with
  | .request =>
    if c.timeout = 0 then c
    else if c.timeout - 1 = 0 then { c.clearMac.toIdle with timeout := 0 }
    else { c with timeout := c.timeout - 1 }
  | .bind =>
    if c.lease = 0 then c
    else if c.lease - 1 = 0 then { c.toIdle with lease := 0 }
    else { c with lease := c.lease - 1 }
  | _ => c

/-- `_DhcpTickHandle` -/
def tickHandle (s : Server) : Server :=
  if s.enable then { s with clients := fun i => (s.clients i).tick } else s

section Start

structure Netif where
  up : Bool
  ipAddr : Addr
  netmask : Addr
deriving DecidableEq, Repr

/-- `wm_dhcps_options_t`; an address of 0 is not configured. -/
structure Options where
  startIp : Addr
  endIp : Addr
  gateWay : Addr
  dns1 : Addr
  dns2 : Addr
  leaseTime : Nat
deriving DecidableEq, Repr

/-- Without `s_dhcp_options` nothing is configured. -/
def noOptions : Options := ⟨0, 0, 0, 0, 0, 0⟩

inductive StartError where
  | linkDown
  | mem
deriving DecidableEq, Repr

def checkHostIdIsValid (usedIp netMask hostId : Addr) : Bool :=
  usedIp &&& ~~~netMask ≠ hostId ∧ hostId ≠ ~~~netMask ∧ hostId ≠ 0

/-- `while (!DHCPS_CheckHostIdIsValid(..))`, for at most `fuel` turns. -/
def nextHost (usedIp netMask : Addr) : Nat → Addr → Option Addr
  | 0, _ => none
  | fuel + 1, start =>
    if checkHostIdIsValid usedIp netMask start then some start
    else nextHost usedIp netMask fuel ((start + 1) &&& ~~~netMask)

def emptyClient : Client := ⟨.idle, 0, 0, zeroMac, 0⟩

/-- An entry out of the range of the pool. -/
def outOfRange : Client := { emptyClient with state := .bind }

/-- The entries that the pool loop sets up, `num` from `start` on. -/
def initClients (usedIp netMask endHost : Addr) (fuel : Nat) : Nat → Addr → Option (List Client)
  | 0, _ => some []
  | num + 1, start =>
    (nextHost usedIp netMask fuel start).bind fun host =>
      if endHost ≠ 0 ∧ endHost < host then
        (initClients usedIp netMask endHost fuel num host).map (outOfRange :: ·)
      else
        (initClients usedIp netMask endHost fuel num (host + 1)).map
          ({ emptyClient with ipAddr := (usedIp &&& netMask) ||| host } :: ·)

/-- The first host id behind the server's own. -/
def hostBehind (ipAddr netmask : Addr) : Addr :=
  let tmp := ((ipAddr &&& ~~~netmask) + 1) % ~~~netmask
  if tmp ≠ 0 then tmp else 1

def startIpAddr (netif : Netif) (opt : Options) : Addr :=
  if opt.startIp ≠ 0 then opt.startIp
  else (netif.ipAddr &&& netif.netmask) ||| hostBehind netif.ipAddr netif.netmask

def toTable (l : List Client) : Table := fun i => l.getD i.val emptyClient

/-- The last entry gets the configured lease time, whatever it is. -/
def leaseLast (leaseTime : Nat) (t : Table) : Table :=
  setClient t (Fin.last 7) { t (Fin.last 7) with lease := leaseTime }

/-- `DHCPS_Start`; `mem` and `pcb` are whether the memory and the UDP control block can be had. `none`
is a call that does not return: a loop that goes on, or a division by zero. -/
def dhcpsStart (fuel : Nat) (netif : Netif) (opt : Options) (mem pcb : Bool) :
    Option (Except StartError Server) :=
  if ¬ netif.up then some (.error .linkDown)
  else if ¬ mem then some (.error .mem)
  else if ~~~netif.netmask = 0 then none
  else
    let leaseTime := if 0 < opt.leaseTime then opt.leaseTime else defaultLeaseTime
    let start := startIpAddr netif opt
    (initClients netif.ipAddr netif.netmask (opt.endIp &&& ~~~netif.netmask) fuel clientNum
      (start &&& ~~~netif.netmask)).map fun l =>
      if ¬ pcb then .error .mem
      else .ok
        { enable := true
          serverIpAddr := netif.ipAddr
          startIpAddr := start
          subnetMask := netif.netmask
          gateWay := if opt.gateWay ≠ 0 then opt.gateWay else netif.ipAddr
          dns1 := if opt.dns1 ≠ 0 then opt.dns1 else netif.ipAddr
          dns2 := opt.dns2
          leaseTime := leaseTime
          clients := leaseLast leaseTime (toTable l) }

end Start

end WmIot.Dhcp
