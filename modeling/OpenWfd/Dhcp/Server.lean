import OpenWfd.Dhcp.Receive
import OpenWfd.Support.Lts

/-!
# Dhcp — Server

The DHCP server of `src/gdhcp/server.c`: the table of leases, the address for an offer, and
`listener_event`, which answers a packet.  A lease is a block of the heap, reached through the list
`lease_list`, which is sorted by expiry, and through the hash table `nip_lease_hash`.
-/

namespace OpenWfd.Dhcp

/-! ### Leases -/

def MAC_BCAST_ADDR : Mac := ⟨List.replicate 6 0xff, rfl⟩

def MAC_ANY_ADDR : Mac := ⟨List.replicate 6 0, rfl⟩

def INADDR_BROADCAST : UInt32 := 0xffffffff

/-- `OFFER_TIME`. -/
def OFFER_TIME : UInt32 := 300

/-- `struct dhcp_lease`. -/
structure Lease where
  expire : Int
  leaseNip : UInt32
  leaseMac : Mac
  deriving DecidableEq

/-- What a server is set up with.  The addresses of the range are in host order; the server's own is
as `ioctl` gave it; an option is a code and an address. -/
structure Config where
  startIp : UInt32
  endIp : UInt32
  serverNip : UInt32
  leaseSeconds : UInt32
  optionHash : List (UInt8 × UInt32)
  deriving DecidableEq

/-- `struct _GDHCPServer`, and the leases on the heap. -/
structure Server extends Config where
  leaseList : List Nat
  nipLeaseHash : UInt32 → Option Nat
  heap : Nat → Option Lease
  next : Nat

/-- A server without leases. -/
def Server.new (c : Config) : Server := ⟨c, [], fun _ => none, fun _ => none, 0⟩

namespace Server

/-- The lease behind a pointer. -/
def deref (s : Server) (p : Nat) : Except Fault Lease :=
  match s.heap p with
  | some l => .ok l
  | none   => .error .dangling

/-- The walk of `find_lease_by_mac` over the rest of the list. -/
def findMac (s : Server) (mac : Mac) : List Nat → Except Fault (Option Nat)
  | []      => .ok none
  | p :: ps => do
    let l ← s.deref p
    if l.leaseMac = mac then .ok (some p) else s.findMac mac ps

/-- `find_lease_by_mac`. -/
def findLeaseByMac (s : Server) (mac : Mac) : Except Fault (Option Nat) := s.findMac mac s.leaseList

/-- `g_list_remove` of a lease. -/
def unlist (s : Server) (p : Nat) : Server := { s with leaseList := s.leaseList.erase p }

/-- `g_hash_table_remove`. -/
def unhash (s : Server) (nip : UInt32) : Server :=
  { s with nipLeaseHash := fun n => if n = nip then none else s.nipLeaseHash n }

/-- `g_hash_table_insert`. -/
def hash (s : Server) (nip : UInt32) (p : Nat) : Server :=
  { s with nipLeaseHash := fun n => if n = nip then some p else s.nipLeaseHash n }

/-- The heap with this in the place of `p`. -/
def place (s : Server) (p : Nat) (l : Option Lease) : Server :=
  { s with heap := fun q => if q = p then l else s.heap q }

/-- A write through a pointer. -/
def store (s : Server) (p : Nat) (l : Lease) : Except Fault Server :=
  match s.heap p with
  | some _ => .ok (s.place p (some l))
  | none   => .error .dangling

/-- `g_free` of a lease. -/
def free (s : Server) (p : Nat) : Except Fault Server :=
  match s.heap p with
  | some _ => .ok (s.place p none)
  | none   => .error .dangling

/-- `remove_lease`. -/
def removeLease (s : Server) (p : Nat) : Except Fault Server := do
  let l ← s.deref p
  ((s.unlist p).unhash l.leaseNip).free p

/-- `g_try_new0(struct dhcp_lease, 1)`, which fails if `oom`. -/
def alloc (s : Server) (oom : Bool) : Option Nat × Server :=
  if oom then (none, s)
  else (some s.next, { s.place s.next (some ⟨0, 0, MAC_ANY_ADDR⟩) with next := s.next + 1 })

/-- `get_lease`: the lease to write to, taken out of the list and the hash table. -/
def getLease (s : Server) (yiaddr : UInt32) (mac : Mac) (oom : Bool) :
    Except Fault (Option Nat × Server) := do
  if yiaddr = 0 then .ok (none, s)
  else if yiaddr < s.startIp then .ok (none, s)
  else if yiaddr > s.endIp then .ok (none, s)
  else if mac = MAC_BCAST_ADDR then .ok (none, s)
  else if mac = MAC_ANY_ADDR then .ok (none, s)
  else
    let leaseMac ← s.findLeaseByMac mac
    match s.nipLeaseHash yiaddr with
    | some leaseNip =>
      let s := (s.unlist leaseNip).unhash yiaddr
      match leaseMac with
      | none   => .ok (some leaseNip, s)
      | some p =>
        if leaseNip ≠ p then
          let s ← s.removeLease p
          .ok (some leaseNip, s)
        else .ok (some leaseNip, s)
    | none =>
      match leaseMac with
      | some p =>
        let s := s.unlist p
        let l ← s.deref p
        .ok (some p, s.unhash l.leaseNip)
      | none   => .ok (s.alloc oom)

/-- `compare_expire`: the difference, as a `gint`. -/
def compareExpire (lease1 lease2 : Lease) : Int := (lease2.expire - lease1.expire).bmod (2 ^ 32)

/-- `g_list_insert_sorted` into the rest of the list. -/
def insertSorted (s : Server) (p : Nat) (l : Lease) : List Nat → Except Fault (List Nat)
  | []      => .ok [p]
  | q :: qs => do
    let m ← s.deref q
    if compareExpire l m > 0 then
      let rest ← s.insertSorted p l qs
      .ok (q :: rest)
    else .ok (p :: q :: qs)

/-- `add_lease` at the time `now`; `expire` 0 is the server's lease time from now. -/
def addLease (s : Server) (now : Int) (expire : UInt32) (chaddr : Mac) (yiaddr : UInt32)
    (oom : Bool) :
    Except Fault (Option Nat × Server) := do
  let (lease, s) ← s.getLease yiaddr chaddr oom
  match lease with
  | none   => .ok (none, s)
  | some p =>
    let l : Lease :=
      ⟨if expire = 0 then now + s.leaseSeconds.toNat else expire.toNat, yiaddr, chaddr⟩
    let s ← s.store p l
    let list ← s.insertSorted p l s.leaseList
    let s := { s with leaseList := list }
    .ok (some p, s.hash yiaddr p)

/-- `lease_set_expire`. -/
def leaseSetExpire (s : Server) (p : Nat) (expire : UInt32) : Except Fault Server := do
  let s := s.unlist p
  let l ← s.deref p
  let l := { l with expire := expire.toNat }
  let s ← s.store p l
  let list ← s.insertSorted p l s.leaseList
  .ok { s with leaseList := list }

/-- `is_expired_lease`. -/
def isExpiredLease (l : Lease) (now : Int) : Bool := l.expire < now

/-! ### The address for an offer -/

/-- One round of the loop of `find_free_or_expired_nip`: an address that is not leased. -/
def freeNip (s : Server) (ip : UInt32) : UInt32 ⊕ Option UInt32 :=
  if ip ≤ s.endIp then
    -- e.g. 192.168.55.0 and 192.168.55.255
    if ip &&& 0xff = 0 then .inl (ip + 1)
    else if ip &&& 0xff = 0xff then .inl (ip + 1)
    else
      match s.nipLeaseHash ip with
      | some _ => .inl (ip + 1)
      | none   => .inr (some ip)
  else .inr none

/-- `find_free_or_expired_nip`, 0 if there is none.  The loop over the addresses is left within
`2³²` rounds if it is left at all (`Loop.iterate_card`). -/
def findFreeOrExpiredNip (s : Server) (now : Int) : Except Fault UInt32 :=
  match Loop.iterate s.freeNip (2 ^ 32) s.startIp with
  | none           => .error .endless
  | some (some ip) => .ok ip
  | some none      =>
    -- the last lease is the oldest one
    match s.leaseList.getLast? with
    | none   => .ok 0
    | some p => do
      let l ← s.deref p
      if ¬ isExpiredLease l now then .ok 0 else .ok l.leaseNip

/-- `check_requested_nip`. -/
def checkRequestedNip (s : Server) (now : Int) (requestedNip : UInt32) : Except Fault Bool :=
  if requestedNip = 0 then .ok false
  else if requestedNip < s.startIp then .ok false
  else if requestedNip > s.endIp then .ok false
  else
    match s.nipLeaseHash requestedNip with
    | none   => .ok true
    | some p => do
      let l ← s.deref p
      .ok (isExpiredLease l now)

/-! ### Replies -/

/-- A call of `dhcp_send_raw_packet`: the packet, the address it goes to, as the call has it, and
the hardware address. -/
structure Reply where
  packet : Packet
  destIp : UInt32
  destMac : Mac
  deriving DecidableEq

/-- `init_packet`. -/
def initPacket (s : Server) (client : Packet) (type : UInt8) : Packet :=
  let p := dhcpInitHeader type
  let p := { p with
    xid := client.xid, chaddr := client.chaddr, flags := client.flags
    gatewayNip := client.gatewayNip, ciaddr := client.ciaddr }
  dhcpAddOptionUint32 p DHCP_SERVER_ID s.serverNip

/-- `add_server_options`, in the order of the hash table. -/
def addServerOptions (s : Server) (p : Packet) : Packet :=
  s.optionHash.foldl (fun p o =>
    if o.1 = DHCP_SUBNET ∨ o.1 = DHCP_ROUTER ∨ o.1 = DHCP_DNS_SERVER then
      dhcpAddOptionUint32 p o.1 o.2
    else p) p

/-- `send_packet_to_client`. -/
def sendPacketToClient (e : Endian) (p : Packet) : Reply :=
  if p.flags &&& BROADCAST_FLAG ≠ 0 ∨ p.ciaddr = 0 then ⟨p, INADDR_BROADCAST, MAC_BCAST_ADDR⟩
  else ⟨p, e.raw p.ciaddr, p.mac⟩

/-- The address `send_offer` puts in its packet. -/
def chooseNip (s : Server) (now : Int) (lease : Option Nat) (requestedNip : UInt32) :
    Except Fault UInt32 :=
  match lease with
  | some q => do
    let l ← s.deref q
    .ok l.leaseNip
  | none   => do
    if ← s.checkRequestedNip now requestedNip then .ok requestedNip
    else s.findFreeOrExpiredNip now

/-- `send_offer`. -/
def sendOffer (e : Endian) (s : Server) (now : Int) (client : Packet) (lease : Option Nat)
    (requestedNip : UInt32) (oom : Bool) : Except Fault (Server × List Reply) := do
  let p := s.initPacket client DHCPOFFER
  let yiaddr ← s.chooseNip now lease requestedNip
  let p := { p with yiaddr := yiaddr }
  if yiaddr = 0 then .ok (s, [])
  else
    let (lease, s) ← s.addLease now OFFER_TIME p.mac yiaddr oom
    match lease with
    | none   => .ok (s, [])
    | some _ =>
      let p := dhcpAddOptionUint32 p DHCP_LEASE_TIME s.leaseSeconds
      .ok (s, [sendPacketToClient e (s.addServerOptions p)])

/-- `send_ACK`. -/
def sendAck (e : Endian) (s : Server) (now : Int) (client : Packet) (dest : UInt32) (oom : Bool) :
    Except Fault (Server × List Reply) := do
  let p := s.initPacket client DHCPACK
  let p := { p with yiaddr := dest }
  let p := dhcpAddOptionUint32 p DHCP_LEASE_TIME s.leaseSeconds
  let p := s.addServerOptions p
  let (_, s) ← s.addLease now 0 p.mac p.yiaddr oom
  .ok (s, [sendPacketToClient e p])

/-- `send_NAK`. -/
def sendNak (s : Server) (client : Packet) : Reply :=
  ⟨s.initPacket client DHCPNAK, INADDR_BROADCAST, MAC_BCAST_ADDR⟩

/-- `send_inform`. -/
def sendInform (e : Endian) (s : Server) (client : Packet) : Reply :=
  sendPacketToClient e (s.addServerOptions (s.initPacket client DHCPACK))

/-! ### `listener_event` -/

/-- `check_packet_type`. -/
def checkPacketType (p : Packet) (behind : Nat → UInt8) : Except Fault UInt8 := do
  if p.hlen ≠ 6 then .ok 0
  else if p.op ≠ BOOTREQUEST then .ok 0
  else
    match ← option p behind DHCP_MESSAGE_TYPE with
    | none      => .ok 0
    | some type =>
      let type := p.memory behind type
      if type < DHCPDISCOVER then .ok 0
      else if type > DHCPINFORM then .ok 0
      else .ok type

/-- What `listener_event` does with a packet of a type, with the server identifier and the address
in it. -/
def answer (e : Endian) (s : Server) (now : Int) (p : Packet) (type : UInt8)
    (serverId : Option UInt32) (requestIp : Option UInt32) (oom : Bool) :
    Except Fault (Server × List Reply) := do
  let requestedNip := requestIp.getD 0
  let lease ← s.findLeaseByMac p.mac
  if type = DHCPDISCOVER then s.sendOffer e now p lease requestedNip oom
  else if type = DHCPREQUEST then
    let requestedNip := if requestedNip = 0 then e.raw p.ciaddr else requestedNip
    if requestedNip = 0 then .ok (s, [])
    else
      match lease with
      | some q => do
        let l ← s.deref q
        if requestedNip = l.leaseNip then s.sendAck e now p l.leaseNip oom
        else if serverId.isSome then .ok (s, [s.sendNak p])
        else .ok (s, [])
      | none   => .ok (s, [s.sendNak p])
  else if type = DHCPDECLINE then
    match serverId, requestIp, lease with
    | some _, some _, some q => do
      let l ← s.deref q
      if requestedNip = l.leaseNip then
        let s ← s.removeLease q
        .ok (s, [])
      else .ok (s, [])
    | _, _, _ => .ok (s, [])
  else if type = DHCPRELEASE then
    match serverId, lease with
    | some _, some q => do
      let l ← s.deref q
      if e.raw p.ciaddr = l.leaseNip then
        let s ← s.leaseSetExpire q (UInt32.ofInt now)
        .ok (s, [])
      else .ok (s, [])
    | _, _ => .ok (s, [])
  else if type = DHCPINFORM then .ok (s, [s.sendInform e p])
  else .ok (s, [])

/-- `listener_event`: a packet is read and answered.  `behind` is what the stack holds behind it. -/
def listenerEvent (e : Endian) (s : Server) (now : Int) (payload : List UInt8)
    (behind : Nat → UInt8) (oom : Bool) : Except Fault (Server × List Reply) := do
  match ← dhcpRecvL3Packet payload behind with
  | none   => .ok (s, [])
  | some p => do
    let type ← checkPacketType p behind
    if type = 0 then .ok (s, [])
    else
      let serverIdOption ← option p behind DHCP_SERVER_ID
      let serverId := serverIdOption.map (getBe32At (p.memory behind))
      if serverId.any (· ≠ s.serverNip) then .ok (s, [])
      else
        let requestIpOption ← option p behind DHCP_REQUESTED_IP
        let requestIp := requestIpOption.map (getBe32At (p.memory behind))
        s.answer e now p type serverId requestIp oom

/-! ### `destroy_lease_table` -/

/-- The leases of the list are freed, one after the other. -/
def freeAll (s : Server) : List Nat → Except Fault Server
  | []      => .ok s
  | p :: ps => do
    let s ← s.free p
    s.freeAll ps

/-- `destroy_lease_table`. -/
def destroyLeaseTable (s : Server) : Except Fault Server := do
  let s := { s with nipLeaseHash := fun _ => none }
  let s ← s.freeAll s.leaseList
  .ok { s with leaseList := [] }

end Server

end OpenWfd.Dhcp
