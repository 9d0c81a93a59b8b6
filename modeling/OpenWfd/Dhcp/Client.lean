import OpenWfd.Dhcp.Receive

/-!
# Dhcp — Client

The DHCP client of `src/gdhcp/client.c`, of type `G_DHCP_IPV4`: what it sends, its timeouts, and
`listener_event`. A timeout is a source of the main loop with the function it calls; the functions
the client calls back and the packets it sends are its output.
-/

namespace OpenWfd.Dhcp

def DISCOVER_TIMEOUT : UInt32 := 3
def DISCOVER_RETRIES : UInt8 := 10
def REQUEST_TIMEOUT : UInt32 := 3
def REQUEST_RETRIES : UInt8 := 5

/-- `ClientState`, as far as it is one of IPv4. -/
inductive ClientState where
  | initSelecting | requesting | bound | renewing | rebinding | released
  deriving DecidableEq, Repr

/-- `ListenMode`, without ARP. -/
inductive ListenMode where
  | none | l2 | l3
  deriving DecidableEq, Repr

/-- The functions a timeout may call. -/
inductive Callback where
  | discoverTimeout | requestTimeout | startRenewTimeout | startRenewRequestTimeout
  | startReboundTimeout | restartDhcpTimeout
  deriving DecidableEq, Repr

/-- What a client is set up with: its hardware address, the codes of `request_list`, and the options
of `send_value_hash`, which are of the two codes that `g_dhcp_client_set_send` and
`g_dhcp_client_set_id` allow. -/
structure ClientConfig where
  macAddress : Mac
  requestList : List UInt8
  sendValues : List Tlv.Item
  requestList_le : requestList.length ≤ 255
  sendValues_code : ∀ o ∈ sendValues, o.code = DHCP_HOST_NAME ∨ o.code = DHCP_CLIENT_ID
  sendValues_le : ∀ o ∈ sendValues, o.data.length ≤ 255

/-- A client that asks for no options and sends none. -/
def ClientConfig.plain (k : Mac) : ClientConfig := ⟨k, [], [], by decide, nofun, nofun⟩

/-- `struct _GDHCPClient`, and the timeouts of the main loop.  An address as a string is the number
it spells. -/
structure Client extends ClientConfig where
  state : ClientState
  xid : UInt32
  serverIp : UInt32
  requestedIp : UInt32
  assignedIp : Option UInt32
  start : Int
  leaseSeconds : UInt32
  listenMode : ListenMode
  retryTimes : UInt8
  ackRetryTimes : UInt8
  lastAddress : Option UInt32
  timeout : Nat
  sources : Nat → Option (Callback × UInt32)
  nextSource : Nat

/-- What a call sees of the world: the time, the next number of `rand`, and whether a socket can be
opened. -/
structure Env where
  now : Int
  rand : UInt32
  sock : Bool

/-- What a client puts out: a packet of `dhcp_send_raw_packet`, to everyone, or of
`dhcp_send_kernel_packet`, from one address to another, and the calls of the functions registered
with it. -/
inductive Act where
  | raw (p : Packet)
  | kernel (p : Packet) (sourceIp destIp : UInt32)
  | leaseAvailable
  | noLease
  | leaseLost
  deriving DecidableEq

/-- The address given to `g_dhcp_client_start`: none, a string of the caller, or the client's own
`last_address`. -/
inductive LastAddress where
  | null
  | given (addr : UInt32)
  | own
  deriving DecidableEq

namespace Client

/-- `g_dhcp_client_new`.  The number of a source is not 0. -/
def new (k : ClientConfig) : Client :=
  { k with
    state := .initSelecting, xid := 0, serverIp := 0, requestedIp := 0,
    assignedIp := none, start := 0
    leaseSeconds := 0, listenMode := .none, retryTimes := 0, ackRetryTimes := 0, lastAddress := none
    timeout := 0, sources := fun _ => none, nextSource := 1 }

/-! ### Timeouts -/

/-- `g_source_remove`. -/
def sourceRemove (c : Client) (id : Nat) : Client :=
  { c with sources := fun i => if i = id then none else c.sources i }

/-- `g_source_remove` of the timeout, if there is one. -/
def cancel (c : Client) : Client := if c.timeout > 0 then c.sourceRemove c.timeout else c

/-- `dhcp_client->timeout = g_timeout_add_seconds_full(…)`. -/
def addTimeout (c : Client) (seconds : UInt32) (function : Callback) : Client :=
  { c with
    sources := fun i => if i = c.nextSource then some (function, seconds) else c.sources i
    timeout := c.nextSource
    nextSource := c.nextSource + 1 }

/-! ### Packets -/

/-- `init_packet`. -/
def initPacket (c : Client) (type : UInt8) : Packet :=
  let p := dhcpInitHeader type
  { p with chaddr := Octets.write p.chaddr 0 c.macAddress.1 }

/-- `add_request_options`. -/
def addRequestOptions (c : Client) (p : Packet) : Packet :=
  match dhcpEndOption p.options.1 with
  | none     => p
  | some fin =>
    if c.requestList = [] then p
    else
      let len := c.requestList.length
      let options := Octets.write p.options (fin + 2) c.requestList
      let options := Octets.write options fin [DHCP_PARAM_REQ]
      let options := Octets.write options (fin + 1) [UInt8.ofNat len]
      { p with options := Octets.write options (fin + 2 + len) [DHCP_END] }

/-- `add_send_options`, in the order of the hash table. -/
def addSendOptions (c : Client) (p : Packet) : Packet := c.sendValues.foldl dhcpAddBinaryOption p

/-- `dhcp_attempt_secs`. -/
def dhcpAttemptSecs (c : Client) (v : Env) : UInt16 := UInt16.ofInt (min (v.now - c.start) 65535)

/-- `send_discover`. -/
def sendDiscover (e : Endian) (c : Client) (v : Env) (requested : UInt32) : Act :=
  let p := c.initPacket DHCPDISCOVER
  let p := { p with xid := e.raw c.xid, secs := c.dhcpAttemptSecs v }
  let p := if requested ≠ 0 then dhcpAddOptionUint32 p DHCP_REQUESTED_IP requested else p
  -- explicitly saying that we want RFC-compliant packets
  let p := dhcpAddOptionUint16 p DHCP_MAX_SIZE 576
  .raw (c.addSendOptions (c.addRequestOptions p))

/-- `send_select`. -/
def sendSelect (e : Endian) (c : Client) (v : Env) : Act :=
  let p := c.initPacket DHCPREQUEST
  let p := { p with xid := e.raw c.xid, secs := c.dhcpAttemptSecs v }
  let p := dhcpAddOptionUint32 p DHCP_REQUESTED_IP c.requestedIp
  let p := dhcpAddOptionUint32 p DHCP_SERVER_ID c.serverIp
  .raw (c.addSendOptions (c.addRequestOptions p))

/-- The packet of `send_renew` and `send_rebound`. -/
def renewPacket (e : Endian) (c : Client) : Packet :=
  let p := c.initPacket DHCPREQUEST
  let p := { p with xid := e.raw c.xid, ciaddr := c.requestedIp }
  c.addSendOptions (c.addRequestOptions p)

/-- `send_renew`. -/
def sendRenew (e : Endian) (c : Client) : Act := .kernel (c.renewPacket e) c.requestedIp c.serverIp

/-- `send_rebound`. -/
def sendRebound (e : Endian) (c : Client) : Act := .raw (c.renewPacket e)

/-- `send_release`. -/
def sendRelease (e : Endian) (c : Client) (v : Env) (server ciaddr : UInt32) : Act :=
  let p := c.initPacket DHCPRELEASE
  let p := { p with xid := e.raw v.rand, ciaddr := ciaddr }
  .kernel (dhcpAddOptionUint32 p DHCP_SERVER_ID server) ciaddr server

/-! ### The states -/

/-- `switch_listening_mode`, and whether it succeeds. -/
def switchListeningMode (c : Client) (v : Env) (listenMode : ListenMode) : Client × Bool :=
  if c.listenMode = listenMode then (c, true)
  else
    let c := { c with listenMode := .none }
    if listenMode = .none then (c, true)
    else if v.sock then ({ c with listenMode := listenMode }, true)
    else (c, false)

/-- `start_request`. -/
def startRequest (e : Endian) (c : Client) (v : Env) : Client × List Act :=
  if c.retryTimes = REQUEST_RETRIES then (c, [.noLease])
  else
    let c := if c.retryTimes = 0 then ({ c with state := .requesting }.switchListeningMode v .l2).1
      else c
    (c.addTimeout REQUEST_TIMEOUT .requestTimeout, [c.sendSelect e v])

/-- The end of `g_dhcp_client_start`: a DISCOVER that asks for this address, and its timeout. -/
def discover (e : Endian) (c : Client) (v : Env) (addr : UInt32) : Client × List Act :=
  (c.addTimeout DISCOVER_TIMEOUT .discoverTimeout, [c.sendDiscover e v addr])

/-- `g_dhcp_client_start`, from the last address on. -/
def discoverLast (e : Endian) (c : Client) (v : Env) :
    LastAddress → Except Fault (Client × List Act)
  | .null       => .ok (c.discover e v 0)
  | .given addr =>
    if addr = 0xffffffff then .ok (c.discover e v 0)
    else .ok ({ c with lastAddress := some addr }.discover e v addr)
  | .own        =>
    match c.lastAddress with
    | none      => .ok (c.discover e v 0)
    -- the string is freed before it is copied
    | some addr => if addr = 0xffffffff then .ok (c.discover e v 0) else .error .dangling

/-- `g_dhcp_client_start`. -/
def gDhcpClientStart (e : Endian) (c : Client) (v : Env) (last : LastAddress) :
    Except Fault (Client × List Act) :=
  if c.retryTimes = DISCOVER_RETRIES then .ok ({ c with retryTimes := 0 }, [.noLease])
  else if c.retryTimes = 0 then
    let (c, ready) :=
      { c with assignedIp := none, state := .initSelecting }.switchListeningMode v .l2
    if ready then { c with xid := v.rand, start := v.now }.discoverLast e v last
    else .ok (c, [])
  else c.discoverLast e v last

/-- `restart_dhcp`. -/
def restartDhcp (e : Endian) (c : Client) (v : Env) (retryTimes : UInt8) :
    Except Fault (Client × List Act) :=
  let c := if c.timeout > 0 then { c.sourceRemove c.timeout with timeout := 0 } else c
  let c := { c with retryTimes := retryTimes, requestedIp := 0, state := .initSelecting }
  (c.switchListeningMode v .l2).1.gDhcpClientStart e v .own

/-- `start_bound`. -/
def startBound (c : Client) : Client :=
  { c with state := .bound }.cancel.addTimeout (c.leaseSeconds >>> 1) .startRenewTimeout

/-- `start_rebound`. -/
def startRebound (c : Client) : Client :=
  { c with state := .rebinding }.addTimeout (c.leaseSeconds >>> 1) .startReboundTimeout

/-- `discover_timeout`. -/
def discoverTimeout (e : Endian) (c : Client) (v : Env) : Except Fault (Client × List Act) :=
  { c with retryTimes := c.retryTimes + 1 }.gDhcpClientStart e v .null

/-- `request_timeout`. -/
def requestTimeout (e : Endian) (c : Client) (v : Env) : Client × List Act :=
  { c with retryTimes := c.retryTimes + 1 }.startRequest e v

/-- `dhcp_client->lease_seconds >>= 1`. -/
def halveLease (c : Client) : Client := { c with leaseSeconds := c.leaseSeconds >>> 1 }

/-- `start_renew_timeout`. -/
def startRenewTimeout (e : Endian) (c : Client) (v : Env) : Client × List Act :=
  let c := { c with state := .renewing }.halveLease
  let c := (c.switchListeningMode v .l3).1
  if c.leaseSeconds ≤ 60 then (c.startRebound, [])
  else (c.cancel.addTimeout REQUEST_TIMEOUT .startRenewRequestTimeout, [c.sendRenew e])

/-- `start_renew_request_timeout`. -/
def startRenewRequestTimeout (c : Client) : Client × List Act := (c, [.noLease])

/-- `start_rebound_timeout`. -/
def startReboundTimeout (e : Endian) (c : Client) (v : Env) : Except Fault (Client × List Act) :=
  let c := (c.switchListeningMode v .l2).1.halveLease
  -- we need to have enough time to receive ACK package
  if c.leaseSeconds ≤ 6 then do
    let (c, out) ← c.restartDhcp e v 0
    .ok (c, .leaseLost :: out)
  else .ok (c.addTimeout (c.leaseSeconds >>> 1) .startReboundTimeout, [c.sendRebound e])

/-- `restart_dhcp_timeout`. -/
def restartDhcpTimeout (e : Endian) (c : Client) (v : Env) : Except Fault (Client × List Act) :=
  let c := { c with ackRetryTimes := c.ackRetryTimes + 1 }
  c.restartDhcp e v c.ackRetryTimes

/-- A timeout calls its function. -/
def call (e : Endian) (c : Client) (v : Env) : Callback → Except Fault (Client × List Act)
  | .discoverTimeout          => c.discoverTimeout e v
  | .requestTimeout           => .ok (c.requestTimeout e v)
  | .startRenewTimeout        => .ok (c.startRenewTimeout e v)
  | .startRenewRequestTimeout => .ok c.startRenewRequestTimeout
  | .startReboundTimeout      => c.startReboundTimeout e v
  | .restartDhcpTimeout       => c.restartDhcpTimeout e v

/-- A source is due.  All functions return `FALSE`, so it is gone afterwards, as it is if they
remove it. -/
def fire (e : Endian) (c : Client) (v : Env) (id : Nat) : Except Fault (Client × List Act) :=
  match c.sources id with
  | none        => .ok (c, [])
  | some (f, _) => (c.sourceRemove id).call e v f

/-! ### `listener_event` -/

/-- `check_package_owner`. -/
def checkPackageOwner (e : Endian) (c : Client) (p : Packet) : Bool :=
  e.raw p.xid = c.xid ∧ p.hlen = 6 ∧ p.mac = c.macAddress

/-- `get_lease`. -/
def getLease (p : Packet) (behind : Nat → UInt8) : Except Fault UInt32 := do
  match ← option p behind DHCP_LEASE_TIME with
  | none     => .ok 3600
  | some opt =>
    -- paranoia: must not be prone to overflows
    let leaseSeconds := getBe32At (p.memory behind) opt &&& 0x0fffffff
    .ok (if leaseSeconds < 10 then 10 else leaseSeconds)

/-- `listener_event` with an OFFER, while the client looks for a server. -/
def offered (e : Endian) (c : Client) (v : Env) (p : Packet) (behind : Nat → UInt8) :
    Except Fault (Client × List Act) := do
  let c := { c.sourceRemove c.timeout with timeout := 0, retryTimes := 0 }
  match ← option p behind DHCP_SERVER_ID with
  | none     => .error .null
  | some opt =>
    let c := { c with
      serverIp := getBe32At (p.memory behind) opt, requestedIp := p.yiaddr, state := .requesting }
    .ok (c.startRequest e v)

/-- `get_request`: the options of `request_list` are looked up.  Their values go to a table that
only the functions registered with the client read. -/
def getRequest (c : Client) (p : Packet) (behind : Nat → UInt8) : Except Fault Unit :=
  c.requestList.forM fun code => do
    let _ ← option p behind code

/-- `listener_event` with an ACK, while the client waits for one. -/
def acked (c : Client) (v : Env) (p : Packet) (behind : Nat → UInt8) :
    Except Fault (Client × List Act) := do
  let c := { c with retryTimes := 0 }
  let c := { c.cancel with timeout := 0 }
  let leaseSeconds ← getLease p behind
  let c := { c with leaseSeconds := leaseSeconds }
  c.getRequest p behind
  let c := (c.switchListeningMode v .none).1
  let c := { c with assignedIp := some p.yiaddr }
  .ok (c.startBound, [.leaseAvailable])

/-- `listener_event` with a NAK, while the client waits for an ACK. -/
def refused (c : Client) : Client :=
  { c with retryTimes := 0 }.cancel.addTimeout 3 .restartDhcpTimeout

/-- What `listener_event` does with a packet. -/
def received (e : Endian) (c : Client) (v : Env) (p : Packet) (behind : Nat → UInt8) :
    Except Fault (Client × List Act) := do
  if ¬ c.checkPackageOwner e p then .ok (c, [])
  else
    match ← option p behind DHCP_MESSAGE_TYPE with
    | none    => .ok (c, [])
    | some at_ =>
      let messageType := p.memory behind at_
      match c.state with
      | .initSelecting                       =>
        if messageType ≠ DHCPOFFER then .ok (c, [])
        else c.offered e v p behind
      | .requesting | .renewing | .rebinding =>
        if messageType = DHCPACK then c.acked v p behind
        else if messageType = DHCPNAK then .ok (c.refused, [])
        else .ok (c, [])
      | .bound | .released                   => .ok (c, [])

/-- `listener_event`: a frame or a datagram is read, as the client listens, into a packet that holds
what the stack held. -/
def listenerEvent (e : Endian) (c : Client) (v : Env) (data : List UInt8) (stale : Packet)
    (behind : Nat → UInt8) : Except Fault (Client × List Act) := do
  match c.listenMode with
  | .none => .ok (c, [])
  | .l2   =>
    match dhcpRecvL2Packet e data stale with
    | .rejected | .foreign _ => .ok (c, [])
    | .overrun               => .error .overrun
    | .packet _ p            => c.received e v p behind
  | .l3   =>
    match ← dhcpRecvL3Packet data behind with
    | none   => .ok (c, [])
    | some p => c.received e v p behind

/-! ### `g_dhcp_client_stop` -/

/-- The states in which the client has an address. -/
def Holding (s : ClientState) : Prop := s = .bound ∨ s = .renewing ∨ s = .rebinding

instance (s : ClientState) : Decidable (Holding s) := inferInstanceAs (Decidable (_ ∨ _ ∨ _))

/-- `g_dhcp_client_stop`. -/
def gDhcpClientStop (e : Endian) (c : Client) (v : Env) : Client × List Act :=
  let c := (c.switchListeningMode v .none).1
  let out := if Holding c.state then [c.sendRelease e v c.serverIp c.requestedIp] else []
  let c := if c.timeout > 0 then { c.sourceRemove c.timeout with timeout := 0 } else c
  ({ c with
    retryTimes := 0, ackRetryTimes := 0, requestedIp := 0, state := .released,
    leaseSeconds := 0 }, out)

end Client

end OpenWfd.Dhcp
