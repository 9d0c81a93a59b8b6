import OpenWfd.Dhcp.Heeding
import OpenWfd.Dhcp.Runs

/-!
# Dhcp — Handshake

The client and the server together.  What the client sends, the server hears as it was sent
(`Posted.heard`), what the server sends, the client reads (`reply_over_wire`), and so DISCOVER,
OFFER, REQUEST and ACK end with the client bound to the address that is written for it in the
server's book, on hosts of any byte orders (`handshake`).
-/

namespace OpenWfd.Dhcp

open Tlv (Item)
open Tenure (Holds)
open Server (Reply)

variable {k : Mac} {type : UInt8} {xid ciaddr : UInt32} {items : List Item} {p q : Packet}
  {a : Arrival} {cfg : Config} {sid req : Option UInt32}

/-! ### What the client does -/

namespace Client

variable {c : Client} {e : Endian} {v : Env} {behind : Nat → UInt8} {y : UInt32}

theorem told_typed {t : UInt8} (h : Typed q t) (behind : Nat → UInt8) : Told q behind t := by
  obtain ⟨a, ha, htype⟩ := h behind
  exact ⟨a, by rw [option, ha], htype⟩

theorem option_reads {code : UInt8} {x : UInt32} (h : Reads q code x) (behind : Nat → UInt8) :
    ∃ a, option q behind code = .ok (some a) ∧ getBe32At (q.memory behind) a = x := by
  obtain ⟨a, ha, hx⟩ := h behind
  exact ⟨a, by rw [option, ha], hx⟩

/-- The client after an OFFER of `y` from `server`. -/
def afterOffer (c : Client) (server y : UInt32) : Client :=
  { c.sourceRemove c.timeout with
    timeout := 0, retryTimes := 0, serverIp := server, requestedIp := y, state := .requesting }

theorem Armed.afterOffer (h : c.Armed) (server y : UInt32) :
    ((c.afterOffer server y).addTimeout REQUEST_TIMEOUT .requestTimeout).Armed :=
  Clear.addTimeout ⟨h.removed.none, Nat.zero_lt_of_lt h.behind⟩ rfl

theorem startRequest_first (hfirst : c.retryTimes = 0) (hs : c.state = .requesting)
    (hmode : c.listenMode = .l2) :
    c.startRequest e v = (c.addTimeout REQUEST_TIMEOUT .requestTimeout, [c.sendSelect e v]) := by
  unfold startRequest
  rw [if_neg (by rw [hfirst]; decide), if_pos hfirst]
  have hsame : ({ c with state := .requesting } : Client) = c := by
    rw [← hs]
  rw [hsame]
  unfold switchListeningMode
  rw [if_pos hmode]

theorem received_offer (hs : c.state = .initSelecting) (hmode : c.listenMode = .l2)
    (howner : c.checkPackageOwner e q = true) (htyped : Typed q DHCPOFFER) {server : UInt32}
    (hserver : Reads q DHCP_SERVER_ID server) :
    c.received e v q behind =
      .ok ((c.afterOffer server q.yiaddr).addTimeout REQUEST_TIMEOUT .requestTimeout,
      [(c.afterOffer server q.yiaddr).sendSelect e v]) := by
  obtain ⟨a, ha, htype⟩ := told_typed htyped behind
  obtain ⟨b, hb, hid⟩ := option_reads hserver behind
  unfold received
  rw [if_neg (not_not_intro howner)]
  simp only [ha, bind, Except.bind, htype, hs, ne_eq, not_true_eq_false, if_false]
  unfold offered
  simp only [hb, bind, Except.bind, hid]
  exact congrArg Except.ok (startRequest_first (c := c.afterOffer server q.yiaddr) rfl rfl hmode)

/-- The lease time a client takes from an ACK. -/
def leaseTime (x : UInt32) : UInt32 := if x &&& 0x0fffffff < 10 then 10 else x &&& 0x0fffffff

theorem getLease_eq {x : UInt32} (h : Reads q DHCP_LEASE_TIME x) :
    getLease q behind = .ok (leaseTime x) := by
  obtain ⟨a, ha, hx⟩ := option_reads h behind
  unfold getLease
  simp only [ha, bind, Except.bind, hx]
  rfl

theorem received_ack (hs : c.state = .requesting) (howner : c.checkPackageOwner e q = true)
    (htyped : Typed q DHCPACK) : c.received e v q behind = c.acked v q behind := by
  obtain ⟨a, ha, htype⟩ := told_typed htyped behind
  unfold received
  rw [if_neg (not_not_intro howner)]
  simp only [ha, bind, Except.bind, htype, hs, if_true]

theorem switch_leaseSeconds (c : Client) (v : Env) (m : ListenMode) :
    (c.switchListeningMode v m).1.leaseSeconds = c.leaseSeconds := by
  obtain ⟨m', ready, heq, -⟩ := switch_eq c v m
  rw [heq]

theorem startBound_timeout (c : Client) :
    c.startBound.leaseSeconds = c.leaseSeconds ∧
      c.startBound.sources c.startBound.timeout =
      some (.startRenewTimeout, c.leaseSeconds >>> 1) := by
  obtain ⟨sources, heq⟩ := cancel_rest { c with state := .bound }
  unfold startBound
  rw [heq]
  exact ⟨rfl, if_pos rfl⟩

/-- In options in a row every lookup returns. -/
theorem option_returns {os : List Item} (h : Built q os) (behind : Nat → UInt8) (code : UInt8) :
    ∃ r, option q behind code = .ok r := by
  have hget := h.get behind code
  split at hget
  · exact ⟨none, by rw [option, hget]⟩
  · obtain ⟨a, ha, -⟩ := hget
    exact ⟨some a, by rw [option, ha]⟩

theorem getRequest_ok (c : Client) (h : ∀ code, ∃ r, option q behind code = .ok r) :
    c.getRequest q behind = .ok () := by
  unfold getRequest
  induction c.requestList with
  | nil => rfl
  | cons code codes ih =>
      obtain ⟨r, hr⟩ := h code
      rw [List.forM_eq_forM, List.forM_cons, hr]
      exact ih

/-- After an ACK the client is bound, and will renew its lease after half its time. -/
theorem acked_eq (v : Env) (behind : Nat → UInt8) (h : c.Armed) {x : UInt32}
    (htime : Reads q DHCP_LEASE_TIME x) (hlook : ∀ code, ∃ r, option q behind code = .ok r) :
    ∃ c', c.acked v q behind = .ok (c', [.leaseAvailable]) ∧ Bound c c' q ∧
      c'.leaseSeconds = leaseTime x ∧
      c'.sources c'.timeout = some (.startRenewTimeout, leaseTime x >>> 1) := by
  have hrun : ∃ d : Client, d.leaseSeconds = leaseTime x ∧
      c.acked v q behind = .ok (d.startBound, [.leaseAvailable]) := by
    unfold acked
    simp only [getLease_eq htime, bind, Except.bind, getRequest_ok _ hlook]
    exact ⟨_, switch_leaseSeconds _ v .none, rfl⟩
  obtain ⟨d, hlease, hrun⟩ := hrun
  obtain ⟨hsame, hsource⟩ := startBound_timeout d
  rw [hlease] at hsame hsource
  exact ⟨_, hrun, (acked_spec h hrun).1, hsame, hsource⟩

/-- A client that is started sends a DISCOVER. -/
theorem idle_sends (h : c.Idle) (hsock : v.sock = true) :
    ∃ c₁ p, c.gDhcpClientStart e v .null = .ok (c₁, [.raw p]) := by
  obtain ⟨m, ready, heq, -, hdeaf⟩ :=
    switch_eq { c with assignedIp := none, state := .initSelecting } v .l2
  have htrue : ready = true := by
    by_contra hne
    rw [(hdeaf (eq_false_of_ne_true hne)).2] at hsock
    cases hsock
  unfold gDhcpClientStart
  rw [if_neg (by rw [h.2]; decide), if_pos h.2]
  simp only [heq, if_pos htrue]
  unfold discoverLast discover
  obtain ⟨p, hp, -⟩ := says_discover e
    { c with
      assignedIp := none, state := .initSelecting, listenMode := m, xid := v.rand,
      start := v.now } v 0
  exact ⟨_, p, by rw [hp]⟩

/-- The client that sends the first DISCOVER. -/
theorem idle_discover (h : c.Idle) (hsock : v.sock = true) {last : LastAddress} {c₁ : Client}
    {out : List Act} (hrun : c.gDhcpClientStart e v last = .ok (c₁, out)) :
    ∃ (d : Client) (addr : UInt32), d.Clear ∧ d.state = .initSelecting ∧ d.listenMode = .l2 ∧
      d.retryTimes = 0 ∧
      d.toClientConfig = c.toClientConfig ∧ d.discover e v addr = (c₁, out) := by
  obtain ⟨hclear, hfirst⟩ := h
  obtain ⟨m, ready, heq, hready, hdeaf⟩ :=
    switch_eq { c with assignedIp := none, state := .initSelecting } v .l2
  have htrue : ready = true := by
    by_contra hne
    rw [(hdeaf (eq_false_of_ne_true hne)).2] at hsock
    cases hsock
  obtain rfl := hready htrue
  unfold gDhcpClientStart at hrun
  rw [if_neg (by rw [hfirst]; decide), if_pos hfirst] at hrun
  simp only [heq, if_pos htrue] at hrun
  have hlast : ∀ d : Client, d.Clear → d.state = .initSelecting → d.listenMode = .l2 →
      d.retryTimes = 0 →
      d.toClientConfig = c.toClientConfig → d.discoverLast e v last = .ok (c₁, out) →
      ∃ (d : Client) (addr : UInt32),
      d.Clear ∧ d.state = .initSelecting ∧ d.listenMode = .l2 ∧ d.retryTimes = 0 ∧
        d.toClientConfig = c.toClientConfig ∧ d.discover e v addr = (c₁, out) := by
    intro d hd hs hm hr hconf hrun
    rcases last with - | addr | -
    · exact ⟨d, 0, hd, hs, hm, hr, hconf, Except.ok.inj hrun⟩
    · unfold discoverLast at hrun
      dsimp only at hrun
      split_ifs at hrun
      · exact ⟨d, 0, hd, hs, hm, hr, hconf, Except.ok.inj hrun⟩
      · exact ⟨{ d with lastAddress := some addr }, addr, ⟨hd.none, hd.behind⟩, hs, hm, hr, hconf,
          Except.ok.inj hrun⟩
    · unfold discoverLast at hrun
      rcases hown : d.lastAddress with - | addr
      · rw [hown] at hrun
        exact ⟨d, 0, hd, hs, hm, hr, hconf, Except.ok.inj hrun⟩
      · simp only [hown] at hrun
        split_ifs at hrun
        exact ⟨d, 0, hd, hs, hm, hr, hconf, Except.ok.inj hrun⟩
  refine hlast _ ?_ ?_ ?_ ?_ ?_ hrun
  · exact ⟨hclear.none, hclear.behind⟩
  · rfl
  · rfl
  · exact hfirst
  · rfl

end Client

/-! ### The four messages -/

variable {es ec : Endian} {s s₁ s₂ : Server} {c c₁ c₂ : Client} {v v₁ v₂ : Env} {r : Reply}

/-- **DISCOVER.**  What a client that is started sends is heard. -/
theorem discover_heard (cfg : Config) (hidle : c.Idle) (hsock : v.sock = true) {last : LastAddress}
    (hstart : c.gDhcpClientStart ec v last = .ok (c₁, [.raw p])) (ha : a.payload = datagram p) :
    (c₁.Armed ∧ c₁.state = .initSelecting ∧ c₁.listenMode = .l2 ∧
      c₁.toClientConfig = c.toClientConfig) ∧
      p.mac = c.macAddress ∧ p.xid = ec.raw c₁.xid ∧
      ∃ req, Heard cfg a p.read DHCPDISCOVER none req := by
  obtain ⟨d, addr, hclear, hstate, hmode, -, hconf, heq⟩ := Client.idle_discover hidle hsock hstart
  obtain ⟨q, hq, hposted⟩ := posted_discover ec d v addr
  obtain ⟨rfl, hout⟩ := Prod.mk.inj heq
  rw [hq] at hout
  cases hout
  have hmac : d.macAddress = c.macAddress := congrArg ClientConfig.macAddress hconf
  refine ⟨⟨hclear.addTimeout hstate, hstate, hmode, hconf⟩, hposted.mac.trans hmac, hposted.xid, _,
    hposted.heard (vendorless_discover _ _) (by decide) (by decide) ha (discover_serverId _ addr)
      (discover_requested _ addr) nofun⟩

/-- **OFFER and REQUEST.**  An OFFER is asked for. -/
theorem offer_heeded (es : Endian) (cfg : Config) (hs : c.state = .initSelecting)
    (hmode : c.listenMode = .l2) (hmac : p.mac = c.macAddress) (hxid : ec.raw p.xid = c.xid)
    {y : UInt32} (v : Env) (source dest : UInt32) (port : UInt16) (stale : Packet)
    (behind : Nat → UInt8) :
    c.listenerEvent ec v (rawPacket es (reply p DHCPOFFER y (leaseItems cfg)) source port dest 68)
      stale behind =
      .ok ((c.afterOffer cfg.serverNip y).addTimeout REQUEST_TIMEOUT .requestTimeout,
        [(c.afterOffer cfg.serverNip y).sendSelect ec v]) := by
  obtain ⟨q, hrecv, hq, hbuilt⟩ :=
    @reply_over_wire p DHCPOFFER y (leaseItems cfg) es ec (fun o => addable_items)
    source dest port stale
  have howner : c.checkPackageOwner ec q = true := by
    rw [hq]
    exact decide_eq_true ⟨hxid, rfl, hmac⟩
  have hy : q.yiaddr = y := by
    rw [hq]
    rfl
  unfold Client.listenerEvent
  simp only [hmode, hrecv]
  rw [Client.received_offer hs hmode howner hbuilt.typed hbuilt.serverId, hy]

/-- **ACK.**  The client is bound to the address. -/
theorem ack_heeded (es : Endian) (cfg : Config) (h : c.Armed) (hs : c.state = .requesting)
    (hmode : c.listenMode = .l2) (hmac : p.mac = c.macAddress) (hxid : ec.raw p.xid = c.xid)
    {y : UInt32} (v : Env) (source dest : UInt32) (port : UInt16) (stale : Packet)
    (behind : Nat → UInt8) :
    ∃ c', c.listenerEvent ec v
      (rawPacket es (reply p DHCPACK y (leaseItems cfg)) source port dest 68) stale behind =
        .ok (c', [.leaseAvailable]) ∧
      c'.Armed ∧ c'.state = .bound ∧ c'.assignedIp = some y ∧
      c'.leaseSeconds = Client.leaseTime cfg.leaseSeconds ∧
      c'.sources c'.timeout =
      some (.startRenewTimeout, Client.leaseTime cfg.leaseSeconds >>> 1) := by
  obtain ⟨q, hrecv, hq, hbuilt⟩ :=
    @reply_over_wire p DHCPACK y (leaseItems cfg) es ec (fun o => addable_items)
    source dest port stale
  have howner : c.checkPackageOwner ec q = true := by
    rw [hq]
    exact decide_eq_true ⟨hxid, rfl, hmac⟩
  have hy : q.yiaddr = y := by
    rw [hq]
    rfl
  obtain ⟨c', hack, hbound, hlease, hsource⟩ :=
    Client.acked_eq v behind h hbuilt.leaseTime (Client.option_returns hbuilt behind)
  refine ⟨c', ?_, hbound.armed, hbound.state, hy ▸ hbound.address, hlease, hsource⟩
  unfold Client.listenerEvent
  simp only [hmode, hrecv]
  rw [Client.received_ack hs howner hbuilt.typed, hack]

/-- **The handshake.**  A client is started, and a server answers its DISCOVER with one packet.  If
the address in it is still written for the client when its REQUEST arrives, and no packet is lost,
the client ends up bound to it for the server's lease time, and it is the client's in the server's
book for as long. -/
theorem handshake {ls ls' : List (Arrival × List Reply)} {s' : Server} {last : LastAddress}
    (hrun : (server es).Run (.new cfg) ls s) (hidle : c.Idle) (hsock : v.sock = true)
    (hstart : c.gDhcpClientStart ec v last = .ok (c₁, [.raw p])) (ha : a.payload = datagram p)
    (hs : (server es).step s (a, [r]) s₁) (hrun' : (server es).Run s₁ ls' s')
    (hkept : ∃ x ∈ s'.book, x.holder = c.macAddress ∧ x.resource = r.packet.yiaddr)
    (source : UInt32) (port : UInt16) (v₁ v₂ : Env) (stale : Packet) (behind : Nat → UInt8) :
    ∃ c₂ p', c₁.listenerEvent ec v₁ (rawPacket es r.packet source port r.destIp 68) stale behind =
        .ok (c₂, [.raw p']) ∧
      ∀ b : Arrival, b.payload = datagram p' → ∃ s₂ r' c₃, (server es).step s' (b, [r']) s₂ ∧
        Holds s₂.book c.macAddress r.packet.yiaddr (b.now + cfg.leaseSeconds.toNat) ∧
        c₂.listenerEvent ec v₂ (rawPacket es r'.packet source port r'.destIp 68) stale behind =
          .ok (c₃, [.leaseAvailable]) ∧
        c₃.state = .bound ∧ c₃.assignedIp = some r.packet.yiaddr ∧
        c₃.leaseSeconds = Client.leaseTime cfg.leaseSeconds ∧
        c₃.sources c₃.timeout =
        some (.startRenewTimeout, Client.leaseTime cfg.leaseSeconds >>> 1) := by
  obtain ⟨hcons, hconf⟩ := consistent_run hrun
  obtain ⟨⟨harmed, hstate, hmode, hsame⟩, hmac, hxid, req, hheard⟩ :=
    discover_heard s.toConfig hidle hsock hstart ha
  obtain ⟨hcons₁, hconf₁⟩ := consistent_step ⟨hcons, hconf⟩ hs
  obtain ⟨y, hr, -, -⟩ := offer_step hcons hheard hs
  have hmac₁ : c₁.macAddress = c.macAddress := congrArg ClientConfig.macAddress hsame
  have hy : r.packet.yiaddr = y := by
    rw [hr, Config.offer, sendPacket_packet]
    rfl
  have hpacket : r.packet = reply p.read DHCPOFFER y (leaseItems cfg) := by
    rw [hr, Config.offer, sendPacket_packet, hconf]
  rw [hy] at hkept ⊢
  rw [hpacket]
  -- the client asks for the address
  have hown : ec.raw p.read.xid = c₁.xid := by
    rw [show p.read.xid = p.xid from rfl, hxid, Endian.raw_raw]
  have hmine : p.read.mac = c₁.macAddress := hmac.trans hmac₁.symm
  have hoffer :
      c₁.listenerEvent ec v₁ (rawPacket es (reply p.read DHCPOFFER y (leaseItems cfg)) source port
      r.destIp 68) stale behind = _ :=
    offer_heeded es cfg hstate hmode hmine hown v₁ source r.destIp port stale behind
  obtain ⟨p', hsend, hposted⟩ := posted_select ec (c₁.afterOffer cfg.serverNip y) v₁
  rw [hsend] at hoffer
  refine ⟨_, p', hoffer, fun b hb => ?_⟩
  -- the server acknowledges it
  obtain ⟨x, hx, hholder, hxy⟩ := hkept
  obtain ⟨hcons', hconf'⟩ := hrun'.invariant ⟨hcons₁, hconf₁⟩ fun _ _ _ => consistent_step
  have hheard' : Heard s'.toConfig b p'.read DHCPREQUEST (some cfg.serverNip)
      (some x.resource) := by
    rw [hconf', hxy]
    refine hposted.heard (vendorless_select _) (by decide) (by decide) hb (select_serverId _)
      (select_requested _) ?_
    rintro id hid
    exact (Option.some.inj hid).symm
  have hmac' : p'.read.mac = c.macAddress := hposted.mac.trans hmac₁
  obtain ⟨s₂, hanswer, hkept'⟩ :=
    Server.answer_request hcons' es hx (hholder.trans hmac'.symm) b.now (some cfg.serverNip) b.oom
  have hstep : s'.listenerEvent es b.now b.payload b.behind b.oom =
      .ok (s₂, [s'.ack es p'.read x.resource]) := by
    rw [hxy] at hheard' hanswer ⊢
    exact (Server.listenerEvent_heard hheard' es).trans hanswer
  have hack : (s'.ack es p'.read x.resource).packet = reply p'.read DHCPACK y (leaseItems cfg) := by
    rw [Config.ack, sendPacket_packet, hconf', hxy]
  -- and the client is bound
  have hown' : ec.raw p'.read.xid = c₁.xid := by
    rw [show p'.read.xid = p'.xid from rfl, hposted.xid, Endian.raw_raw]
    rfl
  obtain ⟨c₃, hheeds, -, hbound⟩ := ack_heeded es cfg (y := y) (harmed.afterOffer _ _) rfl hmode
    (hposted.mac : p'.read.mac = _) hown' v₂ source (s'.ack es p'.read x.resource).destIp
      port stale behind
  refine ⟨s₂, _, c₃, hstep, ?_, ?_, hbound⟩
  · rw [hkept'.register.2]
    exact ⟨_, Tenure.mem_assign_self _ _, hmac', hxy, by rw [hconf']⟩
  · rw [hack]
    exact hheeds

/-- A big-endian client and a little-endian server. -/
theorem handshake_first : ∃ (c₁ c₂ c₃ : Client) (p p' : Packet) (r r' : Reply) (s₁ s₂ : Server),
    (Client.new (.plain ⟨[2, 0, 0, 0, 0, 1], rfl⟩)).gDhcpClientStart .big ⟨0, 0, true⟩ .null = .ok
      (c₁, [.raw p]) ∧
      (server .little).step (.new .lan) (⟨0, datagram p, fun _ => 0, false⟩, [r]) s₁ ∧
      c₁.listenerEvent .big ⟨0, 0, true⟩ (rawPacket .little r.packet 0xc0a84d01 67 r.destIp 68)
        .zero (fun _ => 0) =
        .ok (c₂, [.raw p']) ∧
      (server .little).step s₁ (⟨1, datagram p', fun _ => 0, false⟩, [r']) s₂ ∧
      c₃.state = .bound ∧ c₃.assignedIp = some r.packet.yiaddr ∧
      Holds s₂.book ⟨[2, 0, 0, 0, 0, 1], rfl⟩ r.packet.yiaddr 3601 := by
  have hidle : (Client.new (.plain ⟨[2, 0, 0, 0, 0, 1], rfl⟩)).Idle := ⟨Client.clear_new _, rfl⟩
  obtain ⟨c₁, p, hstart⟩ := Client.idle_sends (e := .big) (v := ⟨0, 0, true⟩) hidle rfl
  obtain ⟨-, hmac, -, req, hheard⟩ :=
    discover_heard .lan (a := ⟨0, datagram p, fun _ => 0, false⟩) hidle rfl hstart rfl
  have hpmac : p.read.mac = ⟨[2, 0, 0, 0, 0, 1], rfl⟩ := hmac
  obtain ⟨y, s₁, hs, -, -, -, hbook⟩ :=
    offer_made (Server.consistent_new .lan) (Server.ordered_new .lan) (by decide)
    (not_exhausted_new candidate_lan 0) hheard rfl (by rw [hpmac]; decide)
    (by rw [hpmac]; decide) .little
  have hy : ((Server.new .lan).offer .little p.read y).packet.yiaddr = y := by
    rw [Config.offer, sendPacket_packet]
    rfl
  obtain ⟨c₂, p', hoffer, hanswer⟩ := handshake (.nil _) hidle rfl hstart rfl hs (.nil _)
    ⟨_, hbook ▸ Tenure.mem_assign_self _ _, hmac, hy.symm⟩ 0xc0a84d01 67 ⟨0, 0, true⟩
    ⟨1, 0, true⟩ .zero fun _ => 0
  obtain ⟨s₂, r', c₃, hs₂, hholds, -, hbound, haddr, -⟩ :=
    hanswer ⟨1, datagram p', fun _ => 0, false⟩ rfl
  exact ⟨c₁, c₂, c₃, p, p', _, r', s₁, s₂, hstart, hs, hoffer, hs₂, hbound, haddr, hholds⟩

end OpenWfd.Dhcp
