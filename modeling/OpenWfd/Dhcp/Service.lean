import OpenWfd.Dhcp.Offers

/-!
# Dhcp — Service

What `listener_event` does with a packet.  `Serves` lists it, one case for each thing a server may
do to its book and send, and `listenerEvent_spec` says that from a consistent table nothing else
happens: a packet is left unanswered, or it is served, as a step of the register in which no entry
is written over before its time.
-/

namespace OpenWfd.Dhcp

open Tenure (Entry Deed)

/-- A packet arrives: the time, its bytes, what the stack holds behind it, and whether memory has
run out. -/
structure Arrival where
  now : Int
  payload : List UInt8
  behind : Nat → UInt8
  oom : Bool

/-- What `listener_event` reads in a packet that it does not drop. -/
structure Heard (c : Config) (a : Arrival) (p : Packet) (type : UInt8)
    (serverId requestIp : Option UInt32) : Prop where
  packet : dhcpRecvL3Packet a.payload a.behind = .ok (some p)
  type_eq : Server.checkPacketType p a.behind = .ok type
  not_zero : type ≠ 0
  serverId_eq : ∃ o, option p a.behind DHCP_SERVER_ID = .ok o ∧
    serverId = o.map (getBe32At (p.memory a.behind))
  to_us : ∀ id ∈ serverId, id = c.serverNip
  requestIp_eq : ∃ o, option p a.behind DHCP_REQUESTED_IP = .ok o ∧
    requestIp = o.map (getBe32At (p.memory a.behind))

/-- The ACK of an address. -/
def Config.ack (e : Endian) (c : Config) (client : Packet) (yiaddr : UInt32) : Server.Reply :=
  Server.sendPacketToClient e (reply client DHCPACK yiaddr (leaseItems c))

/-- The NAK. -/
def Config.nak (c : Config) (client : Packet) : Server.Reply :=
  ⟨reply client DHCPNAK 0 [serverIdItem c], INADDR_BROADCAST, MAC_BCAST_ADDR⟩

/-- The ACK of an INFORM. -/
def Config.informed (e : Endian) (c : Config) (client : Packet) : Server.Reply :=
  Server.sendPacketToClient e (reply client DHCPACK 0 (serverIdItem c :: serverItems c))

/-- What is done with a packet of a type, if the book is `T`: in the book, and what is sent. -/
inductive Serves (e : Endian) (c : Config) (T : Set (Entry Mac UInt32)) (now : Int) (p : Packet) :
    UInt8 → Deed Mac UInt32 → List Server.Reply → Prop where
  | silent (type : UInt8) : Serves e c T now p type .none []
  | offer (y : UInt32) (hfree : ∀ x ∈ T, x.resource = y → x.holder = p.mac ∨ x.upto < now)
      (hu : Usable c y p.mac) : Serves e c T now p DHCPDISCOVER (.assign ⟨p.mac, y, 300⟩)
      [c.offer e p y]
  | ack (x : Entry Mac UInt32) (hx : x ∈ T) (hmac : x.holder = p.mac) :
      Serves e c T now p DHCPREQUEST (.assign ⟨p.mac, x.resource, now + c.leaseSeconds.toNat⟩)
        [c.ack e p x.resource]
  | nak : Serves e c T now p DHCPREQUEST .none [c.nak p]
  | decline : Serves e c T now p DHCPDECLINE (.drop p.mac) []
  | release (x : Entry Mac UInt32) (hx : x ∈ T) (hmac : x.holder = p.mac) :
      Serves e c T now p DHCPRELEASE (.assign ⟨p.mac, x.resource, (UInt32.ofInt now).toNat⟩) []
  | inform : Serves e c T now p DHCPINFORM .none [c.informed e p]

namespace Server

variable {s s' : Server} {p : Packet} {type : UInt8} {now : Int} {e : Endian}

/-- What is kept by whatever the server does. -/
structure Kept (s : Server) (now : Int) (deed : Deed Mac UInt32) (s' : Server) : Prop where
  register : Tenure.register.step s.book (now, deed) s'.book
  config : s'.toConfig = s.toConfig
  consistent : s'.Consistent
  ordered : (∀ x, deed = .assign x → InTime x.upto) → s.Ordered → s'.Ordered

theorem Kept.refl (h : s.Consistent) (now : Int) : s.Kept now .none s :=
  ⟨rfl, rfl, h, fun _ ho => ho⟩

theorem Consistent.own (h : s.Consistent) {x : Entry Mac UInt32} (hx : x ∈ s.book) :
    ∀ y ∈ s.book, y.resource = x.resource → y.holder = x.holder ∨ y.upto < now := by
  intro y hy hyx
  rw [h.exclusive.eq_of_resource hy hx hyx]
  exact Or.inl rfl

theorem sendAck_eq (e : Endian) (s : Server) (now : Int) (client : Packet) (dest : UInt32)
    (oom : Bool) :
    s.sendAck e now client dest oom =
      s.addLease now 0 client.mac dest oom >>= fun t => .ok (t.2, [s.ack e client dest]) := by
  have hpacket := @leasePacket_eq s client DHCPACK dest (Or.inr (Or.inl rfl))
  dsimp only at hpacket
  unfold sendAck
  simp only [hpacket]
  rfl

/-- **`send_ACK`**, to the client whose lease it is. -/
theorem sendAck_spec (h : s.Consistent) {x : Entry Mac UInt32} (hx : x ∈ s.book)
    (hmac : x.holder = p.mac) (e : Endian) (now : Int) (oom : Bool) :
    ∃ s', s.sendAck e now p x.resource oom = .ok (s', [s.ack e p x.resource]) ∧
      s.Kept now (.assign ⟨p.mac, x.resource, now + s.leaseSeconds.toNat⟩) s' := by
  have husable : Usable s.toConfig x.resource p.mac := by
    obtain ⟨q, l, hq, rfl⟩ := id hx
    rw [← hmac]
    exact h.usable q l hq
  rcases addLease_spec h now 0 p.mac x.resource oom with
    ⟨-, hnot | ⟨-, hnone⟩⟩ | ⟨r, s', hadd, -, hconf, hcons, hbook, hord⟩
  · exact absurd husable hnot
  · exact absurd hmac (hnone _ hx).1
  · refine ⟨s', ?_, ⟨?_, hbook⟩, hconf, hcons, fun hin ho => hord ho (hin _ rfl)⟩
    · rw [sendAck_eq, hadd]
      rfl
    · intro y hy hyx
      rw [← hmac]
      exact h.own hx y hy hyx

theorem sendNak_eq (s : Server) (client : Packet) : s.sendNak client = s.nak client := by
  rw [sendNak, initPacket_eq (Or.inr (Or.inr rfl))]
  rfl

theorem sendInform_eq (e : Endian) (s : Server) (client : Packet) :
    s.sendInform e client = s.informed e client := by
  rw [sendInform, initPacket_eq (Or.inr (Or.inl rfl)), addServerOptions_eq, reply_addAll]
  rfl

/-- The packet is served, and everything is kept. -/
def Served (s : Server) (e : Endian) (now : Int) (p : Packet) (type : UInt8)
    (r : Except Fault (Server × List Reply)) : Prop :=
  ∃ s' deed out, r = .ok (s', out) ∧ Serves e s.toConfig s.book now p type deed out ∧
  s.Kept now deed s'

theorem Served.idle (h : s.Consistent) {out : List Reply}
    (hs : Serves e s.toConfig s.book now p type .none out) : s.Served e now p type (.ok (s, out)) :=
  ⟨s, .none, out, rfl, hs, Kept.refl h now⟩

theorem Served.silent (h : s.Consistent) : s.Served e now p type (.ok (s, [])) :=
  .idle h (.silent type)

theorem answer_discover_eq (e : Endian) (now : Int) {lease : Option Nat}
    (hfind : s.findLeaseByMac p.mac = .ok lease) (serverId requestIp : Option UInt32) (oom : Bool) :
    s.answer e now p DHCPDISCOVER serverId requestIp oom = s.sendOffer e now p lease
      (requestIp.getD 0) oom := by
  simp only [answer, hfind, bind, Except.bind, if_true]

theorem answer_discover (h : s.Consistent) (e : Endian) (now : Int) (p : Packet)
    (serverId requestIp : Option UInt32) (oom : Bool) :
    (s.answer e now p DHCPDISCOVER serverId requestIp oom = .error .endless ∧
      s.endIp = 0xffffffff) ∨
      s.Served e now p DHCPDISCOVER (s.answer e now p DHCPDISCOVER serverId requestIp oom) := by
  obtain ⟨lease, hfind⟩ := findLeaseByMac_ok h p.mac
  rw [answer_discover_eq e now hfind]
  rcases sendOffer_spec h e now p hfind (requestIp.getD 0) oom with
    hend | ⟨hoff, -⟩ | ⟨y, s', hoff, hfree, hu, hconf, hcons, hbook, hord⟩
  · exact Or.inl hend
  · rw [hoff]
    exact Or.inr (.silent h)
  · exact Or.inr ⟨s', _, _, hoff, .offer y hfree hu, ⟨hfree, hbook⟩, hconf, hcons, fun _ => hord⟩

/-- A packet of another type, from a client without a lease. -/
theorem answer_stranger (h : s.Consistent) (e : Endian) (now : Int)
    (serverId requestIp : Option UInt32) (oom : Bool) (hd : type ≠ DHCPDISCOVER)
    (hfind : s.findLeaseByMac p.mac = .ok none) :
    s.Served e now p type (s.answer e now p type serverId requestIp oom) := by
  unfold answer
  simp only [hfind, bind, Except.bind, if_neg hd]
  generalize (if requestIp.getD 0 = 0 then e.raw p.ciaddr else requestIp.getD 0) = nip
  split_ifs with hr h₀ hdec hrel hinf
  · exact .silent h
  · subst hr
    rw [sendNak_eq]
    exact .idle h .nak
  · rcases serverId with - | id <;> rcases requestIp with - | ip <;> exact .silent h
  · rcases serverId with - | id <;> exact .silent h
  · subst hinf
    rw [sendInform_eq]
    exact .idle h .inform
  · exact .silent h

/-- From a client with a lease. -/
theorem answer_holder (h : s.Consistent) (e : Endian) (now : Int)
    (serverId requestIp : Option UInt32) (oom : Bool) (hd : type ≠ DHCPDISCOVER) {q : Nat}
    {l : Lease} (hq : s.heap q = some l) (hmac : l.leaseMac = p.mac)
    (hfind : s.findLeaseByMac p.mac = .ok (some q)) :
    s.Served e now p type (s.answer e now p type serverId requestIp oom) := by
  have hx : l.entry ∈ s.book := ⟨q, l, hq, rfl⟩
  unfold answer
  simp only [hfind, deref_eq hq, bind, Except.bind, if_neg hd]
  generalize (if requestIp.getD 0 = 0 then e.raw p.ciaddr else requestIp.getD 0) = nip
  split_ifs with hr h₀ hnip hserver hdec hrel hinf
  · exact .silent h
  · subst hr
    obtain ⟨s', hack, hkept⟩ := sendAck_spec h hx hmac e now oom
    exact ⟨s', _, _, hack, .ack _ hx hmac, hkept⟩
  · subst hr
    rw [sendNak_eq]
    exact .idle h .nak
  · exact .silent h
  · subst hdec
    rcases serverId with - | id <;> rcases requestIp with - | ip
    · exact .silent h
    · exact .silent h
    · exact .silent h
    · obtain ⟨hrem, hcons, hbook, hord⟩ := removeLease_spec h hq
      simp only [hrem, deref_eq hq]
      split_ifs
      · refine ⟨s.cut q l, .drop p.mac, [], rfl, .decline, ?_, rfl, hcons, fun _ => hord⟩
        rw [← hmac]
        exact hbook
      · exact .silent h
  · subst hrel
    rcases serverId with - | id
    · exact .silent h
    · obtain ⟨s', hset, hconf, hcons, hbook, hord⟩ := leaseSetExpire_spec h hq (UInt32.ofInt now)
      simp only [hset, deref_eq hq]
      split_ifs
      · refine ⟨s', _, [], rfl, .release l.entry hx hmac, ⟨fun y hy hyx => ?_, ?_⟩, hconf, hcons,
          fun hin ho => hord ho (hin _ rfl)⟩
        · rw [← hmac]
          exact h.own hx y hy hyx
        · rw [← hmac]
          exact hbook
      · exact .silent h
  · subst hinf
    rw [sendInform_eq]
    exact .idle h .inform
  · exact .silent h

/-- **What `listener_event` does with a packet it has heard.** -/
theorem answer_spec (h : s.Consistent) (e : Endian) (now : Int) (p : Packet) (type : UInt8)
    (serverId requestIp : Option UInt32) (oom : Bool) :
    (s.answer e now p type serverId requestIp oom = .error .endless ∧ s.endIp = 0xffffffff) ∨
      s.Served e now p type (s.answer e now p type serverId requestIp oom) := by
  by_cases hd : type = DHCPDISCOVER
  · subst hd
    exact answer_discover h e now p serverId requestIp oom
  · rcases findLeaseByMac_spec h p.mac with ⟨hfind, -⟩ | ⟨q, l, hfind, hq, hmac⟩
    · exact Or.inr (answer_stranger h e now serverId requestIp oom hd hfind)
    · exact Or.inr (answer_holder h e now serverId requestIp oom hd hq hmac hfind)

/-- A REQUEST for the address that is written for the client is acknowledged. -/
theorem answer_request (h : s.Consistent) (e : Endian) {x : Entry Mac UInt32}
    (hx : x ∈ s.book) (hmac : x.holder = p.mac) (now : Int) (sid : Option UInt32) (oom : Bool) :
    ∃ s', s.answer e now p DHCPREQUEST sid (some x.resource) oom =
      .ok (s', [s.ack e p x.resource]) ∧
      s.Kept now (.assign ⟨p.mac, x.resource, now + s.leaseSeconds.toNat⟩) s' := by
  obtain ⟨s', hack, hkept⟩ := sendAck_spec h hx hmac e now oom
  refine ⟨s', ?_, hkept⟩
  rcases findLeaseByMac_spec h p.mac with ⟨-, hnone⟩ | ⟨q, l, hfind, hq, hl⟩
  · exact absurd hmac (hnone x hx)
  · have hentry : l.entry = x := h.exclusive.eq_of_holder ⟨q, l, hq, rfl⟩ hx (hl.trans hmac.symm)
    have hnip : l.leaseNip = x.resource := congrArg Entry.resource hentry
    have h₀ : x.resource ≠ 0 := by
      rw [← hnip]
      exact (h.usable q l hq).not_zero
    unfold answer
    simp only [hfind, deref_eq hq, bind, Except.bind,
      if_neg (show DHCPREQUEST ≠ DHCPDISCOVER by decide), if_true,
      Option.getD_some, if_neg h₀, hnip]
    exact hack

/-! ### `listener_event` -/

theorem patient_type (p : Packet) (behind : Nat → UInt8) : Patient (checkPacketType p behind) := by
  unfold checkPacketType
  split_ifs
  · exact Or.inr ⟨_, rfl⟩
  · exact Or.inr ⟨_, rfl⟩
  · rcases patient_option p behind DHCP_MESSAGE_TYPE with ht | ⟨- | a, ht⟩
    · exact Or.inl (by simp only [ht, bind, Except.bind])
    · exact Or.inr ⟨0, by simp only [ht, bind, Except.bind]⟩
    · simp only [ht, bind, Except.bind]
      split_ifs
      · exact Or.inr ⟨_, rfl⟩
      · exact Or.inr ⟨_, rfl⟩
      · exact Or.inr ⟨_, rfl⟩

/-- A packet that is heard is answered. -/
theorem listenerEvent_heard {a : Arrival} {serverId requestIp : Option UInt32}
    (h : Heard s.toConfig a p type serverId requestIp) (e : Endian) :
    s.listenerEvent e a.now a.payload a.behind a.oom =
    s.answer e a.now p type serverId requestIp a.oom := by
  obtain ⟨sid, hsid, rfl⟩ := h.serverId_eq
  obtain ⟨req, hreq, rfl⟩ := h.requestIp_eq
  have hus : ¬ (sid.map (getBe32At (p.memory a.behind))).any (· ≠ s.serverNip) = true := by
    rcases sid with - | a₁
    · exact Bool.false_ne_true
    · have hus := h.to_us _ rfl
      simp [hus]
  simp only [listenerEvent, h.packet, h.type_eq, hsid, hreq, bind, Except.bind,
    if_neg h.not_zero, if_neg hus]

/-- A packet is dropped, or heard and answered; or a search for an option in it does not end. -/
theorem listenerEvent_cases (e : Endian) (s : Server) (a : Arrival) :
    s.listenerEvent e a.now a.payload a.behind a.oom = .error .endless ∨
    s.listenerEvent e a.now a.payload a.behind a.oom = .ok (s, []) ∨
    ∃ p type serverId requestIp, Heard s.toConfig a p type serverId requestIp := by
  unfold listenerEvent
  rcases patient_recv a.payload a.behind with hrecv | ⟨- | p, hrecv⟩
  · exact Or.inl (by simp only [hrecv, bind, Except.bind])
  · exact Or.inr (Or.inl (by simp only [hrecv, bind, Except.bind]))
  rcases patient_type p a.behind with htype | ⟨type, htype⟩
  · exact Or.inl (by simp only [hrecv, htype, bind, Except.bind])
  by_cases h₀ : type = 0
  · exact Or.inr (Or.inl (by simp only [hrecv, htype, bind, Except.bind, if_pos h₀]))
  rcases patient_option p a.behind DHCP_SERVER_ID with hsid | ⟨sid, hsid⟩
  · exact Or.inl (by simp only [hrecv, htype, hsid, bind, Except.bind, if_neg h₀])
  by_cases hus : (sid.map (getBe32At (p.memory a.behind))).any (· ≠ s.serverNip) = true
  · exact Or.inr
      (Or.inl (by simp only [hrecv, htype, hsid, bind, Except.bind, if_neg h₀, if_pos hus]))
  rcases patient_option p a.behind DHCP_REQUESTED_IP with hreq | ⟨req, hreq⟩
  · exact Or.inl (by simp only [hrecv, htype, hsid, hreq, bind, Except.bind, if_neg h₀, if_neg hus])
  refine Or.inr (Or.inr ⟨p, type, _, _, hrecv, htype, h₀, ⟨sid, hsid, rfl⟩, ?_, ⟨req, hreq, rfl⟩⟩)
  intro id hid
  rw [Option.mem_def.mp hid] at hus
  simpa using hus

/-- **One packet.**  From a consistent table `listener_event` uses no lease that has been freed: it
drops the packet, or it serves it as a step of the register, or it does not return. -/
theorem listenerEvent_spec (h : s.Consistent) (e : Endian) (a : Arrival) :
    s.listenerEvent e a.now a.payload a.behind a.oom = .error .endless ∨
    s.listenerEvent e a.now a.payload a.behind a.oom = .ok (s, []) ∨
    ∃ p type serverId requestIp, Heard s.toConfig a p type serverId requestIp ∧
      s.Served e a.now p type (s.listenerEvent e a.now a.payload a.behind a.oom) := by
  rcases listenerEvent_cases e s a with hend | hdrop | ⟨p, type, sid, req, hheard⟩
  · exact Or.inl hend
  · exact Or.inr (Or.inl hdrop)
  · rw [listenerEvent_heard hheard]
    rcases answer_spec h e a.now p type sid req a.oom with ⟨hend, -⟩ | hserved
    · exact Or.inl hend
    · exact Or.inr (Or.inr ⟨p, type, sid, req, hheard, hserved⟩)

end Server

end OpenWfd.Dhcp
