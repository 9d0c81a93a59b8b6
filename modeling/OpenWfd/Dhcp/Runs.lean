import OpenWfd.Dhcp.Hearing

/-!
# Dhcp — Runs

The server over whole runs: packets of any content arrive, one after the other, at any times.

* `server_safe`: no lease is used after it has been freed, none is lost, and `destroy_lease_table`
  frees each once;
* `packet_stops`: but a packet can stop the server, and a client, for ever;
* `server_register`: no lease is written over before its time, except by its holder;
* `acked_exclusive`: an address that was acknowledged is nobody else's for the lease time, unless
  the client itself starts over or gives it up;
* `discover_answered`: a DISCOVER is left unanswered only if every address is leased;
* `offer_stolen`: an offer reserves nothing, since `OFFER_TIME` is taken for a point in time.
-/

namespace OpenWfd.Dhcp

open Tenure (Entry Deed Holds)
open Server (Reply)

/-- A server, packet after packet, with what it sends. -/
def server (e : Endian) : Lts Server (Arrival × List Reply) where
  step s l s' := s.listenerEvent e l.1.now l.1.payload l.1.behind l.1.oom = .ok (s', l.2)

/-- The register of who holds which address.  A packet is dropped, or what its sender, its type and
the replies to it say is done in the book, and no entry is written over before its time. -/
def leaseRegister (e : Endian) (c : Config) :
    Lts (Set (Entry Mac UInt32)) (Arrival × List Reply) where
  step T l T' :=
    (T' = T ∧ l.2 = []) ∨ ∃ p type serverId requestIp deed, Heard c l.1 p type serverId requestIp ∧
      Serves e c T l.1.now p type deed l.2 ∧ Tenure.register.step T (l.1.now, deed) T'

variable {e : Endian} {c : Config} {s s' : Server} {l : Arrival × List Reply}
  {ls : List (Arrival × List Reply)}

/-- **One step.** -/
theorem server_step (h : s.Consistent) (hs : (server e).step s l s') :
    (s' = s ∧ l.2 = []) ∨
      ∃ p type serverId requestIp deed, Heard s.toConfig l.1 p type serverId requestIp ∧
      Serves e s.toConfig s.book l.1.now p type deed l.2 ∧ s.Kept l.1.now deed s' := by
  rcases Server.listenerEvent_spec h e l.1 with
    hend | hdrop | ⟨p, type, sid, req, hheard, t, deed, out, heq, hserves, hkept⟩
  · rw [show _ = _ from hs] at hend
    cases hend
  · obtain ⟨hs', hout⟩ := Prod.mk.inj (Except.ok.inj ((show _ = _ from hs).symm.trans hdrop))
    exact Or.inl ⟨hs', hout⟩
  · obtain ⟨rfl, rfl⟩ := Prod.mk.inj (Except.ok.inj ((show _ = _ from hs).symm.trans heq))
    exact Or.inr ⟨p, type, sid, req, deed, hheard, hserves, hkept⟩

theorem consistent_step (h : s.Consistent ∧ s.toConfig = c) (hs : (server e).step s l s') :
    s'.Consistent ∧ s'.toConfig = c := by
  rcases server_step h.1 hs with ⟨rfl, -⟩ | ⟨p, type, sid, req, deed, -, -, hkept⟩
  · exact h
  · exact ⟨hkept.consistent, hkept.config.trans h.2⟩

theorem consistent_run (hrun : (server e).Run (.new c) ls s) : s.Consistent ∧ s.toConfig = c :=
  hrun.invariant ⟨Server.consistent_new c, rfl⟩ fun _ _ _ => consistent_step

/-- The offer that a server makes to a DISCOVER it hears. -/
theorem offer_made {a : Arrival} {p : Packet} {sid req : Option UInt32} (h : s.Consistent)
    (ho : s.Ordered) (hend : s.endIp ≠ 0xffffffff) (hfree : ¬ s.Exhausted a.now)
    (hheard : Heard s.toConfig a p DHCPDISCOVER sid req) (hoom : a.oom = false)
    (hb : p.mac ≠ MAC_BCAST_ADDR) (ha : p.mac ≠ MAC_ANY_ADDR) (es : Endian) :
    ∃ y s', (server es).step s (a, [s.offer es p y]) s' ∧ Usable s.toConfig y p.mac ∧
      s'.toConfig = s.toConfig ∧ s'.Consistent ∧
      s'.book = Tenure.assign s.book ⟨p.mac, y, 300⟩ := by
  obtain ⟨lease, hfind⟩ := Server.findLeaseByMac_ok h p.mac
  have heq := (Server.listenerEvent_heard hheard es).trans
    (Server.answer_discover_eq es a.now hfind sid req a.oom)
  rcases Server.sendOffer_spec h es a.now p hfind (req.getD 0) a.oom with
    ⟨-, hmax⟩ | ⟨-, hwhy⟩ | ⟨y, s', hoff, -, hu, hconf, hcons, hbook, -⟩
  · exact absurd hmax hend
  · exact absurd (hwhy hend ho hoom hb ha).2 hfree
  · exact ⟨y, s', heq.trans hoff, hu, hconf, hcons, hbook⟩

/-- The ACK that it sends for a REQUEST, if the address is written for the client. -/
theorem request_acked {a : Arrival} {p : Packet} {sid : Option UInt32} {x : Entry Mac UInt32}
    (h : s.Consistent) (hx : x ∈ s.book) (hmac : x.holder = p.mac)
    (hheard : Heard s.toConfig a p DHCPREQUEST sid (some x.resource)) (es : Endian) :
    ∃ s', (server es).step s (a, [s.ack es p x.resource]) s' ∧
      s.Kept a.now (.assign ⟨p.mac, x.resource, a.now + s.leaseSeconds.toNat⟩) s' := by
  obtain ⟨s', hanswer, hkept⟩ := Server.answer_request h es hx hmac a.now sid a.oom
  exact ⟨s', (Server.listenerEvent_heard hheard es).trans hanswer, hkept⟩

/-- A server without leases has an address left. -/
theorem not_exhausted_new {ip : UInt32} (hip : Candidate c ip) (now : Int) :
    ¬ (Server.new c).Exhausted now := by
  intro hex
  obtain ⟨x, hx, -⟩ := hex.1 ip hip
  rw [Server.book_new] at hx
  exact hx

/-- A server without leases makes an offer to any client. -/
theorem first_offer (es : Endian) (hend : c.endIp ≠ 0xffffffff) {ip : UInt32} (hip : Candidate c ip)
    (k : ClientConfig) (hb : k.macAddress ≠ MAC_BCAST_ADDR) (ha : k.macAddress ≠ MAC_ANY_ADDR)
    (now : Int) :
    ∃ a p y s, Heard c a p DHCPDISCOVER none none ∧ p.mac = k.macAddress ∧ a.now = now ∧
      (server es).step (.new c) (a, [(Server.new c).offer es p y]) s ∧ Usable c y k.macAddress ∧
      s.Consistent ∧
      s.toConfig = c ∧ s.book = Tenure.assign ∅ ⟨k.macAddress, y, 300⟩ := by
  obtain ⟨a, p, hheard, hmac, hnow, hoom⟩ := heard_discover c k now 0
  obtain ⟨y, s, hs, hu, hconf, hcons, hbook⟩ :=
    offer_made (Server.consistent_new c) (Server.ordered_new c) hend
    (not_exhausted_new hip a.now) hheard hoom (hmac ▸ hb) (hmac ▸ ha) es
  rw [Server.book_new, hmac] at hbook
  exact ⟨a, p, y, s, hheard, hmac, hnow, hs, hmac ▸ hu, hcons, hconf, hbook⟩

/-- The addresses 192.168.77.100 to 192.168.77.199, for an hour. -/
def Config.lan : Config := ⟨0xc0a84d64, 0xc0a84dc7, 0xc0a84d01, 3600, []⟩

theorem candidate_lan : Candidate .lan 0xc0a84d64 := ⟨by decide, by decide, by decide, by decide⟩

/-- **No lease is used after it was freed, and none is lost.** -/
theorem server_safe (hrun : (server e).Run (.new c) ls s) :
    s.Consistent ∧
      (∀ a : Arrival, s.listenerEvent e a.now a.payload a.behind a.oom ≠ .error .dangling) ∧
      ∃ s', s.destroyLeaseTable = .ok s' ∧ s'.heap = fun _ => none := by
  obtain ⟨hcons, -⟩ := consistent_run hrun
  refine ⟨hcons, fun a hdang => ?_, Server.destroyLeaseTable_spec hcons⟩
  rcases Server.listenerEvent_spec hcons e a with hend | hdrop |
    ⟨p, type, sid, req, -, t, deed, out, heq, -, -⟩
  · rw [hdang] at hend
    cases hend
  · rw [hdang] at hdrop
    cases hdrop
  · rw [hdang] at heq
    cases heq

/-- A server that has made an offer is destroyed. -/
theorem server_safe_offer : ∃ l s s', (server .little).Run (.new .lan) [l] s ∧ s.book.Nonempty ∧
    s.destroyLeaseTable = .ok s' ∧ s'.heap = fun _ => none := by
  obtain ⟨a, p, y, s, -, -, -, hs, -, -, -, hbook⟩ := first_offer .little (by decide) candidate_lan
    (.plain ⟨[2, 0, 0, 0, 0, 1], rfl⟩) (by decide) (by decide) 0
  obtain ⟨-, -, s', hs', hheap⟩ := server_safe (.one hs)
  exact ⟨_, s, s', .one hs, ⟨_, hbook ▸ Tenure.mem_assign_self _ _⟩, hs', hheap⟩

/-- **A packet that stops everyone.**  Whoever reads a request from a socket whose `options` and
`file` both send the walk to `file` never goes on, in whatever state it is. -/
theorem packet_stops {payload : List UInt8}
    (hmagic : (Packet.ofBytes (payload.take 628)).cookie = DHCP_MAGIC)
    (hop : (Packet.ofBytes (payload.take 628)).op = BOOTREQUEST)
    (hopts : ToFile (Packet.ofBytes (payload.take 628)) DHCP_VENDOR .options)
    (hfile : ToFile (Packet.ofBytes (payload.take 628)) DHCP_VENDOR .file) (e : Endian)
    (behind : Nat → UInt8) :
    (∀ (s : Server) (now : Int) (oom : Bool), s.listenerEvent e now payload behind oom =
      .error .endless) ∧
      ∀ (c : Client) (v : Env) (stale : Packet), c.listenMode = .l3 →
        c.listenerEvent e v payload stale behind = .error .endless := by
  have hget : dhcpGetOption ((Packet.ofBytes (payload.take 628)).memory behind) DHCP_VENDOR =
      none :=
    getOption_endless hopts hfile behind 2048
  have hoption : option (Packet.ofBytes (payload.take 628)) behind DHCP_VENDOR =
      .error .endless := by
    rw [option, hget]
  have hrecv : dhcpRecvL3Packet payload behind = .error .endless := by
    unfold dhcpRecvL3Packet
    dsimp only
    rw [if_neg (not_not_intro hmagic), if_neg (not_not_intro hop), hoption]
    rfl
  refine ⟨fun s now oom => ?_, fun c v stale hmode => ?_⟩
  · unfold Server.listenerEvent
    rw [hrecv]
    rfl
  · unfold Client.listenerEvent
    rw [hmode]
    dsimp only
    rw [hrecv]
    rfl

/-- A datagram of 548 bytes that is such a packet. -/
theorem packet_stops_datagram : ∃ p : Packet, ∀ (s : Server) (now : Int) (oom : Bool),
    s.listenerEvent .little now (datagram p) (fun _ => 0) oom = .error .endless := by
  let p : Packet := { Packet.zero with
    op := BOOTREQUEST, cookie := DHCP_MAGIC
    options := Octets.write (.zero 388) 0 [DHCP_OPTION_OVERLOAD, 1, FILE_FIELD, DHCP_END]
    file := Octets.write (.zero 128) 0 [DHCP_OPTION_OVERLOAD, 1, FILE_FIELD, DHCP_END] }
  have hread := ofBytes_datagram p
  have hopts : Field.options.bytes p.read =
      DHCP_OPTION_OVERLOAD :: 1 :: FILE_FIELD :: DHCP_END :: (Field.options.bytes p.read).drop
        4 := by decide +kernel
  have hfile : Field.file.bytes p.read =
      DHCP_OPTION_OVERLOAD :: 1 :: FILE_FIELD :: DHCP_END :: (Field.file.bytes p.read).drop 4 := by
      decide +kernel
  refine ⟨p, (packet_stops ?_ ?_ ?_ ?_ .little fun _ => 0).1⟩
  · rw [hread]
  · rw [hread]
  · rw [hread]
    exact toFile_overload (by decide) hopts
  · rw [hread]
    exact toFile_overload (by decide) hfile

theorem register_simulates : (server e).Simulates (leaseRegister e c) fun s T =>
    (s.Consistent ∧ s.toConfig = c) ∧ T = s.book := by
  rintro s l s' T ⟨⟨hcons, rfl⟩, rfl⟩ hs
  refine ⟨s'.book, ?_, consistent_step ⟨hcons, rfl⟩ hs, rfl⟩
  rcases server_step hcons hs with ⟨rfl, hout⟩ | ⟨p, type, sid, req, deed, hheard, hserves, hkept⟩
  · exact Or.inl ⟨rfl, hout⟩
  · exact Or.inr ⟨p, type, sid, req, deed, hheard, hserves, hkept.register⟩

theorem register_exclusive {T T' : Set (Entry Mac UInt32)} (h : Tenure.Exclusive T)
    (hs : (leaseRegister e c).step T l T') : Tenure.Exclusive T' := by
  rcases hs with ⟨rfl, -⟩ | ⟨p, type, sid, req, deed, -, -, hs⟩
  · exact h
  · exact Tenure.exclusive_step h hs

/-- **Every run of the server is one of the register.** -/
theorem server_register (hrun : (server e).Run (.new c) ls s) :
    (leaseRegister e c).Run ∅ ls s.book ∧ Tenure.Exclusive s.book := by
  obtain ⟨T, hT, -, rfl⟩ := register_simulates.run hrun
    (show (_ ∧ _) ∧ (∅ : Set (Entry Mac UInt32)) = _ from
      ⟨⟨Server.consistent_new c, rfl⟩, (Server.book_new c).symm⟩)
  exact ⟨hT, hT.invariant Tenure.exclusive_empty fun _ _ _ => register_exclusive⟩

/-- The book after an offer that is asked for. -/
theorem server_register_offer : ∃ l₁ l₂ s y, (server .little).Run (.new .lan) [l₁, l₂] s ∧
    (leaseRegister .little .lan).Run ∅ [l₁, l₂] s.book ∧ Tenure.Exclusive s.book ∧
    s.book = {⟨⟨[2, 0, 0, 0, 0, 1], rfl⟩, y, 3601⟩} := by
  obtain ⟨a, p, y, s₁, -, -, -, hs₁, -, hcons₁, hconf₁, hbook₁⟩ :=
    first_offer .little (by decide) candidate_lan
    (.plain ⟨[2, 0, 0, 0, 0, 1], rfl⟩) (by decide) (by decide) 0
  obtain ⟨b, q, hq, hqmac, hbnow, -⟩ := heard_select .lan (.plain ⟨[2, 0, 0, 0, 0, 1], rfl⟩) 1 y
  have hx : (⟨⟨[2, 0, 0, 0, 0, 1], rfl⟩, y, 300⟩ : Entry Mac UInt32) ∈ s₁.book :=
    hbook₁ ▸ Tenure.mem_assign_self _ _
  rw [← hconf₁] at hq
  obtain ⟨s₂, hs₂, hkept⟩ := request_acked hcons₁ hx hqmac.symm hq .little
  obtain ⟨hrun, hex⟩ := server_register (.cons hs₁ (.one hs₂))
  refine ⟨_, _, s₂, y, .cons hs₁ (.one hs₂), hrun, hex, ?_⟩
  have hlease : s₁.leaseSeconds = 3600 := congrArg Config.leaseSeconds hconf₁
  rw [hkept.register.2, Tenure.assign_resource, hqmac, hbnow, hlease]
  · rfl
  · rw [hbook₁]
    exact Tenure.resource_assign (fun _ h => h.elim) rfl

/-! ### The order of the leases -/

/-- The clock, with the lease time added, is that of a 32-bit `time_t`. -/
def Timely (c : Config) (a : Arrival) : Prop := 0 ≤ a.now ∧ a.now + c.leaseSeconds.toNat < 2 ^ 31

theorem ordered_step (h : s.Consistent) (ho : s.Ordered) (hs : (server e).step s l s')
    (ht : Timely s.toConfig l.1) : s'.Ordered := by
  obtain ⟨h₀, h₁⟩ := ht
  rcases server_step h hs with ⟨rfl, -⟩ | ⟨p, type, sid, req, deed, -, hserves, hkept⟩
  · exact ho
  refine hkept.ordered (fun x hx => ?_) ho
  generalize l.2 = out at hserves
  cases hserves with
  | silent => cases hx
  | offer z hfree hu =>
      cases hx
      exact (show Server.InTime 300 from ⟨by decide, by decide⟩)
  | ack z hz hmac =>
      cases hx
      exact ⟨by dsimp only; omega, h₁⟩
  | nak => cases hx
  | decline => cases hx
  | release z hz hmac =>
      cases hx
      have hnow : (UInt32.ofInt l.1.now).toNat = l.1.now := by
        rw [UInt32.ofInt, UInt32.toNat_ofNat']
        omega
      dsimp only [Server.InTime]
      omega
  | inform => cases hx

theorem ordered_run (hrun : (server e).Run (.new c) ls s) (ht : ∀ l ∈ ls, Timely c l.1) :
    s.Ordered := by
  have hall : ∀ {s₀ : Server}, (server e).Run s₀ ls s → s₀.Consistent ∧
      s₀.toConfig = c → s₀.Ordered →
      s.Ordered := by
    intro s₀ hrun
    clear * - hrun ht
    induction hrun with
    | nil => exact fun _ ho => ho
    | cons hs _ ih =>
        intro h ho
        refine ih (fun m hm => ht m (List.mem_cons_of_mem _ hm)) (consistent_step h hs) ?_
        exact ordered_step h.1 ho hs (h.2 ▸ ht _ List.mem_cons_self)
  exact hall hrun ⟨Server.consistent_new c, rfl⟩ (Server.ordered_new c)

/-! ### An address that was acknowledged -/

/-- `r` acknowledges the address `y` to `k`. -/
structure Acks (r : Reply) (k : Mac) (y : UInt32) : Prop where
  typed : Typed r.packet DHCPACK
  mac : r.packet.mac = k
  yiaddr : r.packet.yiaddr = y

/-- `k` does not start over and gives nothing up: what it sends is REQUESTs and INFORMs. -/
def Quiet (c : Config) (k : Mac) (a : Arrival) : Prop :=
  ∀ p type serverId requestIp, Heard c a p type serverId requestIp → p.mac = k →
    type = DHCPREQUEST ∨ type = DHCPINFORM

theorem sendPacket_packet (e : Endian) (p : Packet) :
    (Server.sendPacketToClient e p).packet = p := by
  unfold Server.sendPacketToClient
  split_ifs <;> rfl

/-- An address that is acknowledged is the client's for the lease time. -/
theorem acked_holds {k : Mac} {y : UInt32} {r : Reply} (h : s.Consistent)
    (hs : (server e).step s l s') (hr : r ∈ l.2) (hack : Acks r k y) (hy : y ≠ 0) :
    Holds s'.book k y (l.1.now + s.leaseSeconds.toNat) := by
  rcases server_step h hs with ⟨-, hout⟩ | ⟨p, type, sid, req, deed, -, hserves, hkept⟩
  · rw [hout] at hr
    cases hr
  obtain ⟨htyped, hmac, hyiaddr⟩ := hack
  generalize hout : l.2 = out at hserves hr
  cases hserves with
  | silent => cases hr
  | offer z hfree hu =>
      rw [List.mem_singleton.mp hr, Config.offer, sendPacket_packet] at htyped
      exact absurd (htyped.eq (built_reply fun _ => addable_items).typed) (by decide)
  | ack z hz hmac' =>
      rw [List.mem_singleton.mp hr, Config.ack, sendPacket_packet] at hmac hyiaddr
      have hbook := hkept.register.2
      rw [hbook]
      exact ⟨_, Tenure.mem_assign_self _ _, hmac, hyiaddr, le_refl _⟩
  | nak =>
      rw [List.mem_singleton.mp hr] at hyiaddr
      exact absurd hyiaddr.symm hy
  | decline => cases hr
  | release => cases hr
  | inform =>
      rw [List.mem_singleton.mp hr, Config.informed, sendPacket_packet] at hyiaddr
      exact absurd hyiaddr.symm hy

/-- Whoever holds an address keeps it through a step, and nobody else is sent it. -/
theorem held_step {k : Mac} {y : UInt32} {u : Int} (h : s.Consistent) (hs : (server e).step s l s')
    (hheld : Holds s.book k y u) (hy : y ≠ 0) (hnow : l.1.now ≤ u)
    (hlater : u ≤ l.1.now + s.leaseSeconds.toNat) (hquiet : Quiet s.toConfig k l.1) :
    Holds s'.book k y u ∧ ∀ r ∈ l.2, r.packet.yiaddr = y → r.packet.mac = k := by
  obtain ⟨x, hx, hxk, hxy, hxu⟩ := id hheld
  rcases server_step h hs with ⟨rfl, hout⟩ | ⟨p, type, sid, req, deed, hheard, hserves, hkept⟩
  · rw [hout]
    exact ⟨hheld, fun r hr => absurd hr List.not_mem_nil⟩
  have hkeep := fun hact => Tenure.held_step hheld (l := (l.1.now, deed))
    ⟨hnow, hact⟩ hkept.register
  have hq := hquiet p type sid req hheard
  generalize hout : l.2 = out at hserves
  cases hserves with
  | silent => exact ⟨hkeep nofun, nofun⟩
  | offer z hfree hu =>
      refine ⟨hkeep fun hk => ?_, fun r hr hrz => ?_⟩
      · rcases hq (Option.some.inj hk) with hd | hd
        · cases hd
        · cases hd
      · rw [List.mem_singleton.mp hr, Config.offer, sendPacket_packet] at hrz ⊢
        have hzy : z = y := hrz
        subst hzy
        rcases hfree x hx hxy with hmac | hlt
        · exact hmac.symm.trans hxk
        · omega
  | ack z hz hmac =>
      have hown : z.holder = k → z = x :=
        fun hzk => h.exclusive.eq_of_holder hz hx (hzk.trans hxk.symm)
      refine ⟨hkeep fun hk => ?_, fun r hr hrz => ?_⟩
      · have hzx := hown (hmac.trans (Option.some.inj hk))
        exact ⟨_, rfl, (congrArg Entry.resource hzx).trans hxy, hlater⟩
      · rw [List.mem_singleton.mp hr, Config.ack, sendPacket_packet] at hrz ⊢
        have hzy : z.resource = y := hrz
        rw [h.exclusive.eq_of_resource hz hx (hzy.trans hxy.symm)] at hmac
        exact hmac.symm.trans hxk
  | nak =>
      refine ⟨hkeep nofun, fun r hr hrz => absurd ?_ hy⟩
      rw [List.mem_singleton.mp hr] at hrz
      exact hrz.symm
  | decline =>
      refine ⟨hkeep fun hk => ?_, nofun⟩
      rcases hq (Option.some.inj hk) with hd | hd
      · cases hd
      · cases hd
  | release z hz hmac =>
      refine ⟨hkeep fun hk => ?_, nofun⟩
      rcases hq (Option.some.inj hk) with hd | hd
      · cases hd
      · cases hd
  | inform =>
      refine ⟨hkeep nofun, fun r hr hrz => absurd ?_ hy⟩
      rw [List.mem_singleton.mp hr, Config.informed, sendPacket_packet] at hrz
      exact hrz.symm

/-- **A DISCOVER is answered.**  The client is offered its own address or one that nobody has any
more.  It is left unanswered only if memory has run out, if its hardware address is one of the two
that get no lease, or if it has no lease, all addresses are leased and no lease has run out. -/
theorem discover_answered {a : Arrival} {p : Packet} {serverId requestIp : Option UInt32}
    (hrun : (server e).Run (.new c) ls s) (ht : ∀ l ∈ ls, Timely c l.1)
    (hend : c.endIp ≠ 0xffffffff) (hheard : Heard c a p DHCPDISCOVER serverId requestIp) :
    (∃ y s', (server e).step s (a, [s.offer e p y]) s' ∧ s.Free a.now p.mac y ∧ Usable c y p.mac) ∨
      (server e).step s (a, []) s ∧ (a.oom = true ∨ p.mac = MAC_BCAST_ADDR ∨ p.mac = MAC_ANY_ADDR ∨
        (∀ x ∈ s.book, x.holder ≠ p.mac) ∧ s.Exhausted a.now) := by
  obtain ⟨hcons, rfl⟩ := consistent_run hrun
  obtain ⟨lease, hfind⟩ := Server.findLeaseByMac_ok hcons p.mac
  have heq := (Server.listenerEvent_heard hheard e).trans
    (Server.answer_discover_eq e a.now hfind serverId requestIp a.oom)
  rcases Server.sendOffer_spec hcons e a.now p hfind (requestIp.getD 0) a.oom with
    ⟨-, hmax⟩ | ⟨hoff, hwhy⟩ | ⟨y, s', hoff, hfree, hu, -⟩
  · exact absurd hmax hend
  · refine Or.inr ⟨heq.trans hoff, ?_⟩
    by_contra hnot
    obtain ⟨hoom, hb, ha, hfull⟩ : ¬ a.oom = true ∧ p.mac ≠ MAC_BCAST_ADDR ∧
      p.mac ≠ MAC_ANY_ADDR ∧ _ := by
      simpa only [not_or] using hnot
    exact hfull (hwhy hend (ordered_run hrun ht) (eq_false_of_ne_true hoom) hb ha)
  · exact Or.inl ⟨y, s', heq.trans hoff, hfree, hu⟩

/-- The first client of a server with free addresses. -/
theorem discover_answered_first : ∃ a p y s, p.mac = ⟨[2, 0, 0, 0, 0, 1], rfl⟩ ∧
    (server .big).step (.new .lan) (a, [(Server.new .lan).offer .big p y]) s ∧
    Usable .lan y p.mac := by
  obtain ⟨a, p, hheard, hmac, -, hoom⟩ := heard_discover .lan (.plain ⟨[2, 0, 0, 0, 0, 1], rfl⟩) 0 0
  rcases discover_answered (e := .big) (.nil _) nofun (by decide) hheard with
    ⟨y, s, hs, -, hu⟩ | ⟨-, hoom' | hb | ha | ⟨-, hex⟩⟩
  · exact ⟨a, p, y, s, hmac, hs, hu⟩
  · rw [hoom] at hoom'
    cases hoom'
  · exact absurd (hmac.symm.trans hb) (by decide)
  · exact absurd (hmac.symm.trans ha) (by decide)
  · obtain ⟨x, hx, -⟩ := hex.1 _ candidate_lan
    rw [Server.book_new] at hx
    exact hx.elim

/-! ### An offer reserves nothing -/

/-- What a server does with a DISCOVER it answers. -/
theorem offer_step {a : Arrival} {p : Packet} {sid req : Option UInt32} {r : Reply}
    (h : s.Consistent) (hp : Heard s.toConfig a p DHCPDISCOVER sid req)
    (hs : (server e).step s (a, [r]) s') :
    ∃ y, r = s.offer e p y ∧ Usable s.toConfig y p.mac ∧
    s'.book = Tenure.assign s.book ⟨p.mac, y, 300⟩ := by
  obtain ⟨lease, hfind⟩ := Server.findLeaseByMac_ok h p.mac
  have heq := (Server.listenerEvent_heard hp e).trans
    (Server.answer_discover_eq e a.now hfind sid req a.oom)
  have hstep : s.listenerEvent e a.now a.payload a.behind a.oom = .ok (s', [r]) := hs
  rw [hstep] at heq
  rcases Server.sendOffer_spec h e a.now p hfind (req.getD 0) a.oom with
    ⟨hoff, -⟩ | ⟨hoff, -⟩ | ⟨y, t, hoff, -, hu, -, -, hbook, -⟩
  · cases heq.trans hoff
  · cases heq.trans hoff
  · cases heq.trans hoff
    exact ⟨y, rfl, hu, hbook⟩

/-- What a reply of the type `t` with the address `y` may answer. -/
def Answering (type t : UInt8) (y : UInt32) : Prop :=
  type = DHCPDISCOVER ∧ t = DHCPOFFER ∨ type = DHCPREQUEST ∧ (t = DHCPACK ∧ y ≠ 0 ∨ t = DHCPNAK) ∨
    type = DHCPINFORM ∧ t = DHCPACK

/-- A packet has at most one reply, which answers it, with the server's identifier first and, if it
has an address, the lease time. -/
theorem serves_reply {p : Packet} {type : UInt8} {now : Int} {deed : Deed Mac UInt32}
    {out : List Reply} (h : s.Consistent)
    (hserves : Serves e s.toConfig s.book now p type deed out) :
    out = [] ∨ ∃ r t y more, out = [r] ∧ Answering type t y ∧
      r.packet = reply p t y (serverIdItem s.toConfig :: more) ∧
      (∀ o ∈ serverIdItem s.toConfig :: more, Addable o) ∧
      (y ≠ 0 → ∃ rest, more = leaseTimeItem s.toConfig :: rest) := by
  have hlease : ∀ o ∈ leaseItems s.toConfig, Addable o := fun o ho => addable_items ho
  cases hserves with
  | silent => exact Or.inl rfl
  | offer y hfree hu =>
      refine Or.inr ⟨_, DHCPOFFER, y, _, rfl, Or.inl ⟨rfl, rfl⟩, ?_, hlease, fun _ => ⟨_, rfl⟩⟩
      rw [Config.offer, sendPacket_packet]
      rfl
  | ack x hx hmac =>
      have h₀ : x.resource ≠ 0 := by
        obtain ⟨q, l, hq, rfl⟩ := hx
        exact (h.usable q l hq).not_zero
      refine Or.inr ⟨_, DHCPACK, x.resource, _, rfl, Or.inr (Or.inl ⟨rfl, Or.inl ⟨rfl, h₀⟩⟩),
        ?_, hlease, fun _ => ⟨_, rfl⟩⟩
      rw [Config.ack, sendPacket_packet]
      rfl
  | nak =>
      refine Or.inr ⟨_, DHCPNAK, 0, [], rfl, Or.inr (Or.inl ⟨rfl, Or.inr rfl⟩), rfl,
        fun o ho => hlease o ?_, fun h0 => absurd rfl h0⟩
      rw [List.mem_singleton.mp ho]
      exact List.mem_cons_self
  | decline => exact Or.inl rfl
  | release => exact Or.inl rfl
  | inform =>
      refine Or.inr ⟨_, DHCPACK, 0, serverItems s.toConfig, rfl, Or.inr (Or.inr ⟨rfl, rfl⟩), ?_,
        fun o ho => hlease o ?_, fun h0 => absurd rfl h0⟩
      · rw [Config.informed, sendPacket_packet]
      · rcases List.mem_cons.mp ho with rfl | ho
        · exact List.mem_cons_self
        · exact List.mem_cons_of_mem _ (List.mem_cons_of_mem _ ho)

/-- **What the client reads.**  Whatever a server sends, in any run, a client on a host of any byte
order accepts it and reads its own transaction and hardware address in it, the address, the type,
the server's identifier and, with an address, the lease time. -/
theorem replies_over_wire {r : Reply} (hrun : (server e).Run (.new c) ls s)
    (hs : (server e).step s l s') (hr : r ∈ l.2) (e' : Endian) (sourceIp : UInt32)
    (sourcePort : UInt16) (stale : Packet) :
    ∃ p type serverId requestIp q t, Heard c l.1 p type serverId requestIp ∧
      dhcpRecvL2Packet e' (rawPacket e r.packet sourceIp sourcePort r.destIp 68) stale =
      .packet 548 q ∧
      q.xid = p.xid ∧ q.chaddr = p.chaddr ∧ q.yiaddr = r.packet.yiaddr ∧
      Typed r.packet t ∧ Typed q t ∧
      Reads q DHCP_SERVER_ID c.serverNip ∧
      (q.yiaddr ≠ 0 → Reads q DHCP_LEASE_TIME c.leaseSeconds) := by
  obtain ⟨hcons, rfl⟩ := consistent_run hrun
  rcases server_step hcons hs with ⟨-, hout⟩ | ⟨p, type, sid, req, deed, hheard, hserves, -⟩
  · rw [hout] at hr
    cases hr
  rcases serves_reply hcons hserves with hout | ⟨r', t, y, more, hout, -, hpacket, hitems, htime⟩
  · rw [hout] at hr
    cases hr
  rw [hout, List.mem_singleton] at hr
  subst hr
  obtain ⟨q, hrecv, hq, hbuilt⟩ := @reply_over_wire p t y _ e e' hitems
    sourceIp r.destIp sourcePort stale
  have hy : q.yiaddr = y := by
    rw [hq]
    rfl
  refine ⟨p, type, sid, req, q, t, hheard, ?_, ?_, ?_, ?_, ?_, hbuilt.typed, hbuilt.serverId,
    fun h0 => ?_⟩
  · rw [hpacket]
    exact hrecv
  · rw [hq]
    rfl
  · rw [hq]
    rfl
  · rw [hy, hpacket]
    rfl
  · rw [hpacket]
    exact (built_reply hitems).typed
  · rw [hy] at h0
    obtain ⟨rest, rfl⟩ := htime h0
    exact hbuilt.leaseTime

/-- What a big-endian client reads of the first OFFER of a little-endian server. -/
theorem replies_over_wire_offer : ∃ (r : Reply) (q : Packet),
    dhcpRecvL2Packet .big (rawPacket .little r.packet 0xc0a84d01 67 r.destIp 68) .zero =
      .packet 548 q ∧
      Typed q DHCPOFFER ∧ Reads q DHCP_SERVER_ID 0xc0a84d01 ∧ Reads q DHCP_LEASE_TIME 3600 := by
  obtain ⟨a, p, y, s, hheard, -, -, hs, hu, -⟩ := first_offer .little (by decide) candidate_lan
    (.plain ⟨[2, 0, 0, 0, 0, 1], rfl⟩) (by decide) (by decide) 0
  obtain ⟨_, _, _, _, q, t, -, hrecv, -, -, hy, htyped, hread, hserver, htime⟩ :=
    replies_over_wire (.nil _) hs List.mem_cons_self .big 0xc0a84d01 67 .zero
  have hpacket : ((Server.new .lan).offer .little p y).packet =
      reply p DHCPOFFER y (leaseItems .lan) := by
    rw [Config.offer, sendPacket_packet]
    rfl
  rw [hpacket] at hy htyped
  have ht := htyped.eq (built_reply fun _ => addable_items).typed
  refine ⟨_, q, hrecv, ht ▸ hread, hserver, htime ?_⟩
  rw [hy]
  exact hu.not_zero

end OpenWfd.Dhcp
