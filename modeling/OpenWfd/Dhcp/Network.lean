import OpenWfd.Dhcp.Handshake
import OpenWfd.Support.Phases
import Mathlib.Logic.Function.Basic
import Mathlib.Logic.Relation

/-!
# Dhcp — Network

A server and its clients on one link.  Every client has a channel to the server and one back, in
which packets keep their order; the server's replies go down all channels, as frames to everyone or
as datagrams, whichever the client listens to.  Any packet may be lost, any timeout may be late, any
client may be started and stopped, and all hosts may have different byte orders.  The states that
the network gets into (`World.Reachable`) are those that careful steps lead to: a client is started
only when it is idle, and its transaction numbers are new.

What is under way between a client and the server is one stream, down and up.  The letters of the
client's own transaction come in it in phases (`InOrder`): while the client looks for a server, its
REQUESTs and their answers before its DISCOVERs and their answers; while it waits for an ACK, the
other way round; and once it has an address there are only REQUESTs and their answers.
-/

namespace OpenWfd.Dhcp

open Tlv (Item)
open Server (Reply)

/-- A server, its clients, and what is under way. -/
structure World where
  server : Server
  clock : Int
  client : Mac → Client
  /-- What a client has sent and the server has not read, oldest first. -/
  up : Mac → List Packet
  /-- What the server has sent and a client has not read, with the time it was sent. -/
  down : Mac → List (Int × Reply)
  /-- The address of the ACK a client was last bound by, and the time that was sent. -/
  grant : Mac → Option (UInt32 × Int)

namespace World

/-- The server has no leases, no client has been started, and nothing is under way. -/
def new (cfg : Config) (clients : Mac → ClientConfig) : World where
  server := .new cfg
  clock := 0
  client := fun k => .new (clients k)
  up := fun _ => []
  down := fun _ => []
  grant := fun _ => none

/-- A client goes on, and sends something. -/
def turn (w : World) (k : Mac) (c : Client) (out : List Act) : World :=
  { w with
    client := Function.update w.client k c
    up := Function.update w.up k (w.up k ++ packets out) }

/-- The server reads a packet, and its replies go down all channels. -/
def serve (w : World) (k : Mac) (rest : List Packet) (s : Server) (out : List Reply) : World :=
  { w with
    server := s
    up := Function.update w.up k rest
    down := fun j => w.down j ++ out.map fun r => (w.clock, r) }

/-- A client reads a reply that was sent at the time `t`. -/
def heed (w : World) (k : Mac) (t : Int) (r : Reply) (rest : List (Int × Reply)) (c : Client)
    (out : List Act) : World :=
  { w.turn k c out with
    down := Function.update w.down k rest
    grant := if Act.leaseAvailable ∈ out then Function.update w.grant k (some (r.packet.yiaddr, t))
      else w.grant }

/-- What reaches a client of a reply: a frame, or a datagram if it listens to a socket of the
kernel. -/
def carried (es : Endian) (w : World) (k : Mac) (r : Reply) : List UInt8 :=
  if (w.client k).listenMode = .l3 then datagram r.packet
  else rawPacket es r.packet w.server.serverNip 67 r.destIp 68

/-- What may happen: time passes, a client is started or stopped or a timeout of it calls, the
server reads a packet, a client reads one, or a packet is lost. -/
inductive Happening where
  | tick (d : Nat)
  | start (k : Mac) (v : Env) (last : LastAddress)
  | fire (k : Mac) (v : Env) (i : Nat)
  | stop (k : Mac) (v : Env)
  | serve (k : Mac) (behind : Nat → UInt8) (oom : Bool)
  | deliver (k : Mac) (v : Env) (stale : Packet) (behind : Nat → UInt8)
  | loseUp (k : Mac)
  | loseDown (k : Mac)

/-- What it does. -/
inductive Step (es : Endian) (ec : Mac → Endian) (w : World) : Happening → World → Prop where
  | tick (d : Nat) : Step es ec w (.tick d) { w with clock := w.clock + d }
  | start (k : Mac) (v : Env) (last : LastAddress) {c' : Client} {out : List Act}
      (hrun : (w.client k).gDhcpClientStart (ec k) v last = .ok (c', out)) :
      Step es ec w (.start k v last) (w.turn k c' out)
  | fire (k : Mac) (v : Env) (i : Nat) {x : Callback × UInt32} {c' : Client} {out : List Act}
      (hi : (w.client k).sources i = some x) (hrun : (w.client k).fire (ec k) v i = .ok (c', out)) :
      Step es ec w (.fire k v i) (w.turn k c' out)
  | stop (k : Mac) (v : Env) :
      Step es ec w (.stop k v)
        (w.turn k ((w.client k).gDhcpClientStop (ec k) v).1
          ((w.client k).gDhcpClientStop (ec k) v).2)
  | serve (k : Mac) {p : Packet} {rest : List Packet} (behind : Nat → UInt8) (oom : Bool)
      {s' : Server} {out : List Reply} (hup : w.up k = p :: rest)
      (hrun : (Dhcp.server es).step w.server (⟨w.clock, datagram p, behind, oom⟩, out) s') :
      Step es ec w (.serve k behind oom) (w.serve k rest s' out)
  | deliver (k : Mac) {t : Int} {r : Reply} {rest : List (Int × Reply)} (v : Env) (stale : Packet)
      (behind : Nat → UInt8) {c' : Client} {out : List Act} (hdown : w.down k = (t, r) :: rest)
      (hrun : (w.client k).listenerEvent (ec k) v (w.carried es k r) stale behind = .ok (c', out)) :
      Step es ec w (.deliver k v stale behind) (w.heed k t r rest c' out)
  | loseUp (k : Mac) {l l' : List Packet} {p : Packet} (hup : w.up k = l ++ p :: l') :
      Step es ec w (.loseUp k) { w with up := Function.update w.up k (l ++ l') }
  | loseDown (k : Mac) {l l' : List (Int × Reply)} {m : Int × Reply}
      (hdown : w.down k = l ++ m :: l') :
      Step es ec w (.loseDown k) { w with down := Function.update w.down k (l ++ l') }

/-! ### Careful steps -/

/-- No packet to or from the client carries this number. -/
def Unused (e : Endian) (w : World) (k : Mac) (x : UInt32) : Prop :=
  (∀ p ∈ w.up k, p.xid ≠ e.raw x) ∧ ∀ m ∈ w.down k, m.2.packet.mac = k → m.2.packet.xid ≠ e.raw x

/-- A client is started only when it is idle, and the number that it may draw for a transaction is
not that of a packet under way. -/
def Careful (ec : Mac → Endian) (w : World) : Happening → Prop
  | .start k v _ =>
      (w.client k).Idle ∧ w.Unused (ec k) k v.rand
  | .fire k v _ | .stop k v                                     => w.Unused (ec k) k v.rand
  | .tick _ | .serve .. | .deliver .. | .loseUp _ | .loseDown _ => True

/-- A careful step. -/
def CarefulStep (es : Endian) (ec : Mac → Endian) (w w' : World) : Prop :=
  ∃ a, w.Careful ec a ∧ Step es ec w a w'

theorem Step.careful {es : Endian} {ec : Mac → Endian} {w w' : World} {a : Happening}
    (hs : Step es ec w a w') (h : w.Careful ec a) : CarefulStep es ec w w' :=
  ⟨a, h, hs⟩

/-- A state that careful steps lead to. -/
def Reachable (es : Endian) (ec : Mac → Endian) (cfg : Config) (clients : Mac → ClientConfig)
    (w : World) : Prop :=
  Relation.ReflTransGen (CarefulStep es ec) (new cfg clients) w

end World

/-! ### The letters -/

/-- What a packet is to a client with a transaction: nothing, or part of its search, or of its
request. -/
inductive Letter where
  | junk | search | request
  deriving DecidableEq

/-- The letter of a type. -/
def Letter.ofType (type : UInt8) : Letter :=
  if type = DHCPDISCOVER ∨ type = DHCPOFFER then .search
  else if type = DHCPREQUEST ∨ type = DHCPACK ∨ type = DHCPNAK then .request
  else .junk

/-- The letter of a packet, for the transaction `xid`. -/
def letter (xid : UInt32) (p : Packet) : Letter :=
  if p.xid ≠ xid then .junk
  else
    match dhcpGetOption (p.memory fun _ => 0) DHCP_MESSAGE_TYPE with
    | some (some a) => .ofType (p.memory (fun _ => 0) a)
    | _             => .junk

variable {k : Mac} {type : UInt8} {x : UInt32} {p q : Packet}

theorem letter_junk (h : p.xid ≠ x) : letter x p = .junk := if_pos h

theorem letter_typed (h : Typed p type) (hxid : p.xid = x) : letter x p = .ofType type := by
  obtain ⟨a, ha, htype⟩ := h fun _ => 0
  unfold letter
  rw [if_neg (not_not_intro hxid), ha, ← htype]

/-- The phases while the client looks for a server. -/
def searching : Letter → Nat
  | .junk    => 0
  | .request => 1
  | .search  => 2

/-- The phases while it waits for an ACK. -/
def waiting : Letter → Nat
  | .junk    => 0
  | .search  => 1
  | .request => 2

/-- The order of what is under way, as far as the client is. -/
structure InOrder (c : Client) (ls : List Letter) : Prop where
  searching : c.state = .initSelecting → c.listenMode = .none ∨ Phased searching ls
  waiting : c.state = .requesting → Phased waiting ls
  holding : Client.Holding c.state ∨ c.Restarting → ∀ l ∈ ls, l = .request

/-- What is under way between the client and the server. -/
def World.stream (w : World) (k : Mac) : List Packet :=
  ((w.down k).map fun m => m.2.packet).filter (fun p => p.mac = k) ++ w.up k

/-- Its letters. -/
def World.letters (ec : Mac → Endian) (w : World) (k : Mac) : List Letter :=
  (w.stream k).map (letter ((ec k).raw (w.client k).xid))

theorem InOrder.sublist {c : Client} {ls ls' : List Letter} (h : InOrder c ls)
    (hs : ls'.Sublist ls) : InOrder c ls' :=
  ⟨fun hstate => (h.searching hstate).imp_right (Phased.sublist · hs),
    fun hstate => (h.waiting hstate).sublist hs,
    fun hhold l hl => h.holding hhold l (hs.subset hl)⟩

/-! ### What is said and what is read -/

/-- The types of what these clients send. -/
def Asking (type : UInt8) : Prop := type = DHCPDISCOVER ∨ type = DHCPREQUEST ∨ type = DHCPRELEASE

/-- A packet of a client. -/
def Sent (k : Mac) (p : Packet) : Prop := ∃ type xid, Asking type ∧ Says k type xid p

theorem Says.typed (h : Says k type x p) : Typed p type := by
  obtain ⟨ciaddr, items, hposted, -⟩ := h
  exact hposted.built.typed

theorem Says.letter (h : Says k type x p) : Dhcp.letter x p = .ofType type := by
  obtain ⟨ciaddr, items, hposted, -⟩ := id h
  exact letter_typed h.typed hposted.xid

/-- What the server hears of a client's packet. -/
theorem Sent.heard (h : Sent k p) {cfg : Config} {a : Arrival} {sid req : Option UInt32}
    (ha : a.payload = datagram p) (hheard : Heard cfg a q type sid req) :
    Asking type ∧ Typed p type ∧ q.mac = k ∧ q.xid = p.xid := by
  obtain ⟨t, xid, htype, hsays⟩ := h
  have htyped := hsays.typed
  obtain ⟨ciaddr, items, hposted, hvendor⟩ := hsays
  have hrange : DHCPDISCOVER ≤ t ∧ t ≤ DHCPINFORM := by
    rcases htype with rfl | rfl | rfl <;> decide
  obtain ⟨rfl, rfl⟩ := hposted.heard_eq hvendor hrange.1 hrange.2 ha hheard
  exact ⟨htype, htyped, hposted.mac, rfl⟩

/-- A reply to a packet, of a type and with an address. -/
def Replied (p : Packet) (t : UInt8) (y : UInt32) (r : Reply) : Prop :=
  ∃ items, r.packet = reply p t y items ∧ ∀ o ∈ items, Addable o

theorem Replied.typed {t : UInt8} {y : UInt32} {r : Reply} (h : Replied p t y r) :
    Typed r.packet t := by
  obtain ⟨items, hpacket, hitems⟩ := h
  rw [hpacket]
  exact (built_reply hitems).typed

theorem Replied.header {t : UInt8} {y : UInt32} {r : Reply} (h : Replied p t y r) :
    r.packet.mac = p.mac ∧ r.packet.xid = p.xid ∧ r.packet.yiaddr = y := by
  obtain ⟨items, hpacket, -⟩ := h
  rw [hpacket]
  exact ⟨rfl, rfl, rfl⟩

/-- A reply has the letter of what it answers. -/
theorem Replied.letter {t : UInt8} {y : UInt32} {r : Reply} (h : Replied q t y r)
    (hq : q.xid = p.xid) (hp : Typed p type) (hans : Answering type t y) (htype : Asking type) :
    Dhcp.letter x r.packet = Dhcp.letter x p := by
  by_cases hx : p.xid = x
  · rw [letter_typed hp hx, letter_typed h.typed (h.header.2.1.trans (hq.trans hx))]
    rcases hans with ⟨rfl, rfl⟩ | ⟨rfl, ⟨rfl, -⟩ | rfl⟩ | ⟨rfl, -⟩
    · decide
    · decide
    · decide
    · exact absurd htype (by unfold Asking; decide)
  · rw [letter_junk hx, letter_junk fun hr => hx (hq.symm.trans (h.header.2.1.symm.trans hr))]

/-- **What a client reads** of a reply that reaches it. -/
theorem Replied.read {t : UInt8} {y : UInt32} {r : Reply} (h : Replied p t y r) {es e : Endian}
    {w : World} {stale : Packet} {behind : Nat → UInt8}
    (hears : (w.client k).Hears e (w.carried es k r) stale behind q) :
    q.xid = p.xid ∧ q.mac = p.mac ∧ q.yiaddr = y ∧ Typed q t := by
  obtain ⟨items, hpacket, hitems⟩ := h
  have hbuilt := @built_reply p t y items hitems
  unfold World.carried at hears
  rcases hears with ⟨hmode, n, hrecv⟩ | ⟨hmode, hrecv⟩
  · rw [if_neg (by rw [hmode]; decide), hpacket, recv_rawPacket es e rfl] at hrecv
    cases hrecv
    exact ⟨rfl, rfl, rfl, (hbuilt.arrived stale.options).typed⟩
  · rw [if_pos hmode, hpacket, recv_reply (show (reply p t y items).cookie = DHCP_MAGIC from rfl)
      (show BOOTREPLY ≠ BOOTREQUEST by decide)] at hrecv
    cases hrecv
    exact ⟨rfl, rfl, rfl, (hbuilt.arrived (.zero 388)).typed⟩

theorem told_type {t t' : UInt8} {behind : Nat → UInt8} (h : Client.Told q behind t)
    (h' : Typed q t') : t = t' := by
  obtain ⟨a, ha, hat⟩ := h
  obtain ⟨b, hb, hbt⟩ := h' behind
  unfold option at ha
  rw [hb] at ha
  cases ha
  exact hat.symm.trans hbt

end OpenWfd.Dhcp
