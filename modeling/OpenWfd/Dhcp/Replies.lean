import OpenWfd.Dhcp.Server
import OpenWfd.Dhcp.Wire

/-!
# Dhcp — Replies

What the server sends: OFFER, ACK, NAK and the answer to an INFORM are one packet (`reply`) with the
client's header, a type, an address and a list of options.  `reply_over_wire`: whoever receives one
gets the header, and its options with `dhcp_get_option`.
-/

namespace OpenWfd.Dhcp

open Tlv (Item)

/-- The fields of a reply to `client`. -/
def replyHeader (client : Packet) (yiaddr : UInt32) (options : Octets 388) : Packet :=
  { Packet.zero with
    op := BOOTREPLY, htype := 1, hlen := 6, cookie := DHCP_MAGIC
    xid := client.xid, chaddr := client.chaddr, flags := client.flags
    gatewayNip := client.gatewayNip, ciaddr := client.ciaddr
    yiaddr := yiaddr, options := options }

/-- A reply to `client`. -/
def reply (client : Packet) (type : UInt8) (yiaddr : UInt32) (items : List Item) : Packet :=
  replyHeader client yiaddr (items.foldl dhcpAddBinaryOption (dhcpInitHeader type)).options

/-- The types of a reply. -/
def Replying (type : UInt8) : Prop := type = DHCPOFFER ∨ type = DHCPACK ∨ type = DHCPNAK

instance (type : UInt8) : Decidable (Replying type) := inferInstanceAs (Decidable (_ ∨ _ ∨ _))

/-- `DHCP_SERVER_ID`. -/
def serverIdItem (c : Config) : Item := ⟨DHCP_SERVER_ID, putBe32 c.serverNip⟩

/-- `DHCP_LEASE_TIME`. -/
def leaseTimeItem (c : Config) : Item := ⟨DHCP_LEASE_TIME, putBe32 c.leaseSeconds⟩

/-- The options `add_server_options` adds. -/
def serverItems (c : Config) : List Item :=
  (c.optionHash.filter fun o => o.1 = DHCP_SUBNET ∨ o.1 = DHCP_ROUTER ∨ o.1 = DHCP_DNS_SERVER).map
    fun o => ⟨o.1, putBe32 o.2⟩

variable {s : Server} {client p : Packet} {type : UInt8} {yiaddr : UInt32} {items : List Item}

theorem reply_add (o : Item) :
    dhcpAddBinaryOption (reply client type yiaddr items) o =
    reply client type yiaddr (items ++ [o]) := by
  obtain ⟨options, heq⟩ := addBinaryOption_rest (reply client type yiaddr items) o
  have hcongr := addBinaryOption_congr
    (show (reply client type yiaddr items).options =
      (items.foldl dhcpAddBinaryOption (dhcpInitHeader type)).options from rfl) o
  rw [heq] at hcongr
  have hoptions :
      options = ((items ++ [o]).foldl dhcpAddBinaryOption (dhcpInitHeader type)).options := by
    rw [List.foldl_append]
    exact hcongr
  rw [heq, hoptions]
  rfl

theorem reply_addAll (more : List Item) :
    more.foldl dhcpAddBinaryOption (reply client type yiaddr items) =
      reply client type yiaddr (items ++ more) := by
  induction more generalizing items with
  | nil => rw [List.append_nil]; rfl
  | cons o more ih => rw [List.foldl_cons, reply_add, ih, List.append_assoc]; rfl

theorem checkOption_uint32 {code : UInt8} {x : UInt32}
    (h : code = DHCP_SUBNET ∨ code = DHCP_ROUTER ∨ code = DHCP_DNS_SERVER ∨ code = DHCP_SERVER_ID ∨
      code = DHCP_LEASE_TIME) : checkOption code (putBe32 x).length = true := by
  rw [putBe32_length]
  rcases h with rfl | rfl | rfl | rfl | rfl <;> decide

theorem addServerOptions_eq (s : Server) (p : Packet) :
    s.addServerOptions p = (serverItems s.toConfig).foldl dhcpAddBinaryOption p := by
  unfold Server.addServerOptions serverItems
  induction s.optionHash generalizing p with
  | nil => rfl
  | cons o os ih =>
      by_cases ho : o.1 = DHCP_SUBNET ∨ o.1 = DHCP_ROUTER ∨ o.1 = DHCP_DNS_SERVER
      · have hcheck : checkOption o.1 (putBe32 o.2).length = true := by
          refine checkOption_uint32 ?_
          tauto
        rw [List.foldl_cons, if_pos ho, ih, List.filter_cons_of_pos (by simpa using ho),
          List.map_cons, List.foldl_cons, dhcpAddOptionUint32, addOption, if_pos hcheck]
      · rw [List.foldl_cons, if_neg ho, ih, List.filter_cons_of_neg (by simpa using ho)]

/-- **`init_packet`.** -/
theorem initPacket_eq (htype : Replying type) :
    s.initPacket client type = reply client type 0 [serverIdItem s.toConfig] := by
  have hcheck : checkOption DHCP_SERVER_ID (putBe32 s.serverNip).length = true :=
    checkOption_uint32 (by simp)
  have hbegun : { dhcpInitHeader type with
      xid := client.xid, chaddr := client.chaddr, flags := client.flags
      gatewayNip := client.gatewayNip, ciaddr := client.ciaddr } = reply client type 0 [] := by
    have hop : (if type = DHCPOFFER ∨ type = DHCPACK ∨ type = DHCPNAK then BOOTREPLY
      else BOOTREQUEST) =
      BOOTREPLY := if_pos htype
    obtain ⟨options, heq⟩ := initHeader_eq type
    rw [hop] at heq
    rw [reply, List.foldl_nil, heq]
    rfl
  rw [Server.initPacket, dhcpAddOptionUint32, addOption, if_pos hcheck, hbegun, reply_add]
  rfl

/-- Whom a packet is from does not depend on the address in it. -/
theorem mac_yiaddr (p : Packet) (y : UInt32) : Packet.mac { p with yiaddr := y } = p.mac := rfl

theorem initPacket_mac (htype : Replying type) :
    Packet.mac { s.initPacket client type with yiaddr := yiaddr } = client.mac := by
  rw [mac_yiaddr, initPacket_eq htype]
  rfl

/-- The options of an OFFER or an ACK. -/
def leaseItems (c : Config) : List Item := serverIdItem c :: leaseTimeItem c :: serverItems c

/-- **What `send_offer` and `send_ACK` send.** -/
theorem leasePacket_eq (htype : Replying type) :
    s.addServerOptions (dhcpAddOptionUint32 { s.initPacket client type with yiaddr := yiaddr }
      DHCP_LEASE_TIME s.leaseSeconds) = reply client type yiaddr (leaseItems s.toConfig) := by
  have hcheck : checkOption DHCP_LEASE_TIME (putBe32 s.leaseSeconds).length = true :=
    checkOption_uint32 (by simp)
  rw [initPacket_eq htype, addServerOptions_eq, dhcpAddOptionUint32, addOption, if_pos hcheck,
    show ({ reply client type 0 [serverIdItem s.toConfig] with yiaddr := yiaddr } : Packet) =
      reply client type yiaddr [serverIdItem s.toConfig] from rfl, reply_add, reply_addAll]
  rfl

/-! ### Over the wire -/

/-- `dhcp_get_option` finds the option with the number `x` in it. -/
def Reads (q : Packet) (code : UInt8) (x : UInt32) : Prop :=
  ∀ behind, ∃ a, dhcpGetOption (q.memory behind) code = some (some a) ∧
  getBe32At (q.memory behind) a = x

/-- Options that are in a packet stay found when more are added. -/
theorem find_added {os : List Item} {o : Item} {f : Item → Bool} (h : os.find? f = some o)
    (more : List Item) : (more.foldl added os).find? f = some o := by
  induction more generalizing os with
  | nil => exact h
  | cons o' more ih =>
      refine ih ?_
      unfold added
      split_ifs
      · rw [List.find?_append, h, Option.some_or]
      · exact h

theorem built_reply (hitems : ∀ o ∈ items, Addable o) :
    Built (reply client type yiaddr items) (items.foldl added (begun type)) := by
  have hbuilt := (built_init type).addAll hitems
  exact ⟨hbuilt.options, hbuilt.addable, hbuilt.room⟩

theorem Built.reads {os : List Item} (h : Built p os) {code : UInt8} {x : UInt32}
    (hfind : os.find? (fun o => o.code == code) = some ⟨code, putBe32 x⟩) : Reads p code x := by
  intro behind
  have hget := h.get behind code
  rw [hfind] at hget
  obtain ⟨a, ha, hspells, hle⟩ := hget
  refine ⟨a, ha, ?_⟩
  have hdata := hspells.drop 2
  rw [show a - 2 + 2 = a by omega] at hdata
  have hbytes := hdata.eq (show _ = 4 from rfl)
  have hlist : [p.memory behind a, p.memory behind (a + 1), p.memory behind (a + 2),
    p.memory behind (a + 3)] =
      putBe32 x := hbytes
  rw [getBe32At, hlist, ← List.append_nil (putBe32 x), getBe32_putBe32]

/-- The message type `dhcp_get_option` finds in a packet. -/
def Typed (q : Packet) (type : UInt8) : Prop :=
  ∀ behind, ∃ a, dhcpGetOption (q.memory behind) DHCP_MESSAGE_TYPE = some (some a) ∧
  q.memory behind a = type

theorem Typed.eq {q : Packet} {t t' : UInt8} (h : Typed q t) (h' : Typed q t') : t = t' := by
  obtain ⟨a, ha, hat⟩ := h fun _ => 0
  obtain ⟨b, hb, hbt⟩ := h' fun _ => 0
  rw [ha] at hb
  cases hb
  exact hat.symm.trans hbt

theorem Built.typed (h : Built p (items.foldl added (begun type))) : Typed p type := by
  intro behind
  have hget := h.get behind DHCP_MESSAGE_TYPE
  rw [find_added (show (begun type).find? _ = some ⟨DHCP_MESSAGE_TYPE, [type]⟩ from rfl) items]
    at hget
  obtain ⟨a, ha, hspells, hle⟩ := hget
  refine ⟨a, ha, ?_⟩
  have hdata := hspells.drop 2
  rw [show a - 2 + 2 = a by omega] at hdata
  exact hdata.head

/-- Options that are added first have room. -/
theorem Built.serverId {c : Config}
    (h : Built p ((serverIdItem c :: items).foldl added (begun type))) :
    Reads p DHCP_SERVER_ID c.serverNip :=
  h.reads (find_added (show (added (begun type) (serverIdItem c)).find? _ = _ from rfl) items)

theorem Built.leaseTime {c : Config}
    (h : Built p ((serverIdItem c :: leaseTimeItem c :: items).foldl added (begun type))) :
    Reads p DHCP_LEASE_TIME c.leaseSeconds :=
  h.reads (find_added
    (show (added (added (begun type) (serverIdItem c)) (leaseTimeItem c)).find? _ = _ from rfl)
    items)

theorem addable_items {c : Config} {o : Item} (ho : o ∈ leaseItems c) : Addable o := by
  rcases List.mem_cons.mp ho with rfl | ho
  · exact checkOption_addable (checkOption_uint32 (by simp))
  · rcases List.mem_cons.mp ho with rfl | ho
    · exact checkOption_addable (checkOption_uint32 (by simp))
    · obtain ⟨x, hx, rfl⟩ := List.mem_map.mp ho
      have hcode := (List.mem_filter.mp hx).2
      simp only [decide_eq_true_eq] at hcode
      exact checkOption_addable (checkOption_uint32 (by tauto))

/-- **Over the wire.**  A reply, sent by `dhcp_send_raw_packet` between hosts of any byte orders, is
accepted by `dhcp_recv_l2_packet` with its header and its options. -/
theorem reply_over_wire (e e' : Endian) (hitems : ∀ o ∈ items, Addable o) (sourceIp destIp : UInt32)
    (sourcePort : UInt16) (stale : Packet) :
    ∃ q, dhcpRecvL2Packet e'
      (rawPacket e (reply client type yiaddr items) sourceIp sourcePort destIp 68) stale =
        .packet 548 q ∧
      q = replyHeader client yiaddr q.options ∧ Built q (items.foldl added (begun type)) :=
  ⟨_, recv_rawPacket e e' rfl sourceIp destIp sourcePort stale, rfl,
    (built_reply hitems).arrived stale.options⟩

end OpenWfd.Dhcp
