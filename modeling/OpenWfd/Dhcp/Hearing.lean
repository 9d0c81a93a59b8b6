import OpenWfd.Dhcp.Requests
import OpenWfd.Dhcp.Service

/-!
# Dhcp — Hearing

What the client sends, the server hears as it was sent, with the numbers among its options
(`Posted.heard`), and as nothing else (`Posted.heard_eq`).
-/

namespace OpenWfd.Dhcp

open Tlv (Item)

variable {k : Mac} {type : UInt8} {xid ciaddr : UInt32} {items : List Item} {p q : Packet}
  {a : Arrival} {cfg : Config} {sid req : Option UInt32}

/-- A number among the options is read. -/
theorem Built.option_map {os : List Item} (h : Built p os) {code : UInt8} {x : Option UInt32}
    (hfind : os.find? (fun o => o.code == code) = x.map fun x => ⟨code, putBe32 x⟩)
    (behind : Nat → UInt8) :
    ∃ o, option p behind code = .ok o ∧ x = o.map (getBe32At (p.memory behind)) := by
  rcases x with - | x
  · exact ⟨none, h.option_none hfind behind, rfl⟩
  · obtain ⟨a, ha, hx⟩ := h.option_eq hfind behind
    exact ⟨some a, ha, congrArg some hx.symm⟩

/-- **What the client sends is heard**, with the numbers among its options. -/
theorem Posted.heard (h : Posted k type xid ciaddr items p) (hvendor : Vendorless items)
    (hlow : DHCPDISCOVER ≤ type) (hhigh : type ≤ DHCPINFORM) (ha : a.payload = datagram p)
    (hsid : (items.foldl added (begun type)).find? (fun o => o.code == DHCP_SERVER_ID) =
      sid.map fun x => ⟨DHCP_SERVER_ID, putBe32 x⟩)
    (hreq : (items.foldl added (begun type)).find? (fun o => o.code == DHCP_REQUESTED_IP) =
      req.map fun x => ⟨DHCP_REQUESTED_IP, putBe32 x⟩)
    (hus : ∀ id ∈ sid, id = cfg.serverNip) : Heard cfg a p.read type sid req := by
  refine ⟨?_, h.read.checkPacketType hlow hhigh a.behind, ?_,
    h.read.built.option_map hsid a.behind, hus, h.read.built.option_map hreq a.behind⟩
  · rw [ha]
    exact h.recv hvendor a.behind
  · rintro rfl
    exact absurd hlow (by decide)

/-- And as nothing else. -/
theorem Posted.heard_eq (h : Posted k type xid ciaddr items p) (hvendor : Vendorless items)
    (hlow : DHCPDISCOVER ≤ type) (hhigh : type ≤ DHCPINFORM) (ha : a.payload = datagram p)
    {type' : UInt8} (hheard : Heard cfg a q type' sid req) : type' = type ∧ q = p.read := by
  have hpacket := hheard.packet
  rw [ha, h.recv hvendor] at hpacket
  have hq : q = p.read := (Option.some.inj (Except.ok.inj hpacket)).symm
  subst hq
  have htype := hheard.type_eq
  rw [h.read.checkPacketType hlow hhigh] at htype
  exact ⟨(Except.ok.inj htype).symm, rfl⟩

/-! ### The numbers in a DISCOVER and in a REQUEST -/

theorem discover_serverId (c : ClientConfig) (addr : UInt32) :
    ((discoverItems c addr).foldl added (begun DHCPDISCOVER)).find?
      (fun o => o.code == DHCP_SERVER_ID) = none := by
  unfold discoverItems
  rw [List.foldl_append]
  refine lastItems_find (by decide) ?_
  split_ifs
  · rfl
  · rfl

theorem discover_requested (c : ClientConfig) (addr : UInt32) :
    ((discoverItems c addr).foldl added (begun DHCPDISCOVER)).find?
      (fun o => o.code == DHCP_REQUESTED_IP) =
      (if addr ≠ 0 then some addr else none).map fun x => ⟨DHCP_REQUESTED_IP, putBe32 x⟩ := by
  unfold discoverItems
  rw [List.foldl_append]
  split_ifs
  · exact find_added rfl _
  · exact lastItems_find (by decide) rfl

theorem select_serverId (c : Client) :
    ((selectItems c).foldl added (begun DHCPREQUEST)).find? (fun o => o.code == DHCP_SERVER_ID) =
      (some c.serverIp).map fun x => ⟨DHCP_SERVER_ID, putBe32 x⟩ := by
  unfold selectItems
  rw [List.foldl_append]
  exact find_added rfl _

theorem select_requested (c : Client) :
    ((selectItems c).foldl added (begun DHCPREQUEST)).find? (fun o => o.code == DHCP_REQUESTED_IP) =
      (some c.requestedIp).map fun x => ⟨DHCP_REQUESTED_IP, putBe32 x⟩ := by
  unfold selectItems
  rw [List.foldl_append]
  exact find_added rfl _

/-! ### What a client may send -/

/-- A DISCOVER that asks for an address, or for none. -/
theorem heard_discover (cfg : Config) (k : ClientConfig) (now : Int) (addr : UInt32) :
    ∃ a p, Heard cfg a p DHCPDISCOVER none (if addr ≠ 0 then some addr else none) ∧
      p.mac = k.macAddress ∧
      a.now = now ∧ a.oom = false := by
  obtain ⟨p, -, hposted⟩ := posted_discover .big (.new k) ⟨now, 0, true⟩ addr
  exact ⟨⟨now, datagram p, fun _ => 0, false⟩, p.read, hposted.heard (vendorless_discover _ _)
    (by decide) (by decide)
    rfl (discover_serverId _ _) (discover_requested _ _) nofun, hposted.mac, rfl, rfl⟩

/-- A REQUEST for an address to the server. -/
theorem heard_select (cfg : Config) (k : ClientConfig) (now : Int) (addr : UInt32) :
    ∃ a p, Heard cfg a p DHCPREQUEST (some cfg.serverNip) (some addr) ∧ p.mac = k.macAddress ∧
      a.now = now ∧ a.oom = false := by
  obtain ⟨p, -, hposted⟩ :=
    posted_select .big { Client.new k with serverIp := cfg.serverNip, requestedIp := addr }
      ⟨now, 0, true⟩
  refine ⟨⟨now, datagram p, fun _ => 0, false⟩, p.read, hposted.heard (vendorless_select _)
    (by decide) (by decide)
    rfl (select_serverId _) (select_requested _) ?_, hposted.mac, rfl, rfl⟩
  rintro id hid
  exact (Option.some.inj hid).symm

end OpenWfd.Dhcp
