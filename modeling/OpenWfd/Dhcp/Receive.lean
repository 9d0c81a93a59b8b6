import OpenWfd.Dhcp.Wire

/-!
# Dhcp — Receive

What the client and the server share when a packet comes in: whom it is from, `dhcp_get_option` of a
packet on the stack, and `dhcp_recv_l3_packet`.
-/

namespace OpenWfd.Dhcp

/-- A hardware address. -/
abbrev Mac := Octets 6

/-- The hardware address a packet is from: what is compared and copied of `chaddr`. -/
def Packet.mac (p : Packet) : Mac := ⟨p.chaddr.1.take 6, by simp [p.chaddr.2]⟩

/-- Why a call does not return. -/
inductive Fault where
  /-- A loop that is never left. -/
  | endless
  /-- Memory is used that has been freed. -/
  | dangling
  /-- A null pointer is read. -/
  | null
  /-- A `memcpy` with a negative length. -/
  | overrun
  deriving DecidableEq, Repr

/-- The call returns, or a search for an option does not. -/
def Patient {α : Type} (r : Except Fault α) : Prop := r = .error .endless ∨ ∃ x, r = .ok x

/-- `dhcp_get_option` of a packet on the stack. -/
def option (p : Packet) (behind : Nat → UInt8) (code : UInt8) : Except Fault (Option Nat) :=
  match dhcpGetOption (p.memory behind) code with
  | some r => .ok r
  | none   => .error .endless

/-- `check_vendor(vendor, "MSFT 98")`: the length it compares with is that of a pointer, less
one. -/
def checkVendor (mem : Nat → UInt8) (vendor : Nat) : Bool :=
  mem (vendor - 1) = 7 ∧
    (List.range 7).map (fun i => mem (vendor + i)) = [0x4d, 0x53, 0x46, 0x54, 0x20, 0x39, 0x38]

/-- `dhcp_recv_l3_packet` of what `read` gave: the packet, if it is one, with the broadcast flag set
for a client that needs it. -/
def dhcpRecvL3Packet (payload : List UInt8) (behind : Nat → UInt8) :
    Except Fault (Option Packet) := do
  let p := Packet.ofBytes (payload.take 628)
  if p.cookie ≠ DHCP_MAGIC then .ok none
  else if p.op ≠ BOOTREQUEST then .ok (some p)
  else
    match ← option p behind DHCP_VENDOR with
    | none        => .ok (some p)
    | some vendor =>
      if checkVendor (p.memory behind) vendor then
        .ok (some { p with flags := p.flags ||| BROADCAST_FLAG })
      else .ok (some p)

theorem patient_option (p : Packet) (behind : Nat → UInt8) (code : UInt8) :
    Patient (option p behind code) := by
  unfold option
  rcases dhcpGetOption (p.memory behind) code with - | o
  · exact Or.inl rfl
  · exact Or.inr ⟨o, rfl⟩

theorem patient_recv (payload : List UInt8) (behind : Nat → UInt8) :
    Patient (dhcpRecvL3Packet payload behind) := by
  unfold dhcpRecvL3Packet
  dsimp only
  split_ifs
  · exact Or.inr ⟨_, rfl⟩
  · exact Or.inr ⟨_, rfl⟩
  · rcases patient_option (.ofBytes (payload.take 628)) behind DHCP_VENDOR with hv |
      ⟨- | vendor, hv⟩
    · exact Or.inl (by simp only [hv, bind, Except.bind])
    · exact Or.inr ⟨some (.ofBytes (payload.take 628)), by simp only [hv, bind, Except.bind]⟩
    · simp only [hv, bind, Except.bind]
      split_ifs
      · exact Or.inr ⟨_, rfl⟩
      · exact Or.inr ⟨_, rfl⟩

/-! ### What is sent is received -/

/-- The first 548 bytes, written to a socket of the kernel, and read from one. -/
def datagram (p : Packet) : List UInt8 := p.toBytes.take 548

theorem ofBytes_datagram (p : Packet) :
    Packet.ofBytes ((datagram p).take 628) =
    { p with options := arrived p.options (.zero 388) } := by
  have hsent : (datagram p).take 628 = p.header ++ p.options.1.take 308 := by
    rw [datagram, List.take_take, Packet.toBytes, List.take_append, p.header_length,
      List.take_of_length_le (by simp [p.header_length])]
    rfl
  have hpad : Octets.ofList (p.options.1.take 308) 0 388 = arrived p.options (.zero 388) := by
    refine Subtype.ext ?_
    rw [Octets.ofList_pad (show (p.options.1.take 308).length + 80 = 388 by simp [p.options.2])]
    rfl
  rw [hsent, ofBytes_header, hpad]

/-- What is not a request is read as it was written. -/
theorem recv_reply {p : Packet} (hmagic : p.cookie = DHCP_MAGIC) (hop : p.op ≠ BOOTREQUEST)
    (behind : Nat → UInt8) :
    dhcpRecvL3Packet (datagram p) behind =
    .ok (some { p with options := arrived p.options (.zero 388) }) := by
  unfold dhcpRecvL3Packet
  rw [ofBytes_datagram]
  dsimp only
  rw [if_neg (by simpa using hmagic), if_pos hop]

/-- **Over a socket.**  A packet of `dhcp_init_header`, with any options but a vendor's, is read as
it was written. -/
theorem recv_datagram {p : Packet} {os : List Tlv.Item} (h : Built p os)
    (hmagic : p.cookie = DHCP_MAGIC) (hvendor : os.find? (fun o => o.code == DHCP_VENDOR) = none)
    (behind : Nat → UInt8) :
    dhcpRecvL3Packet (datagram p) behind =
    .ok (some { p with options := arrived p.options (.zero 388) }) := by
  by_cases hop : p.op ≠ BOOTREQUEST
  · exact recv_reply hmagic hop behind
  have hget := (h.arrived (.zero 388)).get behind DHCP_VENDOR
  rw [hvendor] at hget
  have hoption : option { p with options := arrived p.options (.zero 388) } behind DHCP_VENDOR =
    .ok none := by
    rw [option, hget]
  unfold dhcpRecvL3Packet
  rw [ofBytes_datagram]
  dsimp only
  rw [if_neg (by simpa using hmagic), if_neg hop]
  simp only [hoption, bind, Except.bind]

end OpenWfd.Dhcp
