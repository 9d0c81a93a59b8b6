import OpenWfd.Support.Loop
import OpenWfd.Support.Memory
import OpenWfd.Support.Octets
import OpenWfd.Support.Tlv

/-!
# Dhcp — Packet

`struct dhcp_packet` of `src/gdhcp/common.h` and the functions of `src/gdhcp/common.c` that read and
write its options.  An option is reached through a pointer into the packet; here that is an address,
counted from the packet's first byte, and the memory behind the packet is there to be read.
-/

namespace OpenWfd.Dhcp

/-! ### `common.h` -/

def BOOTREQUEST : UInt8 := 1

def BOOTREPLY : UInt8 := 2

def DHCP_MAGIC : UInt32 := 0x63825363

/-- `DHCP_OPTIONS_BUFSIZE`: what is sent of the options. -/
def OPTIONS_BUFSIZE : Nat := 308

def BROADCAST_FLAG : UInt16 := 0x8000

def DHCP_PADDING : UInt8 := 0x00
def DHCP_SUBNET : UInt8 := 0x01
def DHCP_ROUTER : UInt8 := 0x03
def DHCP_DNS_SERVER : UInt8 := 0x06
def DHCP_HOST_NAME : UInt8 := 0x0c
def DHCP_REQUESTED_IP : UInt8 := 0x32
def DHCP_LEASE_TIME : UInt8 := 0x33
def DHCP_OPTION_OVERLOAD : UInt8 := 0x34
def DHCP_MESSAGE_TYPE : UInt8 := 0x35
def DHCP_SERVER_ID : UInt8 := 0x36
def DHCP_PARAM_REQ : UInt8 := 0x37
def DHCP_MAX_SIZE : UInt8 := 0x39
def DHCP_VENDOR : UInt8 := 0x3c
def DHCP_CLIENT_ID : UInt8 := 0x3d
def DHCP_END : UInt8 := 0xff

def FILE_FIELD : UInt8 := 1
def SNAME_FIELD : UInt8 := 2

def DHCPDISCOVER : UInt8 := 1
def DHCPOFFER : UInt8 := 2
def DHCPREQUEST : UInt8 := 3
def DHCPDECLINE : UInt8 := 4
def DHCPACK : UInt8 := 5
def DHCPNAK : UInt8 := 6
def DHCPRELEASE : UInt8 := 7
def DHCPINFORM : UInt8 := 8

/-- `struct dhcp_packet`.  A field of two or four bytes is the number its bytes spell in network
order. -/
structure Packet where
  op : UInt8
  htype : UInt8
  hlen : UInt8
  hops : UInt8
  xid : UInt32
  secs : UInt16
  flags : UInt16
  ciaddr : UInt32
  yiaddr : UInt32
  siaddrNip : UInt32
  gatewayNip : UInt32
  chaddr : Octets 16
  sname : Octets 64
  file : Octets 128
  cookie : UInt32
  options : Octets 388
  deriving DecidableEq

namespace Packet

/-- `memset(packet, 0, sizeof(*packet))`. -/
def zero : Packet :=
  ⟨0, 0, 0, 0, 0, 0, 0, 0, 0, 0, 0, .zero 16, .zero 64, .zero 128, 0, .zero 388⟩

/-- What stands before the options. -/
def header (p : Packet) : List UInt8 :=
  [p.op, p.htype, p.hlen, p.hops] ++ (putBe32 p.xid ++ (putBe16 p.secs ++ (putBe16 p.flags ++
    (putBe32 p.ciaddr ++ (putBe32 p.yiaddr ++ (putBe32 p.siaddrNip ++ (putBe32 p.gatewayNip ++
      (p.chaddr.1 ++ (p.sname.1 ++ (p.file.1 ++ putBe32 p.cookie))))))))))

/-- The bytes of the packet. -/
def toBytes (p : Packet) : List UInt8 := p.header ++ p.options.1

/-- The packet these bytes, and zeros after them, are. -/
def ofBytes (bs : List UInt8) : Packet where
  op := bs.getD 0 0
  htype := bs.getD 1 0
  hlen := bs.getD 2 0
  hops := bs.getD 3 0
  xid := getBe32 (Octets.ofList bs 4 4).1
  secs := getBe16 (Octets.ofList bs 8 2).1
  flags := getBe16 (Octets.ofList bs 10 2).1
  ciaddr := getBe32 (Octets.ofList bs 12 4).1
  yiaddr := getBe32 (Octets.ofList bs 16 4).1
  siaddrNip := getBe32 (Octets.ofList bs 20 4).1
  gatewayNip := getBe32 (Octets.ofList bs 24 4).1
  chaddr := .ofList bs 28 16
  sname := .ofList bs 44 64
  file := .ofList bs 108 128
  cookie := getBe32 (Octets.ofList bs 236 4).1
  options := .ofList bs 240 388

/-- The memory around a packet: its bytes, then what stands behind it. -/
def memory (p : Packet) (behind : Nat → UInt8) (a : Nat) : UInt8 :=
  match p.toBytes[a]? with
  | some b => b
  | none   => behind (a - 628)

end Packet

/-- A field of the packet that holds options. -/
inductive Field where
  | options | file | sname
  deriving DecidableEq, Repr

/-- Where it starts. -/
def Field.base : Field → Nat
  | .options => 240
  | .file    => 108
  | .sname   => 44

/-- `sizeof` it. -/
def Field.size : Field → Nat
  | .options => 388
  | .file    => 128
  | .sname   => 64

/-- Its bytes. -/
def Field.bytes (p : Packet) : Field → List UInt8
  | .options => p.options.1
  | .file    => p.file.1
  | .sname   => p.sname.1

/-! ### Reading an option -/

/-- The locals of `dhcp_get_option`. -/
structure Walk where
  optionptr : Nat
  rem : Int
  overload : UInt8
  deriving DecidableEq, Repr

/-- The start of a field. -/
def Walk.start (f : Field) (overload : UInt8) : Walk := ⟨f.base, f.size, overload⟩

/-- One round of `dhcp_get_option`. -/
def Walk.body (mem : Nat → UInt8) (code : UInt8) (w : Walk) : Walk ⊕ Option Nat :=
  if w.rem ≤ 0 then
    -- bad packet, malformed option field
    .inr none
  else if mem w.optionptr = DHCP_PADDING then
    .inl { w with rem := w.rem - 1, optionptr := w.optionptr + 1 }
  else if mem w.optionptr = DHCP_END then
    if w.overload &&& FILE_FIELD ≠ 0 then
      .inl (Walk.start .file (w.overload &&& ~~~FILE_FIELD))
    else if w.overload &&& SNAME_FIELD ≠ 0 then
      .inl (Walk.start .sname (w.overload &&& ~~~SNAME_FIELD))
    else
      .inr none
  else
    let len := 2 + (mem (w.optionptr + 1)).toNat
    let w := { w with rem := w.rem - len }
    if w.rem < 0 then
      -- complain and return NULL
      .inl w
    else if mem w.optionptr = code then
      .inr (some (w.optionptr + 2))
    else
      let overload :=
        if mem w.optionptr = DHCP_OPTION_OVERLOAD then w.overload ||| mem (w.optionptr + 2)
        else w.overload
      .inl { w with overload := overload, optionptr := w.optionptr + len }

/-- `dhcp_get_option`: the address of the option's data.  `none` is a call that does not return: a
loop that is left at all is left within 2048 rounds (`getOption_returns`). -/
def dhcpGetOption (mem : Nat → UInt8) (code : UInt8) : Option (Option Nat) :=
  Loop.iterate (Walk.body mem code) 2048 (Walk.start .options 0)

/-- `get_be32` through a pointer. -/
def getBe32At (mem : Nat → UInt8) (a : Nat) : UInt32 :=
  getBe32 [mem a, mem (a + 1), mem (a + 2), mem (a + 3)]

/-! ### Writing options -/

/-- `dhcp_end_option`, from `i` on; `none` if the loop leaves the array. -/
def endOption (optionptr : List UInt8) : Nat → Nat → Option Nat
  | 0, _        => none
  | fuel + 1, i =>
    match optionptr[i]? with
    | none   => none
    | some c =>
      if c = DHCP_END then some i
      else if c = DHCP_PADDING then endOption optionptr fuel (i + 1)
      else
        match optionptr[i + 1]? with
        | none   => none
        | some l => endOption optionptr fuel (i + (l.toNat + 2 - 1) + 1)

/-- `dhcp_end_option`. -/
def dhcpEndOption (optionptr : List UInt8) : Option Nat := endOption optionptr optionptr.length 0

/-- An array of bytes after a `memcpy` into it; unchanged if that does not fit. -/
def Octets.write {n : Nat} (a : Octets n) (off : Nat) (src : List UInt8) : Octets n :=
  if h : off + src.length ≤ n then
    ⟨memcpy a.1 off src, by rw [memcpy_length (by rw [a.2]; exact h), a.2]⟩
  else a

/-- `dhcp_add_binary_option`. -/
def dhcpAddBinaryOption (p : Packet) (addopt : Tlv.Item) : Packet :=
  match dhcpEndOption p.options.1 with
  | none    => p
  | some fin =>
    let len := 2 + addopt.data.length
    -- end position + (option code/length + addopt length) + end option
    if fin + len + 1 ≥ OPTIONS_BUFSIZE then p
    else
      let options := Octets.write p.options fin addopt.bytes
      { p with options := Octets.write options (fin + len) [DHCP_END] }

/-- `GDHCPOptionType`, without its flag `OPTION_LIST`. -/
inductive OptionType where
  | UNKNOWN | IP | STRING | U8 | U16 | U32
  deriving DecidableEq, Repr

/-- `client_options`: a type, whether it is a list, and a code. -/
def clientOptions : List (OptionType × Bool × UInt8) :=
  [(.IP, false, 0x01), (.IP, true, 0x03), (.IP, true, 0x06), (.STRING, false, 0x0c),
    (.STRING, false, 0x0f), (.IP, true, 0x2a), (.U32, false, 0x33), (.IP, false, 0x32),
    (.U8, false, 0x35), (.U32, false, 0x36), (.U16, false, 0x39), (.STRING, false, 0x3c),
    (.STRING, false, 0x3d), (.STRING, false, 0xfc)]

/-- `dhcp_get_code_type`. -/
def dhcpGetCodeType (code : UInt8) : OptionType × Bool :=
  match clientOptions.find? (fun o => o.2.2 == code) with
  | some (type, list, _) => (type, list)
  | none                 => (.UNKNOWN, false)

/-- `dhcp_option_lengths`. -/
def optionLength : OptionType → Nat
  | .UNKNOWN => 0
  | .IP      => 4
  | .STRING  => 1
  | .U8      => 1
  | .U16     => 2
  | .U32     => 4

/-- `check_option`. -/
def checkOption (code : UInt8) (dataLen : Nat) : Bool :=
  match (dhcpGetCodeType code).1 with
  | .UNKNOWN => false
  | type     => optionLength type = dataLen

/-- `dhcp_add_option_uint8`, `_uint16` and `_uint32`, with the bytes of the number. -/
def addOption (p : Packet) (code : UInt8) (data : List UInt8) : Packet :=
  if checkOption code data.length then dhcpAddBinaryOption p ⟨code, data⟩ else p

def dhcpAddOptionUint8 (p : Packet) (code data : UInt8) : Packet := addOption p code [data]

def dhcpAddOptionUint16 (p : Packet) (code : UInt8) (data : UInt16) : Packet :=
  addOption p code (putBe16 data)

def dhcpAddOptionUint32 (p : Packet) (code : UInt8) (data : UInt32) : Packet :=
  addOption p code (putBe32 data)

/-- `dhcp_init_header`. -/
def dhcpInitHeader (type : UInt8) : Packet :=
  let p := Packet.zero
  let p := { p with op := BOOTREQUEST }
  let p := if type = DHCPOFFER ∨ type = DHCPACK ∨ type = DHCPNAK then { p with op := BOOTREPLY }
    else p
  let p := { p with htype := 1, hlen := 6, cookie := DHCP_MAGIC }
  let p := { p with options := Octets.write p.options 0 [DHCP_END] }
  dhcpAddOptionUint8 p DHCP_MESSAGE_TYPE type

end OpenWfd.Dhcp
