import OpenWfd.Dhcp.Build
import OpenWfd.Support.OnesComplement

/-!
# Dhcp — Wire

`dhcp_checksum` and `dhcp_send_raw_packet` of `src/gdhcp/common.c`, and `dhcp_recv_l2_packet` of
`src/gdhcp/client.c`: a packet is sent in an IP and a UDP header, with both checksums, and checked
when it arrives.

* `checksum_endian`: the bytes of a checksum do not depend on the host's byte order.
* `recv_rawPacket`: what one host sends another accepts, and it is the same packet.
* `recv_overrun`: a datagram whose length field is less than its headers gets past every check, and
  the length of the `memcpy` is then negative; `recv_inside`: of no other frame.
* `corrupted_word`: two datagrams that differ in one word of the payload are not both accepted.
-/

namespace OpenWfd.Dhcp

open OnesComplement (fold swap)

/-! ### The checksum -/

/-- The number a host of this byte order reads in two bytes. -/
def word (e : Endian) (a b : UInt8) : Nat :=
  match e with
  | .little => a.toNat + 256 * b.toNat
  | .big    => 256 * a.toNat + b.toNat

theorem word_lt (e : Endian) (a b : UInt8) : word e a b < 65536 := by
  have ha := a.toNat_lt
  have hb := b.toNat_lt
  cases e <;> simp only [word] <;> omega

/-- The words of these bytes; a byte left over is the first of a word. -/
def words (e : Endian) : List UInt8 → List Nat
  | a :: b :: rest => word e a b :: words e rest
  | [a]            => [word e a 0]
  | []             => []

/-- `dhcp_checksum`.  The sum fits its `int32_t` (`words_sum_lt`). -/
def dhcpChecksum (e : Endian) (bytes : List UInt8) : UInt16 :=
  ~~~UInt16.ofNat (fold 65536 (words e bytes).sum)

/-- Of 64 KiB the sum is less than `2³¹`. -/
theorem words_sum_lt (e : Endian) {bytes : List UInt8} (h : bytes.length ≤ 65536) :
    (words e bytes).sum < 2 ^ 31 := by
  have hsum : 2 * (words e bytes).sum ≤ 65535 * (bytes.length + 1) := by
    clear h
    fun_induction words e bytes with
    | case1 a b rest ih =>
        have hab := word_lt e a b
        simp only [List.sum_cons, List.length_cons]
        omega
    | case2 a =>
        have ha := word_lt e a 0
        simp only [List.sum_cons, List.sum_nil, List.length_singleton]
        omega
    | case3 => simp
  omega

theorem word_swap (a b : UInt8) : word .little a b = swap 256 (word .big a b) := by
  simp only [word]
  rw [OnesComplement.swap_digits b.toNat_lt]
  omega

theorem words_swap (bytes : List UInt8) :
    words .little bytes = (words .big bytes).map (swap 256) := by
  induction bytes using words.induct with
  | case1 a b rest ih => rw [words, words, List.map_cons, word_swap, ih]
  | case2 a => rw [words, words, List.map_cons, List.map_nil, word_swap]
  | case3 => rfl

theorem raw16_toNat (x : UInt16) : (Endian.little.raw16 x).toNat = swap 256 x.toNat := by
  have hq : x.toNat / 256 < 256 := Nat.div_lt_of_lt_mul x.toNat_lt
  have hr : x.toNat % 256 < 256 := Nat.mod_lt _ (by decide)
  simp only [Endian.raw16, putBe16, List.reverse_cons, List.reverse_nil, List.nil_append,
    List.singleton_append, getBe16, UInt16.toNat_ofNat', UInt8.toNat_ofNat', swap]
  rw [show (2 : Nat) ^ 8 = 256 from rfl, Nat.mod_eq_of_lt hq, Nat.mod_eq_of_lt (by omega)]

/-- **The byte order of the host does not matter.** -/
theorem checksum_endian (e : Endian) (bytes : List UInt8) :
    e.raw16 (dhcpChecksum e bytes) = dhcpChecksum .big bytes := by
  cases e with
  | big => rfl
  | little =>
      have hfold : fold 65536 (words .little bytes).sum =
          swap 256 (fold 65536 (words .big bytes).sum) := by
        rw [words_swap]
        exact OnesComplement.fold_swap (b := 256) (by decide)
      have hlt : fold 65536 (words .big bytes).sum < 65536 := OnesComplement.fold_lt (by decide)
      have hswap : swap 256 (fold 65536 (words .big bytes).sum) < 65536 :=
        OnesComplement.swap_lt (b := 256) hlt
      apply UInt16.toNat.inj
      rw [raw16_toNat, dhcpChecksum, dhcpChecksum, hfold]
      simp only [UInt16.toNat_not, UInt16.toNat_ofNat', UInt16.size]
      rw [Nat.mod_eq_of_lt hswap, Nat.mod_eq_of_lt hlt]
      have hback := OnesComplement.swap_complement (b := 256) hswap
      rwa [OnesComplement.swap_swap (b := 256) hlt] at hback

/-! ### Datagrams -/

def IPPROTO_UDP : UInt8 := 17

/-- `struct ip_udp_dhcp_packet`. -/
structure Datagram where
  versionIhl : UInt8
  tos : UInt8
  totLen : UInt16
  id : UInt16
  fragOff : UInt16
  ttl : UInt8
  protocol : UInt8
  ipCheck : UInt16
  saddr : UInt32
  daddr : UInt32
  source : UInt16
  dest : UInt16
  len : UInt16
  udpCheck : UInt16
  data : Packet
  deriving DecidableEq

namespace Datagram

/-- The IP header. -/
def ip (k : Datagram) : List UInt8 :=
  [k.versionIhl, k.tos] ++ (putBe16 k.totLen ++ (putBe16 k.id ++ (putBe16 k.fragOff ++
    ([k.ttl, k.protocol] ++ (putBe16 k.ipCheck ++ (putBe32 k.saddr ++ putBe32 k.daddr))))))

/-- The UDP header. -/
def udp (k : Datagram) : List UInt8 :=
  putBe16 k.source ++ (putBe16 k.dest ++ (putBe16 k.len ++ putBe16 k.udpCheck))

/-- The bytes of the datagram. -/
def toBytes (k : Datagram) : List UInt8 := k.ip ++ (k.udp ++ k.data.toBytes)

/-- The datagram these bytes, and zeros after them, are. -/
def ofBytes (bs : List UInt8) : Datagram where
  versionIhl := bs.getD 0 0
  tos := bs.getD 1 0
  totLen := getBe16 (Octets.ofList bs 2 2).1
  id := getBe16 (Octets.ofList bs 4 2).1
  fragOff := getBe16 (Octets.ofList bs 6 2).1
  ttl := bs.getD 8 0
  protocol := bs.getD 9 0
  ipCheck := getBe16 (Octets.ofList bs 10 2).1
  saddr := getBe32 (Octets.ofList bs 12 4).1
  daddr := getBe32 (Octets.ofList bs 16 4).1
  source := getBe16 (Octets.ofList bs 20 2).1
  dest := getBe16 (Octets.ofList bs 22 2).1
  len := getBe16 (Octets.ofList bs 24 2).1
  udpCheck := getBe16 (Octets.ofList bs 26 2).1
  data := Packet.ofBytes (bs.drop 28)

end Datagram

/-! ### Sending -/

/-- What `dhcp_send_raw_packet` sends: the options without the 80 bytes for servers that send more.
The two addresses are as the caller has them, not converted. -/
def rawPacket (e : Endian) (p : Packet) (sourceIp : UInt32) (sourcePort : UInt16) (destIp : UInt32)
    (destPort : UInt16) : List UInt8 :=
  let k : Datagram := ⟨0, 0, 0, 0, 0, 0, IPPROTO_UDP, 0, e.raw sourceIp, e.raw destIp,
    sourcePort, destPort, 0, 0, p⟩
  -- size, excluding IP header
  let k := { k with len := 556 }
  -- for UDP checksumming, ip.len is set to UDP packet len
  let k := { k with totLen := k.len }
  let k := { k with udpCheck := e.raw16 (dhcpChecksum e (k.toBytes.take 576)) }
  -- but for sending, it is set to IP packet len
  let k := { k with totLen := 576, versionIhl := 0x45, ttl := 64 }
  let k := { k with ipCheck := e.raw16 (dhcpChecksum e (k.toBytes.take 20)) }
  k.toBytes.take 576

/-! ### Receiving -/

/-- `sanity_check`. -/
def sanityCheck (k : Datagram) (bytes : Nat) : Bool :=
  k.protocol = IPPROTO_UDP ∧ k.versionIhl / 16 = 4 ∧ k.versionIhl % 16 = 5 ∧ k.dest = 68 ∧
    k.len = UInt16.ofNat (SizeT.sub bytes 20)

/-- What `dhcp_recv_l2_packet` does: it returns `-1` and copies nothing, it makes a `memcpy` with a
negative length, it copies bytes without the magic cookie and returns `-1`, or it copies a packet
and returns its length. -/
inductive Received where
  | rejected
  | overrun
  | foreign (bytes : Nat)
  | packet (bytes : Nat) (p : Packet)
  deriving DecidableEq

/-- The bytes that are copied. -/
def Received.copied : Received → Option Nat
  | .rejected | .overrun              => none
  | .foreign bytes | .packet bytes _  => some bytes

/-- `dhcp_recv_l2_packet`, of a frame, into a packet that holds what it held before. -/
def dhcpRecvL2Packet (e : Endian) (frame : List UInt8) (stale : Packet) : Received :=
  let bytes := (frame.take 656).length
  let k := Datagram.ofBytes (frame.take 656)
  if bytes < 28 then .rejected
  else if bytes < k.totLen.toNat then .rejected
  else
    -- ignore any extra garbage bytes
    let bytes := k.totLen.toNat
    if ¬ sanityCheck k bytes then .rejected
    else
      let check := e.raw16 k.ipCheck
      let k := { k with ipCheck := 0 }
      if check ≠ dhcpChecksum e (k.toBytes.take 20) then .rejected
      else
        -- verify UDP checksum; IP header has to be modified for this
        let k := { k with versionIhl := 0, tos := 0, totLen := 0, id := 0, fragOff := 0, ttl := 0 }
        let k := { k with totLen := k.len }
        let check := e.raw16 k.udpCheck
        let k := { k with udpCheck := 0 }
        if check ≠ 0 ∧ check ≠ dhcpChecksum e (k.toBytes.take bytes) then .rejected
        else if bytes < 28 then .overrun
        else
          let p := Packet.ofBytes (memcpy stale.toBytes 0 (k.data.toBytes.take (bytes - 28)))
          if p.cookie ≠ DHCP_MAGIC then .foreign (bytes - 28) else .packet (bytes - 28) p

/-! ### What is sent is received -/

/-- A packet is read back from its bytes; of options that were cut off the rest is zeros. -/
theorem ofBytes_header (p : Packet) (opts : List UInt8) :
    Packet.ofBytes (p.header ++ opts) = { p with options := .ofList opts 0 388 } := by
  have hxid : getBe32 (Octets.ofList (p.header ++ opts) 4 4).1 = p.xid := getBe32_putBe32 p.xid []
  have hsecs : getBe16 (Octets.ofList (p.header ++ opts) 8 2).1 = p.secs :=
    getBe16_putBe16 p.secs []
  have hflags : getBe16 (Octets.ofList (p.header ++ opts) 10 2).1 = p.flags :=
    getBe16_putBe16 p.flags []
  have hciaddr : getBe32 (Octets.ofList (p.header ++ opts) 12 4).1 = p.ciaddr :=
    getBe32_putBe32 p.ciaddr []
  have hyiaddr : getBe32 (Octets.ofList (p.header ++ opts) 16 4).1 = p.yiaddr :=
    getBe32_putBe32 p.yiaddr []
  have hsiaddr : getBe32 (Octets.ofList (p.header ++ opts) 20 4).1 = p.siaddrNip :=
    getBe32_putBe32 p.siaddrNip []
  have hgateway : getBe32 (Octets.ofList (p.header ++ opts) 24 4).1 = p.gatewayNip :=
    getBe32_putBe32 p.gatewayNip []
  have hchaddr : Octets.ofList (p.header ++ opts) 28 16 = p.chaddr :=
    @Octets.ofList_eq _ _ _ ([p.op, p.htype, p.hlen, p.hops] ++ putBe32 p.xid ++ putBe16 p.secs ++
        putBe16 p.flags ++ putBe32 p.ciaddr ++ putBe32 p.yiaddr ++ putBe32 p.siaddrNip ++
        putBe32 p.gatewayNip)
      (p.sname.1 ++ (p.file.1 ++ (putBe32 p.cookie ++ opts))) _ (by simp [Packet.header]) rfl
  have hsname : Octets.ofList (p.header ++ opts) 44 64 = p.sname := by
    obtain ⟨pre, post, heq, hlen⟩ := p.header_sname
    exact @Octets.ofList_eq _ _ _ _ (post ++ opts) _ (by simp [heq]) hlen
  have hfile : Octets.ofList (p.header ++ opts) 108 128 = p.file := by
    obtain ⟨pre, post, heq, hlen⟩ := p.header_file
    exact @Octets.ofList_eq _ _ _ _ (post ++ opts) _ (by simp [heq]) hlen
  have hcookie : Octets.ofList (p.header ++ opts) 236 4 = ⟨putBe32 p.cookie, rfl⟩ := by
    refine @Octets.ofList_eq _ _ _
      ([p.op, p.htype, p.hlen, p.hops] ++ putBe32 p.xid ++ putBe16 p.secs ++
      putBe16 p.flags ++ putBe32 p.ciaddr ++ putBe32 p.yiaddr ++ putBe32 p.siaddrNip ++
      putBe32 p.gatewayNip ++ p.chaddr.1 ++ p.sname.1 ++ p.file.1) opts _ ?_ ?_
    · simp [Packet.header]
    · simp [p.chaddr.2, p.sname.2, p.file.2]
  have hoptions : Octets.ofList (p.header ++ opts) 240 388 = Octets.ofList opts 0 388 :=
    Octets.ofList_behind rfl p.header_length
  have hmagic : getBe32 (putBe32 p.cookie) = p.cookie := getBe32_putBe32 p.cookie []
  rw [Packet.ofBytes, hxid, hsecs, hflags, hciaddr, hyiaddr, hsiaddr, hgateway, hchaddr,
    hsname, hfile, hcookie, hoptions, hmagic]
  rfl


namespace Datagram

variable {k : Datagram}

@[simp] theorem ip_length (k : Datagram) : k.ip.length = 20 := rfl

@[simp] theorem udp_length (k : Datagram) : k.udp.length = 8 := rfl

theorem toBytes_take_ip (k : Datagram) : k.toBytes.take 20 = k.ip :=
  List.take_left' k.ip_length

/-- What is sent of a datagram. -/
theorem toBytes_take_sent (k : Datagram) :
    k.toBytes.take 576 = k.ip ++ (k.udp ++ (k.data.header ++ k.data.options.1.take 308)) := by
  rw [toBytes, Packet.toBytes, List.take_append, List.take_append, List.take_append,
    List.take_of_length_le (by rw [ip_length]; omega), List.take_of_length_le (by simp),
    List.take_of_length_le (by simp [k.data.header_length])]
  simp [k.data.header_length]

theorem ofBytes_eq (k : Datagram) (rest : List UInt8) :
    ofBytes (k.ip ++ (k.udp ++ rest)) = { k with data := Packet.ofBytes rest } := by
  have htotLen : getBe16 (Octets.ofList (k.ip ++ (k.udp ++ rest)) 2 2).1 = k.totLen :=
    getBe16_putBe16 k.totLen []
  have hid : getBe16 (Octets.ofList (k.ip ++ (k.udp ++ rest)) 4 2).1 = k.id :=
    getBe16_putBe16 k.id []
  have hfragOff : getBe16 (Octets.ofList (k.ip ++ (k.udp ++ rest)) 6 2).1 = k.fragOff :=
    getBe16_putBe16 k.fragOff []
  have hipCheck : getBe16 (Octets.ofList (k.ip ++ (k.udp ++ rest)) 10 2).1 = k.ipCheck :=
    getBe16_putBe16 k.ipCheck []
  have hsaddr : getBe32 (Octets.ofList (k.ip ++ (k.udp ++ rest)) 12 4).1 = k.saddr :=
    getBe32_putBe32 k.saddr []
  have hdaddr : getBe32 (Octets.ofList (k.ip ++ (k.udp ++ rest)) 16 4).1 = k.daddr :=
    getBe32_putBe32 k.daddr []
  have hsource : getBe16 (Octets.ofList (k.ip ++ (k.udp ++ rest)) 20 2).1 = k.source :=
    getBe16_putBe16 k.source []
  have hdest : getBe16 (Octets.ofList (k.ip ++ (k.udp ++ rest)) 22 2).1 = k.dest :=
    getBe16_putBe16 k.dest []
  have hlen : getBe16 (Octets.ofList (k.ip ++ (k.udp ++ rest)) 24 2).1 = k.len :=
    getBe16_putBe16 k.len []
  have hudpCheck : getBe16 (Octets.ofList (k.ip ++ (k.udp ++ rest)) 26 2).1 = k.udpCheck :=
    getBe16_putBe16 k.udpCheck []
  rw [ofBytes, htotLen, hid, hfragOff, hipCheck, hsaddr, hdaddr, hsource, hdest, hlen, hudpCheck]
  rfl

end Datagram

/-- A checksum that one host stored is the one another computes. -/
theorem checksum_stored (e e' : Endian) (bytes : List UInt8) :
    e'.raw16 (e.raw16 (dhcpChecksum e bytes)) = dhcpChecksum e' bytes := by
  rw [checksum_endian, ← checksum_endian e', Endian.raw16_raw16]

/-! ### What `dhcp_recv_l2_packet` accepts -/

/-- The datagram the UDP checksum is computed over. -/
def Datagram.pseudo (k : Datagram) : Datagram :=
  { k with versionIhl := 0, tos := 0, totLen := k.len, id := 0, fragOff := 0, ttl := 0, ipCheck := 0
           udpCheck := 0 }

/-- The checks a frame has to pass. -/
structure Accepted (e : Endian) (frame : List UInt8) (k : Datagram) : Prop where
  read : k = Datagram.ofBytes (frame.take 656)
  headers : 28 ≤ (frame.take 656).length
  whole : k.totLen.toNat ≤ (frame.take 656).length
  sane : sanityCheck k k.totLen.toNat = true
  ip : e.raw16 k.ipCheck = dhcpChecksum e { k with ipCheck := 0 }.ip
  udp : e.raw16 k.udpCheck = 0 ∨
    e.raw16 k.udpCheck = dhcpChecksum e (k.pseudo.toBytes.take k.totLen.toNat)

/-- What becomes of a frame that passes them. -/
def deliver (k : Datagram) (stale : Packet) : Received :=
  if k.totLen.toNat < 28 then .overrun
  else
    let p := Packet.ofBytes (memcpy stale.toBytes 0 (k.data.toBytes.take (k.totLen.toNat - 28)))
    if p.cookie ≠ DHCP_MAGIC then .foreign (k.totLen.toNat - 28)
      else .packet (k.totLen.toNat - 28) p

theorem recv_accepted {e : Endian} {frame : List UInt8} {k : Datagram} (h : Accepted e frame k)
    (stale : Packet) : dhcpRecvL2Packet e frame stale = deliver k stale := by
  obtain ⟨rfl, hheaders, hwhole, hsane, hip, hudp⟩ := h
  simp only [dhcpRecvL2Packet, deliver, Datagram.toBytes_take_ip]
  rw [if_neg (by omega), if_neg (by omega), if_neg (not_not.mpr hsane), if_neg (not_not.mpr hip),
    if_neg]
  rintro ⟨h0, hne⟩
  rcases hudp with hudp | hudp
  · exact h0 hudp
  · exact hne hudp

theorem accepted_of_recv {e : Endian} {frame : List UInt8} {stale : Packet}
    (h : dhcpRecvL2Packet e frame stale ≠ .rejected) :
    Accepted e frame (Datagram.ofBytes (frame.take 656)) := by
  simp only [dhcpRecvL2Packet, Datagram.toBytes_take_ip] at h
  by_cases h₁ : (frame.take 656).length < 28
  · rw [if_pos h₁] at h
    exact absurd rfl h
  by_cases h₂ : (frame.take 656).length < (Datagram.ofBytes (frame.take 656)).totLen.toNat
  · rw [if_neg h₁, if_pos h₂] at h
    exact absurd rfl h
  rw [if_neg h₁, if_neg h₂] at h
  refine ⟨rfl, by omega, by omega, ?_, ?_, ?_⟩
  · by_contra hsane
    rw [if_pos hsane] at h
    exact h rfl
  · by_contra hip
    split_ifs at h with h₃ <;> exact h rfl
  · by_contra hudp
    split_ifs at h with h₃ h₄ h₅ <;>
      first | exact h rfl | exact hudp ((not_and_or.mp h₅).imp not_not.mp not_not.mp)

/-! ### What is sent is received -/

/-- The options as they arrive: of the 388 bytes the first 308 are sent. -/
def arrived (options stale : Octets 388) : Octets 388 :=
  ⟨options.1.take 308 ++ stale.1.drop 308, by simp [options.2, stale.2]⟩

/-- The datagram a receiver reads, when this one is sent. -/
def Datagram.read (k : Datagram) : Datagram :=
  { k with data := { k.data with options := .ofList (k.data.options.1.take 308) 0 388 } }

theorem ofBytes_sent (k : Datagram) :
    Datagram.ofBytes ((k.toBytes.take 576).take 656) = k.read := by
  rw [List.take_take, Nat.min_eq_right (by decide), Datagram.toBytes_take_sent, Datagram.ofBytes_eq,
    ofBytes_header]
  rfl

theorem options_read (options : Octets 388) :
    (Octets.ofList (options.1.take 308) 0 388).1.take 308 = options.1.take 308 := by
  have hread := @Octets.ofList_take 388 (options.1.take 308) (by simp)
  rwa [show (options.1.take 308).length = 308 by simp [options.2]] at hread

theorem toBytes_read (k : Datagram) : k.read.toBytes.take 576 = k.toBytes.take 576 := by
  rw [Datagram.toBytes_take_sent, Datagram.toBytes_take_sent]
  exact congrArg (fun opts => k.ip ++ (k.udp ++ (k.data.header ++ opts)))
    (options_read k.data.options)

/-- The packet that is copied out of a datagram. -/
theorem copied_read (k : Datagram) (stale : Packet) :
    Packet.ofBytes (memcpy stale.toBytes 0 (k.read.data.toBytes.take 548)) =
      { k.data with options := arrived k.data.options stale.options } := by
  have htake : k.read.data.toBytes.take 548 = k.data.header ++ k.data.options.1.take 308 := by
    have hheader : k.read.data.header.length = 240 := k.read.data.header_length
    rw [Packet.toBytes, List.take_append, List.take_of_length_le (by omega), hheader]
    exact congrArg (k.data.header ++ ·) (options_read k.data.options)
  have hstale : stale.toBytes.drop 548 = stale.options.1.drop 308 := by
    rw [Packet.toBytes, List.drop_append, List.drop_eq_nil_of_le (by simp [stale.header_length]),
      stale.header_length]
    rfl
  have hcopy : memcpy stale.toBytes 0 (k.read.data.toBytes.take 548) =
      k.data.header ++ (arrived k.data.options stale.options).1 := by
    have hlen : (k.data.header ++ k.data.options.1.take 308).length = 548 := by
      simp [k.data.header_length, k.data.options.2]
    rw [htake, memcpy, hlen, Nat.zero_add, hstale]
    simp [arrived]
  have hopts : Octets.ofList (arrived k.data.options stale.options).1 0 388 =
      arrived k.data.options stale.options :=
    @Octets.ofList_eq _ _ _ [] [] _ (by simp) rfl
  rw [hcopy, ofBytes_header, hopts]

/-- A datagram with both checksums in order. -/
theorem recv_sent {e : Endian} {k : Datagram} (hmagic : k.data.cookie = DHCP_MAGIC)
    (htot : k.totLen = 576) (hsane : sanityCheck k 576 = true)
    (hip : e.raw16 k.ipCheck = dhcpChecksum e { k with ipCheck := 0 }.ip)
    (hudp : e.raw16 k.udpCheck = dhcpChecksum e (k.pseudo.toBytes.take 576)) (stale : Packet) :
    dhcpRecvL2Packet e (k.toBytes.take 576) stale =
      .packet 548 { k.data with options := arrived k.data.options stale.options } := by
  have htot' : k.read.totLen.toNat = 576 := congrArg UInt16.toNat htot
  have hlen : ((k.toBytes.take 576).take 656).length = 576 := by
    rw [Datagram.toBytes_take_sent]
    simp [k.data.header_length, k.data.options.2]
  have hacc : Accepted e (k.toBytes.take 576) k.read := by
    refine ⟨(ofBytes_sent k).symm, by omega, by omega, ?_, hip, Or.inr ?_⟩
    · rw [htot']
      exact hsane
    · rw [htot']
      exact hudp.trans (congrArg (dhcpChecksum e) (toBytes_read k.pseudo).symm)
  rw [recv_accepted hacc, deliver, htot', if_neg (by decide)]
  dsimp only
  rw [show 576 - 28 = 548 from rfl, copied_read, if_neg (not_not.mpr hmagic)]

theorem sanityCheck_header {k : Datagram} {bytes : Nat} (hprotocol : k.protocol = IPPROTO_UDP)
    (hversion : k.versionIhl = 0x45) (hdest : k.dest = 68)
    (hlen : k.len = UInt16.ofNat (SizeT.sub bytes 20)) : sanityCheck k bytes = true := by
  have hv : (0x45 : UInt8) / 16 = 4 := by decide
  have hi : (0x45 : UInt8) % 16 = 5 := by decide
  simp [sanityCheck, hprotocol, hversion, hdest, hlen, hv, hi]

/-- The datagram that is sent. -/
theorem rawPacket_eq (e : Endian) (p : Packet) (sourceIp destIp : UInt32) (sourcePort : UInt16) :
    ∃ k : Datagram, rawPacket e p sourceIp sourcePort destIp 68 = k.toBytes.take 576 ∧ k.data = p ∧
      k.totLen = 576 ∧ sanityCheck k 576 = true ∧
      k.ipCheck = e.raw16 (dhcpChecksum e { k with ipCheck := 0 }.ip) ∧
      k.udpCheck = e.raw16 (dhcpChecksum e (k.pseudo.toBytes.take 576)) := by
  obtain ⟨udp, hudp⟩ : ∃ udp, udp = e.raw16 (dhcpChecksum e
      (Datagram.toBytes ⟨0, 0, 556, 0, 0, 0, IPPROTO_UDP, 0, e.raw sourceIp,
        e.raw destIp, sourcePort, 68, 556, 0, p⟩ |>.take 576)) := ⟨_, rfl⟩
  obtain ⟨ip, hip⟩ : ∃ ip, ip = e.raw16 (dhcpChecksum e
      (Datagram.toBytes ⟨0x45, 0, 576, 0, 0, 64, IPPROTO_UDP, 0, e.raw sourceIp, e.raw destIp,
        sourcePort, 68, 556, udp, p⟩ |>.take 20)) := ⟨_, rfl⟩
  refine ⟨⟨0x45, 0, 576, 0, 0, 64, IPPROTO_UDP, ip, e.raw sourceIp, e.raw destIp,
    sourcePort, 68, 556, udp, p⟩, ?_, rfl, rfl, ?_, ?_, hudp⟩
  · rw [hip, hudp]
    rfl
  · exact sanityCheck_header rfl rfl rfl
      (show (556 : UInt16) = UInt16.ofNat (SizeT.sub 576 20) by decide)
  · rw [Datagram.toBytes_take_ip] at hip
    exact hip

/-- **What one host sends another accepts.**  Whatever the byte orders of the two, the receiver gets
every field of the packet, and the options that were sent. -/
theorem recv_rawPacket (e e' : Endian) {p : Packet} (hp : p.cookie = DHCP_MAGIC)
    (sourceIp destIp : UInt32) (sourcePort : UInt16) (stale : Packet) :
    dhcpRecvL2Packet e' (rawPacket e p sourceIp sourcePort destIp 68) stale =
      .packet 548 { p with options := arrived p.options stale.options } := by
  obtain ⟨k, hsent, rfl, htot, hsane, hip, hudp⟩ := rawPacket_eq e p sourceIp destIp sourcePort
  rw [hsent]
  refine recv_sent hp htot hsane ?_ ?_ stale
  · rw [hip]
    exact checksum_stored e e' _
  · rw [hudp]
    exact checksum_stored e e' _

/-! ### Datagrams that are shorter than their headers -/

/-- A datagram of this length field, without a UDP checksum. -/
theorem exists_short (e : Endian) {n : Nat} (hn : n < 28) :
    ∃ k : Datagram, k.totLen.toNat = n ∧ sanityCheck k n = true ∧ k.udpCheck = 0 ∧
      k.ipCheck = e.raw16 (dhcpChecksum e { k with ipCheck := 0 }.ip) := by
  obtain ⟨ip, hip⟩ : ∃ ip, ip = e.raw16 (dhcpChecksum e
      (Datagram.ip ⟨0x45, 0, UInt16.ofNat n, 0, 0, 64, IPPROTO_UDP, 0, 0, 0, 67, 68,
        UInt16.ofNat (SizeT.sub n 20), 0, .zero⟩)) := ⟨_, rfl⟩
  refine ⟨⟨0x45, 0, UInt16.ofNat n, 0, 0, 64, IPPROTO_UDP, ip, 0, 0, 67, 68,
    UInt16.ofNat (SizeT.sub n 20), 0, .zero⟩, ?_, sanityCheck_header rfl rfl rfl rfl, rfl, hip⟩
  rw [UInt16.toNat_ofNat']
  omega

/-- **A negative length.**  For every length field below 28 there is a frame that passes all checks:
`udp.len` is compared modulo `2¹⁶`, and the length of the `memcpy` is then less than 0. -/
theorem recv_overrun (e : Endian) {n : Nat} (hn : n < 28) :
    ∃ frame, (Datagram.ofBytes frame).totLen.toNat = n ∧
      ∀ stale, dhcpRecvL2Packet e frame stale = .overrun := by
  obtain ⟨k, htot, hsane, hudp, hip⟩ := exists_short e hn
  have hread := Datagram.ofBytes_eq k []
  refine ⟨k.ip ++ (k.udp ++ []), ?_, fun stale => ?_⟩
  · rw [hread]
    exact htot
  · have htake : (k.ip ++ (k.udp ++ [])).take 656 = k.ip ++ (k.udp ++ []) :=
      List.take_of_length_le (by simp)
    have hlen : (k.ip ++ (k.udp ++ [])).length = 28 := by simp
    have hacc : Accepted e (k.ip ++ (k.udp ++ [])) { k with data := Packet.ofBytes [] } := by
      refine ⟨?_, ?_, ?_, ?_, ?_, Or.inl ?_⟩
      · rw [htake, hread]
      · rw [htake, hlen]
      · rw [htake, hlen]
        dsimp only
        omega
      · dsimp only
        rw [htot]
        exact hsane
      · exact (congrArg e.raw16 hip).trans (e.raw16_raw16 _)
      · dsimp only
        rw [hudp]
        cases e <;> rfl
    rw [recv_accepted hacc, deliver]
    exact if_pos (by rw [htot]; exact hn)

/-- A length field that is zero. -/
theorem recv_overrun_zero : ∃ frame, (Datagram.ofBytes frame).totLen.toNat = 0 ∧
    ∀ stale, dhcpRecvL2Packet .little frame stale = .overrun :=
  recv_overrun .little (by decide)

/-- **Everything else stays inside.**  Of any frame, bytes are copied within the 628 of the packet
and from within the frame, whatever becomes of them, unless the length field is less than 28. -/
theorem recv_inside (e : Endian) (frame : List UInt8) (stale : Packet) :
    (dhcpRecvL2Packet e frame stale = .overrun →
      (Datagram.ofBytes (frame.take 656)).totLen.toNat < 28) ∧
      ∀ bytes, (dhcpRecvL2Packet e frame stale).copied = some bytes →
        (Datagram.ofBytes (frame.take 656)).totLen.toNat = bytes + 28 ∧ bytes ≤ 628 ∧
        bytes + 28 ≤ frame.length := by
  refine ⟨fun h => ?_, fun bytes h => ?_⟩
  · have hacc := accepted_of_recv (h.trans_ne nofun)
    rw [recv_accepted hacc, deliver] at h
    by_contra hge
    rw [if_neg hge] at h
    dsimp only at h
    split_ifs at h
  · have hacc : Accepted e frame (Datagram.ofBytes (frame.take 656)) := by
      refine @accepted_of_recv _ _ stale fun hrej => ?_
      rw [hrej] at h
      cases h
    rw [recv_accepted hacc, deliver] at h
    have hwhole := hacc.whole
    have htake : (frame.take 656).length = min 656 frame.length := List.length_take
    by_cases hlt : (Datagram.ofBytes (frame.take 656)).totLen.toNat < 28
    · rw [if_pos hlt] at h
      cases h
    · rw [if_neg hlt] at h
      have hbytes : (Datagram.ofBytes (frame.take 656)).totLen.toNat - 28 = bytes := by
        dsimp only at h
        split_ifs at h
        · exact Option.some.inj h
        · exact Option.some.inj h
      omega

/-! ### Corruption -/

theorem toBytes_ofBytes (bs : List UInt8) :
    (Packet.ofBytes bs).toBytes = (Octets.ofList bs 0 628).1 := by
  have hhead : [bs.getD 0 0, bs.getD 1 0, bs.getD 2 0, bs.getD 3 0] = (Octets.ofList bs 0 4).1 :=
    rfl
  simp only [Packet.toBytes, Packet.header, Packet.ofBytes, putBe16_ofList, putBe32_ofList, hhead,
    Octets.ofList_add bs]

theorem words_append (e : Endian) {xs : List UInt8} (h : xs.length % 2 = 0) (ys : List UInt8) :
    words e (xs ++ ys) = words e xs ++ words e ys := by
  fun_induction words e xs with
  | case1 a b rest ih =>
      rw [List.length_cons, List.length_cons] at h
      simp only [List.cons_append, words, ih (by omega)]
  | case2 a => simp at h
  | case3 => rfl

/-- Sums that differ in one word are told apart, but for `0x0000` and `0xffff`. -/
theorem checksum_word {e : Endian} {xs ys : List UInt8} {a b a' b' : UInt8}
    (hxs : xs.length % 2 = 0)
    (h : dhcpChecksum e (xs ++ a :: b :: ys) = dhcpChecksum e (xs ++ a' :: b' :: ys)) :
    word e a b = word e a' b' ∨ word e a b = 0 ∧ word e a' b' = 65535 ∨
      word e a b = 65535 ∧ word e a' b' = 0 := by
  have hsum : ∀ a b, (words e (xs ++ a :: b :: ys)).sum =
      (words e xs).sum + (words e ys).sum + word e a b := by
    intro a b
    rw [words_append e hxs, List.sum_append, words, List.sum_cons]
    omega
  have hfold : ∀ n, fold 65536 n < 65536 := fun n => OnesComplement.fold_lt (by decide)
  have heq : fold 65536 (words e (xs ++ a :: b :: ys)).sum =
      fold 65536 (words e (xs ++ a' :: b' :: ys)).sum := by
    have hnot := congrArg UInt16.toNat h
    simp only [dhcpChecksum, UInt16.toNat_not, UInt16.toNat_ofNat', UInt16.size] at hnot
    rw [Nat.mod_eq_of_lt (hfold _), Nat.mod_eq_of_lt (hfold _)] at hnot
    have h₁ := hfold (words e (xs ++ a :: b :: ys)).sum
    have h₂ := hfold (words e (xs ++ a' :: b' :: ys)).sum
    omega
  have hmod := ((OnesComplement.fold_eq_iff (by decide)).mp heq).1
  rw [hsum, hsum] at hmod
  have hword : word e a b ≡ word e a' b' [MOD 65535] := Nat.ModEq.add_left_cancel' _ hmod
  have h₁ := word_lt e a b
  have h₂ := word_lt e a' b'
  unfold Nat.ModEq at hword
  omega

/-- What the UDP checksum is computed over, for a payload with bytes behind it. -/
theorem pseudo_take (k : Datagram) {payload rest : List UInt8}
    (h : (payload ++ rest).length ≤ 628) :
    ({ k with data := Packet.ofBytes (payload ++ rest) } : Datagram).pseudo.toBytes.take
      (28 + payload.length) =
      k.pseudo.ip ++ (k.pseudo.udp ++ payload) := by
  have hdata : (Packet.ofBytes (payload ++ rest)).toBytes.take payload.length = payload := by
    have hall := congrArg (List.take payload.length) (Octets.ofList_take h)
    rwa [List.take_take, List.take_left, Nat.min_eq_left (by simp), ← toBytes_ofBytes] at hall
  have hlen : (k.pseudo.ip ++ k.pseudo.udp).length = 28 := rfl
  have hbytes : ({ k with data := Packet.ofBytes (payload ++ rest) } : Datagram).pseudo.toBytes =
      (k.pseudo.ip ++ k.pseudo.udp) ++ (Packet.ofBytes (payload ++ rest)).toBytes := by
    rw [List.append_assoc]
    rfl
  rw [hbytes, List.take_append, hlen, List.take_of_length_le (by omega),
    Nat.add_sub_cancel_left, hdata, List.append_assoc]

/-- The UDP checksum of a frame that is not rejected, of which the code ignores what is behind the
datagram. -/
theorem checksum_accepted {e : Endian} {k : Datagram} {payload behind : List UInt8} {stale : Packet}
    (hcheck : k.udpCheck ≠ 0) (htot : k.totLen.toNat = 28 + payload.length)
    (h : dhcpRecvL2Packet e (k.ip ++ (k.udp ++ (payload ++ behind))) stale ≠ .rejected) :
    e.raw16 k.udpCheck = dhcpChecksum e (k.pseudo.ip ++ (k.pseudo.udp ++ payload)) := by
  have hraw : e.raw16 k.udpCheck ≠ 0 := by
    intro h0
    apply hcheck
    have hzero : e.raw16 0 = 0 := by cases e <;> rfl
    rw [← e.raw16_raw16 k.udpCheck, h0, hzero]
  have hacc := accepted_of_recv h
  have hwhole := hacc.whole
  have hudp := hacc.udp
  have htake : (k.ip ++ (k.udp ++ (payload ++ behind))).take 656 =
      k.ip ++ (k.udp ++ (payload ++ behind).take 628) := by
    rw [List.take_append, List.take_append, List.take_of_length_le (by simp),
      List.take_of_length_le (by simp), Datagram.ip_length, Datagram.udp_length]
  rw [htake, Datagram.ofBytes_eq] at hwhole hudp
  have hfits : payload.length ≤ 628 := by
    simp only [htot, List.length_append, Datagram.ip_length, Datagram.udp_length, List.length_take]
      at hwhole
    omega
  have hsplit : (payload ++ behind).take 628 = payload ++ behind.take (628 - payload.length) := by
    rw [List.take_append, List.take_of_length_le hfits]
  have hlen : (payload ++ behind.take (628 - payload.length)).length ≤ 628 := by
    simp only [List.length_append, List.length_take]
    omega
  rw [hsplit] at hudp
  dsimp only at hudp
  rw [htot, pseudo_take k hlen] at hudp
  exact hudp.resolve_left hraw

/-- **One corrupted word is found.**  Of two frames of one header, with a UDP checksum, whose
payloads differ in one 16-bit word, both are accepted only if the words are `0x0000` and `0xffff`,
whatever stands behind them. -/
theorem corrupted_word {e : Endian} {k : Datagram} {pre post behind behind' : List UInt8}
    {a b a' b' : UInt8} {stale stale' : Packet} (hpre : pre.length % 2 = 0)
    (hcheck : k.udpCheck ≠ 0) (htot : k.totLen.toNat = 28 + (pre ++ a :: b :: post).length)
    (h : dhcpRecvL2Packet e (k.ip ++ (k.udp ++ ((pre ++ a :: b :: post) ++ behind)))
      stale ≠ .rejected)
    (h' : dhcpRecvL2Packet e (k.ip ++ (k.udp ++ ((pre ++ a' :: b' :: post) ++ behind')))
      stale' ≠ .rejected) :
    word e a b = word e a' b' ∨ word e a b = 0 ∧ word e a' b' = 65535 ∨
      word e a b = 65535 ∧ word e a' b' = 0 := by
  have htot' : k.totLen.toNat = 28 + (pre ++ a' :: b' :: post).length := by
    rw [htot]
    simp
  have heq := (checksum_accepted hcheck htot h).symm.trans (checksum_accepted hcheck htot' h')
  have hassoc : ∀ a b, k.pseudo.ip ++ (k.pseudo.udp ++ (pre ++ a :: b :: post)) =
      (k.pseudo.ip ++ (k.pseudo.udp ++ pre)) ++ a :: b :: post := by
    intro a b
    simp
  rw [hassoc, hassoc] at heq
  refine checksum_word ?_ heq
  simp only [List.length_append, Datagram.ip_length, Datagram.udp_length]
  omega

/-- Zeros and ones are not told apart, with a byte behind one of the frames. -/
theorem corrupted_word_zeros : ∃ (k : Datagram) (stale : Packet),
    dhcpRecvL2Packet .big (k.ip ++ (k.udp ++ (([] ++ 0 :: 0 :: []) ++ [7]))) stale ≠ .rejected ∧
      dhcpRecvL2Packet .big (k.ip ++ (k.udp ++ (([] ++ 0xff :: 0xff :: []) ++ [])))
        stale ≠ .rejected ∧
      (word .big 0 0 = word .big 0xff 0xff ∨ word .big 0 0 = 0 ∧ word .big 0xff 0xff = 65535 ∨
        word .big 0 0 = 65535 ∧ word .big 0xff 0xff = 0) := by
  let k : Datagram := ⟨0x45, 0, 30, 0, 0, 64, IPPROTO_UDP, 0x7ad0, 0, 0, 67, 68, 10, 0xff53, .zero⟩
  have h : dhcpRecvL2Packet .big (k.ip ++ (k.udp ++ (([] ++ 0 :: 0 :: []) ++ [7])))
      { Packet.zero with cookie := DHCP_MAGIC } ≠ .rejected := by decide +kernel
  have h' : dhcpRecvL2Packet .big (k.ip ++ (k.udp ++ (([] ++ 0xff :: 0xff :: []) ++ [])))
      { Packet.zero with cookie := DHCP_MAGIC } ≠ .rejected := by decide +kernel
  exact ⟨k, _, h, h', corrupted_word rfl (by decide) rfl h h'⟩

/-! ### Options over the wire -/

/-- The options and their end byte are among what is sent. -/
theorem Built.arrived {p : Packet} {os : List Tlv.Item} (h : Built p os) (stale : Octets 388) :
    Built { p with options := Dhcp.arrived p.options stale } os := by
  obtain ⟨rest, hrest⟩ := h.options
  refine ⟨?_, h.addable, h.room⟩
  have hroom := h.room
  simp only [OPTIONS_BUFSIZE] at hroom
  obtain ⟨n, hn⟩ : ∃ n, 308 - (Tlv.encode os).length = n + 1 :=
    ⟨308 - (Tlv.encode os).length - 1, by omega⟩
  refine ⟨rest.take n ++ stale.1.drop 308, ?_⟩
  simp only [Dhcp.arrived, hrest]
  rw [List.take_append, List.take_of_length_le (by omega), hn, List.take_succ_cons]
  simp

/-- **An option over the wire.**  A packet is begun, options are added and its other fields set, and
it is sent; the host that receives it finds the same fields, and with `dhcp_get_option` the first
option of each code that had room. -/
theorem option_over_wire (e e' : Endian) {type : UInt8} {items : List Tlv.Item} {p : Packet}
    (hitems : ∀ o ∈ items, Addable o) (hmagic : p.cookie = DHCP_MAGIC)
    (hp : p.options = (items.foldl dhcpAddBinaryOption (dhcpInitHeader type)).options)
    (sourceIp destIp : UInt32) (sourcePort : UInt16) (stale : Packet) :
    ∃ q, dhcpRecvL2Packet e' (rawPacket e p sourceIp sourcePort destIp 68) stale = .packet 548 q ∧
      q = { p with options := q.options } ∧
      ∀ code behind,
        match (items.foldl added (begun type)).find? (fun o => o.code == code) with
        | none   => dhcpGetOption (q.memory behind) code = some none
        | some o => ∃ a, dhcpGetOption (q.memory behind) code = some (some a) ∧
            Tlv.Spells (q.memory behind) (a - 2) o.bytes ∧ 2 ≤ a := by
  have hbuilt := (built_init type).addAll hitems
  have hpbuilt : Built p (items.foldl added (begun type)) :=
    ⟨by rw [hp]; exact hbuilt.options, hbuilt.addable, hbuilt.room⟩
  exact ⟨_, recv_rawPacket e e' hmagic sourceIp destIp sourcePort stale, rfl, fun code behind =>
    (hpbuilt.arrived stale.options).get behind code⟩

/-- A server's OFFER with a lease time, from a little-endian host to a big-endian one. -/
theorem option_over_wire_offer :
    ∃ q, dhcpRecvL2Packet .big (rawPacket .little
        ([⟨DHCP_LEASE_TIME, putBe32 28800⟩].foldl dhcpAddBinaryOption (dhcpInitHeader DHCPOFFER))
        0x0101a8c0 67 0xffffffff 68) .zero = .packet 548 q ∧
      q = { ([⟨DHCP_LEASE_TIME, putBe32 28800⟩].foldl dhcpAddBinaryOption
        (dhcpInitHeader DHCPOFFER)) with
        options := q.options } ∧
      ∀ code behind,
        match ([⟨DHCP_LEASE_TIME, putBe32 28800⟩].foldl added (begun DHCPOFFER)).find?
            (fun o => o.code == code) with
        | none   => dhcpGetOption (q.memory behind) code = some none
        | some o => ∃ a, dhcpGetOption (q.memory behind) code = some (some a) ∧
            Tlv.Spells (q.memory behind) (a - 2) o.bytes ∧ 2 ≤ a := by
  have hitems : ∀ o ∈ [(⟨DHCP_LEASE_TIME, putBe32 28800⟩ : Tlv.Item)], Addable o := by
    rintro o ho
    rw [List.mem_singleton.mp ho]
    exact checkOption_addable rfl
  obtain ⟨options, hadd⟩ :=
    addAll_rest (dhcpInitHeader DHCPOFFER) [⟨DHCP_LEASE_TIME, putBe32 28800⟩]
  obtain ⟨options', heq⟩ := initHeader_eq DHCPOFFER
  refine option_over_wire .little .big hitems ?_ rfl _ _ _ _
  rw [hadd, heq]

end OpenWfd.Dhcp
