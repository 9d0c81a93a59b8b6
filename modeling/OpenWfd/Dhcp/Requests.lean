import OpenWfd.Dhcp.Client
import OpenWfd.Dhcp.Replies

/-!
# Dhcp — Requests

What the client sends: DISCOVER, REQUEST and RELEASE are built with the client's hardware address,
and whoever reads one from a socket reads what the client put in (`Posted.recv`).
-/

namespace OpenWfd.Dhcp

open Tlv (Item)

/-- A packet of this type from `k`: its header, and that the options `items` were added to it, as
far as there was room. -/
structure Posted (k : Mac) (type : UInt8) (xid ciaddr : UInt32) (items : List Item) (p : Packet) :
    Prop where
  mac : p.mac = k
  op : p.op = BOOTREQUEST
  hlen : p.hlen = 6
  cookie : p.cookie = DHCP_MAGIC
  xid : p.xid = xid
  ciaddr : p.ciaddr = ciaddr
  built : Built p (items.foldl added (begun type))

variable {k : Mac} {type : UInt8} {xid ciaddr : UInt32} {items : List Item} {p : Packet} {o : Item}

theorem Posted.add (h : Posted k type xid ciaddr items p) (ho : Addable o) :
    Posted k type xid ciaddr (items ++ [o]) (dhcpAddBinaryOption p o) := by
  have hbuilt := h.built.add ho
  obtain ⟨options, heq⟩ := addBinaryOption_rest p o
  rw [heq] at hbuilt ⊢
  refine ⟨h.mac, h.op, h.hlen, h.cookie, h.xid, h.ciaddr, ?_⟩
  rw [List.foldl_append]
  exact hbuilt

theorem Posted.addAll {more : List Item} (h : Posted k type xid ciaddr items p)
    (hmore : ∀ o ∈ more, Addable o) :
    Posted k type xid ciaddr (items ++ more) (more.foldl dhcpAddBinaryOption p) := by
  induction more generalizing items p with
  | nil => rwa [List.append_nil]
  | cons o more ih =>
      have hrest := ih (h.add (hmore o List.mem_cons_self)) fun o ho =>
        hmore o (List.mem_cons_of_mem _ ho)
      rwa [List.append_assoc] at hrest

theorem Posted.addOption (h : Posted k type xid ciaddr items p) (code : UInt8) (data : List UInt8)
    (hcheck : checkOption code data.length = true) :
    Posted k type xid ciaddr (items ++ [⟨code, data⟩]) (addOption p code data) := by
  rw [Dhcp.addOption, if_pos hcheck]
  exact h.add (checkOption_addable hcheck)

/-- An option that is not found in the packet nor among what is added is not found. -/
theorem find_added_none {os : List Item} {f : Item → Bool} (h : os.find? f = none)
    {more : List Item} (hmore : ∀ o ∈ more, f o = false) :
    (more.foldl added os).find? f = none := by
  induction more generalizing os with
  | nil => exact h
  | cons o more ih =>
      refine ih ?_ fun o' ho' => hmore o' (List.mem_cons_of_mem _ ho')
      unfold added
      split_ifs
      · rw [List.find?_append, h, List.find?_cons_of_neg (by simp [hmore o List.mem_cons_self])]
        rfl
      · exact h

/-! ### `add_request_options` -/

/-- Four writes to an array behind what is in it. -/
theorem memcpy_item {pre m rest : List UInt8} {a b d code len fin : UInt8} {data : List UInt8}
    (hm : m.length = data.length) :
    memcpy (memcpy
      (memcpy (memcpy (pre ++ a :: b :: (m ++ d :: rest)) (pre.length + 2) data) pre.length [code])
      (pre.length + 1) [len]) (pre.length + 2 + data.length) [fin] =
      pre ++ code :: len :: (data ++ fin :: rest) := by
  have h₁ := memcpy_append (pre ++ [a, b]) (m ++ d :: rest) data
  rw [List.drop_append, hm.symm, List.drop_length, Nat.sub_self] at h₁
  have h₂ := memcpy_append pre (a :: b :: (data ++ d :: rest)) [code]
  have h₃ := memcpy_append (pre ++ [code]) (b :: (data ++ d :: rest)) [len]
  have h₄ := memcpy_append (pre ++ code :: len :: data) (d :: rest) [fin]
  simp only [List.append_assoc, List.cons_append, List.nil_append, List.length_append,
    List.length_cons,
    List.length_nil, List.drop_succ_cons, List.drop_zero, Nat.zero_add] at h₁ h₂ h₃ h₄
  rw [h₁, h₂, h₃, show pre.length + 2 + data.length = pre.length + (data.length + 1 + 1) by omega,
    h₄]

/-- What `add_request_options` adds. -/
def requestItems (c : ClientConfig) : List Item :=
  if c.requestList = [] then [] else [⟨DHCP_PARAM_REQ, c.requestList⟩]

theorem addable_request (c : ClientConfig) : Addable ⟨DHCP_PARAM_REQ, c.requestList⟩ := by
  have hle := c.requestList_le
  have hcode : DHCP_PARAM_REQ ≠ DHCP_PADDING ∧ DHCP_PARAM_REQ ≠ DHCP_END ∧
    DHCP_PARAM_REQ ≠ DHCP_OPTION_OVERLOAD := by decide
  exact ⟨⟨hcode.1, hcode.2.1, Nat.lt_succ_of_le hle⟩, hcode.2.2⟩

/-- **`add_request_options`** stays inside the options, and adds one. -/
theorem Posted.addRequestOptions (c : Client) (h : Posted k type xid ciaddr items p)
    (hroom : (Tlv.encode (items.foldl added (begun type))).length ≤ 20) :
    Posted k type xid ciaddr (items ++ requestItems c.toClientConfig) (c.addRequestOptions p) := by
  have hle := c.requestList_le
  unfold Client.addRequestOptions requestItems
  rw [h.built.endOption]
  dsimp only
  split_ifs with hnil
  · rwa [List.append_nil]
  refine ⟨h.mac, h.op, h.hlen, h.cookie, h.xid, h.ciaddr, ?_⟩
  obtain ⟨rest, hrest⟩ := h.built.options
  generalize hos : items.foldl added (begun type) = os at hroom hrest
  have hlen := p.options.2
  -- the bytes that are written over, and the rest
  obtain ⟨a, b, m, d, tail, htail, hm⟩ : ∃ a b m d tail,
      DHCP_END :: rest = a :: b :: (m ++ d :: tail) ∧ m.length = c.requestList.length := by
    rw [hrest, List.length_append, List.length_cons] at hlen
    obtain ⟨b, rest, rfl⟩ : ∃ b r, rest = b :: r := List.exists_cons_of_length_pos (by omega)
    rw [List.length_cons] at hlen
    obtain ⟨d, tail, hd⟩ : ∃ d t, rest.drop c.requestList.length = d :: t :=
      List.exists_cons_of_length_pos (by rw [List.length_drop]; omega)
    refine ⟨DHCP_END, b, rest.take c.requestList.length, d, tail, ?_, ?_⟩
    · rw [← hd, List.take_append_drop]
    · rw [List.length_take]
      omega
  rw [htail] at hrest
  have hlen' := hlen
  rw [hrest] at hlen'
  simp only [List.length_append, List.length_cons, hm] at hlen'
  have hadded : added os ⟨DHCP_PARAM_REQ, c.requestList⟩ =
      os ++ [⟨DHCP_PARAM_REQ, c.requestList⟩] := by
    rw [added, if_pos (by simp only [OPTIONS_BUFSIZE]; omega)]
  rw [List.foldl_append, hos, List.foldl_cons, List.foldl_nil, hadded]
  refine ⟨⟨tail, ?_⟩, fun o ho => ?_, ?_⟩
  · dsimp only
    rw [write_val (by simp only [List.length_singleton]; omega),
      write_val (by simp only [List.length_singleton]; omega),
      write_val (by simp only [List.length_singleton]; omega), write_val (by omega), hrest,
      memcpy_item hm, Tlv.encode_append, Tlv.encode_cons, Tlv.encode_nil]
    simp [Tlv.Item.bytes]
  · rcases List.mem_append.mp ho with ho | ho
    · exact h.built.addable o (hos ▸ ho)
    · rw [List.mem_singleton.mp ho]
      exact addable_request c.toClientConfig
  · rw [Tlv.encode_append, List.length_append, Tlv.encode_cons, Tlv.encode_nil, List.append_nil,
      Tlv.Item.bytes_length]
    simp only [OPTIONS_BUFSIZE]
    omega

/-! ### The packets -/

theorem addable_send {c : ClientConfig} (ho : o ∈ c.sendValues) : Addable o := by
  have hle := c.sendValues_le o ho
  rcases c.sendValues_code o ho with hcode | hcode <;>
    exact ⟨⟨by rw [hcode]; decide, by rw [hcode]; decide, by omega⟩, by rw [hcode]; decide⟩

theorem posted_init (c : Client) (type : UInt8) (htype : ¬ Replying type) :
    Posted c.macAddress type 0 0 [] (c.initPacket type) := by
  obtain ⟨options, heq⟩ := initHeader_eq type
  have hop : (if type = DHCPOFFER ∨ type = DHCPACK ∨ type = DHCPNAK then BOOTREPLY
    else BOOTREQUEST) =
    BOOTREQUEST := if_neg htype
  have hbuilt := built_init type
  have hmac : (c.initPacket type).mac = c.macAddress := by
    refine Subtype.ext ?_
    show (Octets.write (dhcpInitHeader type).chaddr 0 c.macAddress.1).1.take 6 = c.macAddress.1
    rw [write_val (by rw [c.macAddress.2]; decide), memcpy, List.take_zero, List.nil_append,
      List.take_append_of_le_length (by rw [c.macAddress.2]),
      List.take_of_length_le (by rw [c.macAddress.2])]
  rw [hop] at heq
  unfold Client.initPacket at hmac ⊢
  rw [heq] at hbuilt hmac ⊢
  exact ⟨hmac, rfl, rfl, rfl, rfl, rfl, hbuilt.options, hbuilt.addable, hbuilt.room⟩

theorem Posted.setXid (h : Posted k type xid ciaddr items p) (x : UInt32) (secs : UInt16) :
    Posted k type x ciaddr items { p with xid := x, secs := secs } :=
  ⟨h.mac, h.op, h.hlen, h.cookie, rfl, h.ciaddr, h.built.options, h.built.addable, h.built.room⟩

theorem Posted.setCiaddr (h : Posted k type xid ciaddr items p) (x a : UInt32) :
    Posted k type x a items { p with xid := x, ciaddr := a } :=
  ⟨h.mac, h.op, h.hlen, h.cookie, rfl, rfl, h.built.options, h.built.addable, h.built.room⟩

/-- The options a client adds to every DISCOVER and REQUEST, last. -/
def lastItems (c : ClientConfig) : List Item := requestItems c ++ c.sendValues

theorem Posted.addLast (c : Client) (h : Posted k type xid ciaddr items p)
    (hroom : (Tlv.encode (items.foldl added (begun type))).length ≤ 20) :
    Posted k type xid ciaddr (items ++ lastItems c.toClientConfig)
      (c.addSendOptions (c.addRequestOptions p)) := by
  rw [lastItems, ← List.append_assoc]
  exact (h.addRequestOptions c hroom).addAll fun o ho => addable_send ho

/-- The options of a DISCOVER. -/
def discoverItems (c : ClientConfig) (requested : UInt32) : List Item :=
  (if requested ≠ 0 then [⟨DHCP_REQUESTED_IP, putBe32 requested⟩] else []) ++
    [⟨DHCP_MAX_SIZE, putBe16 576⟩] ++ lastItems c

/-- The options of a REQUEST for an offer. -/
def selectItems (c : Client) : List Item :=
  [⟨DHCP_REQUESTED_IP, putBe32 c.requestedIp⟩, ⟨DHCP_SERVER_ID, putBe32 c.serverIp⟩] ++
    lastItems c.toClientConfig

theorem posted_discover (e : Endian) (c : Client) (v : Env) (requested : UInt32) :
    ∃ p, c.sendDiscover e v requested = .raw p ∧
      Posted c.macAddress DHCPDISCOVER (e.raw c.xid) 0
        (discoverItems c.toClientConfig requested) p := by
  have hinit := (posted_init c DHCPDISCOVER (by decide)).setXid (e.raw c.xid) (c.dhcpAttemptSecs v)
  refine ⟨_, rfl, ?_⟩
  unfold discoverItems
  split_ifs with h
  · have hadd := (hinit.addOption DHCP_REQUESTED_IP (putBe32 requested) rfl).addOption
      DHCP_MAX_SIZE (putBe16 576) rfl
    exact hadd.addLast c (by show 13 ≤ 20; decide)
  · have hadd := hinit.addOption DHCP_MAX_SIZE (putBe16 576) rfl
    exact hadd.addLast c (by show 7 ≤ 20; decide)

theorem posted_select (e : Endian) (c : Client) (v : Env) :
    ∃ p, c.sendSelect e v = .raw p ∧
      Posted c.macAddress DHCPREQUEST (e.raw c.xid) 0 (selectItems c) p := by
  have hinit := (posted_init c DHCPREQUEST (by decide)).setXid (e.raw c.xid) (c.dhcpAttemptSecs v)
  have hadd := (hinit.addOption DHCP_REQUESTED_IP (putBe32 c.requestedIp) rfl).addOption
    DHCP_SERVER_ID (putBe32 c.serverIp) rfl
  exact ⟨_, rfl, hadd.addLast c (by show 15 ≤ 20; decide)⟩

theorem posted_renew (e : Endian) (c : Client) :
    Posted c.macAddress DHCPREQUEST (e.raw c.xid) c.requestedIp (lastItems c.toClientConfig)
      (c.renewPacket e) := by
  have hinit := (posted_init c DHCPREQUEST (by decide)).setCiaddr (e.raw c.xid) c.requestedIp
  exact hinit.addLast c (by show 3 ≤ 20; decide)

theorem posted_release (e : Endian) (c : Client) (v : Env) (server ciaddr : UInt32) :
    ∃ p, c.sendRelease e v server ciaddr = .kernel p ciaddr server ∧
      Posted c.macAddress DHCPRELEASE
        (e.raw v.rand) ciaddr [⟨DHCP_SERVER_ID, putBe32 server⟩] p := by
  have hinit := (posted_init c DHCPRELEASE (by decide)).setCiaddr (e.raw v.rand) ciaddr
  exact ⟨_, rfl, hinit.addOption DHCP_SERVER_ID (putBe32 server) rfl⟩

/-! ### Reading them -/

theorem lastItems_code {c : ClientConfig} (ho : o ∈ lastItems c) :
    o.code = DHCP_PARAM_REQ ∨ o.code = DHCP_HOST_NAME ∨ o.code = DHCP_CLIENT_ID := by
  rcases List.mem_append.mp ho with ho | ho
  · unfold requestItems at ho
    split_ifs at ho
    · cases ho
    · exact Or.inl (congrArg Item.code (List.mem_singleton.mp ho))
  · exact Or.inr (c.sendValues_code o ho)

/-- None of the options is a vendor's. -/
def Vendorless (items : List Item) : Prop := ∀ o ∈ items, o.code ≠ DHCP_VENDOR

theorem lastItems_find {c : ClientConfig} {code : UInt8} {os : List Item}
    (hcode : code ≠ DHCP_PARAM_REQ ∧ code ≠ DHCP_HOST_NAME ∧ code ≠ DHCP_CLIENT_ID)
    (h : os.find? (fun o => o.code == code) = none) :
    ((lastItems c).foldl added os).find? (fun o => o.code == code) = none := by
  refine find_added_none h fun o ho => ?_
  obtain ⟨h₁, h₂, h₃⟩ := hcode
  rcases lastItems_code ho with hc | hc | hc <;> rw [hc]
  · exact beq_eq_false_iff_ne.mpr h₁.symm
  · exact beq_eq_false_iff_ne.mpr h₂.symm
  · exact beq_eq_false_iff_ne.mpr h₃.symm

theorem vendorless_last (c : ClientConfig) : Vendorless (lastItems c) := by
  intro o ho
  rcases lastItems_code ho with hc | hc | hc <;> rw [hc] <;> decide

theorem Vendorless.append {more : List Item} (h : Vendorless items) (h' : Vendorless more) :
    Vendorless (items ++ more) := by
  intro o ho
  rcases List.mem_append.mp ho with ho | ho
  · exact h o ho
  · exact h' o ho

theorem Vendorless.cons (h : o.code ≠ DHCP_VENDOR) (h' : Vendorless items) :
    Vendorless (o :: items) := by
  intro o' ho'
  rcases List.mem_cons.mp ho' with rfl | ho'
  · exact h
  · exact h' o' ho'

theorem vendorless_nil : Vendorless [] := nofun

theorem vendorless_discover (c : ClientConfig) (requested : UInt32) :
    Vendorless (discoverItems c requested) := by
  unfold discoverItems
  refine ((?_ : Vendorless _).append (.cons (by decide) vendorless_nil)).append (vendorless_last c)
  split_ifs
  · exact .cons (show DHCP_REQUESTED_IP ≠ DHCP_VENDOR by decide) vendorless_nil
  · exact vendorless_nil

theorem vendorless_select (c : Client) : Vendorless (selectItems c) :=
  .append (.cons (show DHCP_REQUESTED_IP ≠ DHCP_VENDOR by decide)
    (.cons (show DHCP_SERVER_ID ≠ DHCP_VENDOR by decide) vendorless_nil))
    (vendorless_last c.toClientConfig)

/-- A packet of this type and transaction from `k`, without a vendor's option. -/
def Says (k : Mac) (type : UInt8) (xid : UInt32) (p : Packet) : Prop :=
  ∃ ciaddr items, Posted k type xid ciaddr items p ∧ Vendorless items

theorem says_discover (e : Endian) (c : Client) (v : Env) (requested : UInt32) :
    ∃ p, c.sendDiscover e v requested = .raw p ∧
    Says c.macAddress DHCPDISCOVER (e.raw c.xid) p := by
  obtain ⟨p, heq, hp⟩ := posted_discover e c v requested
  exact ⟨p, heq, _, _, hp, vendorless_discover c.toClientConfig requested⟩

theorem says_select (e : Endian) (c : Client) (v : Env) :
    ∃ p, c.sendSelect e v = .raw p ∧ Says c.macAddress DHCPREQUEST (e.raw c.xid) p := by
  obtain ⟨p, heq, hp⟩ := posted_select e c v
  exact ⟨p, heq, _, _, hp, vendorless_select c⟩

theorem says_renew (e : Endian) (c : Client) :
    Says c.macAddress DHCPREQUEST (e.raw c.xid) (c.renewPacket e) :=
  ⟨_, _, posted_renew e c, vendorless_last c.toClientConfig⟩

theorem says_release (e : Endian) (c : Client) (v : Env) (server ciaddr : UInt32) :
    ∃ p, c.sendRelease e v server ciaddr = .kernel p ciaddr server ∧
      Says c.macAddress DHCPRELEASE (e.raw v.rand) p := by
  obtain ⟨p, heq, hp⟩ := posted_release e c v server ciaddr
  exact ⟨p, heq, _, _, hp, .cons (show DHCP_SERVER_ID ≠ DHCP_VENDOR by decide) vendorless_nil⟩

/-- A packet as it is read from a socket. -/
def Packet.read (p : Packet) : Packet := { p with options := arrived p.options (.zero 388) }

theorem Posted.read (h : Posted k type xid ciaddr items p) :
    Posted k type xid ciaddr items p.read :=
  ⟨h.mac, h.op, h.hlen, h.cookie, h.xid, h.ciaddr, h.built.arrived (.zero 388)⟩

theorem Posted.recv (h : Posted k type xid ciaddr items p) (hvendor : Vendorless items)
    (behind : Nat → UInt8) :
    dhcpRecvL3Packet (datagram p) behind = .ok (some p.read) := by
  refine recv_datagram h.built h.cookie ?_ behind
  refine find_added_none rfl fun o ho => ?_
  exact beq_eq_false_iff_ne.mpr (hvendor o ho)

/-- An option that is there is read. -/
theorem Built.option_eq {os : List Item} (h : Built p os) {code : UInt8} {x : UInt32}
    (hfind : os.find? (fun o => o.code == code) = some ⟨code, putBe32 x⟩) (behind : Nat → UInt8) :
    ∃ a, option p behind code = .ok (some a) ∧ getBe32At (p.memory behind) a = x := by
  obtain ⟨a, ha, hx⟩ := h.reads hfind behind
  exact ⟨a, by rw [option, ha], hx⟩

/-- And one that is not there is not. -/
theorem Built.option_none {os : List Item} (h : Built p os) {code : UInt8}
    (hfind : os.find? (fun o => o.code == code) = none) (behind : Nat → UInt8) :
    option p behind code = .ok none := by
  have hget := h.get behind code
  rw [hfind] at hget
  rw [option, hget]

theorem Posted.typed (h : Posted k type xid ciaddr items p) (behind : Nat → UInt8) :
    ∃ a, option p behind DHCP_MESSAGE_TYPE = .ok (some a) ∧ p.memory behind a = type := by
  obtain ⟨a, ha, htype⟩ := h.built.typed behind
  exact ⟨a, by rw [option, ha], htype⟩

theorem Posted.checkPacketType (h : Posted k type xid ciaddr items p) (hlow : DHCPDISCOVER ≤ type)
    (hhigh : type ≤ DHCPINFORM) (behind : Nat → UInt8) :
    Server.checkPacketType p behind = .ok type := by
  obtain ⟨a, ha, htype⟩ := h.typed behind
  unfold Server.checkPacketType
  rw [if_neg (by rw [h.hlen]; decide), if_neg (by rw [h.op]; decide)]
  simp only [ha, bind, Except.bind, htype]
  rw [if_neg (UInt8.not_lt.mpr hlow), if_neg (UInt8.not_lt.mpr hhigh)]

end OpenWfd.Dhcp
