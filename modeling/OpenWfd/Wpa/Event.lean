import OpenWfd.Support.BinarySearch
import OpenWfd.Support.Heap
import OpenWfd.Support.Lts

/-!
# Wpa — Event

`src/wpa_parser.c`: the parser of `wpa_supplicant`'s event messages, `<priority>NAME tokens…`.  The
name is found by binary search, the tokens are unquoted into a block of consecutive strings, and for
nine types a payload is read out of them.

The members of the union `owfd_wpa_event_payload` all begin with the MAC; `role` lies at offset 20
in each member that has one, and `name`, `ifname` and `pin` at offset 24.  So the union is three
slots, and a member is named only by the type.
-/

namespace OpenWfd.Wpa

/-! ### The event structure -/

/-- `enum owfd_wpa_event_type`. -/
inductive EventType where
  | unknown
  | apStaConnected
  | apStaDisconnected
  | p2pDeviceFound
  | p2pFindStopped
  | p2pGoNegRequest
  | p2pGoNegSuccess
  | p2pGoNegFailure
  | p2pGroupFormationSuccess
  | p2pGroupFormationFailure
  | p2pGroupStarted
  | p2pGroupRemoved
  | p2pProvDiscShowPin
  | p2pProvDiscEnterPin
  | p2pProvDiscPbcReq
  | p2pProvDiscPbcResp
  | p2pServDiscReq
  | p2pServDiscResp
  | p2pInvitationReceived
  | p2pInvitationResult
  deriving DecidableEq, Repr

/-- `OWFD_WPA_EVENT_P_MSGDUMP`. -/
def pMsgdump : Nat := 0

/-- `OWFD_WPA_EVENT_P_COUNT`. -/
def pCount : Nat := 5

/-- `enum owfd_wpa_event_role`; `GO` is 0. -/
inductive Role where
  | go
  | client
  deriving DecidableEq, Repr

/-- `OWFD_WPA_EVENT_MAC_STRLEN`. -/
def macStrlen : Nat := 18

/-- `union owfd_wpa_event_payload`: the MAC, the role, and the pointer that is `name`, `ifname` or
`pin`. -/
structure Payload where
  mac : List UInt8
  role : Role
  ptr : Option Block
  deriving DecidableEq, Repr

/-- All bytes zero. -/
def Payload.zero : Payload := ⟨List.replicate macStrlen 0, .go, none⟩

/-- `struct owfd_wpa_event`. -/
structure Event where
  type : EventType
  priority : Nat
  raw : Option Block
  p : Payload
  deriving DecidableEq, Repr

/-- `owfd_wpa_event_init`: all bytes zero. -/
def Event.zero : Event := ⟨.unknown, 0, none, .zero⟩

/-- `owfd_wpa_event_reset`. -/
def reset (ev : Event) (h : Heap) : Event × Heap :=
  let h := h.free ev.raw
  let h :=
    match ev.type with
    | .p2pDeviceFound     => h.free ev.p.ptr
    | .p2pGroupStarted    => h.free ev.p.ptr
    | .p2pProvDiscShowPin => h.free ev.p.ptr
    | _                   => h
  (.zero, h)

/-! ### Names -/

/-- `struct event_type`; `len` is the length of the name. -/
structure EventName where
  name : List UInt8
  code : EventType
  deriving DecidableEq, Repr

/-- `event_list`, in alphabetical order. -/
def eventList : List EventName :=
  [⟨str "AP-STA-CONNECTED", .apStaConnected⟩,
    ⟨str "AP-STA-DISCONNECTED", .apStaDisconnected⟩,
    ⟨str "P2P-DEVICE-FOUND", .p2pDeviceFound⟩,
    ⟨str "P2P-FIND-STOPPED", .p2pFindStopped⟩,
    ⟨str "P2P-GO-NEG-FAILURE", .p2pGoNegFailure⟩,
    ⟨str "P2P-GO-NEG-REQUEST", .p2pGoNegRequest⟩,
    ⟨str "P2P-GO-NEG-SUCCESS", .p2pGoNegSuccess⟩,
    ⟨str "P2P-GROUP-FORMATION-FAILURE", .p2pGroupFormationFailure⟩,
    ⟨str "P2P-GROUP-FORMATION-SUCCESS", .p2pGroupFormationSuccess⟩,
    ⟨str "P2P-GROUP-REMOVED", .p2pGroupRemoved⟩,
    ⟨str "P2P-GROUP-STARTED", .p2pGroupStarted⟩,
    ⟨str "P2P-INVITATION-RECEIVED", .p2pInvitationReceived⟩,
    ⟨str "P2P-INVITATION-RESULT", .p2pInvitationResult⟩,
    ⟨str "P2P-PROV-DISC-ENTER-PIN", .p2pProvDiscEnterPin⟩,
    ⟨str "P2P-PROV-DISC-PBC-REQ", .p2pProvDiscPbcReq⟩,
    ⟨str "P2P-PROV-DISC-PBC-RESP", .p2pProvDiscPbcResp⟩,
    ⟨str "P2P-PROV-DISC-SHOW-PIN", .p2pProvDiscShowPin⟩,
    ⟨str "P2P-SERV-DISC-REQ", .p2pServDiscReq⟩,
    ⟨str "P2P-SERV-DISC-RESP", .p2pServDiscResp⟩]

/-- `owfd_wpa_event_name`. -/
def eventName (type : EventType) : List UInt8 :=
  match eventList.find? fun t => t.code = type with
  | some t => t.name
  | none   => str "UNKNOWN"

/-- `event_comp`. -/
def eventComp (k : List UInt8) (t : EventName) : Int :=
  let r := strncmp k t.name t.name.length
  if r ≠ 0 then
    r
  else
    -- `k[t->len]`, which is NUL at the end of the string
    match k.drop t.name.length with
    | []     => 0
    | c :: _ => if c ≠ SP then 1 else 0

/-! ### Tokens -/

/-- A byte that separates tokens. -/
def isBlank (c : UInt8) : Bool := c = SP || c = LF || c = TAB || c = CR

/-- The variables of `tokenize`; `out` is what was written before `dst`. -/
structure Tok where
  out : List UInt8
  lastC : UInt8
  n : Nat
  quoted : Bool
  escaped : Bool

def Tok.init : Tok := ⟨[], 0, 0, false, false⟩

/-- The body of the loop of `tokenize`. -/
def Tok.step (t : Tok) (c : UInt8) : Tok :=
  if t.quoted then
    if t.escaped then
      { t with escaped := false, lastC := c, out := t.out ++ [c] }
    else if c = SQ then
      { t with quoted := false }
    else if c = BS then
      { t with escaped := true }
    else
      { t with lastC := c, out := t.out ++ [c] }
  else if isBlank c then
    if t.lastC ≠ 0 then { t with out := t.out ++ [NUL], n := t.n + 1, lastC := 0 }
    else { t with lastC := 0 }
  else if c = SQ then
    { t with quoted := true, escaped := false, lastC := c }
  else
    { t with lastC := c, out := t.out ++ [c] }

/-- `tokenize`: the block of strings and their number. -/
def tokenize (src : List UInt8) (h : Heap) : Option (Block × Nat) × Heap :=
  match h.malloc (src.length + 1) with
  | (none, h)   => (none, h)
  | (some b, h) =>
    let t := src.foldl Tok.step .init
    let buf := memcpy b.bytes 0 [NUL]
    let buf := memcpy buf 0 t.out
    if t.lastC ≠ 0 then
      (some ({ b with bytes := memcpy buf t.out.length [NUL] }, t.n + 1), h)
    else
      (some ({ b with bytes := buf }, t.n), h)

/-- `tokens += strlen(tokens) + 1`. -/
def nextToken (tokens : List UInt8) : List UInt8 := tokens.drop ((cstr tokens).length + 1)

/-! ### MAC addresses -/

/-- `%2x` of `sscanf`: the text after the field, if there is one.  It skips blanks; a sign and a
`0x` count into the width. -/
def scanHex2 (s : List UInt8) : Option (List UInt8) :=
  match s.dropWhile isSpace with
  | []     => none
  | a :: s =>
    if a = 43 ∨ a = 45 then
      match s with
      | []     => none
      | b :: s => if isXDigit b then some s else none
    else if isXDigit a then
      match s with
      | []     => some []
      | b :: s =>
        -- "0x" is the start of a number and no number
        if a = 48 ∧ (b = 120 ∨ b = 88) then none
        else if isXDigit b then some s
        else some (b :: s)
    else
      none

/-- `sscanf` of `n` fields `%2x` with colons between them: how many were read. -/
def scanFields : Nat → List UInt8 → Nat
  | 0, _     => 0
  | n + 1, s =>
    match scanHex2 s with
    | none   => 0
    | some s =>
      match s with
      | []     => 1
      | c :: s => if c = COLON then 1 + scanFields n s else 1

/-- `parse_mac`. -/
def parseMac (buf src : List UInt8) : Except Errno (List UInt8) :=
  if src.length > 17 then .error .EINVAL
  else if scanFields 6 src ≠ 6 then .error .EINVAL
  else .ok (memcpy buf 0 (src ++ [NUL]))

/-! ### Payloads -/

/-- The parsers of a payload: they are given the block of strings and their number. -/
abbrev PayloadParser :=
  Payload → List UInt8 → Nat → Heap → Except Errno Unit × Payload × Heap

/-- A payload that is a MAC. -/
def parseMacOnly : PayloadParser := fun p tokens num h =>
  if num < 1 then
    (.error .EINVAL, p, h)
  else
    match parseMac p.mac (cstr tokens) with
    | .error e => (.error e, p, h)
    | .ok mac  => (.ok (), { p with mac }, h)

/-- `parse_ap_sta_connected`. -/
def parseApStaConnected : PayloadParser := parseMacOnly

/-- `parse_ap_sta_disconnected`. -/
def parseApStaDisconnected : PayloadParser := parseMacOnly

/-- The loop of `parse_p2p_device_found`. -/
def findName : Nat → List UInt8 → Payload → Heap → Except Errno Unit × Payload × Heap
  | 0, _, p, h          => (.error .EINVAL, p, h)
  | n + 1, tokens, p, h =>
    if strncmp (cstr tokens) (str "name=") 5 ≠ 0 then
      findName n (nextToken tokens) p h
    else
      match h.strdup (cstr (tokens.drop 5)) with
      | (none, h)      => (.error .ENOMEM, p, h)
      | (some name, h) => (.ok (), { p with ptr := some name }, h)

/-- `parse_p2p_device_found`. -/
def parseP2pDeviceFound : PayloadParser := fun p tokens num h =>
  if num < 2 then
    (.error .EINVAL, p, h)
  else
    match parseMac p.mac (cstr tokens) with
    | .error e => (.error e, p, h)
    | .ok mac  => findName (num - 1) (nextToken tokens) { p with mac } h

/-- `GO` or `client`. -/
def roleOf (s : List UInt8) : Option Role :=
  if s = str "GO" then some .go
  else if s = str "client" then some .client
  else none

/-- The loop of `parse_p2p_go_neg_success`. -/
def goNegLoop : Nat → List UInt8 → Bool → Bool → Payload → Except Errno Unit × Payload
  | 0, _, hasRole, hasPeer, p => (if hasRole && hasPeer then .ok () else .error .EINVAL, p)
  | n + 1, tokens, hasRole, hasPeer, p =>
    if strncmp (cstr tokens) (str "role=") 5 = 0 then
      match roleOf (cstr (tokens.drop 5)) with
      | none      => (.error .EINVAL, p)
      | some role => goNegLoop n (nextToken tokens) true hasPeer { p with role }
    else if strncmp (cstr tokens) (str "peer_dev=") 9 = 0 then
      match parseMac p.mac (cstr (tokens.drop 9)) with
      | .error e => (.error e, p)
      | .ok mac  => goNegLoop n (nextToken tokens) hasRole true { p with mac }
    else
      goNegLoop n (nextToken tokens) hasRole hasPeer p

/-- `parse_p2p_go_neg_success`. -/
def parseP2pGoNegSuccess : PayloadParser := fun p tokens num h =>
  if num < 2 then
    (.error .EINVAL, p, h)
  else
    let (r, p) := goNegLoop num tokens false false p
    (r, p, h)

/-- The loop of `parse_p2p_group_started`. -/
def findGoDevAddr : Nat → List UInt8 → Payload → Except Errno Unit × Payload
  | 0, _, p          => (.error .EINVAL, p)
  | n + 1, tokens, p =>
    if strncmp (cstr tokens) (str "go_dev_addr=") 12 ≠ 0 then
      findGoDevAddr n (nextToken tokens) p
    else
      match parseMac p.mac (cstr (tokens.drop 12)) with
      | .error e => (.error e, p)
      | .ok mac  => (.ok (), { p with mac })

/-- `parse_p2p_group_started`. -/
def parseP2pGroupStarted : PayloadParser := fun p tokens num h =>
  if num < 3 then
    (.error .EINVAL, p, h)
  else
    match h.strdup (cstr tokens) with
    | (none, h)        => (.error .ENOMEM, p, h)
    | (some ifname, h) =>
      let p := { p with ptr := some ifname }
      let tokens := nextToken tokens
      match roleOf (cstr tokens) with
      | none      => (.error .EINVAL, p, h)
      | some role =>
        let (r, p) := findGoDevAddr (num - 2) (nextToken tokens) { p with role }
        (r, p, h)

/-- `parse_p2p_prov_disc_show_pin`. -/
def parseP2pProvDiscShowPin : PayloadParser := fun p tokens num h =>
  if num < 2 then
    (.error .EINVAL, p, h)
  else
    match parseMac p.mac (cstr tokens) with
    | .error e => (.error e, p, h)
    | .ok mac  =>
      let p := { p with mac }
      match h.strdup (cstr (nextToken tokens)) with
      | (none, h)     => (.error .ENOMEM, p, h)
      | (some pin, h) => (.ok (), { p with ptr := some pin }, h)

/-- `parse_p2p_prov_disc_enter_pin`. -/
def parseP2pProvDiscEnterPin : PayloadParser := parseMacOnly

/-- `parse_p2p_prov_disc_pbc_req`. -/
def parseP2pProvDiscPbcReq : PayloadParser := parseMacOnly

/-- `parse_p2p_prov_disc_pbc_resp`. -/
def parseP2pProvDiscPbcResp : PayloadParser := parseMacOnly

/-- The `switch` of `owfd_wpa_event_parse`. -/
def parsePayload : EventType → PayloadParser
  | .apStaConnected      => parseApStaConnected
  | .apStaDisconnected   => parseApStaDisconnected
  | .p2pDeviceFound      => parseP2pDeviceFound
  | .p2pGoNegSuccess     => parseP2pGoNegSuccess
  | .p2pGroupStarted     => parseP2pGroupStarted
  | .p2pProvDiscShowPin  => parseP2pProvDiscShowPin
  | .p2pProvDiscEnterPin => parseP2pProvDiscEnterPin
  | .p2pProvDiscPbcReq   => parseP2pProvDiscPbcReq
  | .p2pProvDiscPbcResp  => parseP2pProvDiscPbcResp
  | _                    => fun p _ _ h => (.ok (), p, h)

/-! ### The parser -/

/-- The start of `owfd_wpa_event_parse`: the priority, and the text after it unless a `'<'` has no
`'>'`. -/
def parsePriority (event : List UInt8) : Nat × Option (List UInt8) :=
  match event with
  | [] => (pMsgdump, some [])
  | c :: rest =>
    if c = LT then
      match event.dropWhile (· ≠ GT) with
      | []     => (0, none)
      | _ :: t =>
        let (value, end_) := strtoul rest
        -- `priority` is an `unsigned int`
        let priority := value % 2 ^ 32
        (if priority ≥ pCount ∨ end_.length ≠ t.length + 1 ∨ rest.head? = some 61 ∨
            rest.head? = some 45 then pMsgdump
          else priority, some t)
    else
      (pMsgdump, some event)

/-- The label `error` of `owfd_wpa_event_parse`. -/
def fail (e : Errno) (ev : Event) (h : Heap) : Except Errno Unit × Event × Heap :=
  let (ev, h) := reset ev h
  (.error e, ev, h)

/-- `owfd_wpa_event_parse` from the name on. -/
def parseNamed (code : EventName) (t : List UInt8) (ev : Event) (h : Heap) :
    Except Errno Unit × Event × Heap :=
  let ev := { ev with type := code.code }
  let t := (t.drop code.name.length).dropWhile (· = SP)
  match h.strdup t with
  | (none, h)     => fail .ENOMEM ev h
  | (some raw, h) =>
    let ev := { ev with raw := some raw }
    match tokenize (cstr raw.bytes) h with
    | (none, h) => fail .ENOMEM ev h
    | (some (tokens, num), h) =>
      match parsePayload ev.type ev.p tokens.bytes num h with
      | (.error e, p, h) => fail e { ev with p } (h.free (some tokens))
      | (.ok (), p, h)   => (.ok (), { ev with p }, h.free (some tokens))

/-- `owfd_wpa_event_parse`. -/
def parse (ev : Event) (event : List UInt8) (h : Heap) : Except Errno Unit × Event × Heap :=
  let (ev, h) := reset ev h
  let (priority, t) := parsePriority event
  let ev := { ev with priority }
  match t with
  | none   => (.ok (), { ev with type := .unknown }, h)
  | some t =>
    match bsearch (eventComp t) eventList with
    | none      => (.ok (), { ev with type := .unknown }, h)
    | some code => parseNamed code t ev h

/-! ### Runs -/

/-- A call on an event structure. -/
inductive EventOp where
  | parse (event : CStr)
  | reset

def EventOp.exec (s : Event × Heap) : EventOp → Except Errno Unit × Event × Heap
  | .parse event => Wpa.parse s.1 event s.2
  | .reset       => (.ok (), Wpa.reset s.1 s.2)

/-- One event structure and the heap, under any sequence of calls. -/
def eventLts : Lts (Event × Heap) (EventOp × Except Errno Unit) := .ofExec EventOp.exec

end OpenWfd.Wpa
