import OpenWfd.Ring.Definitions
import OpenWfd.Support.CString
import OpenWfd.Support.Reader
import Mathlib.Data.List.DropRight

/-!
# Decoder — Definitions

`src/rtsp_decoder.c`: the incremental decoder of RTSP messages.  Bytes are fed in chunks of any
size; they wait in a ring buffer until the decoder knows what they are, a header line or a body, and
each finished message is handed to a callback.

A function of the source that may fail returns `Except Errno` *beside* the decoder: what it did
before the failure stays done.  Two things outside `struct owfd_rtsp_decoder` are threaded through
with it: the answers the allocator will give (`heap`), and a log of what the decoder did (`log`), by
which the theorems speak about the calls of the callback and of `finish_header_line`.
-/

namespace OpenWfd.Rtsp

/-- `enum state`. -/
inductive State where
  | new | header | headerQuote | headerNl | body
  deriving DecidableEq, Repr

/-- An entry of `msg.header`: `realloc` leaves the entries it adds indeterminate. -/
inductive HeaderPtr where
  | null
  | line (block : List UInt8)
  | garbage
  deriving DecidableEq, Repr

/-- `struct owfd_rtsp_msg`.  An indeterminate entry of `header_len` is `none`; `body` is the block
`shl_ring_copy` returned. -/
structure Msg where
  headerNum : Nat
  header : List HeaderPtr
  headerLen : List (Option Nat)
  body : Option (List UInt8)
  bodyLen : Nat
  deriving DecidableEq, Repr

/-- What a run of the decoder leaves behind: a message began, a raw header line was cut out of the
stream, a message was handed to the callback. -/
inductive Event where
  | begin
  | line (raw : List UInt8)
  | msg (m : Msg)
  deriving DecidableEq, Repr

/-- `struct owfd_rtsp_decoder` without its ring, and the world beside it.  `cb` says whether there
is a callback. -/
structure Core where
  cb : Bool
  state : State
  lastChr : UInt8
  remainingBody : Nat
  quoted : Bool
  headerSize : Nat
  msg : Msg
  heap : Allocs
  log : List Event

/-- `struct owfd_rtsp_decoder`. -/
structure Decoder extends Core where
  ring : ShlRing

/-- `owfd_rtsp_decoder_new`, when its three allocations succeed. -/
def Decoder.fresh (cb : Bool) : Decoder where
  cb := cb
  state := .new
  lastChr := 0
  remainingBody := 0
  quoted := false
  headerSize := 8
  msg :=
    { headerNum := 0
      header := List.replicate 8 .null
      headerLen := List.replicate 8 (some 0)
      body := none
      bodyLen := 0 }
  heap := []
  log := []
  ring := .zeroed

/-- `owfd_rtsp_decoder_flush`. -/
def flush (d : Decoder) : Decoder :=
  { d with ring := d.ring.flush, state := .new, lastChr := 0, remainingBody := 0 }

/-! ### Messages -/

/-- The header lines go back to `free`: entries below `header_num` are cleared. -/
def clearFirst {α : Type*} (n : Nat) (zero : α) (xs : List α) : List α :=
  List.replicate (min n xs.length) zero ++ xs.drop n

/-- `msg_done`. -/
def msgDone (c : Core) : Core :=
  { c with
    log := if c.cb then c.log ++ [.msg c.msg] else c.log
    msg :=
      { headerNum := 0
        header := clearFirst c.msg.headerNum .null c.msg.header
        headerLen := clearFirst c.msg.headerNum (some 0) c.msg.headerLen
        body := none
        bodyLen := 0 } }

/-- The doubling of the two header arrays in `push_header_line`.  `header_size` counts pointers the
heap holds, so `n` cannot wrap; the test is kept as it stands. -/
def growHeader (c : Core) : Except Errno Unit × Core :=
  let n := c.headerSize * 2
  if n < c.headerSize then
    (.error .ENOMEM, c)
  else
    match realloc c.msg.header n .garbage c.heap with
    | (none, h) => (.error .ENOMEM, { c with heap := h })
    | (some header, h) =>
      let c := { c with heap := h, msg := { c.msg with header := header } }
      match realloc c.msg.headerLen n none c.heap with
      | (none, h) => (.error .ENOMEM, { c with heap := h })
      | (some headerLen, h) =>
        (.ok (), { c with
          heap := h, headerSize := n, msg := { c.msg with headerLen := headerLen } })

/-- `push_header_line`, after the arrays have room. -/
def storeHeader (c : Core) (line : List UInt8) (len : Nat) : Core :=
  let n := c.msg.headerNum
  { c with
    msg := { c.msg with
      headerNum := n + 1
      header := (c.msg.header.set n (.line line)).set (n + 1) .null
      headerLen := (c.msg.headerLen.set n (some len)).set (n + 1) (some 0) } }

/-- `push_header_line`. -/
def pushHeaderLine (c : Core) (line : List UInt8) (len : Nat) : Except Errno Unit × Core :=
  -- keep 1 entry for terminating NULL/0
  if c.headerSize = c.msg.headerNum + 2 then
    match growHeader c with
    | (.error e, c) => (.error e, c)
    | (.ok (), c)   => (.ok (), storeHeader c line len)
  else
    (.ok (), storeHeader c line len)

/-! ### Header lines -/

/-- The variables of the loop of `sanitize_header_line`; `out` is what lies before `dst`. -/
structure San where
  out : List UInt8
  lastC : UInt8
  quoted : Bool
  escaped : Bool
  deriving DecidableEq, Repr

def San.init : San := ⟨[], 0, false, false⟩

/-- One round of the loop of `sanitize_header_line`. -/
def San.step (s : San) (c : UInt8) : San :=
  let prev := s.lastC
  if s.quoted then
    if prev = BS ∧ !s.escaped then
      -- turn escaped binary zero into "\0"
      { s with lastC := c, escaped := true, out := s.out ++ [if c = NUL then 48 else c] }
    else if c = DQ then
      { s with lastC := c, escaped := false, quoted := false, out := s.out ++ [c] }
    else if c = NUL then
      { s with lastC := c, escaped := false }
    else
      { s with lastC := c, escaped := false, out := s.out ++ [c] }
  else if c = NUL then
    { s with lastC := c }
  else
    -- turn new-lines/tabs into white-space
    let c := if c = CR ∨ c = LF ∨ c = TAB then SP else c
    if c = SP ∧ prev = SP then
      { s with lastC := c }
    else if c = DQ then
      { s with lastC := c, quoted := true, escaped := false, out := s.out ++ [c] }
    else
      { s with lastC := c, out := s.out ++ [c] }

/-- The loop of `sanitize_header_line`.  It writes in place, but never ahead of where it reads
(`San.run_out_length`), so it reads the line as it came. -/
def San.run (s : San) (line : List UInt8) : San := line.foldl San.step s

/-- Remove trailing whitespace. -/
def trimEnd (s : List UInt8) : List UInt8 := s.rdropWhile (· = SP)

/-- `sanitize_header_line`: the block after the call and the length it returns. -/
def sanitizeHeaderLine (line : List UInt8) (len : Nat) : List UInt8 × Nat :=
  let out := (San.init.run (line.take len)).out
  let kept := trimEnd out
  (kept ++ List.replicate (out.length + 1 - kept.length) NUL ++ line.drop (out.length + 1),
    kept.length)

/-- `parse_header_line`: look for `content-length`. -/
def parseHeaderLine (c : Core) (line : List UInt8) : Except Errno Unit × Core :=
  if strncasecmp line (str "content-length:") 15 = 0 then
    let (l, e) := strtoul (line.drop 15)
    if line.drop 15 = [] ∨ e ≠ [] then
      (.error .EINVAL, c)
    else if c.remainingBody ≠ 0 ∧ c.remainingBody ≠ l then
      (.error .EINVAL, c)
    else
      (.ok (), { c with remainingBody := l })
  else
    (.ok (), c)

/-- `finish_header_line` once the line is out of the ring: sanitize, parse, store. -/
def finishLine (c : Core) (line : List UInt8) (len : Nat) : Except Errno Unit × Core :=
  let c := { c with log := c.log ++ [.line (line.take len)] }
  let (line, l) := sanitizeHeaderLine line len
  match parseHeaderLine c (cstr line) with
  | (.error e, c) => (.error e, c)
  | (.ok (), c)   => pushHeaderLine c line l

/-- `finish_header_line`. -/
def finishHeaderLine (d : Decoder) (rlen : Nat) : Except Errno Unit × Decoder :=
  match d.ring.copy (some rlen) d.heap with
  | (none, h) => (.error .ENOMEM, { d with heap := h })
  | (some (line, l), h) =>
    let d := { d with heap := h, ring := d.ring.pull rlen }
    let (r, c) := finishLine d.toCore line l
    (r, { d with toCore := c })

/-! ### The five states -/

/-- `feed_char_new`: white-space before a message is ignored. -/
def feedCharNew (d : Decoder) (ch : UInt8) (rlen : Nat) : Except Errno Nat × Decoder :=
  if ch = CR ∨ ch = LF ∨ ch = TAB ∨ ch = SP then
    (.ok (rlen + 1), d)
  else
    (.ok 1, { d with
      state := .header, remainingBody := 0, ring := d.ring.pull rlen, log := d.log ++ [.begin] })

/-- `feed_char_header`. -/
def feedCharHeader (d : Decoder) (ch : UInt8) (rlen : Nat) : Except Errno Nat × Decoder :=
  if ch = CR then
    if d.lastChr = CR ∨ d.lastChr = LF then
      -- an empty line, maybe to be finished off by a \n
      match finishHeaderLine { d with state := .headerNl } rlen with
      | (.error e, d) => (.error e, d)
      | (.ok (), d) =>
        -- no remaining body: finish the message, there might be no \n coming
        (.ok 1, if d.remainingBody = 0 then { d with toCore := msgDone d.toCore } else d)
    else
      (.ok (rlen + 1), d)
  else if ch = LF then
    if d.lastChr = LF then
      match finishHeaderLine d rlen with
      | (.error e, d) => (.error e, d)
      | (.ok (), d) =>
        let d :=
          if d.remainingBody = 0 then { d with toCore := msgDone { d.toCore with state := .new } }
          else { d with state := .body }
        (.ok 0, { d with ring := d.ring.pull 1 })
    else
      (.ok (rlen + 1), d)
  else if ch = DQ then
    if d.lastChr = CR ∨ d.lastChr = LF then
      match finishHeaderLine d rlen with
      | (.error e, d) => (.error e, d)
      | (.ok (), d)   => (.ok 1, { d with state := .headerQuote, quoted := false })
    else
      (.ok (rlen + 1), { d with state := .headerQuote, quoted := false })
  else if ch = TAB ∨ ch = SP then
    (.ok (rlen + 1), d)
  else
    if d.lastChr = CR ∨ d.lastChr = LF then
      -- the last line is complete and this is no continuation
      match finishHeaderLine d rlen with
      | (.error e, d) => (.error e, d)
      | (.ok (), d)   => (.ok 1, d)
    else
      (.ok (rlen + 1), d)

/-- `feed_char_header_quote`. -/
def feedCharHeaderQuote (d : Decoder) (ch : UInt8) (rlen : Nat) : Except Errno Nat × Decoder :=
  if d.lastChr = BS ∧ !d.quoted then
    (.ok (rlen + 1), { d with quoted := true })
  else if ch = DQ then
    (.ok (rlen + 1), { d with quoted := false, state := .header })
  else
    (.ok (rlen + 1), { d with quoted := false })

/-- `feed_char_body`. -/
def feedCharBody (d : Decoder) (ch : UInt8) (rlen : Nat) : Except Errno Nat × Decoder :=
  if d.remainingBody = 0 then
    feedCharNew { d with state := .new } ch rlen
  else
    let rlen := rlen + 1
    let d := { d with remainingBody := d.remainingBody - 1 }
    if d.remainingBody = 0 then
      match d.ring.copy (some rlen) d.heap with
      | (none, h) => (.error .ENOMEM, { d with heap := h })
      | (some (line, l), h) =>
        let c := { d.toCore with heap := h, msg := { d.msg with body := some line, bodyLen := l } }
        (.ok 0, { d with toCore := { msgDone c with state := .new }, ring := d.ring.pull rlen })
    else
      (.ok rlen, d)

/-- `feed_char_header_nl`. -/
def feedCharHeaderNl (d : Decoder) (ch : UInt8) (rlen : Nat) : Except Errno Nat × Decoder :=
  if ch = LF then
    (.ok 0, { d with
      ring := d.ring.pull (rlen + 1)
      state := if d.remainingBody = 0 then .new else .body })
  else
    feedCharBody { d with ring := d.ring.pull rlen, state := .body } ch 0

/-- `feed_char`. -/
def feedChar (d : Decoder) (ch : UInt8) (rlen : Nat) : Except Errno Nat × Decoder :=
  match d.state with
  | .new         => feedCharNew d ch rlen
  | .header      => feedCharHeader d ch rlen
  | .headerQuote => feedCharHeaderQuote d ch rlen
  | .headerNl    => feedCharHeaderNl d ch rlen
  | .body        => feedCharBody d ch rlen

/-- One round of the loop of `owfd_rtsp_decoder_feed`, on the decoder and `rlen`. -/
def feedRound : Reader (Decoder × Nat) UInt8 Errno :=
  ⟨fun (d, rlen) ch =>
    match feedChar d ch rlen with
    | (.error e, d) => (.error e, (d, rlen))
    | (.ok l, d)    => (.ok (), ({ d with lastChr := ch }, l))⟩

/-- `owfd_rtsp_decoder_feed`. -/
def feed (d : Decoder) (buf : List UInt8) : Except Errno Unit × Decoder :=
  let rlen := d.ring.length
  match d.ring.push buf d.heap with
  | (.error _, ring, h) => (.error .ENOMEM, { d with ring := ring, heap := h })
  | (.ok (), ring, h) =>
    match feedRound.run ({ d with ring := ring, heap := h }, rlen) buf with
    | (.ok (), (d, _)) => (.ok (), d)
    -- ring buffer may be corrupted, flush it
    | (.error e, (d, _)) => (.error e, flush d)

end OpenWfd.Rtsp
