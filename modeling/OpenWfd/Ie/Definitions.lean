import OpenWfd.Support.Heap

/-!
# Ie — Definitions

`src/tools/openwfd_ie.c`: `print_ie`, which prints the WFD information elements in a buffer.  The
data of consecutive elements is one sequence of subelements, and the payload of one may go on in the
next element, so it is collected in a block of its own until `print_sub` can print it.

What is printed is recorded line by line; so are the calls of `print_sub`.
-/

namespace OpenWfd.Ie

/-! ### `wfd_defs.h` -/

/-- `OPENWFD_WFD_IE_ID`. -/
def WFD_ID : UInt8 := 0xdd

/-- `OPENWFD_WFD_IE_OUI_1_0`. -/
def OUI_1_0 : Nat := 0x506f9a0a

/-- `OPENWFD_WFD_IE_DATA_MAX`. -/
def DATA_MAX : Nat := 251

/-- `OPENWFD_WFD_IE_SUB_DEV_INFO`. -/
def SUB_DEV_INFO : UInt8 := 0

/-- The header of a `struct openwfd_wfd_ie_sub`, the length as `be16toh` gives it. -/
structure IeSub where
  subelementId : UInt8
  length : Nat
  deriving DecidableEq, Repr

/-! ### Numbers -/

/-- `be16toh` of the field at the start of these bytes. -/
def be16 : List UInt8 → Nat
  | hi :: lo :: _ => hi.toNat * 256 + lo.toNat
  | _             => 0

/-- `be32toh` of the field at the start of these bytes. -/
def be32 (b : List UInt8) : Nat := be16 b * 65536 + be16 (b.drop 2)

/-- `%u`. -/
def dec (n : Nat) : String := toString n

/-- `%x`. -/
def hex (n : Nat) : String := String.ofList (Nat.toDigits 16 n)

/-! ### Printing -/

/-- What is printed: a line with its indentation, or an error.  `sub` is a call of `print_sub` with
this header and these bytes at `data`. -/
inductive Printed where
  | line (indent : Nat) (text : String)
  | err (text : String)
  | sub (h : IeSub) (data : List UInt8)
  deriving DecidableEq, Repr

/-- The call of `print_sub` this is, if it is one. -/
def Printed.call? : Printed → Option (IeSub × List UInt8)
  | .sub h data => some (h, data)
  | _           => none

/-- The globals of the file. -/
structure Out where
  indent : Nat
  printed : List Printed
  deriving DecidableEq, Repr

namespace Out

def line (o : Out) (text : String) : Out :=
  { o with printed := o.printed ++ [.line o.indent text] }

def err (o : Out) (text : String) : Out := { o with printed := o.printed ++ [.err text] }

def indentIn (o : Out) : Out := { o with indent := o.indent + 1 }

def indentOut (o : Out) : Out := { o with indent := o.indent - 1 }

/-- `print_sub_dev_info`. -/
def subDevInfo (o : Out) (h : IeSub) (p : List UInt8) : Out :=
  if h.length ≠ 6 then
    o.err ("invalid sub-length " ++ dec h.length)
  else
    let o := o.line ("dev_info: " ++ hex (be16 p))
    let o := o.line ("ctrl_port: " ++ dec (be16 (p.drop 2)))
    o.line ("max_throughput: " ++ dec (be16 (p.drop 4)))

/-- `print_sub`. -/
def sub (o : Out) (sub : IeSub) (data : List UInt8) : Out :=
  let o := { o with printed := o.printed ++ [Printed.sub sub data] }
  let o := o.line ("subelement_id: 0x" ++ hex sub.subelementId.toNat)
  let o := o.line ("length: " ++ dec sub.length)
  if sub.subelementId = SUB_DEV_INFO then
    (o.line "type: DEVICE INFO").subDevInfo sub data
  else
    o.line ("unknown sub-element ID " ++ hex sub.subelementId.toNat)

/-- The calls of `print_sub`. -/
def calls (o : Out) : List (IeSub × List UInt8) := o.printed.filterMap Printed.call?

end Out

/-! ### `print_ie` -/

/-- The locals of `print_ie` that live from one element to the next, and the globals.  `c` is how
far into `col` the pointer `c` points. -/
structure Locals where
  out : Out
  heap : Heap
  sub : Option IeSub
  col : Option Block
  c : Nat
  sl : Nat

namespace Locals

def line (s : Locals) (text : String) : Locals := { s with out := s.out.line text }

def err (s : Locals) (text : String) : Locals := { s with out := s.out.err text }

def indentIn (s : Locals) : Locals := { s with out := s.out.indentIn }

def indentOut (s : Locals) : Locals := { s with out := s.out.indentOut }

/-- `memcpy(c, h, …)` with all of `src`. -/
def copy (s : Locals) (src : List UInt8) : Locals :=
  { s with col := s.col.map fun b => { b with bytes := memcpy b.bytes s.c src } }

/-- `print_sub(sub, col)`.  Neither is NULL where it is called. -/
def printSub (s : Locals) : Locals :=
  match s.sub, s.col with
  | some sub, some b => { s with out := s.out.sub sub b.bytes }
  | _, _             => s

/-- `free(col); col = NULL`. -/
def freeCol (s : Locals) : Locals := { s with heap := s.heap.free s.col, col := none }

end Locals

/-- The block `if (l >= sl) … else …`, which is there twice: copy what the element has of the
payload, and print the subelement if that was the rest of it. -/
def collect (l : Nat) (h : List UInt8) (s : Locals) : Nat × List UInt8 × Locals :=
  if s.sl ≤ l then
    -- all of it is there
    let s := s.copy (h.take s.sl)
    (l - s.sl, h.drop s.sl, s.indentIn.printSub.indentOut.freeCol)
  else
    let s := s.line "MULTI IE sub-element; delay parsing to next IE"
    let s := s.copy (h.take l)
    let s := { s with sl := s.sl - l }
    -- `l` is cleared before it is added to `c`
    let l := 0
    (l, h, { s with c := s.c + l })

/-- How a round of `while (l > 0)` ends: it leaves the loop, jumps to `error`, or goes on with `l`
bytes at `h`. -/
inductive Round where
  | leave (s : Locals)
  | error (s : Locals)
  | next (l : Nat) (h : List UInt8) (s : Locals)

/-- The second half of a round: parse WFD IE subelement header, and begin with the payload. -/
def header (l : Nat) (h : List UInt8) (s : Locals) : Round :=
  if l < 3 then
    .error (s.err ("WFD IE subelement header block too small (" ++ dec l ++
      " < 3), aborting")).indentOut
  else
    -- `sub = h`
    let sub : IeSub := ⟨h.headD 0, be16 (h.drop 1)⟩
    let s := { s with sub := some sub, sl := sub.length }
    let s := s.line ("IE SUBELEMENT(id: " ++ dec sub.subelementId.toNat ++ " len: " ++
      dec s.sl ++ "):")
    -- skip subelement header
    let l := l - 3
    let h := h.drop 3
    -- if empty payload, skip
    if s.sl = 0 then
      .next l h s
    else
      match s.heap.malloc s.sl with
      | (none, heap)     => .error ({ s with heap, col := none }.err "out of memory").indentOut
      | (some col, heap) =>
        let (l, h, s) := collect l h { s with heap, col := some col, c := 0 }
        .next l h s

/-- One round: if `col` is non-NULL, we are collecting. -/
def subelement (l : Nat) (h : List UInt8) (s : Locals) : Round :=
  if s.col.isSome then
    let (l, h, s) := collect l h s
    if s.col.isSome ∨ l = 0 then .leave s else header l h s
  else
    header l h s

/-- The loop `while (l > 0)` over the data of one element, `l` bytes at `h`.  Each round that goes
on has taken some of them. -/
def subelements : Nat → Nat → List UInt8 → Locals → Except Locals Locals
  | 0, _, _, s        => .ok s
  | fuel + 1, l, h, s =>
    if l = 0 then
      .ok s
    else
      match subelement l h s with
      | .leave s    => .ok s
      | .error s    => .error s
      | .next l h s => subelements fuel l h s

/-- The loop `while (len > 0)` over the elements. -/
def elements : Nat → List UInt8 → Locals → Except Locals Locals
  | 0, _, s => .ok s
  | _ + 1, [], s => .ok s
  | _ + 1, [_], s => .error (s.err ("remaining data too small (" ++ dec 1 ++ " < 2)"))
  | fuel + 1, elementId :: length :: data, s =>
    -- print IE header
    let s := (s.line "IE BLOCK:").indentIn
    let s :=
      if elementId = WFD_ID then
        s.line ("element_id: 0x" ++ hex elementId.toNat ++ " (WFD)")
      else
        s.line ("element_id: 0x" ++ hex elementId.toNat ++ " (UNKNOWN)")
    let s := s.line ("length: " ++ dec length.toNat)
    -- check that data payload does not exceed buffer
    if length.toNat > data.length then
      .error (s.err ("IE length bigger than remaining data (" ++ dec length.toNat ++ " > " ++
        dec data.length ++ "), aborting")).indentOut
    else
      let ie := data.take length.toNat
      let data := data.drop length.toNat
      -- abort if unknown
      if elementId ≠ WFD_ID then
        .error (s.err "IE ID unknown, aborting").indentOut
      else if length.toNat < 4 then
        .error (s.err ("WFD IE lacks OUI (len " ++ dec length.toNat ++ " < 4)")).indentOut
      else if be32 ie ≠ OUI_1_0 then
        let s := s.line ("oui: 0x" ++ hex (be32 ie) ++ " (UNKNOWN)")
        .error (s.err "WFD IE OUI unknown, aborting").indentOut
      else
        let s := s.line ("oui: 0x" ++ hex (be32 ie) ++ " (WFD-1.0)")
        -- skip OUI
        let l := length.toNat - 4
        match subelements l l (ie.drop 4) s with
        | .error s => .error s
        | .ok s    => elements fuel data s.indentOut

/-- `print_ie`. -/
def printIe (data : List UInt8) (out : Out) (heap : Heap) : Out × Heap :=
  let out := (out.line "IE:").indentIn
  if data = [] then
    ((out.line "<empty>").indentOut, heap)
  else
    let s :=
      match elements data.length data ⟨out, heap, none, none, 0, 0⟩ with
      | .error s => s
      | .ok s    =>
        if s.col.isSome then s.err "MULTI IE sub-element not entirely contained in data" else s
    let s := s.freeCol
    (s.out.indentOut.line "", s.heap)

end OpenWfd.Ie
