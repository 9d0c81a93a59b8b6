import OpenWfd.Ie.Definitions
import OpenWfd.Support.Access

/-!
# Ie — Bounded

`print_ie` over memory that ends.  The functions of `Definitions.lean` once more, but `data`, `h`
and `sub` are offsets into the buffer that the caller gave, `c` one into the collection buffer, and
whatever is read or written through them lies in the buffer, or in a collection buffer that is not
freed.  What does not, has no result; nor has a loop that needs more rounds than it is given.
-/

namespace OpenWfd.Ie.Bounded

/-! ### Fields -/

section

variable (buf : List UInt8)

/-- A field of one byte. -/
def u8At (off : Nat) : Option UInt8 := buf[off]?

/-- `be16toh` of a field. -/
def be16At (off : Nat) : Option Nat := (load buf off 2).map be16

/-- `be32toh` of a field. -/
def be32At (off : Nat) : Option Nat := (load buf off 4).map be32

/-! ### Printing -/

/-- `print_sub_dev_info`. -/
def subDevInfo (o : Out) (heap : Heap) (h : Nat) (p : Block) : Option Out := do
  let length ← be16At buf (h + 1)
  if length ≠ 6 then
    some (o.err ("invalid sub-length " ++ dec length))
  else
    let devInfo ← heap.load p 0 2
    let o := o.line ("dev_info: " ++ hex (be16 devInfo))
    let ctrlPort ← heap.load p 2 2
    let o := o.line ("ctrl_port: " ++ dec (be16 ctrlPort))
    let maxThroughput ← heap.load p 4 2
    some (o.line ("max_throughput: " ++ dec (be16 maxThroughput)))

/-- `print_sub`. -/
def sub (o : Out) (heap : Heap) (sub : Nat) (data : Block) : Option Out := do
  let subelementId ← u8At buf sub
  let length ← be16At buf (sub + 1)
  let o := { o with printed := o.printed ++ [Printed.sub ⟨subelementId, length⟩ data.bytes] }
  let o := o.line ("subelement_id: 0x" ++ hex subelementId.toNat)
  let o := o.line ("length: " ++ dec length)
  if subelementId = SUB_DEV_INFO then
    subDevInfo buf (o.line "type: DEVICE INFO") heap sub data
  else
    some (o.line ("unknown sub-element ID " ++ hex subelementId.toNat))

end

/-! ### `print_ie` -/

/-- The locals of `print_ie` that live from one element to the next, and the globals. -/
structure Locals where
  out : Out
  heap : Heap
  sub : Option Nat
  col : Option Block
  c : Nat
  sl : Nat

namespace Locals

def line (s : Locals) (text : String) : Locals := { s with out := s.out.line text }

def err (s : Locals) (text : String) : Locals := { s with out := s.out.err text }

def indentIn (s : Locals) : Locals := { s with out := s.out.indentIn }

def indentOut (s : Locals) : Locals := { s with out := s.out.indentOut }

/-- `memcpy(c, h, n)`. -/
def copy (buf : List UInt8) (h n : Nat) (s : Locals) : Option Locals := do
  let src ← load buf h n
  let col ← s.heap.store (← s.col) s.c src
  some { s with col := some col }

/-- `print_sub(sub, col)`. -/
def printSub (buf : List UInt8) (s : Locals) : Option Locals := do
  let out ← Bounded.sub buf s.out s.heap (← s.sub) (← s.col)
  some { s with out }

/-- `free(col); col = NULL`. -/
def freeCol (s : Locals) : Locals := { s with heap := s.heap.free s.col, col := none }

end Locals

/-- The block `if (l >= sl) … else …`. -/
def collect (buf : List UInt8) (l h : Nat) (s : Locals) : Option (Nat × Nat × Locals) :=
  if s.sl ≤ l then do
    let s ← s.copy buf h s.sl
    let l := l - s.sl
    let h := h + s.sl
    let s ← s.indentIn.printSub buf
    some (l, h, s.indentOut.freeCol)
  else do
    let s := s.line "MULTI IE sub-element; delay parsing to next IE"
    let s ← s.copy buf h l
    let s := { s with sl := s.sl - l }
    let l := 0
    some (l, h, { s with c := s.c + l })

/-- How a round of `while (l > 0)` ends. -/
inductive Round where
  | leave (s : Locals)
  | error (s : Locals)
  | next (l h : Nat) (s : Locals)

/-- The second half of a round. -/
def header (buf : List UInt8) (l h : Nat) (s : Locals) : Option Round :=
  if l < 3 then
    some (.error (s.err ("WFD IE subelement header block too small (" ++ dec l ++
      " < 3), aborting")).indentOut)
  else do
    let sub := h
    let sl ← be16At buf (sub + 1)
    let s := { s with sub := some sub, sl }
    let s := s.line
      ("IE SUBELEMENT(id: " ++ dec (← u8At buf sub).toNat ++ " len: " ++ dec s.sl ++ "):")
    let l := l - 3
    let h := h + 3
    if s.sl = 0 then
      some (.next l h s)
    else
      match s.heap.malloc s.sl with
      | (none, heap)     =>
          some (.error ({ s with heap, col := none }.err "out of memory").indentOut)
      | (some col, heap) =>
        let (l, h, s) ← collect buf l h { s with heap, col := some col, c := 0 }
        some (.next l h s)

/-- One round. -/
def subelement (buf : List UInt8) (l h : Nat) (s : Locals) : Option Round :=
  if s.col.isSome then do
    let (l, h, s) ← collect buf l h s
    if s.col.isSome ∨ l = 0 then some (.leave s) else header buf l h s
  else
    header buf l h s

/-- The loop `while (l > 0)`. -/
def subelements (buf : List UInt8) : Nat → Nat → Nat → Locals → Option (Except Locals Locals)
  | 0, _, _, _          => none
  | rounds + 1, l, h, s =>
    if l = 0 then
      some (.ok s)
    else do
      match ← subelement buf l h s with
      | .leave s    => some (.ok s)
      | .error s    => some (.error s)
      | .next l h s => subelements buf rounds l h s

/-- The loop `while (len > 0)`; `inner` bounds the rounds of the one inside it. -/
def elements (buf : List UInt8) (inner : Nat) :
    Nat → Nat → Nat → Locals → Option (Except Locals Locals)
  | 0, _, _, _               => none
  | rounds + 1, data, len, s =>
    if len = 0 then
      some (.ok s)
    else
      let ie := data
      if len < 2 then
        some (.error (s.err ("remaining data too small (" ++ dec len ++ " < 2)")))
      else do
        let s := (s.line "IE BLOCK:").indentIn
        let elementId ← u8At buf ie
        let s :=
          if elementId = WFD_ID then
            s.line ("element_id: 0x" ++ hex elementId.toNat ++ " (WFD)")
          else
            s.line ("element_id: 0x" ++ hex elementId.toNat ++ " (UNKNOWN)")
        let length ← u8At buf (ie + 1)
        let s := s.line ("length: " ++ dec length.toNat)
        let data := data + 2
        let len := len - 2
        if length.toNat > len then
          some (.error (s.err
            ("IE length bigger than remaining data (" ++ dec length.toNat ++ " > " ++
            dec len ++ "), aborting")).indentOut)
        else
          let data := data + length.toNat
          let len := len - length.toNat
          if elementId ≠ WFD_ID then
            some (.error (s.err "IE ID unknown, aborting").indentOut)
          else if length.toNat < 4 then
            some (.error (s.err
              ("WFD IE lacks OUI (len " ++ dec length.toNat ++ " < 4)")).indentOut)
          else do
            let oui ← be32At buf (ie + 2)
            if oui ≠ OUI_1_0 then
              let s := s.line ("oui: 0x" ++ hex oui ++ " (UNKNOWN)")
              some (.error (s.err "WFD IE OUI unknown, aborting").indentOut)
            else
              let s := s.line ("oui: 0x" ++ hex oui ++ " (WFD-1.0)")
              match ← subelements buf inner (length.toNat - 4) (ie + 6) s with
              | .error s => some (.error s)
              | .ok s    => elements buf inner rounds data len s.indentOut

/-- `print_ie`, with as many rounds for each loop. -/
def printIe (buf : List UInt8) (rounds : Nat) (out : Out) (heap : Heap) : Option (Out × Heap) :=
  let out := (out.line "IE:").indentIn
  if buf.length = 0 then
    some ((out.line "<empty>").indentOut, heap)
  else do
    let s ←
      match ← elements buf rounds rounds 0 buf.length ⟨out, heap, none, none, 0, 0⟩ with
      | .error s => some s
      | .ok s    =>
        some (if s.col.isSome then s.err "MULTI IE sub-element not entirely contained in data"
          else s)
    let s := s.freeCol
    some (s.out.indentOut.line "", s.heap)

end OpenWfd.Ie.Bounded
