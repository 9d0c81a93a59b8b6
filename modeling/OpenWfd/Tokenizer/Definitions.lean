import OpenWfd.Support.Memory
import OpenWfd.Support.Strings

/-!
# Tokenizer — Definitions

`src/rtsp_tokenizer.c`: `owfd_rtsp_tokenize` splits a header line into tokens, which it writes as
strings in a row into a block of its own.  Double-quoted text is one token, with its escapes
resolved.
-/

namespace OpenWfd.Rtsp

/-- The variables of the loop of `owfd_rtsp_tokenize`. -/
structure Tokenizer extends Cursor where
  quoted : Bool
  escaped : Bool
  lastC : UInt8

namespace Tokenizer

/-- Before the loop; `*t = 0` was done. -/
def init : Tokenizer where
  mem := Function.update (fun _ => none) 0 (some NUL)
  dst := 0
  num := 0
  quoted := false
  escaped := false
  lastC := 0

/-- `*dst++ = c`. -/
def put (s : Tokenizer) (c : UInt8) : Tokenizer := { s with toCursor := s.toCursor.put c }

/-- `*dst++ = 0; ++num`. -/
def finish (s : Tokenizer) : Tokenizer := { s with toCursor := s.toCursor.finish }

/-- `if (prev) { *dst++ = 0; ++num; }`. -/
def finishIf (s : Tokenizer) (prev : UInt8) : Tokenizer := if prev ≠ 0 then s.finish else s

/-- A token by itself. -/
def isSeparator (c : UInt8) : Bool := (str "()[]{}<>@,;:\\/?=").contains c

/-- `c <= 31 || c == 127`.  A `char` is signed, so the bytes from 128 on are below 31 too. -/
def isControl (c : UInt8) : Bool := c ≤ 31 || 127 ≤ c

/-- The character behind a backslash, inside quotes. -/
def stepEscaped (s : Tokenizer) (c : UInt8) : Tokenizer :=
  if c = BS then s.put BS
  else if c = DQ then s.put DQ
  else if c = 'n'.toUInt8 then s.put 10
  else if c = 'r'.toUInt8 then s.put 13
  else if c = 't'.toUInt8 then s.put 9
  else if c = 'a'.toUInt8 then s.put 7
  else if c = 'f'.toUInt8 then s.put 12
  else if c = 'v'.toUInt8 then s.put 11
  else if c = 'b'.toUInt8 then s.put 8
  else if c = 'e'.toUInt8 then s.put 27
  else if c = '0'.toUInt8 ∨ c = NUL then
    -- drop binary zero escape "\0"
    { s with toCursor := s.toCursor.back }
  else s.put c

/-- A character inside quotes. -/
def stepQuoted (s : Tokenizer) (c : UInt8) : Tokenizer :=
  if s.escaped then { s.stepEscaped c with escaped := false }
  else if c = DQ then { s.finish with quoted := false, lastC := 0 }
  else if c = BS then { s with escaped := true }
  else if c = NUL then s
  else s.put c

/-- A character outside quotes. -/
def stepPlain (s : Tokenizer) (prev c : UInt8) : Tokenizer :=
  if c = DQ then { s.finishIf prev with quoted := true, escaped := false, lastC := 0 }
  else if c = NUL then s
  else if c = SP then { s.finishIf prev with lastC := 0 }
  else if isSeparator c then { ((s.finishIf prev).put c).finish with lastC := 0 }
  else if isControl c then { s.finishIf prev with lastC := 0 }
  else s.put c

/-- One round of the loop. -/
def step (s : Tokenizer) (c : UInt8) : Tokenizer :=
  let prev := s.lastC
  let s := { s with lastC := c }
  if s.quoted then s.stepQuoted c else s.stepPlain prev c

/-- The loop, up to the end of `read`. -/
def run (read : List UInt8) : Tokenizer := read.foldl step init

/-- Behind the loop: the last token is ended. -/
def done (s : Tokenizer) : Tokenizer := s.finishIf s.lastC

end Tokenizer

/-- `owfd_rtsp_tokenize`: the number of tokens, and the cursor behind them. -/
def tokenize (line : CStr) (h : Allocs) : Except Errno (Nat × Tokenizer) × Allocs :=
  let len := line.1.length
  let l := SizeT.add (len * 2) 1
  if l ≤ len then
    (.error .ENOMEM, h)
  else
    match h.next with
    | (none, h)   => (.error .ENOMEM, h)
    | (some _, h) =>
      let s := (Tokenizer.run line.1).done
      (.ok (s.num, s), h)

end OpenWfd.Rtsp
