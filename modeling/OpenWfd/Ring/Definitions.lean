import OpenWfd.Support.Memory
import OpenWfd.Support.SizeT

/-!
# Ring — Definitions

`src/shl_ring.c` and `src/shl_ring.h`: the growing ring buffer under the RTSP decoder and under
the RTSP control channel.  `end == start` means *empty*, so the last byte of a buffer is never
filled.  All sizes are `size_t`.

A function that allocates takes the allocator's answers and returns the rest of them.
-/

namespace OpenWfd

open SizeT (add sub)

/-- `struct shl_ring`. -/
structure ShlRing where
  buf : List UInt8
  size : Nat
  start : Nat
  end_ : Nat
  deriving DecidableEq, Repr

namespace ShlRing

/-- A zeroed ring. -/
def zeroed : ShlRing := ⟨[], 0, 0, 0⟩

/-- `RING_MASK(_r, _v)`. -/
def mask (r : ShlRing) (v : Nat) : Nat := v &&& sub r.size 1

/-- `ring_resize`: move the content to the front of a new block of `nsize` bytes. -/
def ringResize (r : ShlRing) (nsize : Nat) (h : Allocs) : Except Errno Unit × ShlRing × Allocs :=
  match malloc nsize h with
  | (none, h) => (.error .ENOMEM, r, h)
  | (some buf, h) =>
    if r.end_ = r.start then
      (.ok (), { buf := buf, size := nsize, start := 0, end_ := 0 }, h)
    else if r.end_ > r.start then
      let buf := memcpy buf 0 ((r.buf.drop r.start).take (r.end_ - r.start))
      (.ok (), { buf := buf, size := nsize, start := 0, end_ := r.end_ - r.start }, h)
    else
      let buf := memcpy buf 0 ((r.buf.drop r.start).take (r.size - r.start))
      let buf := memcpy buf (r.size - r.start) (r.buf.take r.end_)
      (.ok (), { buf := buf, size := nsize, start := 0, end_ := r.end_ + (r.size - r.start) }, h)

/-- `ring_pow2`: the next power of two, 4096 for 0. -/
def ringPow2 (v : Nat) : Nat :=
  if v = 0 then 4096 else add (SizeT.smear (v - 1)) 1

/-- `ring_grow`: make room for `n` more bytes. -/
def ringGrow (r : ShlRing) (n : Nat) (h : Allocs) : Except Errno Unit × ShlRing × Allocs :=
  let len := if r.end_ < r.start then sub r.start r.end_ else sub (add r.start r.size) r.end_
  if len > n then
    (.ok (), r, h)
  else
    -- one more byte for `end == start`
    let len := ringPow2 (add (sub (add r.size n) len) 1)
    if len ≤ r.size then (.error .ENOMEM, r, h) else ringResize r len h

/-- `shl_ring_push`. -/
def push (r : ShlRing) (u8 : List UInt8) (h : Allocs) : Except Errno Unit × ShlRing × Allocs :=
  match ringGrow r u8.length h with
  | (.error e, r, h) => (.error e, r, h)
  | (.ok (), r, h) =>
    let l := if r.start ≤ r.end_ then min (r.size - r.end_) u8.length else 0
    let r :=
      if r.start ≤ r.end_ then
        { r with buf := memcpy r.buf r.end_ (u8.take l), end_ := r.mask (r.end_ + l) }
      else r
    let u8 := u8.drop l
    if u8.length = 0 then
      (.ok (), r, h)
    else
      (.ok (), { r with buf := memcpy r.buf r.end_ u8, end_ := r.mask (r.end_ + u8.length) }, h)

/-- `shl_ring_peek`: the filled segments, of which there are 0, 1 or 2. -/
def peek (r : ShlRing) : List (List UInt8) :=
  if r.end_ > r.start then
    [(r.buf.drop r.start).take (r.end_ - r.start)]
  else if r.end_ < r.start then
    let vec0 := (r.buf.drop r.start).take (r.size - r.start)
    if r.end_ ≠ 0 then [vec0, r.buf.take r.end_] else [vec0]
  else
    []

/-- `shl_ring_pull`: drop `len` bytes, or all there are. -/
def pull (r : ShlRing) (len : Nat) : ShlRing :=
  let l := if r.start > r.end_ then min (r.size - r.start) len else 0
  let r := if r.start > r.end_ then { r with start := r.mask (r.start + l) } else r
  let len := len - l
  if len = 0 then
    r
  else
    { r with start := r.mask (r.start + min (r.end_ - r.start) len) }

/-- `shl_ring_flush`. -/
def flush (r : ShlRing) : ShlRing := { r with start := 0, end_ := 0 }

/-- `shl_ring_clear`. -/
def clear (_ : ShlRing) : ShlRing := zeroed

/-- `shl_ring_length`. -/
def length (r : ShlRing) : Nat :=
  if r.end_ > r.start then r.end_ - r.start
  else if r.end_ < r.start then (r.size - r.start) + r.end_
  else 0

/-- `if (len && *len < sum) sum = *len`. -/
def copyLimit (len : Option Nat) (sum : Nat) : Nat :=
  match len with
  | some n => if n < sum then n else sum
  | none   => sum

/-- `shl_ring_copy`: a fresh NUL-terminated copy of the content, of at most `len` bytes if a limit
is given.  On success it returns the block and the length it stores in `*len`. -/
def copy (r : ShlRing) (len : Option Nat) (h : Allocs) : Option (List UInt8 × Nat) × Allocs :=
  let vec := r.peek
  let sum := copyLimit len (vec.map List.length).sum
  match malloc (sum + 1) h with
  | (none, h) => (none, h)
  | (some b, h) =>
    let b := memcpy b sum [0]
    let vec0 := (vec.getD 0 []).take sum
    let b := memcpy b 0 vec0
    let b := memcpy b vec0.length ((vec.getD 1 []).take (sum - vec0.length))
    (some (b, sum), h)

end ShlRing

end OpenWfd
