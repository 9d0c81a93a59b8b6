import OpenWfd.Support.Heap

/-!
# Support — Access

Reads and writes of a block that know where it ends: what lies behind the end can be neither read
nor written, and to try has no result.  A pointer into a block is the rest of the block from there
on.

The functions of the C library that are given a string read no further than its NUL.  Some of them
stop before it; here they read all of the string (`loadStr`).  A block of the heap has to be live
(`Heap.load`, `Heap.store`).
-/

namespace OpenWfd

variable {α : Type*}

/-- Write `src` at the offset `off`. -/
def store (buf : List α) (off : Nat) (src : List α) : Option (List α) :=
  if off + src.length ≤ buf.length then some (memcpy buf off src) else none

/-- Read `n` entries from the offset `off` on. -/
def load (buf : List α) (off n : Nat) : Option (List α) :=
  if off + n ≤ buf.length then some ((buf.drop off).take n) else none

/-- Read a string. -/
def loadStr : List UInt8 → Option (List UInt8)
  | []     => none
  | c :: p => if c = NUL then some [] else (loadStr p).map (c :: ·)

section

variable {buf src : List α} {off n : Nat}

theorem store_of_le (h : off + src.length ≤ buf.length) :
    store buf off src = some (memcpy buf off src) :=
  if_pos h

theorem load_of_le (h : off + n ≤ buf.length) : load buf off n = some ((buf.drop off).take n) :=
  if_pos h

/-- What is written behind the start of a block goes on with it. -/
theorem memcpy_memcpy (buf xs ys : List α) :
    memcpy (memcpy buf 0 xs) xs.length ys = memcpy buf 0 (xs ++ ys) := by
  have hstart : memcpy buf 0 xs = xs ++ buf.drop xs.length := by simp [memcpy]
  rw [hstart, memcpy, List.take_left, ← List.drop_drop, List.drop_left, List.drop_drop]
  simp [memcpy]

end

theorem loadStr_append {s : List UInt8} (h : NUL ∉ s) (rest : List UInt8) :
    loadStr (s ++ NUL :: rest) = some s := by
  induction s with
  | nil => rfl
  | cons c s ih =>
      have hc : c ≠ NUL := fun e => h (by simp [e])
      rw [List.cons_append, loadStr, if_neg hc, ih fun hm => h (List.mem_cons_of_mem c hm)]
      rfl

namespace Heap

/-- Read from a block. -/
def load (h : Heap) (b : Block) (off n : Nat) : Option (List UInt8) :=
  if b.id ∈ h.live then OpenWfd.load b.bytes off n else none

/-- Write to a block. -/
def store (h : Heap) (b : Block) (off : Nat) (src : List UInt8) : Option Block :=
  if b.id ∈ h.live then (OpenWfd.store b.bytes off src).map fun bytes => { b with bytes } else none

variable {h : Heap} {b : Block} {ids : List Nat} {off n : Nat} {src : List UInt8}

theorem Holds.mem_live (hh : h.Holds (b.id :: ids)) : b.id ∈ h.live := by
  rw [hh.live]
  exact List.mem_cons_self

theorem Holds.load_of_le (hh : h.Holds (b.id :: ids)) (hle : off + n ≤ b.bytes.length) :
    h.load b off n = some ((b.bytes.drop off).take n) := by
  rw [load, if_pos hh.mem_live, OpenWfd.load_of_le hle]

theorem Holds.store_of_le (hh : h.Holds (b.id :: ids)) (hle : off + src.length ≤ b.bytes.length) :
    h.store b off src = some { b with bytes := memcpy b.bytes off src } := by
  rw [store, if_pos hh.mem_live, OpenWfd.store_of_le hle]
  rfl

end Heap

end OpenWfd
