import Mathlib.Data.List.Basic
import Mathlib.Tactic.Common
import OpenWfd.Support.SizeT

/-!
# Support — Memory

The heap as a program sees it: `malloc` may answer NULL, and a block it hands out holds arbitrary
bytes.  A run is given the answers in advance, as a list; quantifying over the list is
quantifying over every behaviour of the allocator.
-/

namespace OpenWfd

/-- A buffer a caller passes: an object of C, so at most `PTRDIFF_MAX` bytes. -/
abbrev Buffer := { bytes : List UInt8 // bytes.length ≤ SizeT.ptrdiffMax }

/-- The negative return codes of the sources; `other` is any further `errno` of a system call. -/
inductive Errno where
  | ENOMEM | EINVAL | ENODEV | EALREADY | EPIPE | EFAULT | ETIMEDOUT | EAGAIN | EINTR
  | EADDRINUSE | EMFILE
  | other (n : Nat)
  deriving DecidableEq, Repr

/-- The value of `errno`, which is never 0. -/
def Errno.number : Errno → Nat
  | .EINTR      => 4
  | .EAGAIN     => 11
  | .ENOMEM     => 12
  | .EFAULT     => 14
  | .ENODEV     => 19
  | .EINVAL     => 22
  | .EMFILE     => 24
  | .EPIPE      => 32
  | .EADDRINUSE => 98
  | .ETIMEDOUT  => 110
  | .EALREADY   => 114
  | .other n    => n + 1

theorem Errno.number_pos (e : Errno) : 0 < e.number := by
  cases e <;> exact Nat.succ_pos _

/-- What the next calls of `malloc`, `calloc` and `realloc` answer: `none` is NULL, `some f` a
block whose byte `i` is `f i`.  After the list every call succeeds. -/
abbrev Allocs := List (Option (Nat → UInt8))

/-- The next answer. -/
def Allocs.next : Allocs → Option (Nat → UInt8) × Allocs
  | []     => (some fun _ => 0, [])
  | a :: h => (a, h)

/-- `malloc(n)`. -/
def malloc (n : Nat) (h : Allocs) : Option (List UInt8) × Allocs :=
  match h.next with
  | (none, h)   => (none, h)
  | (some f, h) => (some ((List.range n).map f), h)

theorem malloc_length {n : Nat} {h h' : Allocs} {b : List UInt8} (e : malloc n h = (some b, h')) :
    b.length = n := by
  unfold malloc at e
  split at e
  · cases e
  · cases e; simp

@[simp] theorem malloc_nil (n : Nat) :
    malloc n [] = (some ((List.range n).map fun _ => 0), []) := rfl

variable {α : Type*}

/-- `memcpy(&dst[off], src, …)` with all of `src`. -/
def memcpy (dst : List α) (off : Nat) (src : List α) : List α :=
  dst.take off ++ src ++ dst.drop (off + src.length)

theorem memcpy_length {dst src : List α} {off : Nat} (h : off + src.length ≤ dst.length) :
    (memcpy dst off src).length = dst.length := by
  simp only [memcpy, List.length_append, List.length_take, List.length_drop]
  omega

/-- The bytes just written, and what stands before them. -/
theorem memcpy_take_end {dst src : List α} {off : Nat} (h : off ≤ dst.length) :
    (memcpy dst off src).take (off + src.length) = dst.take off ++ src := by
  have hl : (dst.take off ++ src).length = off + src.length := by simp; omega
  rw [memcpy, ← hl, List.take_left]

theorem memcpy_drop {dst src : List α} {off n : Nat} (h : off ≤ dst.length)
    (hn : off + src.length ≤ n) : (memcpy dst off src).drop n = dst.drop n := by
  have hl : (dst.take off ++ src).length = off + src.length := by simp; omega
  rw [memcpy, List.drop_append, List.drop_drop, List.drop_eq_nil_of_le (by omega), hl,
    List.nil_append, show off + src.length + (n - (off + src.length)) = n by omega]

theorem memcpy_append (pre t src : List α) :
    memcpy (pre ++ t) pre.length src = pre ++ (src ++ t.drop src.length) := by
  simp [memcpy, ← List.drop_drop]

/-- A block begins with what was copied to its start. -/
theorem memcpy_zero_begins (dst src : List α) : src <+: memcpy dst 0 src := by
  rw [memcpy, List.take_zero, List.nil_append]
  exact List.prefix_append _ _

/-- What is copied behind the start of a block follows that start. -/
theorem memcpy_end_begins {dst xs : List α} (h : xs <+: dst) (src : List α) :
    xs ++ src <+: memcpy dst xs.length src := by
  obtain ⟨rest, rfl⟩ := h
  rw [memcpy, List.take_left]
  exact List.prefix_append _ _

/-- `realloc(xs, n)` of an array: `none` if it fails; the entries it adds are indeterminate. -/
def realloc (xs : List α) (n : Nat) (indeterminate : α) (h : Allocs) :
    Option (List α) × Allocs :=
  match h.next with
  | (none, h)   => (none, h)
  | (some _, h) => (some (xs.take n ++ List.replicate (n - xs.length) indeterminate), h)

theorem realloc_length {xs ys : List α} {n : Nat} {a : α} {h h' : Allocs}
    (e : realloc xs n a h = (some ys, h')) : ys.length = n := by
  unfold realloc at e
  split at e
  · cases e
  · cases e; simp; omega

/-- Reallocating keeps the entries that fit. -/
theorem realloc_take {xs ys : List α} {n k : Nat} {a : α} {h h' : Allocs}
    (e : realloc xs n a h = (some ys, h')) (h₁ : k ≤ n) (h₂ : k ≤ xs.length) :
    ys.take k = xs.take k := by
  unfold realloc at e
  split at e
  · cases e
  · cases e
    rw [List.take_append_of_le_length (by simp; omega), List.take_take, Nat.min_eq_left h₁]

theorem realloc_getElem? {xs ys : List α} {n i : Nat} {a : α} {h h' : Allocs}
    (e : realloc xs n a h = (some ys, h')) (h₁ : i < n) (h₂ : i < xs.length) : ys[i]? = xs[i]? := by
  have ht := realloc_take e (Nat.succ_le_of_lt h₁) (Nat.succ_le_of_lt h₂)
  rw [← List.getElem?_take_of_lt (Nat.lt_succ_self i), ht,
    List.getElem?_take_of_lt (Nat.lt_succ_self i)]

@[simp] theorem realloc_nil (xs : List α) (n : Nat) (a : α) :
    realloc xs n a [] = (some (xs.take n ++ List.replicate (n - xs.length) a), []) := rfl

end OpenWfd
