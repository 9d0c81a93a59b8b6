import Mathlib.Data.List.Basic
import Mathlib.Tactic.Common

/-!
# Support — Octets

Numbers of two and four bytes.  A field of a packet is recorded as the number its bytes spell in
network order, so that `ntohl` and `htonl` of it do nothing; where a program uses a field without
converting it, it sees the number *its* byte order makes of the bytes (`Endian.raw`).
-/

namespace OpenWfd

/-- The byte order of a host. -/
inductive Endian where
  | little | big
  deriving DecidableEq, Repr

/-- `put_be16`: the bytes it writes. -/
def putBe16 (x : UInt16) : List UInt8 :=
  [UInt8.ofNat (x.toNat / 256), UInt8.ofNat x.toNat]

/-- `get_be16` of the bytes at a pointer. -/
def getBe16 : List UInt8 → UInt16
  | a :: b :: _ => UInt16.ofNat (a.toNat * 256 + b.toNat)
  | _           => 0

/-- `put_be32`: the bytes it writes. -/
def putBe32 (x : UInt32) : List UInt8 :=
  [UInt8.ofNat (x.toNat / 16777216), UInt8.ofNat (x.toNat / 65536),
    UInt8.ofNat (x.toNat / 256), UInt8.ofNat x.toNat]

/-- `get_be32` of the bytes at a pointer. -/
def getBe32 : List UInt8 → UInt32
  | a :: b :: c :: d :: _ =>
    UInt32.ofNat (((a.toNat * 256 + b.toNat) * 256 + c.toNat) * 256 + d.toNat)
  | _                     => 0

@[simp] theorem putBe16_length (x : UInt16) : (putBe16 x).length = 2 := rfl

@[simp] theorem putBe32_length (x : UInt32) : (putBe32 x).length = 4 := rfl

@[simp] theorem getBe16_putBe16 (x : UInt16) (rest : List UInt8) :
    getBe16 (putBe16 x ++ rest) = x := by
  have hx := x.toNat_lt
  apply UInt16.toNat.inj
  simp [putBe16, getBe16]
  omega

@[simp] theorem getBe32_putBe32 (x : UInt32) (rest : List UInt8) :
    getBe32 (putBe32 x ++ rest) = x := by
  have hx := x.toNat_lt
  apply UInt32.toNat.inj
  simp [putBe32, getBe32]
  omega

theorem putBe16_getBe16 (a b : UInt8) (rest : List UInt8) :
    putBe16 (getBe16 (a :: b :: rest)) = [a, b] := by
  have ha := a.toNat_lt
  have hb := b.toNat_lt
  simp only [getBe16, putBe16, UInt16.toNat_ofNat', List.cons.injEq, and_true]
  refine ⟨?_, ?_⟩
  · apply UInt8.toNat.inj
    simp
    omega
  · apply UInt8.toNat.inj
    simp

theorem putBe32_getBe32 (a b c d : UInt8) (rest : List UInt8) :
    putBe32 (getBe32 (a :: b :: c :: d :: rest)) = [a, b, c, d] := by
  have ha := a.toNat_lt
  have hb := b.toNat_lt
  have hc := c.toNat_lt
  have hd := d.toNat_lt
  simp only [getBe32, putBe32, UInt32.toNat_ofNat', List.cons.injEq, and_true]
  refine ⟨?_, ?_, ?_, ?_⟩ <;> apply UInt8.toNat.inj <;> simp <;> omega

/-- The number a host of this byte order sees in the bytes of a network-order number: `bswap_32` or
nothing. -/
def Endian.raw : Endian → UInt32 → UInt32
  | .little, x => getBe32 (putBe32 x).reverse
  | .big, x    => x

/-- Converting twice is converting back. -/
@[simp] theorem Endian.raw_raw (e : Endian) (x : UInt32) : e.raw (e.raw x) = x := by
  cases e with
  | big => rfl
  | little =>
      have hback : putBe32 (getBe32 (putBe32 x).reverse) = (putBe32 x).reverse :=
        putBe32_getBe32 _ _ _ _ []
      rw [Endian.raw, Endian.raw, hback, List.reverse_reverse]
      exact getBe32_putBe32 x []

/-- The same for two bytes. -/
def Endian.raw16 : Endian → UInt16 → UInt16
  | .little, x => getBe16 (putBe16 x).reverse
  | .big, x    => x

@[simp] theorem Endian.raw16_raw16 (e : Endian) (x : UInt16) : e.raw16 (e.raw16 x) = x := by
  cases e with
  | big => rfl
  | little =>
      have hback : putBe16 (getBe16 (putBe16 x).reverse) = (putBe16 x).reverse :=
        putBe16_getBe16 _ _ []
      rw [Endian.raw16, Endian.raw16, hback, List.reverse_reverse]
      exact getBe16_putBe16 x []

/-! ### Arrays of bytes -/

/-- An array of `n` bytes. -/
abbrev Octets (n : Nat) := { bs : List UInt8 // bs.length = n }

/-- `memset(…, 0, n)`. -/
def Octets.zero (n : Nat) : Octets n := ⟨List.replicate n 0, List.length_replicate⟩

/-- The `n` bytes from `off` on, of bytes that are followed by zeros. -/
def Octets.ofList (bs : List UInt8) (off n : Nat) : Octets n :=
  ⟨(List.range n).map fun i => bs.getD (off + i) 0, by simp⟩

theorem Octets.ofList_eq {n off : Nat} {bs pre post : List UInt8} (x : Octets n)
    (h : bs = pre ++ (x.1 ++ post)) (hoff : pre.length = off) : Octets.ofList bs off n = x := by
  obtain ⟨x, rfl⟩ := x
  subst h hoff
  refine Subtype.ext (List.ext_getElem (by simp [Octets.ofList]) ?_)
  intro i h₁ h₂
  have hx : i < x.length := h₂
  have hget : (pre ++ (x ++ post))[pre.length + i]? = some x[i] := by
    rw [List.getElem?_append_right (by omega), Nat.add_sub_cancel_left,
      List.getElem?_append_left hx, List.getElem?_eq_getElem hx]
  simp [Octets.ofList, hget]

theorem Octets.ofList_take {n : Nat} {bs : List UInt8} (h : bs.length ≤ n) :
    (Octets.ofList bs 0 n).1.take bs.length = bs := by
  refine List.ext_getElem (by simp [Octets.ofList, h]) ?_
  intro i h₁ h₂
  simp [Octets.ofList, h₂]

/-- Bytes that are too few are followed by zeros. -/
theorem Octets.ofList_pad {k n : Nat} {bs : List UInt8} (h : bs.length + k = n) :
    (Octets.ofList bs 0 n).1 = bs ++ List.replicate k 0 := by
  subst h
  refine List.ext_getElem (by simp [Octets.ofList]) ?_
  intro i h₁ h₂
  by_cases hi : i < bs.length
  · simp [Octets.ofList, hi]
  · simp [Octets.ofList, hi, List.getElem_append_right (Nat.le_of_not_lt hi)]

/-- Two arrays in a row are one. -/
theorem Octets.ofList_add (bs : List UInt8) (off m n : Nat) :
    (Octets.ofList bs off m).1 ++ (Octets.ofList bs (off + m) n).1 =
    (Octets.ofList bs off (m + n)).1 := by
  simp [Octets.ofList, List.range_add, Nat.add_assoc]

theorem putBe16_ofList (bs : List UInt8) (off : Nat) :
    putBe16 (getBe16 (Octets.ofList bs off 2).1) = (Octets.ofList bs off 2).1 :=
  putBe16_getBe16 _ _ []

theorem putBe32_ofList (bs : List UInt8) (off : Nat) :
    putBe32 (getBe32 (Octets.ofList bs off 4).1) = (Octets.ofList bs off 4).1 :=
  putBe32_getBe32 _ _ _ _ []

/-- What stands behind a prefix. -/
theorem Octets.ofList_behind {n off : Nat} {bs pre post : List UInt8} (h : bs = pre ++ post)
    (hoff : pre.length = off) : Octets.ofList bs off n = Octets.ofList post 0 n := by
  subst h hoff
  refine Subtype.ext (List.map_congr_left fun i _ => ?_)
  simp [List.getElem?_append_right]

end OpenWfd
