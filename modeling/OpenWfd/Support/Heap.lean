import OpenWfd.Support.CString
import OpenWfd.Support.Memory

/-!
# Support — Heap

A heap that keeps account of its blocks: which are live, and whether every `free` so far was of a
live one.  A block is a number and its bytes, a pointer an `Option Block`.
-/

namespace OpenWfd

/-- A block of the heap. -/
structure Block where
  id : Nat
  bytes : List UInt8
  deriving DecidableEq, Repr

/-- What the allocator will answer, the number of its next block, the blocks allocated and not
freed, and whether every `free` was of such a block. -/
structure Heap where
  answers : Allocs
  next : Nat
  live : List Nat
  sound : Bool

/-- `strcpy` into a buffer. -/
theorem cstr_strcpy {s : List UInt8} (hs : NUL ∉ s) (buf : List UInt8) :
    cstr (memcpy buf 0 (s ++ [NUL])) = s := by
  have heq : memcpy buf 0 (s ++ [NUL]) = s ++ NUL :: buf.drop (s.length + 1) := by
    simp [memcpy]
  rw [heq]
  exact cstr_append hs

namespace Heap

/-- A heap without blocks. -/
def fresh (answers : Allocs) : Heap := ⟨answers, 0, [], true⟩

/-- `malloc(n)`. -/
def malloc (h : Heap) (n : Nat) : Option Block × Heap :=
  match OpenWfd.malloc n h.answers with
  | (none, as)       => (none, { h with answers := as })
  | (some bytes, as) =>
    (some ⟨h.next, bytes⟩, { h with answers := as, next := h.next + 1, live := h.next :: h.live })

/-- `strdup(s)`. -/
def strdup (h : Heap) (s : List UInt8) : Option Block × Heap :=
  match h.malloc (s.length + 1) with
  | (none, h)   => (none, h)
  | (some b, h) => (some { b with bytes := memcpy b.bytes 0 (s ++ [NUL]) }, h)

/-- `free(p)`. -/
def free (h : Heap) : Option Block → Heap
  | none   => h
  | some b =>
    if b.id ∈ h.live then { h with live := h.live.erase b.id } else { h with sound := false }

/-- The live blocks are `ids`, the newest first, and no other block was ever freed. -/
structure Holds (h : Heap) (ids : List Nat) : Prop where
  sound : h.sound = true
  live : h.live = ids
  newest : (h.next :: ids).Pairwise (· > ·)

theorem holds_fresh (answers : Allocs) : (fresh answers).Holds [] :=
  ⟨rfl, rfl, List.pairwise_singleton _ _⟩

variable {h h' : Heap} {ids : List Nat}

/-- A block is as large as it was asked for. -/
theorem malloc_bytes {n : Nat} {b : Block} (e : h.malloc n = (some b, h')) :
    b.bytes.length = n := by
  unfold malloc at e
  rcases hm : OpenWfd.malloc n h.answers with ⟨_ | bytes, as⟩ <;> simp only [hm] at e <;> cases e
  exact malloc_length hm

theorem malloc_spec {n : Nat} {r : Option Block} (hh : h.Holds ids) (e : h.malloc n = (r, h')) :
    (r = none ∧ h'.Holds ids) ∨
      ∃ b, r = some b ∧ b.bytes.length = n ∧ h'.Holds (b.id :: ids) := by
  unfold malloc at e
  rcases hm : OpenWfd.malloc n h.answers with ⟨_ | bytes, as⟩ <;> simp only [hm] at e <;> cases e
  · exact Or.inl ⟨rfl, hh.sound, hh.live, hh.newest⟩
  · refine Or.inr ⟨_, rfl, malloc_length hm, hh.sound, congrArg _ hh.live, ?_⟩
    refine List.pairwise_cons.mpr ⟨?_, hh.newest⟩
    rintro i (_ | ⟨_, hi⟩)
    · exact Nat.lt_succ_self _
    · exact Nat.lt_succ_of_lt ((List.pairwise_cons.mp hh.newest).1 i hi)

theorem strdup_spec {s : List UInt8} {r : Option Block} (hh : h.Holds ids)
    (e : h.strdup s = (r, h')) :
    (r = none ∧ h'.Holds ids) ∨
      ∃ b, r = some b ∧ b.bytes = s ++ [NUL] ∧ h'.Holds (b.id :: ids) := by
  unfold strdup at e
  rcases hm : h.malloc (s.length + 1) with ⟨_ | b, h₁⟩ <;> simp only [hm] at e <;> cases e
  · rcases malloc_spec hh hm with ⟨-, hh'⟩ | ⟨b, hb, -⟩
    · exact Or.inl ⟨rfl, hh'⟩
    · cases hb
  · rcases malloc_spec hh hm with ⟨hb, -⟩ | ⟨b, hb, hlen, hh'⟩
    · cases hb
    · cases hb
      refine Or.inr ⟨_, rfl, ?_, hh'⟩
      simp [memcpy, hlen]

/-- The copy is the string. -/
theorem strdup_cstr {s : List UInt8} {b : Block} (hs : NUL ∉ s) (e : h.strdup s = (some b, h')) :
    cstr b.bytes = s := by
  unfold strdup at e
  rcases hm : h.malloc (s.length + 1) with ⟨_ | b₀, h₁⟩ <;> simp only [hm] at e <;> cases e
  exact cstr_strcpy hs b₀.bytes

/-- Freeing a live block. -/
theorem free_spec {b : Block} {newer older : List Nat} (hh : h.Holds (newer ++ b.id :: older)) :
    (h.free (some b)).Holds (newer ++ older) := by
  have hpair := (List.pairwise_cons.mp hh.newest).2
  have hnot : b.id ∉ newer := by
    intro hmem
    have hgt := (List.pairwise_append.mp hpair).2.2 b.id hmem b.id List.mem_cons_self
    exact Nat.lt_irrefl _ hgt
  have hlive : b.id ∈ h.live := by
    rw [hh.live]
    exact List.mem_append_right _ List.mem_cons_self
  rw [free, if_pos hlive]
  refine ⟨hh.sound, ?_, ?_⟩
  · show h.live.erase b.id = newer ++ older
    rw [hh.live, List.erase_append_right _ hnot, List.erase_cons_head]
  · refine hh.newest.sublist (List.Sublist.cons_cons _ ?_)
    exact (List.Sublist.refl newer).append (List.sublist_cons_self _ _)

/-! ### Allocations that succeed -/

/-- No allocation fails. -/
def Willing (h : Heap) : Prop := ∀ a ∈ h.answers, a ≠ none

theorem willing_fresh : (fresh []).Willing := by
  intro a ha
  cases ha

theorem Willing.malloc (w : h.Willing) (n : Nat) :
    ∃ b h', h.malloc n = (some b, h') ∧ b.bytes.length = n ∧ h'.Willing := by
  unfold Heap.malloc OpenWfd.malloc
  rcases ha : h.answers with _ | ⟨_ | f, as⟩
  · refine ⟨_, _, rfl, by simp, ?_⟩
    intro a ha'
    cases ha'
  · exact absurd rfl (w none (by rw [ha]; exact List.mem_cons_self))
  · refine ⟨_, _, rfl, by simp, ?_⟩
    intro a ha'
    exact w a (by rw [ha]; exact List.mem_cons_of_mem _ ha')

theorem Willing.strdup (w : h.Willing) (s : List UInt8) :
    ∃ b h', h.strdup s = (some b, h') ∧ b.bytes = s ++ [NUL] ∧ h'.Willing := by
  obtain ⟨b, h', hm, hlen, w'⟩ := w.malloc (s.length + 1)
  refine ⟨{ b with bytes := memcpy b.bytes 0 (s ++ [NUL]) }, h', ?_, ?_, w'⟩
  · rw [Heap.strdup, hm]
  · simp [memcpy, hlen]

theorem Willing.free (w : h.Willing) (p : Option Block) : (h.free p).Willing := by
  unfold Heap.free
  split
  · exact w
  · split_ifs
    · exact w
    · exact w

end Heap

end OpenWfd
