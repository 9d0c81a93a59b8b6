import OpenWfd.Ring.Content

/-!
# Ring — Grow

`ring_grow` for every `size_t`, objects that large or not.  The size it needs is the content, the
new bytes and one, modulo `2⁶⁴`, and rounded up; the comparison with the old size is to catch what
wrapped.

* A sum below `2⁶⁴` is rounded to a size with the room, or to 0, which is refused (`needed_fits`).
* A sum above `2⁶⁴` wraps to at most the content, which rounds to at most the old size
  (`needed_wrapped`).
* A sum of `2⁶⁴` wraps to 0, and `ring_pow2` makes 4096 of it.  A smaller ring grows to 4096 bytes
  and `ring_grow` reports success.

So it keeps its promise exactly where the last case does not arise (`ringGrow_iff`).
-/

namespace OpenWfd.ShlRing

open SizeT (add sub modulus)

/-- What `ring_grow` promises: on success a power of two of bytes and more room than asked for, so
that a push of so many bytes appends them; on failure the ring as it was. -/
structure Grown (r : ShlRing) (n : Nat) (res : Except Errno Unit) (r' : ShlRing) : Prop where
  size : res = .ok () → ∃ k < 64, r'.size = 2 ^ k
  room : res = .ok () → n < r'.room
  fits : res = .ok () → ∀ u8 : List UInt8, u8.length = n →
    WF (r'.fill u8) ∧ (r'.fill u8).contents = r.contents ++ u8
  kept : res = .error .ENOMEM → r' = r

variable {r r' : ShlRing} {n : Nat} {h h' : Allocs} {res : Except Errno Unit}

/-- A ring that failed to grow. -/
theorem grown_failed (r : ShlRing) (n : Nat) : Grown r n (.error .ENOMEM) r :=
  ⟨nofun, nofun, nofun, fun _ => rfl⟩

/-- A ring with the content and the room. -/
theorem grown_room (w : WF r') (hc : r'.contents = r.contents) (hroom : n < r'.room) :
    Grown r n (.ok ()) r' := by
  have hfree : r'.contents.length + n < r'.size := by
    rw [length_contents w]
    unfold ShlRing.room at hroom
    omega
  refine ⟨fun _ => ?_, fun _ => hroom, fun _ u8 hu => ?_, nofun⟩
  · rcases w.shape with ⟨h₀, -, -⟩ | ⟨k, hk, hs, -, -⟩
    · omega
    · exact ⟨k, hk, hs⟩
  · rw [← hc]
    exact fill_spec w u8 (by rw [hu]; exact hfree)

/-! ### The size it asks for -/

/-- The sum does not wrap. -/
theorem needed_fits (w : WF r) (hn : r.length + n + 1 < modulus)
    (e : r.ringGrow n h = (res, r', h')) : Grown r n res r' := by
  rw [← length_contents w] at hn
  rcases ringGrow_spec w hn e with ⟨rfl, rfl, -⟩ | ⟨rfl, w', hc, hsize⟩
  · exact grown_failed r' n
  · refine grown_room w' hc ?_
    rw [room, ← length_contents w', hc]
    omega

/-- The sum wraps, and not to 0. -/
theorem needed_wrapped (w : WF r) (hlt : n < modulus) (hn : modulus < r.length + n + 1)
    (e : r.ringGrow n h = (res, r', h')) : Grown r n res r' := by
  have hs := w.size_le
  have hl := length_le w
  have hroom : ¬ n < r.room := by
    simp only [room, modulus] at hn ⊢
    omega
  have hneed : r.needed n = r.length + n + 1 - modulus := by
    rw [needed_eq w, Nat.mod_eq_sub_mod hn.le, Nat.mod_eq_of_lt]
    simp only [modulus] at hlt ⊢
    omega
  have hround : ringPow2 (r.needed n) ≤ r.size := by
    rcases w.shape with ⟨h₀, -, -⟩ | ⟨k, hk, hs, -, -⟩
    · omega
    · rw [hneed, hs]
      exact ringPow2_le (by omega) (by omega) hk
  rw [ringGrow_eq w, if_neg hroom, if_pos hround] at e
  cases e
  exact grown_failed r n

/-- The sum wraps to 0. -/
theorem needed_zero (w : WF r) (hn : r.length + n + 1 = modulus)
    (e : r.ringGrow n h = (res, r', h')) : Grown r n res r' ↔ 4096 ≤ r.size ∨ h.next.1 = none := by
  have hs := w.size_le
  have hl := length_le w
  have hneed : r.needed n = 0 := by rw [needed_eq w, hn, Nat.mod_self]
  have hroom : ¬ n < r.room := by
    simp only [room, modulus] at hn ⊢
    omega
  rw [ringGrow_eq w, if_neg hroom, hneed, show ringPow2 0 = 4096 from rfl] at e
  by_cases hsize : 4096 ≤ r.size
  · rw [if_pos hsize] at e
    cases e
    exact ⟨fun _ => Or.inl hsize, fun _ => grown_failed r n⟩
  · rw [if_neg hsize] at e
    rcases hh : h.next with ⟨_ | f, h₁⟩
    · rw [ringResize, malloc, hh] at e
      cases e
      exact ⟨fun _ => Or.inr rfl, fun _ => grown_failed r n⟩
    · have hfit : r.contents.length < 4096 := by
        rw [length_contents w]
        omega
      rcases ringResize_spec w (k := 12) (by omega) rfl hfit e with ⟨rfl, -⟩ | ⟨rfl, w', -, hs'⟩
      · rw [ringResize, malloc, hh] at e
        dsimp only at e
        split_ifs at e <;> cases e
      · constructor
        · intro hg
          have hlarge := hg.room rfl
          simp only [room, modulus] at hn hlarge
          omega
        · rintro (hbig | hnone)
          · exact absurd hbig hsize
          · cases hnone

/-- **`ring_grow` keeps its promise** unless content, new bytes and one are `2⁶⁴` together, the ring
has less than 4096 bytes, and there is memory. -/
theorem ringGrow_iff (w : WF r) (hn : n < modulus) (e : r.ringGrow n h = (res, r', h')) :
    Grown r n res r' ↔ r.length + n + 1 ≠ modulus ∨ 4096 ≤ r.size ∨ h.next.1 = none := by
  by_cases hzero : r.length + n + 1 = modulus
  · rw [needed_zero w hzero e]
    exact ⟨Or.inr, fun hor => hor.resolve_left (not_not.mpr hzero)⟩
  · refine ⟨fun _ => Or.inl hzero, fun _ => ?_⟩
    rcases Nat.lt_or_gt_of_ne hzero with hlt | hgt
    · exact needed_fits w hlt e
    · exact needed_wrapped w hn hgt e

/-- A fresh ring and five bytes. -/
theorem ringGrow_iff_five :
    Grown zeroed 5 (zeroed.ringGrow 5 []).1 (zeroed.ringGrow 5 []).2.1 := by
  rcases e : zeroed.ringGrow 5 [] with ⟨res, r', h'⟩
  exact (ringGrow_iff wf_zeroed (by decide) e).mpr (Or.inl (by decide))

/-- A fresh ring and `SIZE_MAX` bytes: 4096 bytes, and success. -/
theorem ringGrow_size_max :
    (zeroed.ringGrow (modulus - 1) []).1 = .ok () ∧
      ¬ modulus - 1 < (zeroed.ringGrow (modulus - 1) []).2.1.room := by
  decide +kernel

end OpenWfd.ShlRing
