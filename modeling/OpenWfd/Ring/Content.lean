import OpenWfd.Ring.Definitions
import Mathlib.Tactic.Linarith

/-!
# Ring — Content

What a ring holds (`contents`), when a ring is well formed (`WF`), and one lemma for each function
of `Definitions.lean` saying what it does to the two.  Everything above the ring uses these lemmas
and never looks into a buffer.
-/

namespace OpenWfd.ShlRing

open SizeT (add sub modulus ptrdiffMax)

/-- The bytes in the ring, oldest first. -/
def contents (r : ShlRing) : List UInt8 :=
  if r.start ≤ r.end_ then (r.buf.drop r.start).take (r.end_ - r.start)
  else r.buf.drop r.start ++ r.buf.take r.end_

/-- The block has `size` bytes; `size` is a power of two with `start` and `end` below it, or all
three are 0. -/
structure WF (r : ShlRing) : Prop where
  block : r.buf.length = r.size
  shape : (r.size = 0 ∧ r.start = 0 ∧ r.end_ = 0) ∨
    ∃ k < 64, r.size = 2 ^ k ∧ r.start < r.size ∧ r.end_ < r.size

theorem wf_zeroed : WF zeroed := ⟨rfl, Or.inl ⟨rfl, rfl, rfl⟩⟩

@[simp] theorem contents_zeroed : zeroed.contents = [] := rfl

/-- A ring of a power of two of bytes. -/
theorem WF.of_two_pow {r : ShlRing} {k : Nat} (hk : k < 64) (hb : r.buf.length = r.size)
    (hs : r.size = 2 ^ k) (h₁ : r.start < r.size) (h₂ : r.end_ < r.size) : WF r :=
  ⟨hb, Or.inr ⟨k, hk, hs, h₁, h₂⟩⟩

theorem WF.size_le {r : ShlRing} (w : WF r) : r.size ≤ 2 ^ 63 := by
  rcases w.shape with ⟨h, -, -⟩ | ⟨k, hk, hs, -, -⟩
  · omega
  · rw [hs]; exact Nat.pow_le_pow_right (by norm_num) (by omega)

theorem WF.bounds {r : ShlRing} (w : WF r) :
    (r.size = 0 ∧ r.start = 0 ∧ r.end_ = 0) ∨ (r.start < r.size ∧ r.end_ < r.size) := by
  rcases w.shape with h | ⟨k, -, -, h₁, h₂⟩
  · exact Or.inl h
  · exact Or.inr ⟨h₁, h₂⟩

theorem mask_of_lt {r : ShlRing} (w : WF r) {v : Nat} (h : v < r.size) : r.mask v = v := by
  rcases w.shape with ⟨h₀, -, -⟩ | ⟨k, hk, hs, -, -⟩
  · omega
  · rw [mask, hs, SizeT.and_pred_two_pow hk, ← hs, Nat.mod_eq_of_lt h]

theorem mask_size {r : ShlRing} (w : WF r) (h : r.size ≠ 0) : r.mask r.size = 0 := by
  rcases w.shape with ⟨h₀, -, -⟩ | ⟨k, hk, hs, -, -⟩
  · exact absurd h₀ h
  · rw [mask, hs, SizeT.and_pred_two_pow hk, Nat.mod_self]

theorem mask_zero (r : ShlRing) : r.mask 0 = 0 := Nat.zero_and _

/-! ### Length -/

theorem length_contents {r : ShlRing} (w : WF r) : r.contents.length = r.length := by
  have hb := w.block
  have hw := w.bounds
  unfold contents length
  split_ifs <;> simp only [List.length_append, List.length_take, List.length_drop] <;> omega

theorem length_contents_lt {r : ShlRing} (w : WF r) :
    r.contents.length < r.size ∨ r.contents = [] := by
  rw [← List.length_eq_zero_iff, length_contents w]
  have hw := w.bounds
  unfold length
  split_ifs <;> omega

theorem length_contents_lt_two_pow {r : ShlRing} (w : WF r) : r.contents.length < 2 ^ 63 := by
  have hs := w.size_le
  rcases length_contents_lt w with h | h
  · omega
  · rw [h, List.length_nil]; omega

/-! ### Peek -/

/-- **The segments of `peek`, one after the other, are the content.** -/
theorem peek_flatten {r : ShlRing} (w : WF r) : r.peek.flatten = r.contents := by
  have hb := w.block
  have hw := w.bounds
  unfold peek contents
  split_ifs with h₁ h₂ h₃ h₄ h₅
  · simp
  · omega
  · omega
  · rw [List.take_of_length_le (by simp; omega)]; simp
  · omega
  · rw [List.take_of_length_le (by simp; omega), not_not.mp h₄]; simp
  · rw [show r.end_ - r.start = 0 by omega]; simp
  · omega

theorem peek_length_le (r : ShlRing) : r.peek.length ≤ 2 := by
  unfold peek
  split_ifs <;> simp

theorem peek_eq_nil_iff {r : ShlRing} (w : WF r) : r.peek = [] ↔ r.contents = [] := by
  rw [← List.length_eq_zero_iff (l := r.contents), length_contents w]
  have hw := w.bounds
  unfold peek length
  split_ifs <;> simp <;> omega

theorem sum_length_peek {r : ShlRing} (w : WF r) :
    (r.peek.map List.length).sum = r.contents.length := by
  rw [← peek_flatten w, List.length_flatten]

/-! ### Pull and flush -/

/-- Where `start` is after a `pull`: inside the second segment if the first one is exhausted. -/
theorem pull_eq {r : ShlRing} (w : WF r) (n : Nat) :
    r.pull n = { r with
      start :=
        if r.end_ < r.start then
          if n < r.size - r.start then r.start + n else min r.end_ (n - (r.size - r.start))
        else r.start + min (r.end_ - r.start) n } := by
  have hw := w.bounds
  by_cases hwrap : r.end_ < r.start
  · by_cases hn : n < r.size - r.start
    · have hm : r.mask (r.start + n) = r.start + n := mask_of_lt w (by omega)
      simp [pull, hwrap, hn, Nat.min_eq_right (Nat.le_of_lt hn), hm]
    · have hm : r.mask (r.start + (r.size - r.start)) = 0 := by
        rw [show r.start + (r.size - r.start) = r.size by omega]
        exact mask_size w (by omega)
      have hm' : ∀ v, v ≤ r.end_ → mask { r with start := 0 } v = v :=
        fun v hv => mask_of_lt w (by omega)
      simp only [pull, gt_iff_lt, hwrap, if_true, hn, if_false,
        Nat.min_eq_left (Nat.le_of_not_lt hn), hm]
      split_ifs with h₀
      · rw [h₀, Nat.min_zero]
      · simp only [Nat.zero_add, Nat.sub_zero]
        rw [hm' _ (Nat.min_le_left _ _)]
  · have hm : r.mask (r.start + min (r.end_ - r.start) n) = r.start + min (r.end_ - r.start) n := by
      rcases hw with ⟨h₀, h₁, h₂⟩ | ⟨h₁, h₂⟩
      · rw [h₁, h₂, Nat.sub_zero, Nat.zero_min]; exact mask_zero r
      · exact mask_of_lt w (by omega)
    by_cases hn : n = 0
    · simp [pull, hwrap, hn]
    · simp [pull, hwrap, hn, hm]

theorem wf_pull {r : ShlRing} (w : WF r) (n : Nat) : WF (r.pull n) := by
  rw [pull_eq w]
  refine ⟨w.block, ?_⟩
  rcases w.shape with ⟨h₀, h₁, h₂⟩ | ⟨k, hk, hs, h₁, h₂⟩
  · exact Or.inl ⟨h₀, by simp [h₁, h₂], h₂⟩
  · refine Or.inr ⟨k, hk, hs, ?_, h₂⟩
    show (if r.end_ < r.start then _ else _) < r.size
    split_ifs <;> omega

/-- **`pull` drops `min(len, |q|)` bytes from the front.** -/
theorem contents_pull {r : ShlRing} (w : WF r) (n : Nat) :
    (r.pull n).contents = r.contents.drop n := by
  have hb := w.block
  have hw := w.bounds
  rw [pull_eq w]
  unfold contents
  by_cases hwrap : r.end_ < r.start
  · by_cases hn : n < r.size - r.start
    · simp only [hwrap, hn, if_true, if_neg (Nat.not_le.mpr hwrap)]
      rw [if_neg (by omega), List.drop_append_of_le_length (by simp; omega), List.drop_drop]
    · simp only [hwrap, hn, if_true, if_false, if_neg (Nat.not_le.mpr hwrap)]
      rw [if_pos (Nat.min_le_left _ _), List.drop_append,
        List.drop_eq_nil_of_le (i := n) (by simp; omega), List.nil_append, List.length_drop, hb,
        List.drop_take]
      rcases Nat.le_total r.end_ (n - (r.size - r.start)) with h | h
      · rw [Nat.min_eq_left h, Nat.sub_self, Nat.sub_eq_zero_of_le h]; simp
      · rw [Nat.min_eq_right h]
  · simp only [hwrap, if_false]
    rw [if_pos (by omega), if_pos (by omega), List.drop_take, List.drop_drop]
    rcases Nat.le_total (r.end_ - r.start) n with h | h
    · rw [Nat.min_eq_left h, show r.end_ - (r.start + (r.end_ - r.start)) = 0 by omega,
        show r.end_ - r.start - n = 0 by omega]; simp
    · rw [Nat.min_eq_right h, Nat.sub_add_eq]

theorem contents_flush (r : ShlRing) : r.flush.contents = [] := by
  simp [contents, flush]

theorem wf_flush {r : ShlRing} (w : WF r) : WF r.flush := by
  refine ⟨w.block, ?_⟩
  rcases w.shape with ⟨h, -, -⟩ | ⟨k, hk, hs, h₁, h₂⟩
  · exact Or.inl ⟨h, rfl, rfl⟩
  · exact Or.inr ⟨k, hk, hs, by simp only [flush]; omega, by simp only [flush]; omega⟩

/-! ### Growing -/

/-- **Resizing moves the content to the front of the new block.** -/
theorem ringResize_spec {r r' : ShlRing} {nsize k : Nat} {h h' : Allocs} {res : Except Errno Unit}
    (w : WF r) (hk : k < 64) (hn : nsize = 2 ^ k) (hlt : r.contents.length < nsize)
    (e : r.ringResize nsize h = (res, r', h')) :
    (res = .error .ENOMEM ∧ r' = r) ∨
      (res = .ok () ∧ WF r' ∧ r'.contents = r.contents ∧ r'.size = nsize) := by
  have hb := w.block
  have hw := w.bounds
  rw [length_contents w] at hlt
  unfold ringResize at e
  rcases hm : malloc nsize h with ⟨_ | buf, h₁⟩
  · rw [hm] at e
    cases e
    exact Or.inl ⟨rfl, rfl⟩
  have hbuf : buf.length = nsize := malloc_length hm
  rw [hm] at e
  right
  by_cases h₁ : r.end_ = r.start
  · simp only [h₁, if_true] at e
    cases e
    refine ⟨rfl, .of_two_pow hk hbuf hn (by simp only; omega) (by simp only; omega), ?_, rfl⟩
    simp [contents, h₁]
  by_cases h₂ : r.start < r.end_
  · simp only [if_neg h₁, gt_iff_lt, if_pos h₂] at e
    cases e
    rw [length, if_pos h₂] at hlt
    set seg := (r.buf.drop r.start).take (r.end_ - r.start) with hseg
    have hl : seg.length = r.end_ - r.start := by rw [hseg]; simp; omega
    have hcopy := @memcpy_take_end _ buf seg 0 (Nat.zero_le buf.length)
    rw [Nat.zero_add, List.take_zero, List.nil_append, hl] at hcopy
    refine ⟨rfl, .of_two_pow hk ?_ hn (by simp only; omega) (by simp only; omega), ?_, rfl⟩
    · rw [memcpy_length (by omega)]; exact hbuf
    · simp only [contents, Nat.zero_le, if_true, List.drop_zero, Nat.sub_zero, if_pos h₂.le]
      exact hcopy
  · rw [length, if_neg h₂, if_pos (by omega)] at hlt
    simp only [if_neg h₁, gt_iff_lt, if_neg h₂] at e
    rw [List.take_of_length_le (i := r.size - r.start) (by simp; omega)] at e
    cases e
    set seg := r.buf.drop r.start with hseg
    have hl : seg.length = r.size - r.start := by rw [hseg]; simp; omega
    have hl' : (r.buf.take r.end_).length = r.end_ := by simp; omega
    have hfirst : (memcpy buf 0 seg).length = nsize := by
      rw [memcpy_length (by omega)]; exact hbuf
    have hcopy := @memcpy_take_end _ buf seg 0 (Nat.zero_le buf.length)
    rw [Nat.zero_add, List.take_zero, List.nil_append, hl] at hcopy
    have hcopy' := @memcpy_take_end _ (memcpy buf 0 seg) (r.buf.take r.end_)
      (r.size - r.start) (by omega)
    rw [hl', hcopy] at hcopy'
    refine ⟨rfl, .of_two_pow hk ?_ hn (by simp only; omega) (by simp only; omega), ?_, rfl⟩
    · rw [memcpy_length (by omega)]; exact hfirst
    · simp only [contents, Nat.zero_le, if_true, List.drop_zero, Nat.sub_zero,
        if_neg (show ¬ r.start ≤ r.end_ by omega)]
      rw [Nat.add_comm r.end_, hcopy']

/-- `ring_pow2` rounds up. -/
theorem ringPow2_eq {v : Nat} (h₁ : 2 ≤ v) (h₂ : v ≤ 2 ^ 63) :
    ringPow2 v = 2 ^ ((v - 1).log2 + 1) := by
  have h0 : v - 1 ≠ 0 := by omega
  have hlog : (v - 1).log2 < 63 := (Nat.log2_lt h0).mpr (by omega)
  have hpow : 2 ^ ((v - 1).log2 + 1) ≤ 2 ^ 63 := Nat.pow_le_pow_right (by norm_num) (by omega)
  have hone : 1 ≤ 2 ^ ((v - 1).log2 + 1) := Nat.one_le_two_pow
  rw [ringPow2, if_neg (by omega), SizeT.smear_eq h0 (by simp only [modulus]; omega),
    SizeT.add_of_lt (by simp only [modulus]; omega), Nat.sub_add_cancel hone]

/-- `ring_pow2` on the values that have a next power of two below `2⁶⁴`. -/
theorem ringPow2_spec {v : Nat} (h₁ : 1 ≤ v) (h₂ : v ≤ 2 ^ 63) :
    ∃ k < 64, ringPow2 v = 2 ^ k ∧ v ≤ 2 ^ k := by
  rcases Nat.eq_or_lt_of_le h₁ with rfl | h
  · exact ⟨0, by omega, by decide, by omega⟩
  · have h0 : v - 1 ≠ 0 := by omega
    have hlog : (v - 1).log2 < 63 := (Nat.log2_lt h0).mpr (by omega)
    have hlt : v - 1 < 2 ^ ((v - 1).log2 + 1) := Nat.lt_log2_self
    exact ⟨(v - 1).log2 + 1, by omega, ringPow2_eq h h₂, by omega⟩

/-- A power of two above a size is above its next power of two. -/
theorem ringPow2_le {v k : Nat} (h₁ : 1 ≤ v) (h₂ : v ≤ 2 ^ k) (hk : k < 64) :
    ringPow2 v ≤ 2 ^ k := by
  have hpow : 2 ^ k ≤ 2 ^ 63 := Nat.pow_le_pow_right (by norm_num) (by omega)
  rcases Nat.eq_or_lt_of_le h₁ with rfl | hv
  · exact Nat.le_trans (by decide) (Nat.one_le_two_pow (n := k))
  · have hlog : (v - 1).log2 < k := (Nat.log2_lt (by omega)).mpr (by omega)
    rw [ringPow2_eq hv (h₂.trans hpow)]
    exact Nat.pow_le_pow_right (by norm_num) hlog

/-- Above `2⁶³` the next power of two is out of range, and `ring_pow2` wraps to 0. -/
theorem ringPow2_eq_zero {v : Nat} (h₁ : 2 ^ 63 < v) (h₂ : v < modulus) : ringPow2 v = 0 := by
  simp only [modulus] at h₂
  have h0 : v - 1 ≠ 0 := by omega
  have hlog : (v - 1).log2 = 63 :=
    (Nat.log2_eq_iff h0).mpr ⟨by omega, by omega⟩
  rw [ringPow2, if_neg (by omega), SizeT.smear_eq h0 (by simp only [modulus]; omega), hlog]
  decide

/-- The free space `ring_grow` computes counts the byte that is never filled. -/
theorem free_eq {r : ShlRing} (w : WF r) :
    (if r.end_ < r.start then sub r.start r.end_ else sub (add r.start r.size) r.end_) =
      r.size - r.contents.length := by
  have hs := w.size_le
  have hw := w.bounds
  rw [length_contents w, length]
  simp only [sub, add, modulus]
  split_ifs <;> omega

theorem length_le {r : ShlRing} (w : WF r) : r.length ≤ r.size := by
  rw [← length_contents w]
  rcases length_contents_lt w with hlt | hnil
  · exact hlt.le
  · rw [hnil]
    exact Nat.zero_le _

/-- The free space, with the byte that is never filled. -/
def room (r : ShlRing) : Nat := r.size - r.length

/-- The size before rounding. -/
def needed (r : ShlRing) (n : Nat) : Nat := add (sub (add r.size n) r.room) 1

theorem needed_eq {r : ShlRing} (w : WF r) (n : Nat) :
    r.needed n = (r.length + n + 1) % modulus := by
  have hs := w.size_le
  have hl := length_le w
  simp only [needed, room, add, sub, modulus]
  omega

/-- `ring_grow`, by the room there is and the size needed. -/
theorem ringGrow_eq {r : ShlRing} (w : WF r) (n : Nat) (h : Allocs) :
    r.ringGrow n h =
      if n < r.room then (.ok (), r, h)
      else if ringPow2 (r.needed n) ≤ r.size then (.error .ENOMEM, r, h)
      else r.ringResize (ringPow2 (r.needed n)) h := by
  unfold ringGrow
  simp only [free_eq w, length_contents w]
  rfl

/-- **`ring_grow` makes room or changes nothing**, where the size it needs does not wrap.  If the
allocator answers, it fails only when content and new bytes together reach `2⁶³`. -/
theorem ringGrow_spec {r r' : ShlRing} {n : Nat} {h h' : Allocs} {res : Except Errno Unit}
    (w : WF r) (hn : r.contents.length + n + 1 < modulus) (e : r.ringGrow n h = (res, r', h')) :
    (res = .error .ENOMEM ∧ r' = r ∧ (h = [] → 2 ^ 63 ≤ r.contents.length + n)) ∨
      (res = .ok () ∧ WF r' ∧ r'.contents = r.contents ∧ r.contents.length + n < r'.size) := by
  have hl := length_le w
  have hneed : r.needed n = r.contents.length + n + 1 := by
    rw [needed_eq w, ← length_contents w, Nat.mod_eq_of_lt hn]
  rw [ringGrow_eq w, hneed, room, ← length_contents w] at e
  rw [← length_contents w] at hl
  by_cases hfree : n < r.size - r.contents.length
  · rw [if_pos hfree] at e
    cases e
    exact Or.inr ⟨rfl, w, rfl, by omega⟩
  rw [if_neg hfree] at e
  by_cases hbig : r.contents.length + n + 1 ≤ 2 ^ 63
  · obtain ⟨k, hk, hp, hv⟩ := ringPow2_spec (Nat.succ_le_succ (Nat.zero_le _)) hbig
    rw [hp, if_neg (by omega)] at e
    rcases ringResize_spec w hk rfl (by omega) e with ⟨rfl, rfl⟩ | ⟨rfl, w', hcont, hsize⟩
    · refine Or.inl ⟨rfl, rfl, ?_⟩
      rintro rfl
      simp only [ringResize, malloc_nil] at e
      split_ifs at e <;> cases e
    · exact Or.inr ⟨rfl, w', hcont, by omega⟩
  · rw [ringPow2_eq_zero (Nat.not_le.mp hbig) hn, if_pos (Nat.zero_le _)] at e
    cases e
    exact Or.inl ⟨rfl, rfl, fun _ => by omega⟩

/-! ### Push -/

/-- The two `memcpy`s of `push`, on a ring that has the room. -/
def fill (r : ShlRing) (u8 : List UInt8) : ShlRing :=
  let l := if r.start ≤ r.end_ then min (r.size - r.end_) u8.length else 0
  let r :=
    if r.start ≤ r.end_ then
      { r with buf := memcpy r.buf r.end_ (u8.take l), end_ := r.mask (r.end_ + l) }
    else r
  let u8 := u8.drop l
  if u8.length = 0 then r
  else { r with buf := memcpy r.buf r.end_ u8, end_ := r.mask (r.end_ + u8.length) }

theorem push_eq (r : ShlRing) (u8 : List UInt8) (h : Allocs) :
    r.push u8 h = match r.ringGrow u8.length h with
      | (.error e, r, h) => (.error e, r, h)
      | (.ok (), r, h) => (.ok (), r.fill u8, h) := by
  unfold push fill
  rcases r.ringGrow u8.length h with ⟨_ | _, r, h⟩
  · rfl
  · dsimp only; split_ifs <;> rfl

/-- The content ends below the end of the block: one copy, and `end` does not wrap. -/
theorem fill_straight {r : ShlRing} (w : WF r) (u8 : List UInt8) (h₁ : r.start ≤ r.end_)
    (h₂ : r.end_ + u8.length < r.size) :
    WF (r.fill u8) ∧ (r.fill u8).contents = r.contents ++ u8 := by
  have hb := w.block
  have hf : r.fill u8 =
      { r with buf := memcpy r.buf r.end_ u8, end_ := r.end_ + u8.length } := by
    have hl : min (r.size - r.end_) u8.length = u8.length := by omega
    simp [fill, h₁, hl, mask_of_lt w h₂]
  rw [hf]
  refine ⟨⟨?_, ?_⟩, ?_⟩
  · simp only; rw [memcpy_length (by omega)]; exact hb
  · rcases w.shape with ⟨h, -, -⟩ | ⟨k, hk, hs, h₃, -⟩
    · omega
    · exact Or.inr ⟨k, hk, hs, h₃, h₂⟩
  · simp only [contents, h₁, if_true, if_pos (show r.start ≤ r.end_ + u8.length by omega)]
    rw [List.take_drop, Nat.add_sub_cancel' (by omega), memcpy_take_end (by omega),
      List.drop_append_of_le_length (by simp; omega), List.take_drop, Nat.add_sub_cancel' h₁]

/-- The content reaches the end of the block exactly: `end` wraps to 0. -/
theorem fill_flush {r : ShlRing} (w : WF r) (u8 : List UInt8) (h₁ : r.start ≤ r.end_)
    (h₀ : 0 < r.start) (h₂ : r.end_ + u8.length = r.size) :
    WF (r.fill u8) ∧ (r.fill u8).contents = r.contents ++ u8 := by
  have hb := w.block
  have hf : r.fill u8 = { r with buf := memcpy r.buf r.end_ u8, end_ := 0 } := by
    have hl : min (r.size - r.end_) u8.length = u8.length := by omega
    have hm : r.mask (r.end_ + u8.length) = 0 := by rw [h₂]; exact mask_size w (by omega)
    simp [fill, h₁, hl, hm]
  rw [hf]
  refine ⟨⟨?_, ?_⟩, ?_⟩
  · simp only; rw [memcpy_length (by omega)]; exact hb
  · rcases w.shape with ⟨-, h, -⟩ | ⟨k, hk, hs, h₃, -⟩
    · omega
    · exact Or.inr ⟨k, hk, hs, h₃, by simp only; omega⟩
  · have hlen : (memcpy r.buf r.end_ u8).length = r.end_ + u8.length := by
      rw [memcpy_length (by omega)]; omega
    simp only [contents, h₁, if_true, if_neg (show ¬ r.start ≤ 0 by omega)]
    rw [List.take_zero, List.append_nil, ← List.take_of_length_le (Nat.le_of_eq hlen),
      memcpy_take_end (by omega), List.drop_append_of_le_length (by simp; omega), List.take_drop,
      Nat.add_sub_cancel' h₁]

/-- The free space is one stretch between `end` and `start`: one copy. -/
theorem fill_gap {r : ShlRing} (w : WF r) (u8 : List UInt8) (h₁ : r.end_ < r.start)
    (h₂ : r.end_ + u8.length < r.start) :
    WF (r.fill u8) ∧ (r.fill u8).contents = r.contents ++ u8 := by
  have hb := w.block
  have hw := w.bounds
  have hf : r.fill u8 =
      { r with buf := memcpy r.buf r.end_ u8, end_ := r.end_ + u8.length } := by
    have hm := mask_of_lt w (show r.end_ + u8.length < r.size by omega)
    by_cases h0 : u8.length = 0
    · obtain rfl := List.length_eq_zero_iff.mp h0
      simp [fill, Nat.not_le.mpr h₁, memcpy]
    · simp only [fill, Nat.not_le.mpr h₁, if_false, List.drop_zero, h0, hm]
  rw [hf]
  refine ⟨⟨?_, ?_⟩, ?_⟩
  · simp only; rw [memcpy_length (by omega)]; exact hb
  · rcases w.shape with ⟨-, h, -⟩ | ⟨k, hk, hs, h₃, -⟩
    · omega
    · exact Or.inr ⟨k, hk, hs, h₃, by simp only; omega⟩
  · simp only [contents, if_neg (Nat.not_le.mpr h₁),
      if_neg (show ¬ r.start ≤ r.end_ + u8.length by omega)]
    rw [memcpy_take_end (by omega), memcpy_drop (by omega) (by omega), List.append_assoc]

/-- **`fill` appends**: with the room `ring_grow` made, nothing of the content is overwritten. -/
theorem fill_spec {r : ShlRing} (w : WF r) (u8 : List UInt8)
    (hroom : r.contents.length + u8.length < r.size) :
    WF (r.fill u8) ∧ (r.fill u8).contents = r.contents ++ u8 := by
  have hw := w.bounds
  rw [length_contents w, length] at hroom
  by_cases h₁ : r.start ≤ r.end_
  · rcases Nat.lt_trichotomy (r.end_ + u8.length) r.size with h₂ | h₂ | h₂
    · exact fill_straight w u8 h₁ h₂
    · refine fill_flush w u8 h₁ ?_ h₂
      split_ifs at hroom <;> omega
    · -- the new bytes straddle the end of the block: fill up to it, then the gap before `start`
      have hstart : r.end_ + u8.length < r.size + r.start := by split_ifs at hroom <;> omega
      have hl : (u8.take (r.size - r.end_)).length = r.size - r.end_ := by simp; omega
      obtain ⟨w₁, hc₁⟩ := fill_flush w (u8.take (r.size - r.end_)) h₁ (by omega)
        (by rw [hl]; omega)
      have hf₁ : r.fill (u8.take (r.size - r.end_)) =
          { r with buf := memcpy r.buf r.end_ (u8.take (r.size - r.end_)), end_ := 0 } := by
        have hm : r.mask (r.end_ + (r.size - r.end_)) = 0 := by
          rw [Nat.add_sub_cancel' (by omega)]; exact mask_size w (by omega)
        simp only [fill, h₁, if_true, hl, Nat.min_self, hm, List.take_take]
        simp
      have hend : (r.fill (u8.take (r.size - r.end_))).end_ = 0 := by rw [hf₁]
      have hst : (r.fill (u8.take (r.size - r.end_))).start = r.start := by rw [hf₁]
      obtain ⟨w₂, hc₂⟩ := fill_gap w₁ (u8.drop (r.size - r.end_))
        (by rw [hend, hst]; omega) (by rw [hend, hst]; simp; omega)
      have hf : r.fill u8 =
          (r.fill (u8.take (r.size - r.end_))).fill (u8.drop (r.size - r.end_)) := by
        have hm : r.mask (r.end_ + (r.size - r.end_)) = 0 := by
          rw [Nat.add_sub_cancel' (by omega)]; exact mask_size w (by omega)
        have hmin : min (r.size - r.end_) u8.length = r.size - r.end_ := by omega
        rw [hf₁]
        simp only [fill, h₁, if_true, hmin, hm, if_neg (show ¬ r.start ≤ 0 by omega),
          List.drop_zero]
      rw [hf, hc₂, hc₁, List.append_assoc, List.take_append_drop]
      exact ⟨w₂, rfl⟩
  · exact fill_gap w u8 (by omega) (by split_ifs at hroom <;> omega)

/-- **`push` appends exactly the pushed bytes, or fails and changes nothing.**  If the allocator
answers, it fails only when content and new bytes together reach `2⁶³`. -/
theorem push_spec {r r' : ShlRing} {u8 : List UInt8} {h h' : Allocs} {res : Except Errno Unit}
    (w : WF r) (hn : u8.length ≤ ptrdiffMax) (e : r.push u8 h = (res, r', h')) :
    (res = .error .ENOMEM ∧ r' = r ∧ (h = [] → 2 ^ 63 ≤ r.contents.length + u8.length)) ∨
      (res = .ok () ∧ WF r' ∧ r'.contents = r.contents ++ u8) := by
  have hlt := length_contents_lt_two_pow w
  have hsum : r.contents.length + u8.length + 1 < modulus := by
    simp only [ptrdiffMax] at hn
    simp only [modulus]
    omega
  rw [push_eq] at e
  rcases hg : r.ringGrow u8.length h with ⟨res₁, r₁, h₁⟩
  rcases ringGrow_spec w hsum hg with ⟨rfl, rfl, hbig⟩ | ⟨rfl, w₁, hc, hroom⟩
  · rw [hg] at e
    cases e
    exact Or.inl ⟨rfl, rfl, hbig⟩
  · rw [hg] at e
    cases e
    obtain ⟨w₂, hc₂⟩ := fill_spec w₁ u8 (by rw [hc]; exact hroom)
    exact Or.inr ⟨rfl, w₂, by rw [hc₂, hc]⟩

/-- An allocator that answers every call still does after a `push`. -/
theorem push_nil {r r' : ShlRing} {u8 : List UInt8} {h' : Allocs} {res : Except Errno Unit}
    (e : r.push u8 [] = (res, r', h')) : h' = [] := by
  have hg : (r.ringGrow u8.length []).2.2 = [] := by
    unfold ringGrow ringResize
    simp only [malloc_nil]
    split_ifs <;> rfl
  rw [push_eq] at e
  split at e
  · next heq => rw [heq] at hg; cases e; exact hg
  · next heq => rw [heq] at hg; cases e; exact hg

/-! ### Copy -/

theorem copyLimit_some (n sum : Nat) : copyLimit (some n) sum = min n sum := by
  simp only [copyLimit]
  split_ifs <;> omega

theorem copyLimit_le (len : Option Nat) (sum : Nat) : copyLimit len sum ≤ sum := by
  rcases len with _ | n
  · exact le_rfl
  · rw [copyLimit_some]; exact Nat.min_le_right n sum

/-- The two `memcpy`s of `copy` put the first `l` bytes of two segments in front of a NUL. -/
theorem copy_block {b s₀ s₁ : List UInt8} {l : Nat} (hb : b.length = l + 1)
    (hl : l ≤ s₀.length + s₁.length) :
    memcpy (memcpy (memcpy b l [0]) 0 (s₀.take l)) (s₀.take l).length
        (s₁.take (l - (s₀.take l).length)) = (s₀ ++ s₁).take l ++ [0] := by
  have hs₀ : (s₀.take l).length = min l s₀.length := List.length_take
  have hb₁ : (memcpy b l [0]).length = l + 1 := by
    rw [memcpy_length (by simp; omega)]; exact hb
  have hnul : (memcpy b l [0]).drop l = [0] := by
    rw [memcpy, List.drop_append_of_le_length (by simp; omega),
      List.drop_append_of_le_length (by simp; omega)]
    simp [hb]
  have hb₂ : (memcpy (memcpy b l [0]) 0 (s₀.take l)).length = l + 1 := by
    rw [memcpy_length (by omega)]; exact hb₁
  have hfront := @memcpy_take_end _ (memcpy b l [0]) (s₀.take l) 0 (by omega)
  rw [Nat.zero_add, List.take_zero, List.nil_append] at hfront
  have hlen : (s₀.take l).length + (s₁.take (l - (s₀.take l).length)).length = l := by
    simp only [List.length_take]; omega
  conv_lhs => rw [memcpy, hfront, hlen]
  rw [memcpy_drop (by omega) (by omega), hnul, List.take_append]
  congr 2
  rw [hs₀]
  rcases Nat.le_total l s₀.length with h | h
  · rw [Nat.min_eq_left h]; simp [Nat.sub_eq_zero_of_le h]
  · rw [Nat.min_eq_right h]

theorem flatten_of_length_le {segs : List (List UInt8)} (h : segs.length ≤ 2) :
    segs.flatten = segs.getD 0 [] ++ segs.getD 1 [] := by
  match segs, h with
  | [], _ | [_], _ | [_, _], _ => simp
  | _ :: _ :: _ :: _, h => simp at h

/-- **`copy` yields the first `min(n, |q|)` bytes and a NUL**, and stores that length; it fails only
when the allocator does. -/
theorem copy_eq {r : ShlRing} (w : WF r) (len : Option Nat) (h : Allocs) :
    r.copy len h = match h.next with
      | (none, h)   => (none, h)
      | (some _, h) => (some (r.contents.take (copyLimit len r.contents.length) ++ [0],
          copyLimit len r.contents.length), h) := by
  have hle := copyLimit_le len r.contents.length
  simp only [copy, sum_length_peek w, malloc]
  generalize copyLimit len r.contents.length = l at hle ⊢
  rcases h.next with ⟨_ | f, h₁⟩
  · rfl
  · have hsegs : r.contents = r.peek.getD 0 [] ++ r.peek.getD 1 [] := by
      rw [← peek_flatten w]
      exact flatten_of_length_le (peek_length_le r)
    have hb : ((List.range (l + 1)).map f).length = l + 1 := by simp
    dsimp only
    rw [copy_block hb (by rw [← List.length_append, ← hsegs]; exact hle), ← hsegs]

end OpenWfd.ShlRing
