import OpenWfd.Tokenizer.Position

/-!
# Tokenizer — Room

How far `owfd_rtsp_tokenize` writes.  A separator behind a token writes three bytes: the NUL of the
token, the separator, and its NUL.  The first of them is paid for by the last byte of the token,
which wrote one byte and left `last_c` set.

* `Charged.step`: with `last_c` counted as a byte to come, a character is worth two bytes.
* `tokenize_room`: so the loop and the last NUL stay within the `2 * len + 1` bytes allocated.
-/

namespace OpenWfd.Rtsp.Tokenizer

/-- `n` bytes pay for what was written, and for the NUL of the token under way. -/
def Charged (s : Tokenizer) (n : Int) : Prop :=
  s.toCursor.Within (if s.lastC = 0 then n else n - 1)

variable {s : Tokenizer} {n : Int} {c : UInt8}

theorem charged_init : init.Charged 1 := by
  refine ⟨Int.one_nonneg, ?_⟩
  intro i (hi : 1 ≤ i)
  have hne : i ≠ 0 := by omega
  simp [init, hne]

/-- A step that leaves `last_c` clear, and one that sets it. -/
theorem charged_clear (h : s.toCursor.Within n) (hl : s.lastC = 0) : s.Charged n := by
  rw [Charged, if_pos hl]
  exact h

theorem charged_set {m : Int} (h : s.toCursor.Within n) (hnm : n < m) : s.Charged m := by
  unfold Charged
  split_ifs
  · exact h.mono (by omega)
  · exact h.mono (by omega)

theorem Charged.within (h : s.Charged n) : s.toCursor.Within n := by
  unfold Charged at h
  split_ifs at h
  · exact h
  · exact h.mono (by omega)

/-- The NUL of the token under way was counted. -/
theorem Charged.finishIf (h : s.Charged n) : (s.finishIf s.lastC).toCursor.Within n := by
  rcases finishIf_cases s with ⟨-, hf⟩ | ⟨hl, hf⟩ <;> rw [hf]
  · exact h.within
  · rw [Charged, if_neg hl] at h
    have hfin := h.finish
    rwa [Int.sub_add_cancel] at hfin

/-- **One character is worth two bytes.** -/
theorem Charged.step (h : s.Charged n) (hn : c ≠ NUL) : (s.step c).Charged (n + 2) := by
  have hw := h.within
  cases hquoted : s.quoted with
  | true =>
      cases hesc : s.escaped with
      | true =>
          by_cases hz : c = '0'.toUInt8
          · subst hz
            rw [step_zero hquoted hesc]
            exact charged_set hw.back (by omega)
          · rw [step_escape hquoted hesc hz hn]
            exact charged_set (hw.put _) (by omega)
      | false =>
          by_cases hq : c = DQ
          · subst hq
            rw [step_close hquoted hesc]
            exact charged_clear (hw.finish.mono (by omega)) rfl
          by_cases hb : c = BS
          · subst hb
            rw [step_backslash hquoted hesc]
            exact charged_set hw (by omega)
          · rw [step_item hquoted hesc hq hb hn]
            exact charged_set (hw.put c) (by omega)
  | false =>
      have hfin := h.finishIf
      by_cases hq : c = DQ
      · subst hq
        rw [step_open hquoted]
        exact charged_clear (hfin.mono (by omega)) rfl
      · rcases step_text hquoted hq hn with hs | hs | hs <;> rw [hs]
        · exact charged_clear (hfin.mono (by omega)) rfl
        · -- a separator: the NUL before it was counted
          exact charged_clear ((hfin.put c).finish.mono (by omega)) rfl
        · exact charged_set (hw.put c) (by omega)

theorem charged_run {read : List UInt8} (hn : NUL ∉ read) :
    (run read).Charged (2 * read.length + 1) := by
  induction read using List.reverseRecOn with
  | nil => exact charged_init
  | append_singleton read c ih =>
      have hread : NUL ∉ read := fun hm => hn (List.mem_append_left _ hm)
      have hstep := (ih hread).step (c := c) fun e => hn (by simp [e])
      have hcost : 2 * ((read ++ [c]).length : Int) + 1 = 2 * read.length + 1 + 2 := by
        rw [List.length_append, List.length_singleton]
        omega
      rw [run, List.foldl_append, hcost]
      exact hstep

/-- **The block is large enough.**  `dst` never goes more than `2 * len + 1` bytes beyond `t`, in
the loop and behind the last NUL, and nothing is written behind that. -/
theorem tokenize_room (line : CStr) :
    (∀ read, read <+: line.1 → (run read).dst ≤ 2 * line.1.length + 1) ∧
      (run line.1).done.dst ≤ 2 * line.1.length + 1 ∧
      ∀ i : Int, 2 * line.1.length + 1 ≤ i → (run line.1).done.mem i = none := by
  have hdone : (run line.1).done.Within (2 * line.1.length + 1) := (charged_run line.2).finishIf
  refine ⟨?_, hdone.dst, hdone.unwritten⟩
  intro read hread
  have hlen := hread.length_le
  have hdst := (charged_run fun hm => line.2 (hread.subset hm)).within.dst
  omega

end OpenWfd.Rtsp.Tokenizer
