import OpenWfd.Decoder.Definitions
import Mathlib.Data.List.Infix

/-!
# Decoder — Sanitize

What one round of `sanitize_header_line` does with a byte (`San.step_nul` to `San.step_close`), and
the loop on lines without quoted strings.  There a run of white-space becomes one space and the rest
is copied, so a header line that was folded over several lines comes out as it was meant
(`sanitize_folded`).
-/

namespace OpenWfd.Rtsp

/-! ### One byte -/

/-- White-space, the line breaks included. -/
def White (c : UInt8) : Prop := c = CR ∨ c = LF ∨ c = TAB ∨ c = SP

/-- A byte `sanitize_header_line` copies outside quoted strings, or a space. -/
def Plain (c : UInt8) : Prop := c ≠ NUL ∧ c ≠ CR ∧ c ≠ LF ∧ c ≠ TAB ∧ c ≠ DQ

instance : DecidablePred White := fun _ => inferInstanceAs (Decidable (_ ∨ _))
instance : DecidablePred Plain := fun _ => inferInstanceAs (Decidable (_ ∧ _))

theorem white_ne_nul {c : UInt8} (h : White c) : c ≠ NUL := by
  rintro rfl
  exact absurd h (by decide)

/-- A byte after this one would be escaped, inside a quoted string. -/
def San.slash (s : San) : Bool := s.lastC = BS && !s.escaped

section

variable {s : San} {c : UInt8}

/-- Outside quotes, a NUL is dropped. -/
theorem San.step_nul (hq : s.quoted = false) : s.step NUL = { s with lastC := NUL } := by
  unfold San.step
  dsimp only
  rw [if_neg (by simp [hq]), if_pos rfl]

/-- Outside quotes, white-space is a space, unless one was read before. -/
theorem San.step_space (hq : s.quoted = false) (hc : White c) :
    s.step c = { s with lastC := SP, out := if s.lastC = SP then s.out else s.out ++ [SP] } := by
  have hsp : (if c = CR ∨ c = LF ∨ c = TAB then SP else c) = SP := by
    rcases hc with rfl | rfl | rfl | rfl <;> rfl
  unfold San.step
  dsimp only
  rw [if_neg (by simp [hq]), if_neg (white_ne_nul hc), hsp]
  by_cases hl : s.lastC = SP
  · rw [if_pos ⟨rfl, hl⟩, if_pos hl]
  · rw [if_neg (fun h => hl h.2), if_neg (by decide), if_neg hl]

/-- Outside quotes, anything else is copied. -/
theorem San.step_solid (hq : s.quoted = false) (hn : c ≠ NUL) (hw : ¬ White c) :
    s.step c = ⟨s.out ++ [c], c, c = DQ, if c = DQ then false else s.escaped⟩ := by
  have hc : (if c = CR ∨ c = LF ∨ c = TAB then SP else c) = c := by
    refine if_neg ?_
    rintro (h | h | h)
    · exact hw (Or.inl h)
    · exact hw (Or.inr (Or.inl h))
    · exact hw (Or.inr (Or.inr (Or.inl h)))
  have hsp : c ≠ SP := fun h => hw (Or.inr (Or.inr (Or.inr h)))
  unfold San.step
  dsimp only
  rw [if_neg (by simp [hq]), if_neg hn, hc, if_neg (fun h => hsp h.1)]
  by_cases hdq : c = DQ
  · simp [hdq]
  · simp [hdq, hq]

/-- Behind a backslash that escapes, a NUL is turned into a digit. -/
theorem San.step_escaped (hq : s.quoted = true) (hs : s.slash = true) (c : UInt8) :
    s.step c = ⟨s.out ++ [if c = NUL then 48 else c], c, true, true⟩ := by
  have hprev : s.lastC = BS ∧ (!s.escaped) = true := by
    simpa [San.slash] using hs
  unfold San.step
  dsimp only
  rw [if_pos hq, if_pos hprev, hq]

/-- Inside quotes, a NUL is dropped. -/
theorem San.step_item (hq : s.quoted = true) (hs : s.slash = false) (hc : c ≠ DQ) :
    s.step c = ⟨s.out ++ if c = NUL then [] else [c], c, true, false⟩ := by
  have hprev : ¬ (s.lastC = BS ∧ (!s.escaped) = true) := by
    simpa [San.slash] using hs
  unfold San.step
  dsimp only
  rw [if_pos hq, if_neg hprev, if_neg hc, hq]
  by_cases hn : c = NUL
  · rw [if_pos hn, if_pos hn, List.append_nil]
  · rw [if_neg hn, if_neg hn]

/-- The end of the quotes. -/
theorem San.step_close (hq : s.quoted = true) (hs : s.slash = false) :
    s.step DQ = ⟨s.out ++ [DQ], DQ, false, false⟩ := by
  have hprev : ¬ (s.lastC = BS ∧ (!s.escaped) = true) := by
    simpa [San.slash] using hs
  unfold San.step
  dsimp only
  rw [if_pos hq, if_neg hprev, if_pos rfl]

/-- Inside quotes, everything else is copied. -/
theorem San.step_copy (hq : s.quoted = true) (hn : c ≠ NUL) : (s.step c).out = s.out ++ [c] := by
  cases hs : s.slash with
  | true => rw [San.step_escaped hq hs, if_neg hn]
  | false =>
      by_cases hc : c = DQ
      · subst hc
        rw [San.step_close hq hs]
      · rw [San.step_item hq hs hc, if_neg hn]

/-- A round writes one byte at most, and no NUL. -/
theorem San.step_grows (s : San) (c : UInt8) :
    (s.step c).out = s.out ∨ ∃ d, d ≠ NUL ∧ (s.step c).out = s.out ++ [d] := by
  cases hq : s.quoted with
  | false =>
      by_cases hn : c = NUL
      · subst hn
        rw [San.step_nul hq]
        exact Or.inl rfl
      by_cases hw : White c
      · rw [San.step_space hq hw]
        dsimp only
        split_ifs
        · exact Or.inl rfl
        · exact Or.inr ⟨SP, by decide, rfl⟩
      · rw [San.step_solid hq hn hw]
        exact Or.inr ⟨c, hn, rfl⟩
  | true =>
      cases hs : s.slash with
      | true =>
          rw [San.step_escaped hq hs]
          refine Or.inr ⟨_, ?_, rfl⟩
          split_ifs with hn
          · decide
          · exact hn
      | false =>
          by_cases hc : c = DQ
          · subst hc
            rw [San.step_close hq hs]
            exact Or.inr ⟨DQ, by decide, rfl⟩
          · rw [San.step_item hq hs hc]
            dsimp only
            split_ifs with hn
            · exact Or.inl (List.append_nil _)
            · exact Or.inr ⟨c, hn, rfl⟩

end

/-- The loop of `sanitize_header_line` never writes ahead of where it reads. -/
theorem San.run_out_length (s : San) (line : List UInt8) :
    (s.run line).out.length ≤ s.out.length + line.length := by
  induction line generalizing s with
  | nil => simp [San.run]
  | cons c line ih =>
      have hstep : (s.step c).out.length ≤ s.out.length + 1 := by
        rcases s.step_grows c with h | ⟨d, -, h⟩ <;> rw [h]
        · exact Nat.le_succ _
        · rw [List.length_append, List.length_singleton]
      have := ih (s.step c)
      simp only [San.run, List.foldl_cons, List.length_cons] at this ⊢
      omega

/-! ### Folded lines -/

/-- `SP` or `TAB`. -/
def Blank (c : UInt8) : Prop := c = SP ∨ c = TAB

/-- A line break. -/
inductive IsBreak : List UInt8 → Prop where
  | lf : IsBreak [LF]
  | crlf : IsBreak [CR, LF]
  | cr : IsBreak [CR]

/-- What may stand for a space inside a line: a run of blanks with line breaks inserted, each
directly before a blank. -/
inductive Gap : List UInt8 → Prop where
  | blank {b : UInt8} (hb : Blank b) : Gap [b]
  | folded {br : List UInt8} {b : UInt8} (hbr : IsBreak br) (hb : Blank b) : Gap (br ++ [b])
  | append {g g' : List UInt8} (h : Gap g) (h' : Gap g') : Gap (g ++ g')

/-- `raw` is the text with a gap for every space. -/
inductive Folded : List UInt8 → List UInt8 → Prop where
  | nil : Folded [] []
  | char {c : UInt8} {text raw : List UInt8} (hc : c ≠ SP) (h : Folded text raw) :
      Folded (c :: text) (c :: raw)
  | space {g text raw : List UInt8} (hg : Gap g) (h : Folded text raw) :
      Folded (SP :: text) (g ++ raw)

/-- A text need not be folded. -/
theorem Folded.refl (text : List UInt8) : Folded text text := by
  induction text with
  | nil => exact .nil
  | cons c text ih =>
      by_cases hc : c = SP
      · subst hc
        exact .space (.blank (Or.inl rfl)) ih
      · exact .char hc ih

theorem Blank.white {c : UInt8} (h : Blank c) : White c := by
  rcases h with rfl | rfl <;> decide

theorem IsBreak.white {br : List UInt8} (h : IsBreak br) : ∀ c ∈ br, White c := by
  cases h <;> simp [White]

theorem IsBreak.ne_nil {br : List UInt8} (h : IsBreak br) : br ≠ [] := by
  cases h <;> simp

theorem Gap.white {g : List UInt8} (h : Gap g) : ∀ c ∈ g, White c := by
  induction h with
  | blank hb => simpa using hb.white
  | folded hbr hb => simpa [or_imp, forall_and] using ⟨hbr.white, hb.white⟩
  | append _ _ ih ih' => simpa [or_imp, forall_and] using ⟨ih, ih'⟩

theorem Gap.ne_nil {g : List UInt8} (h : Gap g) : g ≠ [] := by
  induction h with
  | blank => simp
  | folded => simp
  | append _ _ ih => simp [ih]

/-! ### The loop outside quotes -/

/-- The loop outside a quoted string. -/
def San.outside (out : List UInt8) (l : UInt8) : San := ⟨out, l, false, false⟩

theorem San.step_plain {c : UInt8} (hc : Plain c) (hsp : c ≠ SP) (out : List UInt8) (l : UInt8) :
    (San.outside out l).step c = San.outside (out ++ [c]) c := by
  obtain ⟨h₀, h₁, h₂, h₃, h₄⟩ := hc
  have hw : ¬ White c := by
    rintro (h | h | h | h)
    · exact h₁ h
    · exact h₂ h
    · exact h₃ h
    · exact hsp h
  rw [San.step_solid rfl h₀ hw]
  simp [San.outside, h₄]

theorem San.step_white {c : UInt8} (hc : White c) (out : List UInt8) (l : UInt8) :
    (San.outside out l).step c = San.outside (if l = SP then out else out ++ [SP]) SP :=
  San.step_space rfl hc

theorem San.run_white {ws : List UInt8} (h : ∀ c ∈ ws, White c) (out : List UInt8) :
    (San.outside out SP).run ws = San.outside out SP := by
  induction ws with
  | nil => rfl
  | cons c ws ih =>
      rw [San.run, List.foldl_cons, San.step_white (h c List.mem_cons_self), if_pos rfl]
      exact ih fun d hd => h d (List.mem_cons_of_mem c hd)

/-- White-space after something else is one space. -/
theorem San.run_gap {ws : List UInt8} (h : ∀ c ∈ ws, White c) (hne : ws ≠ []) {l : UInt8}
    (hl : l ≠ SP) (out : List UInt8) :
    (San.outside out l).run ws = San.outside (out ++ [SP]) SP := by
  obtain ⟨c, ws, rfl⟩ := List.exists_cons_of_ne_nil hne
  rw [San.run, List.foldl_cons, San.step_white (h c List.mem_cons_self), if_neg hl]
  exact San.run_white (fun d hd => h d (List.mem_cons_of_mem c hd)) _

/-- A folded text comes out unfolded.  `l` is the byte before it. -/
theorem San.run_folded {text raw : List UInt8} (h : Folded text raw) (hp : ∀ c ∈ text, Plain c)
    (hs : ¬ [SP, SP] <:+: text) {l : UInt8} (hl : l = SP → text.head? ≠ some SP)
    (out : List UInt8) :
    (San.outside out l).run raw = San.outside (out ++ text) (text.getLastD l) := by
  induction h generalizing out l with
  | nil => simp [San.run]
  | @char c text raw hc h ih =>
      have hp' : ∀ d ∈ text, Plain d := fun d hd => hp d (List.mem_cons_of_mem c hd)
      have hs' : ¬ [SP, SP] <:+: text := fun hi => hs (hi.trans (List.suffix_cons c text).isInfix)
      rw [San.run, List.foldl_cons, San.step_plain (hp c List.mem_cons_self) hc]
      have := ih hp' hs' (l := c) (fun e => (hc e).elim) (out ++ [c])
      rw [San.run] at this
      rw [this, List.append_assoc, List.singleton_append, List.getLastD_cons]
  | @space g text raw hg h ih =>
      have hl' : l ≠ SP := fun e => hl e rfl
      have hp' : ∀ d ∈ text, Plain d := fun d hd => hp d (List.mem_cons_of_mem SP hd)
      have hs' : ¬ [SP, SP] <:+: text := fun hi => hs (hi.trans (List.suffix_cons SP text).isInfix)
      have hhead : text.head? ≠ some SP := by
        rintro hh
        obtain ⟨t, rfl⟩ := List.head?_eq_some_iff.mp hh
        exact hs ⟨[], t, rfl⟩
      rw [San.run, List.foldl_append]
      have hgap := San.run_gap hg.white hg.ne_nil hl' out
      rw [San.run] at hgap
      have := ih hp' hs' (l := SP) (fun _ => hhead) (out ++ [SP])
      rw [San.run] at this
      rw [hgap, this, List.append_assoc, List.singleton_append, List.getLastD_cons]

theorem trimEnd_eq_self {text : List UInt8} (hlast : text.getLast? ≠ some SP) :
    trimEnd text = text := by
  rw [trimEnd, List.rdropWhile_eq_self_iff]
  intro hne
  simpa [List.getLast?_eq_some_getLast hne] using hlast

theorem trimEnd_append_space {text : List UInt8} (hlast : text.getLast? ≠ some SP) :
    trimEnd (text ++ [SP]) = text := by
  rw [trimEnd, List.rdropWhile_concat_pos _ _ _ (by simp)]
  exact trimEnd_eq_self hlast

/-- **A folded line and its line break are the text again.** -/
theorem sanitize_folded {text raw br t : List UInt8} (h : Folded text raw) (hbr : IsBreak br)
    (hne : text ≠ []) (hp : ∀ c ∈ text, Plain c) (hs : ¬ [SP, SP] <:+: text)
    (hhead : text.head? ≠ some SP) (hlast : text.getLast? ≠ some SP) :
    cstr (sanitizeHeaderLine (raw ++ br ++ t) (raw ++ br).length).1 = text ∧
      (sanitizeHeaderLine (raw ++ br ++ t) (raw ++ br).length).2 = text.length := by
  have hl : text.getLastD 0 ≠ SP := by
    rw [List.getLast?_eq_some_getLast hne] at hlast
    rw [List.getLastD_eq_getLast?, List.getLast?_eq_some_getLast hne]
    simpa using hlast
  have hout : (San.init.run ((raw ++ br ++ t).take (raw ++ br).length)).out = text ++ [SP] := by
    rw [List.take_left, San.run, List.foldl_append]
    have ht := San.run_folded h hp hs (l := 0) (fun _ => hhead) []
    have hb := San.run_gap hbr.white hbr.ne_nil hl text
    simp only [San.run, List.nil_append] at ht hb
    rw [show San.init = San.outside [] 0 from rfl, ht, hb]
    rfl
  simp only [sanitizeHeaderLine, hout, trimEnd_append_space hlast]
  refine ⟨?_, trivial⟩
  have hnul : NUL ∉ text := fun hm => (hp _ hm).1 rfl
  have hrep : (text ++ [SP]).length + 1 - text.length = 2 := by simp; omega
  rw [hrep, List.append_assoc]
  exact cstr_append hnul

end OpenWfd.Rtsp
