import OpenWfd.Decoder.Squeeze

/-!
# Decoder — Normal

The normal form of a header line, and when `sanitize_header_line` reaches it.

The loop squeezes white-space by the byte it read before, which a dropped NUL is too: white-space, a
NUL and white-space again become two spaces outside quotes.  At the end of the line both are
trimmed, otherwise they stay, and sanitising the result once more removes one of them.

**The normal form** (`sanitize_normal`).  It is reached exactly by the lines that are not `Broken`.
`San.Follows` ties what was written to what was read: both end in the same place, and two adjacent
spaces were written exactly if white-space parted by a NUL was read.
-/

namespace OpenWfd.Rtsp

/-! ### The normal form -/

/-- Two adjacent spaces outside quotes. -/
def Doubled : List UInt8 → Prop := Somewhere fun pre c => Ends (· = SP) pre ∧ c = SP

/-- A line break or a tab outside quotes. -/
def Unfolded : List UInt8 → Prop := Somewhere fun pre c => Outside pre ∧ (c = CR ∨ c = LF ∨ c = TAB)

/-- `sanitize_header_line` makes a string of the length it returns, without line breaks, tabs,
double spaces or a space at the end outside quotes, and leaves that string as it is. -/
structure Normal (line : List UInt8) : Prop where
  length : (sanitized line).2 = (sanitized line).1.length
  unfolded : ¬ Unfolded (sanitized line).1
  single : ¬ Doubled (sanitized line).1
  trimmed : ¬ Ends (· = SP) (sanitized line).1
  again : sanitized (sanitized line).1 = sanitized line

/-! ### White-space parted by NULs -/

/-- The line ends in white-space outside quotes, and `n` NULs behind it. -/
def Spaced (n : Nat) (line : List UInt8) : Prop :=
  ∃ pre, line = pre ++ List.replicate n NUL ∧ Ends White pre

/-- White-space parted by NULs, outside quotes. -/
def Parted : List UInt8 → Prop := Somewhere fun pre c => (∃ n, Spaced (n + 1) pre) ∧ White c

/-- White-space parted by NULs, outside quotes, and later something else than white-space and
NULs. -/
def Broken : List UInt8 → Prop := Somewhere fun pre c => Parted pre ∧ c ≠ NUL ∧ ¬ White c

section

variable {line : List UInt8} {c : UInt8}

theorem spaced_zero : Spaced 0 line ↔ Ends White line := by
  constructor
  · rintro ⟨pre, heq, h⟩
    rwa [heq, List.replicate_zero, List.append_nil]
  · intro h
    exact ⟨line, (List.append_nil line).symm, h⟩

theorem spaced_zero_concat : Spaced 0 (line ++ [c]) ↔ Outside line ∧ White c := by
  rw [spaced_zero, ends_concat]

theorem spaced_succ_concat {n : Nat} : Spaced (n + 1) (line ++ [c]) ↔ c = NUL ∧ Spaced n line := by
  constructor
  · rintro ⟨pre, heq, h⟩
    rw [List.replicate_succ', ← List.append_assoc] at heq
    obtain ⟨rfl, hc⟩ := List.append_inj' heq rfl
    exact ⟨List.head_eq_of_cons_eq hc, pre, rfl, h⟩
  · rintro ⟨rfl, pre, rfl, h⟩
    exact ⟨pre, by rw [List.replicate_succ', List.append_assoc], h⟩

theorem exists_spaced_concat :
    (∃ n, Spaced n (line ++ [c])) ↔ (Outside line ∧ White c) ∨ (c = NUL ∧ ∃ n, Spaced n line) := by
  constructor
  · rintro ⟨_ | n, h⟩
    · exact Or.inl (spaced_zero_concat.mp h)
    · obtain ⟨hc, h⟩ := spaced_succ_concat.mp h
      exact Or.inr ⟨hc, n, h⟩
  · rintro (h | ⟨hc, n, h⟩)
    · exact ⟨0, spaced_zero_concat.mpr h⟩
    · exact ⟨n + 1, spaced_succ_concat.mpr ⟨hc, h⟩⟩

theorem spaced_nil {n : Nat} : ¬ Spaced n [] := by
  rintro ⟨pre, heq, h⟩
  obtain ⟨rfl, -⟩ := List.append_eq_nil_iff.mp heq.symm
  exact ends_nil h

theorem Spaced.not_succ {n : Nat} (h : Spaced 0 line) : ¬ Spaced (n + 1) line := by
  obtain ⟨pre, c, rfl, -, hc⟩ := spaced_zero.mp h
  intro h'
  exact white_ne_nul hc (spaced_succ_concat.mp h').1

theorem Spaced.outside {n : Nat} (h : Spaced n line) : Outside line := by
  obtain ⟨pre, rfl, hpre⟩ := h
  induction n with
  | zero =>
      rw [List.replicate_zero, List.append_nil]
      exact hpre.outside not_white_quote
  | succ n ih =>
      rw [List.replicate_succ', ← List.append_assoc]
      exact ih.text (by decide)

end

/-! ### What was read and what was written -/

/-- The loop over what was `read`. -/
structure San.Follows (s : San) (read : List UInt8) : Prop where
  place_eq : place s.out = place read
  quoted : s.quoted = true ↔ ¬ Outside read
  slash : s.quoted = true → (s.slash = true ↔ place read = .escaped)
  last : Outside read → (s.lastC = SP ↔ Spaced 0 read)
  gap : Ends (· = SP) s.out ↔ ∃ n, Spaced n read
  unfolded : ¬ Unfolded s.out
  doubled : Doubled s.out ↔ Parted read
  broken : Somewhere (fun pre c => Doubled pre ∧ c ≠ SP) s.out ↔ Broken read

theorem follows_init : San.init.Follows [] where
  place_eq := rfl
  quoted := iff_of_false Bool.false_ne_true (not_not.mpr .nil)
  slash := fun h => absurd h Bool.false_ne_true
  last := fun _ => iff_of_false (by decide) spaced_nil
  gap := iff_of_false ends_nil fun ⟨_, h⟩ => spaced_nil h
  unfolded := somewhere_nil
  doubled := iff_of_false somewhere_nil somewhere_nil
  broken := iff_of_false somewhere_nil somewhere_nil

section

variable {s : San} {read : List UInt8} {c : UInt8}

/-- Outside quotes, a NUL. -/
theorem San.Follows.nul (t : s.Follows read) (ho : Outside read) :
    (s.step NUL).Follows (read ++ [NUL]) := by
  have hq : s.quoted = false := Bool.eq_false_iff.mpr fun h => t.quoted.mp h ho
  have hw : ¬ White NUL := by decide
  rw [San.step_nul hq]
  exact {
    place_eq := t.place_eq.trans (ho.place_eq.trans (ho.text (by decide)).place_eq.symm)
    quoted := iff_of_false (Bool.eq_false_iff.mp hq) (not_not.mpr (ho.text (by decide)))
    slash := fun h => absurd h (Bool.eq_false_iff.mp hq)
    last := fun _ => iff_of_false (show ¬ NUL = SP by decide) fun h =>
      hw (spaced_zero_concat.mp h).2
    gap := by
      rw [exists_spaced_concat, t.gap]
      exact ⟨fun h => Or.inr ⟨rfl, h⟩, fun h => h.elim (fun h => absurd h.2 hw) And.right⟩
    unfolded := t.unfolded
    doubled := by
      rw [Parted, somewhere_concat]
      exact t.doubled.trans ⟨Or.inl, fun h => h.elim id fun h => absurd h.2 hw⟩
    broken := by
      rw [Broken, somewhere_concat]
      exact t.broken.trans ⟨Or.inl, fun h => h.elim id fun h => absurd rfl h.2.1⟩ }

/-- Outside quotes, white-space. -/
theorem San.Follows.white (t : s.Follows read) (ho : Outside read) (hc : White c) :
    (s.step c).Follows (read ++ [c]) := by
  have hq : s.quoted = false := Bool.eq_false_iff.mpr fun h => t.quoted.mp h ho
  have hout : Outside s.out := (outside_iff _).mpr (t.place_eq.trans ho.place_eq)
  have ho' : Outside (read ++ [c]) := ho.text fun e => not_white_quote (e ▸ hc)
  have hmore : Parted (read ++ [c]) ↔ Parted read ∨ ∃ n, Spaced (n + 1) read := by
    rw [Parted, somewhere_concat]
    exact or_congr_right (and_iff_left hc)
  have hsame : Broken (read ++ [c]) ↔ Broken read := by
    rw [Broken, somewhere_concat]
    exact or_iff_left fun h => h.2.2 hc
  rw [San.step_space hq hc]
  by_cases hl : s.lastC = SP
  · -- more of a run of white-space: its space is written already
    have hlast : Spaced 0 read := (t.last ho).mp hl
    have hnot : ¬ ∃ n, Spaced (n + 1) read := fun ⟨_, h⟩ => hlast.not_succ h
    rw [if_pos hl]
    exact {
      place_eq := t.place_eq.trans (ho.place_eq.trans ho'.place_eq.symm)
      quoted := iff_of_false (Bool.eq_false_iff.mp hq) (not_not.mpr ho')
      slash := fun h => absurd h (Bool.eq_false_iff.mp hq)
      last := fun _ => iff_of_true rfl (spaced_zero_concat.mpr ⟨ho, hc⟩)
      gap := iff_of_true (t.gap.mpr ⟨0, hlast⟩) ⟨0, spaced_zero_concat.mpr ⟨ho, hc⟩⟩
      unfolded := t.unfolded
      doubled := by rw [hmore, or_iff_left hnot]; exact t.doubled
      broken := t.broken.trans hsame.symm }
  · -- the byte before is none, but it may be a NUL behind white-space: a second space is written
    have hspaced : Ends (· = SP) s.out ↔ ∃ n, Spaced (n + 1) read := by
      rw [t.gap]
      constructor
      · rintro ⟨_ | n, h⟩
        · exact absurd ((t.last ho).mpr h) hl
        · exact ⟨n, h⟩
      · rintro ⟨n, h⟩
        exact ⟨n + 1, h⟩
    rw [if_neg hl]
    exact {
      place_eq := (hout.text (by decide)).place_eq.trans ho'.place_eq.symm
      quoted := iff_of_false (Bool.eq_false_iff.mp hq) (not_not.mpr ho')
      slash := fun h => absurd h (Bool.eq_false_iff.mp hq)
      last := fun _ => iff_of_true rfl (spaced_zero_concat.mpr ⟨ho, hc⟩)
      gap := iff_of_true (ends_concat.mpr ⟨hout, rfl⟩) ⟨0, spaced_zero_concat.mpr ⟨ho, hc⟩⟩
      unfolded := by
        rw [Unfolded, somewhere_concat, not_or]
        exact ⟨t.unfolded, fun h => absurd h.2 (by decide)⟩
      doubled := by
        rw [hmore, Doubled, somewhere_concat, and_iff_left rfl, hspaced]
        exact or_congr_left t.doubled
      broken := by
        rw [hsame, somewhere_concat]
        exact (or_iff_left fun h => h.2 rfl).trans t.broken }

/-- Outside quotes, anything else. -/
theorem San.Follows.solid (t : s.Follows read) (ho : Outside read) (hn : c ≠ NUL) (hw : ¬ White c) :
    (s.step c).Follows (read ++ [c]) := by
  have hq : s.quoted = false := Bool.eq_false_iff.mpr fun h => t.quoted.mp h ho
  have hsp : c ≠ SP := fun h => hw (Or.inr (Or.inr (Or.inr h)))
  have hin : ¬ Outside (read ++ [c]) ↔ c = DQ := by
    rw [outside_iff, place_concat, ho.place_eq, Place.step]
    split_ifs with hdq <;> simp [hdq]
  rw [San.step_solid hq hn hw]
  exact {
    place_eq := by rw [place_concat, t.place_eq, place_concat]
    quoted := by rw [hin]; exact decide_eq_true_iff
    slash := fun h => by
      obtain rfl := of_decide_eq_true h
      rw [place_concat, ho.place_eq]
      exact iff_of_false (by simp [San.slash, show ¬ DQ = BS by decide]) (by decide)
    last := fun _ => iff_of_false hsp fun h => hw (spaced_zero_concat.mp h).2
    gap := by
      rw [ends_concat, exists_spaced_concat]
      exact iff_of_false (fun h => hsp h.2) fun h => h.elim (fun h => hw h.2) fun h => hn h.1
    unfolded := by
      rw [Unfolded, somewhere_concat, not_or]
      refine ⟨t.unfolded, fun h => hw ?_⟩
      rcases h.2 with h | h | h
      · exact Or.inl h
      · exact Or.inr (Or.inl h)
      · exact Or.inr (Or.inr (Or.inl h))
    doubled := by
      rw [Doubled, Parted, somewhere_concat, somewhere_concat]
      exact (or_iff_left fun h => hsp h.2).trans
        (t.doubled.trans (or_iff_left fun h => hw h.2).symm)
    broken := by
      rw [Broken, somewhere_concat, somewhere_concat, and_iff_left hsp, t.doubled,
        and_iff_left ⟨hn, hw⟩]
      exact or_congr_left t.broken }

theorem Doubled.behind {text : List UInt8} (h : Doubled text) (hin : ¬ Outside text) :
    Somewhere (fun pre c => Doubled pre ∧ c ≠ SP) text := by
  have hout : ∀ pre c, Ends (· = SP) pre ∧ c = SP → Outside (pre ++ [c]) := by
    rintro pre c ⟨h, rfl⟩
    exact (h.outside (by decide)).text (by decide)
  obtain ⟨pre, c, rest, heq, hpre, rfl⟩ := Somewhere.behind h hout hin
  exact ⟨pre, DQ, rest, heq, hpre, by decide⟩

theorem Parted.behind (h : Parted read) (hin : ¬ Outside read) : Broken read := by
  have hout : ∀ pre c, (∃ n, Spaced (n + 1) pre) ∧ White c → Outside (pre ++ [c]) := by
    rintro pre c ⟨⟨n, h⟩, hc⟩
    exact h.outside.text fun e => not_white_quote (e ▸ hc)
  obtain ⟨pre, c, rest, heq, hpre, rfl⟩ := Somewhere.behind h hout hin
  exact ⟨pre, DQ, rest, heq, hpre, by decide, by decide⟩

/-- Inside quotes. -/
theorem San.Follows.inside (t : s.Follows read) (hin : ¬ Outside read) :
    (s.step c).Follows (read ++ [c]) := by
  have hq : s.quoted = true := t.quoted.mpr hin
  have hin' : ¬ Outside s.out := by rwa [outside_iff, t.place_eq, ← outside_iff]
  obtain ⟨hlast, hesc, hquo⟩ := San.step_inside hq c
  have hread : read ++ [c] = read ∨ ∃ d, read ++ [c] = read ++ [d] := Or.inr ⟨c, rfl⟩
  have hgrown : (s.step c).out = s.out ∨ ∃ d, (s.step c).out = s.out ++ [d] :=
    (s.step_grows c).imp_right fun ⟨d, _, h⟩ => ⟨d, h⟩
  have hplace : place read = if s.slash then .escaped else .inside := by
    cases hp : place read with
    | outside => exact absurd ((outside_iff read).mpr hp) hin
    | inside =>
        have hs : ¬ s.slash = true :=
          fun h => absurd (hp.symm.trans ((t.slash hq).mp h)) (by decide)
        rw [if_neg hs]
    | escaped => rw [if_pos ((t.slash hq).mpr hp)]
  have hnext : place (read ++ [c]) =
      if s.slash then .inside else if c = DQ then .outside else if c = BS then .escaped
        else .inside := by
    rw [place_concat, hplace]
    cases s.slash <;> rfl
  exact {
    place_eq := by
      by_cases hn : c = NUL
      · subst hn
        cases hs : s.slash with
        | true =>
            rw [San.step_escaped hq hs, place_concat, place_concat, t.place_eq, (t.slash hq).mp hs]
            rfl
        | false =>
            rw [San.step_item hq hs (show NUL ≠ DQ by decide), if_pos rfl,
              List.append_nil, t.place_eq, place_concat, hplace, hs]
            rfl
      · rw [San.step_copy hq hn, place_concat, place_concat, t.place_eq]
    quoted := by
      rw [hquo, outside_iff, hnext]
      cases s.slash with
      | true => simp
      | false =>
          by_cases hc : c = DQ
          · simp [hc]
          · by_cases hb : c = BS <;> simp [hc, hb]
    slash := fun _ => by
      rw [San.slash, hlast, hesc, hnext]
      cases s.slash with
      | true => simp
      | false =>
          by_cases hc : c = DQ
          · simp [hc, show ¬ DQ = BS by decide]
          · by_cases hb : c = BS <;> simp [hc, hb, show ¬ BS = DQ by decide]
    last := fun ho => by
      obtain rfl : c = DQ := by
        by_contra hc
        exact outside_concat hin hc ho
      rw [hlast]
      exact iff_of_false (by decide) fun h => not_white_quote (spaced_zero_concat.mp h).2
    gap := by
      rw [exists_spaced_concat]
      refine iff_of_false ?_ ?_
      · rcases hgrown with h | ⟨d, h⟩ <;> rw [h]
        · exact fun h => hin' (h.outside (by decide))
        · exact fun h => hin' (ends_concat.mp h).1
      · rintro (h | ⟨-, n, h⟩)
        · exact hin h.1
        · exact hin h.outside
    unfolded := by
      rw [Unfolded, somewhere_grown hgrown fun d h => absurd h.1 hin']
      exact t.unfolded
    doubled := by
      rw [Doubled, somewhere_grown hgrown fun d h => absurd (h.1.outside (by decide)) hin',
        Parted, somewhere_grown hread fun d h => absurd h.1.choose_spec.outside hin]
      exact t.doubled
    broken := by
      -- whatever was doubled or parted has the opening quote behind it already
      rw [somewhere_grown hgrown fun d h => h.1.behind hin',
        Broken, somewhere_grown hread fun d h => h.1.behind hin]
      exact t.broken }

/-- **One byte.** -/
theorem San.Follows.step (t : s.Follows read) (c : UInt8) : (s.step c).Follows (read ++ [c]) := by
  by_cases ho : Outside read
  · by_cases hn : c = NUL
    · subst hn
      exact t.nul ho
    by_cases hw : White c
    · exact t.white ho hw
    · exact t.solid ho hn hw
  · exact t.inside ho

/-- **The whole line.** -/
theorem follows_run (line : List UInt8) : (San.init.run line).Follows line := by
  induction line using List.reverseRecOn with
  | nil => exact follows_init
  | append_singleton line c ih =>
      rw [San.run_concat]
      exact ih.step c

end

/-! ### The end of the line -/

theorem trimEnd_concat (text : List UInt8) (c : UInt8) :
    trimEnd (text ++ [c]) = if c = SP then trimEnd text else text ++ [c] := by
  simp only [trimEnd, List.rdropWhile_concat, decide_eq_true_eq]

theorem trimEnd_ends (text : List UInt8) : ¬ Ends (· = SP) (trimEnd text) := by
  induction text using List.reverseRecOn with
  | nil => exact ends_nil
  | append_singleton text c ih =>
      rw [trimEnd_concat]
      split_ifs with hc
      · exact ih
      · exact fun h => hc (ends_concat.mp h).2

theorem Somewhere.of_trimEnd {P : List UInt8 → UInt8 → Prop} {text : List UInt8}
    (h : Somewhere P (trimEnd text)) : Somewhere P text := by
  obtain ⟨rest, hrest⟩ := List.rdropWhile_prefix (· = SP) text
  have happ := h.append rest
  rwa [trimEnd, hrest] at happ

/-- Of the double spaces those stay that have something behind them. -/
theorem doubled_trimEnd (text : List UInt8) :
    Doubled (trimEnd text) ↔ Somewhere (fun pre c => Doubled pre ∧ c ≠ SP) text := by
  induction text using List.reverseRecOn with
  | nil => exact iff_of_false somewhere_nil somewhere_nil
  | append_singleton text c ih =>
      rw [somewhere_concat, ← ih, trimEnd_concat]
      split_ifs with hc
      · exact (or_iff_left fun h => h.2 hc).symm
      · have hkept : Doubled (text ++ [c]) ↔ Doubled text := by
          rw [Doubled, somewhere_concat]
          exact or_iff_left fun h => hc h.2
        rw [hkept, and_iff_left hc]
        exact (or_iff_right_of_imp Somewhere.of_trimEnd).symm

/-- White-space that is neither a line break nor a tab. -/
theorem White.eq_space {c : UInt8} (hw : White c) (hc : ¬ (c = CR ∨ c = LF ∨ c = TAB)) :
    c = SP := by
  rcases hw with h | h | h | h
  · exact absurd (Or.inl h) hc
  · exact absurd (Or.inr (Or.inl h)) hc
  · exact absurd (Or.inr (Or.inr h)) hc
  · exact h

theorem Ends.space {text : List UInt8} (h : Ends White text) (hu : ¬ Unfolded text) :
    Ends (· = SP) text := by
  obtain ⟨pre, c, rfl, ho, hw⟩ := h
  rw [Unfolded, somewhere_concat, not_or] at hu
  exact ends_concat.mpr ⟨ho, hw.eq_space fun hc => hu.2 ⟨ho, hc⟩⟩

/-- The loop copies what is in normal form already. -/
theorem run_normal {text : List UInt8} (hn : NUL ∉ text) (hu : ¬ Unfolded text)
    (hd : ¬ Doubled text) : (San.init.run text).out = text := by
  induction text using List.reverseRecOn with
  | nil => rfl
  | append_singleton text c ih =>
      rw [Unfolded, somewhere_concat, not_or] at hu
      rw [Doubled, somewhere_concat, not_or] at hd
      rw [List.mem_append, List.mem_singleton, not_or] at hn
      have hout := ih hn.1 hu.1 hd.1
      have t := follows_run text
      rw [San.run_concat]
      by_cases ho : Outside text
      · have hq : (San.init.run text).quoted = false :=
          Bool.eq_false_iff.mpr fun h => t.quoted.mp h ho
        by_cases hw : White c
        · -- a space, and the byte before was none, or there would be two
          obtain rfl := hw.eq_space fun hc => hu.2 ⟨ho, hc⟩
          have hlast : (San.init.run text).lastC ≠ SP := by
            intro h
            exact hd.2 ⟨(spaced_zero.mp ((t.last ho).mp h)).space hu.1, rfl⟩
          rw [San.step_space hq hw, if_neg hlast, hout]
        · rw [San.step_solid hq (Ne.symm hn.2) hw, hout]
      · rw [San.step_copy (t.quoted.mpr ho) (Ne.symm hn.2), hout]

/-- **The normal form** is reached by exactly the lines that are not broken. -/
theorem sanitize_normal (line : List UInt8) : Normal line ↔ ¬ Broken line := by
  have t := follows_run line
  have htext : (sanitized line).1 = trimEnd (San.init.run line).out := by rw [sanitized_eq]
  have hd : Doubled (sanitized line).1 ↔ Broken line := by
    rw [htext, doubled_trimEnd, t.broken]
  constructor
  · intro h hbroken
    exact h.single (hd.mpr hbroken)
  · intro hbroken
    have hlen : (sanitized line).2 = (sanitized line).1.length := by rw [sanitized_eq]
    have hunfolded : ¬ Unfolded (sanitized line).1 := by
      rw [htext]
      exact fun h => t.unfolded h.of_trimEnd
    have hsingle : ¬ Doubled (sanitized line).1 := fun h => hbroken (hd.mp h)
    have htrimmed : trimEnd (sanitized line).1 = (sanitized line).1 := by
      rw [htext]
      exact List.rdropWhile_idempotent _ _
    have hnul : NUL ∉ (sanitized line).1 := nul_not_mem_cstr _
    have hagain : sanitized (sanitized line).1 = sanitized line := by
      rw [sanitized_eq (sanitized line).1, run_normal hnul hunfolded hsingle, htrimmed, ← hlen]
    refine ⟨hlen, hunfolded, hsingle, ?_, hagain⟩
    rw [htext]
    exact trimEnd_ends _

/-- Two spaces with a NUL between them: both are in the result, and sanitising that removes one. -/
theorem sanitize_twice :
    sanitized [97, SP, NUL, SP, 98] = (str "a  b", 4) ∧ sanitized (str "a  b") = (str "a b", 3) ∧
      ¬ Normal [97, SP, NUL, SP, 98] := by
  have hfirst : sanitized [97, SP, NUL, SP, 98] = (str "a  b", 4) := by decide
  have hsecond : sanitized (str "a  b") = (str "a b", 3) := by decide
  refine ⟨hfirst, hsecond, ?_⟩
  intro h
  have hagain := h.again
  rw [hfirst, hsecond] at hagain
  exact absurd hagain (by decide)

end OpenWfd.Rtsp
