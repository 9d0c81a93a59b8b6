import OpenWfd.Tokenizer.Position

/-!
# Tokenizer — Tokens

What `owfd_rtsp_tokenize` leaves behind: as many strings as it returns, and among them one for each
closed quoted string of the line, with its escapes resolved (`tokenize_strings`).

As long as no `\0` escape meets an empty token, the block holds the tokens ended so far and the one
under way (`Good`); the escape then takes a character of the token away, so that a closed string
with such an escape is too short.  An escape that meets an empty token spoils the block for good.
-/

namespace OpenWfd.Rtsp

/-! ### The content of a quoted string -/

/-- What a character of a quoted string stands for. -/
def Item.value : Item → List UInt8
  | .plain c _ _ => [c]
  | .escape c    => if c = '0'.toUInt8 then [] else [unescape c]

/-- A quoted string with its escapes resolved; `\0` stands for nothing. -/
def content (items : List Item) : List UInt8 := items.flatMap Item.value

theorem length_content (items : List Item) : (content items).length = others items := by
  induction items with
  | nil => rfl
  | cons it items ih =>
      have hcons : content (it :: items) = it.value ++ content items := rfl
      rw [hcons, List.length_append, ih, others, others, List.countP_cons, Nat.add_comm]
      cases it with
      | plain c hq hb => rfl
      | escape c =>
          by_cases hz : c = '0'.toUInt8
          · subst hz
            rfl
          · simp [Item.value, Item.isZero, hz]

theorem zeros_zero (items : List Item) :
    zeros (items ++ [.escape '0'.toUInt8]) = zeros items + 1 :=
  List.countP_append

theorem others_zero (items : List Item) :
    others (items ++ [.escape '0'.toUInt8]) = others items :=
  List.countP_append

theorem ite_ne_nul {p : Prop} [Decidable p] {a b : UInt8} (ha : a ≠ NUL) (hb : b ≠ NUL) :
    (if p then a else b) ≠ NUL := by
  split
  · exact ha
  · exact hb

theorem unescape_ne_nul {c : UInt8} (hc : c ≠ NUL) : unescape c ≠ NUL := by
  unfold unescape
  -- one letter after the other, and last the character itself
  repeat
    refine ite_ne_nul (by decide) ?_
  exact hc

/-! ### The block -/

namespace Tokenizer

/-- The block holds the tokens `toks`, and `cur` of the one under way. -/
structure Good (x : Tokenizer × Int) (toks : List (List UInt8)) (cur : List UInt8) : Prop where
  holds : x.1.Holds toks cur
  start : x.2 = (strings toks).length
  fresh : x.1.lastC = 0 → cur = []

variable {x : Tokenizer × Int} {s : Tokenizer} {c : UInt8} {toks : List (List UInt8)}
  {cur : List UInt8}

theorem good_init : Good (init, 0) [] [] := by
  refine ⟨⟨le_rfl, rfl, ?_, rfl, ?_, List.not_mem_nil⟩, rfl, fun _ => rfl⟩
  · intro i hi
    have hmem : Function.update (fun _ => none) 0 (some NUL) i = none := by
      rw [Function.update_of_ne (Int.ne_of_lt hi)]
    exact hmem
  · exact fun tok ht => absurd ht List.not_mem_nil

/-- A step that ends no token. -/
theorem Good.same (h : Good x toks cur) {v : List UInt8} (hv : (x.1.step c).Holds toks v)
    (hl : (x.1.step c).lastC = 0 → v = []) : Good (watch x c) toks v := by
  have hnum : (x.1.step c).num = x.1.num := hv.num.trans h.holds.num.symm
  rw [watch_same hnum]
  exact ⟨hv, h.start, hl⟩

/-- A step that ends tokens, and none is under way after it. -/
theorem Good.ended (h : Good x toks cur) {ts : List (List UInt8)} (hne : ts ≠ [])
    (hv : (x.1.step c).Holds (toks ++ ts) []) : Good (watch x c) (toks ++ ts) [] := by
  have hnum : (x.1.step c).num ≠ x.1.num := by
    have hpos := List.length_pos_iff.mpr hne
    rw [hv.num, h.holds.num, List.length_append]
    omega
  have hdst := hv.dst_eq
  rw [watch_ended hnum]
  exact ⟨hv, by simpa using hdst, fun _ => rfl⟩

/-- The token under way ends, if there is one. -/
theorem Good.finishIf (h : Good x toks cur) :
    (x.1.lastC = 0 ∧ cur = [] ∧ x.1.finishIf x.1.lastC = x.1) ∨
      (x.1.lastC ≠ 0 ∧ (x.1.finishIf x.1.lastC).Holds (toks ++ [cur]) []) := by
  rcases finishIf_cases x.1 with ⟨hl, hf⟩ | ⟨hl, hf⟩
  · exact Or.inl ⟨hl, h.fresh hl, hf⟩
  · rw [hf]
    exact Or.inr ⟨hl, h.holds.finish⟩

section

variable (hq : x.1.quoted = true)
include hq

theorem Good.plain (h : Good x toks cur) (he : x.1.escaped = false) (h₁ : c ≠ DQ) (h₂ : c ≠ BS)
    (hn : c ≠ NUL) : Good (watch x c) toks (cur ++ [c]) := by
  have hs := step_item hq he h₁ h₂ hn
  refine h.same ?_ ?_ <;> rw [hs]
  · exact h.holds.put hn
  · exact fun hl => absurd hl hn

theorem Good.backslash (h : Good x toks cur) (he : x.1.escaped = false) :
    Good (watch x BS) toks cur := by
  have hs := step_backslash hq he
  refine h.same ?_ ?_ <;> rw [hs]
  · exact h.holds
  · exact fun hl => absurd (show BS = 0 from hl) (by decide)

theorem Good.escape (h : Good x toks cur) (he : x.1.escaped = true) (hz : c ≠ '0'.toUInt8)
    (hn : c ≠ NUL) : Good (watch x c) toks (cur ++ [unescape c]) := by
  have hs := step_escape hq he hz hn
  refine h.same ?_ ?_ <;> rw [hs]
  · exact h.holds.put (unescape_ne_nul hn)
  · exact fun hl => absurd hl hn

/-- The escape `\0` takes a character of the token away. -/
theorem Good.zero {d : UInt8} (h : Good x toks (cur ++ [d])) (he : x.1.escaped = true) :
    Good (watch x '0'.toUInt8) toks cur := by
  have hs := step_zero hq he
  refine h.same ?_ ?_ <;> rw [hs]
  · exact h.holds.back
  · exact fun hl => absurd (show '0'.toUInt8 = 0 from hl) (by decide)

theorem Good.zero_nil (h : Good x toks []) (he : x.1.escaped = true) :
    (watch x '0'.toUInt8).1.Spoilt := by
  have hs := step_zero hq he
  have hspoilt := h.holds.back_nil
  show (x.1.step '0'.toUInt8).Spoilt
  rw [hs]
  exact hspoilt

theorem Good.closed (h : Good x toks cur) (he : x.1.escaped = false) :
    Good (watch x DQ) (toks ++ [cur]) [] := by
  have hs := step_close hq he
  refine h.ended (List.cons_ne_nil _ _) ?_
  rw [hs]
  exact h.holds.finish

end

theorem Good.opened (h : Good x toks cur) (hq : x.1.quoted = false) :
    ∃ ts, Good (watch x DQ) (toks ++ ts) [] := by
  have hs := step_open hq
  rcases h.finishIf with ⟨hl, rfl, hf⟩ | ⟨hl, hf⟩
  · refine ⟨[], ?_⟩
    rw [List.append_nil]
    refine h.same ?_ fun _ => rfl
    rw [hs, hf]
    exact h.holds
  · refine ⟨[cur], h.ended (List.cons_ne_nil _ _) ?_⟩
    rw [hs]
    exact hf

theorem Good.text (h : Good x toks cur) (hq : x.1.quoted = false) (h₁ : c ≠ DQ) (hn : c ≠ NUL) :
    ∃ ts v, Good (watch x c) (toks ++ ts) v := by
  rcases step_text hq h₁ hn with hs | hs | hs
  · rcases h.finishIf with ⟨hl, rfl, hf⟩ | ⟨hl, hf⟩
    · refine ⟨[], [], ?_⟩
      rw [List.append_nil]
      refine h.same ?_ fun _ => rfl
      rw [hs, hf]
      exact h.holds
    · refine ⟨[cur], [], h.ended (List.cons_ne_nil _ _) ?_⟩
      rw [hs]
      exact hf
  · rcases h.finishIf with ⟨hl, rfl, hf⟩ | ⟨hl, hf⟩
    · refine ⟨[[c]], [], h.ended (List.cons_ne_nil _ _) ?_⟩
      rw [hs, hf]
      exact (h.holds.put hn).finish
    · refine ⟨[cur, [c]], [], h.ended (List.cons_ne_nil _ _) ?_⟩
      have hend := (hf.put hn).finish
      rw [List.append_assoc] at hend
      rw [hs]
      exact hend
  · refine ⟨[], cur ++ [c], ?_⟩
    rw [List.append_nil]
    refine h.same ?_ ?_ <;> rw [hs]
    · exact h.holds.put hn
    · exact fun hl => absurd hl hn

/-- **One character**: the block holds the tokens, or the character is the escape `\0` at the start
of a token, and the block is spoilt. -/
theorem Good.step (h : Good x toks cur) (hn : c ≠ NUL) :
    (∃ ts v, Good (watch x c) (toks ++ ts) v) ∨
      (cur = [] ∧ x.1.quoted = true ∧ x.1.escaped = true ∧ c = '0'.toUInt8 ∧
        (watch x c).1.Spoilt) := by
  have hsame : ∀ {v}, Good (watch x c) toks v → ∃ ts v, Good (watch x c) (toks ++ ts) v :=
    fun {v} hv => ⟨[], v, by rwa [List.append_nil]⟩
  cases hq : x.1.quoted with
  | false =>
      by_cases h₁ : c = DQ
      · subst h₁
        obtain ⟨ts, ho⟩ := h.opened hq
        exact Or.inl ⟨ts, [], ho⟩
      · exact Or.inl (h.text hq h₁ hn)
  | true =>
      cases he : x.1.escaped with
      | false =>
          by_cases h₁ : c = DQ
          · subst h₁
            exact Or.inl ⟨[cur], [], h.closed hq he⟩
          by_cases h₂ : c = BS
          · subst h₂
            exact Or.inl (hsame (h.backslash hq he))
          · exact Or.inl (hsame (h.plain hq he h₁ h₂ hn))
      | true =>
          by_cases hz : c = '0'.toUInt8
          · subst hz
            rcases List.eq_nil_or_concat cur with rfl | ⟨v, d, rfl⟩
            · exact Or.inr ⟨rfl, rfl, rfl, rfl, h.zero_nil hq he⟩
            · rw [List.concat_eq_append] at h
              exact Or.inl (hsame (h.zero hq he))
          · exact Or.inl (hsame (h.escape hq he hz hn))

/-- A spoilt block stays so. -/
theorem spoilt_finishIf (h : s.Spoilt) : (s.finishIf s.lastC).Spoilt := by
  rcases finishIf_cases s with ⟨-, hf⟩ | ⟨-, hf⟩ <;> rw [hf]
  · exact h
  · exact h.finish

theorem spoilt_step (h : s.Spoilt) (hn : c ≠ NUL) : (s.step c).Spoilt := by
  cases hq : s.quoted with
  | false =>
      by_cases h₁ : c = DQ
      · subst h₁
        rw [step_open hq]
        exact spoilt_finishIf h
      · rcases step_text hq h₁ hn with hs | hs | hs <;> rw [hs]
        · exact spoilt_finishIf h
        · exact ((spoilt_finishIf h).put hn).finish
        · exact Cursor.Spoilt.put h hn
  | true =>
      cases he : s.escaped with
      | false =>
          by_cases h₁ : c = DQ
          · subst h₁
            rw [step_close hq he]
            exact Cursor.Spoilt.finish h
          by_cases h₂ : c = BS
          · subst h₂
            rw [step_backslash hq he]
            exact h
          · rw [step_item hq he h₁ h₂ hn]
            exact Cursor.Spoilt.put h hn
      | true =>
          by_cases hz : c = '0'.toUInt8
          · subst hz
            rw [step_zero hq he]
            exact Cursor.Spoilt.back h
          · rw [step_escape hq he hz hn]
            exact Cursor.Spoilt.put h (unescape_ne_nul hn)

/-! ### Every run -/

theorem spoilt_run {read : List UInt8} (hn : NUL ∉ read) {x : Tokenizer × Int} (h : x.1.Spoilt) :
    (read.foldl watch x).1.Spoilt := by
  induction read generalizing x with
  | nil => exact h
  | cons c read ih =>
      have hc : c ≠ NUL := fun e => hn (by simp [e])
      exact ih (fun hm => hn (List.mem_cons_of_mem c hm)) (spoilt_step h hc)

/-- **A run** adds tokens to those it found, unless it spoils the block. -/
theorem Good.run {read : List UInt8} (hn : NUL ∉ read) (h : Good x toks cur) :
    (∃ ts v, Good (read.foldl watch x) (toks ++ ts) v) ∨ (read.foldl watch x).1.Spoilt := by
  induction read generalizing x toks cur with
  | nil => exact Or.inl ⟨[], cur, by rwa [List.append_nil]⟩
  | cons c read ih =>
      have hc : c ≠ NUL := fun e => hn (by simp [e])
      have hrest : NUL ∉ read := fun hm => hn (List.mem_cons_of_mem c hm)
      rcases h.step hc with ⟨ts, v, hs⟩ | ⟨-, -, -, -, hs⟩
      · rcases ih hrest hs with ⟨ts', v', hr⟩ | hr
        · exact Or.inl ⟨ts ++ ts', v', by rwa [← List.append_assoc]⟩
        · exact Or.inr hr
      · exact Or.inr (spoilt_run hrest hs)

/-- A quoted string without a `\0` escape is taken over with its escapes resolved. -/
theorem Good.items {n : Int} (hin : InQuotes false n x) (h : Good x toks cur) {items : List Item}
    (hn : NUL ∉ raws items) (hz : zeros items = 0) :
    Good ((raws items).foldl watch x) toks (cur ++ content items) := by
  induction items generalizing n x cur with
  | nil => simpa [raws, content] using h
  | cons it items ih =>
      have hsplit : raws (it :: items) = it.raw ++ raws items := rfl
      have hcontent : content (it :: items) = it.value ++ content items := rfl
      rw [hsplit] at hn ⊢
      rw [hcontent, ← List.append_assoc, List.foldl_append]
      have hrest : NUL ∉ raws items := fun hm => hn (List.mem_append_right _ hm)
      have hit : NUL ∉ it.raw := fun hm => hn (List.mem_append_left _ hm)
      rw [zeros, List.countP_eq_zero] at hz
      have hz' : zeros items = 0 :=
        List.countP_eq_zero.mpr fun i hi => hz i (List.mem_cons_of_mem _ hi)
      cases it with
      | plain c hq hb =>
          have hc : c ≠ NUL := fun e => hit (by simp [Item.raw, e])
          exact ih (hin.plain hq hb hc) (h.plain hin.quoted hin.escaped hq hb hc) hrest hz'
      | escape c =>
          have hc : c ≠ NUL := fun e => hit (by simp [Item.raw, e])
          have hc₀ : c ≠ '0'.toUInt8 := by simpa [Item.isZero] using hz _ List.mem_cons_self
          have hback := h.backslash hin.quoted hin.escaped
          have hesc := hback.escape hin.backslash.quoted hin.backslash.escaped hc₀ hc
          rw [Item.value, if_neg hc₀]
          exact ih (hin.backslash.escape hc₀ hc) hesc hrest hz'

/-! ### The tokens -/

/-- `n` tokens lie between the start of the block and the cursor, and each closed quoted string of
the line is exactly one of them: the one with the number that `num` had at its opening quote. -/
def Tokenized (line : List UInt8) (n : Nat) (s : Tokenizer) : Prop :=
  ∃ toks, s.Holds toks [] ∧ toks.length = n ∧
    ∀ pre items, Outside pre → pre ++ DQ :: (raws items ++ [DQ]) <+: line →
      toks[(run (pre ++ [DQ])).num]? = some (content items) ∧
        (run (pre ++ DQ :: (raws items ++ [DQ]))).num = (run (pre ++ [DQ])).num + 1

/-- No closed quoted string has a `\0` escape. -/
def NoZeros (line : List UInt8) : Prop :=
  ∀ pre items, Outside pre → pre ++ DQ :: (raws items ++ [DQ]) <+: line → zeros items = 0

/-- The loop with the start of the token, at the end of `read`. -/
def trace (read : List UInt8) : Tokenizer × Int := read.foldl watch (init, 0)

theorem trace_fst (read : List UInt8) : (trace read).1 = run read := watch_run (init, 0) read

theorem trace_append (read rest : List UInt8) :
    trace (read ++ rest) = rest.foldl watch (trace read) :=
  List.foldl_append

theorem trace_concat (read : List UInt8) (c : UInt8) : trace (read ++ [c]) = watch (trace read) c :=
  trace_append read [c]

/-- The last token is ended. -/
theorem Good.done (h : Good x toks cur) : ∃ ts, x.1.done.Holds (toks ++ ts) [] := by
  rcases h.finishIf with ⟨-, rfl, hf⟩ | ⟨-, hf⟩
  · refine ⟨[], ?_⟩
    rw [List.append_nil, Tokenizer.done, hf]
    exact h.holds
  · exact ⟨[cur], hf⟩

theorem spoilt_done (h : s.Spoilt) : s.done.Spoilt := spoilt_finishIf h

section

variable {line : CStr} {read pre : List UInt8} {items : List Item}

theorem nul_not_mem (h : read <+: line.1) : NUL ∉ read := fun hm => line.2 (h.subset hm)

/-- If the block is not spoilt at the end, it never was. -/
theorem good_before (hend : ¬ (run line.1).Spoilt) (hread : read <+: line.1) :
    ∃ toks cur, Good (trace read) toks cur := by
  rcases good_init.run (nul_not_mem hread) with ⟨ts, v, hg⟩ | hs
  · exact ⟨ts, v, hg⟩
  · obtain ⟨rest, hrest⟩ := hread
    have hn : NUL ∉ rest := fun hm => line.2 (by rw [← hrest]; exact List.mem_append_right _ hm)
    have hbad := spoilt_run hn hs
    rw [← List.foldl_append, hrest, watch_run] at hbad
    exact absurd hbad hend

/-- Two points of a run: the tokens of the first one are kept. -/
theorem good_after (hend : ¬ (run line.1).Spoilt) (hread : read <+: line.1)
    (h : Good (trace read) toks cur) : ∃ ts v, Good (trace line.1) (toks ++ ts) v := by
  obtain ⟨rest, hrest⟩ := hread
  have hn : NUL ∉ rest := fun hm => line.2 (by rw [← hrest]; exact List.mem_append_right _ hm)
  rcases h.run hn with hg | hs
  · rw [← trace_append, hrest] at hg
    exact hg
  · rw [← trace_append, hrest, trace_fst] at hs
    exact absurd hs hend

/-- A block whose line is `Balanced` is never spoilt. -/
theorem good_of_balanced (h : Balanced line.1) (hread : read <+: line.1) :
    ∃ toks cur, Good (trace read) toks cur := by
  induction read using List.reverseRecOn with
  | nil => exact ⟨[], [], good_init⟩
  | append_singleton read c ih =>
      have hpre : read <+: line.1 := (List.prefix_append _ _).trans hread
      have hc : c ≠ NUL := fun e => nul_not_mem hread (by simp [e])
      obtain ⟨toks, cur, hg⟩ := ih hpre
      rcases hg.step hc with ⟨ts, v, hs⟩ | ⟨rfl, hq, he, rfl, -⟩
      · refine ⟨toks ++ ts, v, ?_⟩
        rw [trace_append]
        exact hs
      -- the text ends behind a backslash inside quotes, and the token under way is empty
      · exfalso
        have hn := nul_not_mem hpre
        rcases outside_or_opened read with hout | ⟨pre, items, ho, hin | hesc⟩
        · have hno := (atText_run hout hn).quoted
          rw [trace] at hq
          rw [hno] at hq
          cases hq
        · have hno := (inQuotes_run ho hn).escaped
          rw [trace] at he
          rw [hno] at he
          cases he
        · have hsplit : pre ++ DQ :: (raws items ++ [BS]) = (pre ++ DQ :: raws items) ++ [BS] := by
            simp
          rw [hsplit] at hg hn
          have hinside := inQuotes_run ho fun hm => hn (List.mem_append_left _ hm)
          have hdst := hinside.backslash.dst
          have hd := hg.holds.dst_eq
          have hstart := hg.start
          rw [trace_append] at hd hstart
          simp only [List.foldl_cons, List.foldl_nil, List.length_nil, trace] at hd hstart
          have hnext : pre ++ DQ :: raws (items ++ [.escape '0'.toUInt8]) <+: line.1 := by
            rw [raws_concat]
            simpa [Item.raw] using hread
          have hle := h pre _ ho hnext
          rw [zeros_zero, others_zero] at hle
          omega

end

theorem tokenize_ok {line : CStr} {h h' : Allocs} {n : Nat} {s : Tokenizer}
    (e : tokenize line h = (.ok (n, s), h')) : s = (run line.1).done ∧ n = s.num := by
  unfold tokenize at e
  dsimp only at e
  split_ifs at e
  · cases e
  · rcases hn : h.next with ⟨_ | f, h₁⟩ <;> simp only [hn] at e
    · cases e
    · obtain ⟨hr, -⟩ := Prod.mk.inj e
      obtain ⟨rfl, rfl⟩ := Prod.mk.inj (Except.ok.inj hr)
      exact ⟨rfl, rfl⟩

section

variable {line : CStr} {pre : List UInt8} {items : List Item}

/-- The block at the opening quote. -/
theorem good_open (hend : ¬ (run line.1).Spoilt) (ho : Outside pre)
    (hread : pre ++ [DQ] <+: line.1) :
    ∃ toks, Good (trace (pre ++ [DQ])) toks [] ∧ InQuotes false 0 (trace (pre ++ [DQ])) := by
  have hpre : pre <+: line.1 := (List.prefix_append _ _).trans hread
  have ht := atText_run ho (nul_not_mem hpre)
  obtain ⟨toks, cur, hg⟩ := good_before hend hpre
  obtain ⟨ts, hopen⟩ := hg.opened ht.quoted
  rw [trace_append]
  exact ⟨_, hopen, ht.opened⟩

theorem raws_begins (hread : pre ++ DQ :: (raws items ++ [DQ]) <+: line.1) :
    pre ++ DQ :: raws items <+: line.1 :=
  List.IsPrefix.trans ⟨[DQ], by simp⟩ hread

theorem quote_begins {rest : List UInt8} (hread : pre ++ DQ :: rest <+: line.1) :
    pre ++ [DQ] <+: line.1 :=
  List.IsPrefix.trans ⟨rest, by simp⟩ hread

theorem Tokenized.balanced {n : Nat} (h : Tokenized line.1 n (run line.1).done) :
    Balanced line.1 := by
  intro pre items ho hread
  obtain ⟨toks, hh, -, -⟩ := h
  have hend : ¬ (run line.1).Spoilt := fun hs => (spoilt_done hs).not_holds hh
  obtain ⟨ts, cur, hg⟩ := good_before hend hread
  have hdst := (inQuotes_run ho (nul_not_mem hread)).dst
  have hd := hg.holds.dst_eq
  have hs := hg.start
  rw [trace] at hd hs
  omega

theorem Tokenized.noZeros {n : Nat} (h : Tokenized line.1 n (run line.1).done) :
    NoZeros line.1 := by
  intro pre items ho hread
  obtain ⟨toks, hh, -, htok⟩ := h
  have hend : ¬ (run line.1).Spoilt := fun hs => (spoilt_done hs).not_holds hh
  -- the token that the string is, and the content it should have
  obtain ⟨ts₀, hg₀, -⟩ := good_open hend ho (quote_begins hread)
  obtain ⟨hcontent, hnum⟩ := htok pre items ho hread
  have hin : InQuotes false _ (trace (pre ++ DQ :: raws items)) :=
    inQuotes_run ho (nul_not_mem (raws_begins hread))
  obtain ⟨ts₁, v, hg₁⟩ := good_before hend (raws_begins hread)
  have hclosed := hg₁.closed hin.quoted hin.escaped
  have hsplit : pre ++ DQ :: (raws items ++ [DQ]) = (pre ++ DQ :: raws items) ++ [DQ] := by simp
  rw [hsplit] at hread hnum
  rw [← trace_concat] at hclosed
  obtain ⟨ts, v', hfin⟩ := good_after hend hread hclosed
  obtain ⟨ts', hdone⟩ := hfin.done
  rw [trace_fst] at hdone
  -- its number
  have hn₀ := hg₀.holds.num
  have hn₁ := hclosed.holds.num
  rw [trace_fst] at hn₀ hn₁
  rw [hn₁, hn₀, List.length_append, List.length_singleton] at hnum
  have hlen : ts₁.length = ts₀.length := Nat.succ.inj hnum
  rw [hh.unique hdone, hn₀, ← hlen] at hcontent
  have hv : v = content items := by
    simpa [List.append_assoc] using hcontent
  have hd := hg₁.holds.dst_eq
  have hs := hg₁.start
  have hdst := hin.dst
  rw [hv, length_content] at hd
  omega

theorem tokenized_of {n : Nat} (hz : NoZeros line.1) (hb : Balanced line.1)
    (hn : n = (run line.1).done.num) : Tokenized line.1 n (run line.1).done := by
  obtain ⟨toks, cur, hg⟩ := good_of_balanced hb List.prefix_rfl
  have hend : ¬ (run line.1).Spoilt := by
    intro hs
    rw [← trace_fst] at hs
    exact hs.not_holds hg.holds
  obtain ⟨ts, hdone⟩ := hg.done
  rw [trace_fst] at hdone
  refine ⟨toks ++ ts, hdone, by rw [hn, hdone.num], ?_⟩
  intro pre items ho hread
  obtain ⟨ts₀, hg₀, hin₀⟩ := good_open hend ho (quote_begins hread)
  have hitems : NUL ∉ raws items := fun hm => nul_not_mem hread (by simp [hm])
  have hg₁ := Good.items hin₀ hg₀ hitems (hz pre items ho hread)
  have hin₁ := hin₀.items hitems
  have hg₂ := hg₁.closed hin₁.quoted hin₁.escaped
  have hlast : watch ((raws items).foldl watch (trace (pre ++ [DQ]))) DQ =
      trace (pre ++ DQ :: (raws items ++ [DQ])) := by
    rw [show pre ++ DQ :: (raws items ++ [DQ]) = (pre ++ [DQ]) ++ (raws items ++ [DQ]) by simp,
      trace_append (pre ++ [DQ]), List.foldl_append]
    rfl
  rw [hlast, List.nil_append] at hg₂
  obtain ⟨ts', v', hfin⟩ := good_after hend hread hg₂
  obtain ⟨ts'', hdone'⟩ := hfin.done
  rw [trace_fst] at hdone'
  have hn₀ := hg₀.holds.num
  have hn₂ := hg₂.holds.num
  rw [trace_fst] at hn₀ hn₂
  rw [hdone.unique hdone', hn₀, hn₂, List.length_append]
  refine ⟨?_, rfl⟩
  simp [List.append_assoc]

end

/-- **The tokens.**  The block holds as many strings as the tokenizer returns, one of them for each
closed quoted string with its escapes resolved, exactly if no `\0` escape stands in a closed quoted
string, or in one left open where no other character is left to take away. -/
theorem tokenize_strings {line : CStr} {h h' : Allocs} {n : Nat} {s : Tokenizer}
    (e : tokenize line h = (.ok (n, s), h')) :
    Tokenized line.1 n s ↔ NoZeros line.1 ∧ Balanced line.1 := by
  obtain ⟨rfl, hn⟩ := tokenize_ok e
  constructor
  · exact fun ht => ⟨ht.noZeros, ht.balanced⟩
  · exact fun ⟨hz, hb⟩ => tokenized_of hz hb hn

/-- A header with a quoted value: no `0` is in it. -/
theorem tokenize_strings_value :
    Tokenized (str "a: \"b\\n\" \"\"") 4 (run (str "a: \"b\\n\" \"\"")).done := by
  have hno : '0'.toUInt8 ∉ str "a: \"b\\n\" \"\"" := by decide
  refine (@tokenize_strings ⟨str "a: \"b\\n\" \"\"", by decide⟩ [] [] 4 _ rfl).mpr ⟨?_, ?_⟩
  · intro pre items _ hread
    exact zeros_eq_zero fun h => hno (hread.subset (by simp [h]))
  · intro pre items _ hread
    rw [zeros_eq_zero fun h => hno (hread.subset (by simp [h]))]
    exact Nat.zero_le _

/-- The quoted string `"ab\0"`, of which `a` is left. -/
theorem tokenize_strings_zero : ¬ ∀ (line : CStr) (h h' : Allocs) (n : Nat) (s : Tokenizer),
    tokenize line h = (.ok (n, s), h') → Tokenized line.1 n s := by
  intro hall
  have ht := hall ⟨str "\"ab\\0\"", by decide⟩ [] [] 1 _ rfl
  have hz := ht.noZeros [] [.plain 97 (by decide) (by decide), .plain 98 (by decide) (by decide),
    .escape '0'.toUInt8] .nil (by decide)
  exact absurd hz (by decide)

end Tokenizer

end OpenWfd.Rtsp
