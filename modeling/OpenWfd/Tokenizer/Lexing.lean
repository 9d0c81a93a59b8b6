import OpenWfd.Tokenizer.Tokens

/-!
# Tokenizer — Lexing

What `owfd_rtsp_tokenize` makes of two kinds of lines.

* Unquoted text (`tokenize_unquoted`): the tokens are those of a lexer, but for the bytes from 128
  on. They are negative as a `char`, so `c <= 31` takes them for control characters.
* Quoted strings (`tokenize_quoted`): what is written in quotes, with its escapes, is read back.
-/

namespace OpenWfd.Rtsp

/-! ### The lexer -/

/-- The run of token bytes under way, if there is one. -/
def word (cur : List UInt8) : List (List UInt8) := if cur = [] then [] else [cur]

/-- The tokens of a text behind the bytes `cur` of a run: each separator, and each maximal run of
bytes that are neither separators nor blank. -/
def lex (blank : UInt8 → Bool) (cur : List UInt8) : List UInt8 → List (List UInt8)
  | []     => word cur
  | c :: s =>
    if Tokenizer.isSeparator c then word cur ++ [c] :: lex blank [] s
    else if blank c then word cur ++ lex blank [] s
    else lex blank (cur ++ [c]) s

/-- A space or a control character. -/
def isGap (c : UInt8) : Bool := c = SP || c ≤ 31 || c = 127

/-- What the tokenizer takes for one: also the bytes from 128 on. -/
def isGapSigned (c : UInt8) : Bool := c = SP || Tokenizer.isControl c

theorem flatten_word (cur : List UInt8) : (word cur).flatten = cur := by
  unfold word
  split_ifs with h
  · exact h.symm
  · exact List.flatten_singleton

/-- The tokens hold every byte that is a separator or not blank. -/
theorem flatten_lex (blank : UInt8 → Bool) (cur s : List UInt8) :
    (lex blank cur s).flatten = cur ++ s.filter fun c => Tokenizer.isSeparator c || !blank c := by
  induction s generalizing cur with
  | nil => simp [lex, flatten_word]
  | cons c s ih =>
      unfold lex
      split_ifs with hsep hblank
      · rw [List.flatten_append, flatten_word, List.flatten_cons, ih]
        simp [hsep]
      · rw [List.flatten_append, flatten_word, ih]
        simp [hsep, hblank]
      · rw [ih]
        simp [hsep, hblank]

/-- Two notions of blank that agree on a text. -/
theorem lex_congr {blank blank' : UInt8 → Bool} {s : List UInt8} (h : ∀ c ∈ s, blank c = blank' c)
    (cur : List UInt8) : lex blank cur s = lex blank' cur s := by
  induction s generalizing cur with
  | nil => rfl
  | cons c s ih =>
      have hs := ih fun c hc => h c (List.mem_cons_of_mem _ hc)
      simp only [lex, h c List.mem_cons_self, hs]

theorem isSeparator_lt {c : UInt8} (h : Tokenizer.isSeparator c = true) : c < 128 := by
  have hall : ∀ c ∈ str "()[]{}<>@,;:\\/?=", c < 128 := by decide +kernel
  exact hall c (List.contains_iff_mem.mp h)

theorem isGapSigned_eq {c : UInt8} (h : c < 128) : isGapSigned c = isGap c := by
  have heq : decide (127 ≤ c) = decide (c = 127) := by
    refine decide_eq_decide.mpr ⟨fun hle => ?_, fun e => e ▸ UInt8.le_refl _⟩
    have h₁ := UInt8.lt_iff_toNat_lt.mp h
    have h₂ := UInt8.le_iff_toNat_le.mp hle
    refine UInt8.toNat_inj.mp ?_
    have h₃ : (128 : UInt8).toNat = 128 := rfl
    have h₄ : (127 : UInt8).toNat = 127 := rfl
    omega
  unfold isGapSigned isGap Tokenizer.isControl
  rw [heq, Bool.or_assoc]

/-- A byte from 128 on is no gap, but is taken for one. -/
theorem isGap_high {c : UInt8} (h : ¬ c < 128) : isGap c = false ∧ isGapSigned c = true := by
  have hle : (128 : UInt8) ≤ c := UInt8.not_lt.mp h
  have hsp : c ≠ SP := by
    rintro rfl
    exact h (by decide)
  have h127 : c ≠ 127 := by
    rintro rfl
    exact h (by decide)
  have h31 : ¬ c ≤ 31 := fun h31 => absurd (UInt8.le_trans hle h31) (by decide)
  have hcontrol : (127 : UInt8) ≤ c := UInt8.le_trans (by decide) hle
  simp [isGap, isGapSigned, Tokenizer.isControl, hsp, h127, h31, hcontrol]

/-- **The two lexers** agree on the texts without bytes from 128 on, and on no others. -/
theorem lex_signed_iff (s : List UInt8) :
    lex isGapSigned [] s = lex isGap [] s ↔ ∀ c ∈ s, c < 128 := by
  constructor
  · intro h c hc
    by_contra hhigh
    obtain ⟨hgap, hsigned⟩ := isGap_high hhigh
    have hsep : Tokenizer.isSeparator c = false :=
      Bool.eq_false_iff.mpr fun hs => hhigh (isSeparator_lt hs)
    have hflat := congrArg List.flatten h
    rw [flatten_lex, flatten_lex] at hflat
    have hmem : c ∈ [] ++ s.filter fun c => Tokenizer.isSeparator c || !isGap c :=
      List.mem_filter.mpr ⟨hc, by simp [hgap]⟩
    rw [← hflat] at hmem
    have hkept := (List.mem_filter.mp hmem).2
    rw [hsep, hsigned] at hkept
    cases hkept
  · intro h
    exact lex_congr (fun c hc => isGapSigned_eq (h c hc)) []

namespace Tokenizer

/-! ### Unquoted text -/

variable {s : Tokenizer} {c : UInt8} {toks : List (List UInt8)} {cur : List UInt8}

/-- Outside quotes, with the tokens `toks` ended and `cur` of a run. -/
structure Lexed (s : Tokenizer) (toks : List (List UInt8)) (cur : List UInt8) : Prop where
  holds : s.Holds toks cur
  quoted : s.quoted = false
  fresh : s.lastC = 0 ↔ cur = []

theorem lexed_init : init.Lexed [] [] := ⟨good_init.holds, rfl, by simp [init]⟩

/-- The run ends. -/
theorem Lexed.flush (h : s.Lexed toks cur) :
    (s.finishIf s.lastC).Holds (toks ++ word cur) [] := by
  unfold word
  rcases finishIf_cases s with ⟨hl, hf⟩ | ⟨hl, hf⟩ <;> rw [hf]
  · have hcur := h.fresh.mp hl
    subst hcur
    rw [if_pos rfl, List.append_nil]
    exact h.holds
  · rw [if_neg fun hcur => hl (h.fresh.mpr hcur)]
    exact h.holds.finish

theorem finishIf_quoted (s : Tokenizer) : (s.finishIf s.lastC).quoted = s.quoted := by
  rcases finishIf_cases s with ⟨-, hf⟩ | ⟨-, hf⟩ <;> rw [hf]
  rfl

/-- **One byte** of unquoted text: a separator, a gap, or a byte of a run. -/
theorem Lexed.step (h : s.Lexed toks cur) (hq : c ≠ DQ) (hn : c ≠ NUL) :
    ∃ toks' cur', (s.step c).Lexed toks' cur' ∧
      ∀ rest, toks ++ lex isGapSigned cur (c :: rest) = toks' ++ lex isGapSigned cur' rest := by
  have hs := step_unquoted h.quoted hq hn
  have hquoted := (finishIf_quoted s).trans h.quoted
  by_cases hsep : isSeparator c = true
  · rw [if_pos hsep] at hs
    refine ⟨toks ++ word cur ++ [[c]], [], ⟨?_, ?_, ?_⟩, ?_⟩
    · rw [hs]
      exact (h.flush.put hn).finish
    · rw [hs]
      exact hquoted
    · rw [hs]
      exact iff_of_true rfl rfl
    · intro rest
      simp [lex, hsep]
  rw [if_neg hsep] at hs
  by_cases hgap : c = SP ∨ isControl c = true
  · rw [if_pos hgap] at hs
    have hsigned : isGapSigned c = true := by simpa [isGapSigned] using hgap
    refine ⟨toks ++ word cur, [], ⟨?_, ?_, ?_⟩, ?_⟩
    · rw [hs]
      exact h.flush
    · rw [hs]
      exact hquoted
    · rw [hs]
      exact iff_of_true rfl rfl
    · intro rest
      simp [lex, hsep, hsigned]
  · rw [if_neg hgap] at hs
    have hsigned : isGapSigned c = false := by simpa [isGapSigned] using hgap
    refine ⟨toks, cur ++ [c], ⟨?_, ?_, ?_⟩, ?_⟩
    · rw [hs]
      exact h.holds.put hn
    · rw [hs]
      exact h.quoted
    · rw [hs]
      exact iff_of_false hn (by simp)
    · intro rest
      simp [lex, hsep, hsigned]

/-- **A run** over unquoted text, and the end of the line. -/
theorem Lexed.run {read : List UInt8} (hq : DQ ∉ read) (hn : NUL ∉ read) (h : s.Lexed toks cur) :
    (read.foldl Tokenizer.step s).done.Holds (toks ++ lex isGapSigned cur read) [] := by
  induction read generalizing s toks cur with
  | nil => exact h.flush
  | cons c read ih =>
      rw [List.mem_cons, not_or] at hq hn
      obtain ⟨toks', cur', h', hlex⟩ := h.step (Ne.symm hq.1) (Ne.symm hn.1)
      rw [hlex read]
      exact ih hq.2 hn.2 h'

/-- With memory, `owfd_rtsp_tokenize` returns. -/
theorem tokenize_returns {line : CStr} {h h' : Allocs} {f : Nat → UInt8}
    (hlen : line.1.length ≤ SizeT.ptrdiffMax) (hh : h.next = (some f, h')) :
    tokenize line h = (.ok ((run line.1).done.num, (run line.1).done), h') := by
  have hadd : SizeT.add (line.1.length * 2) 1 = line.1.length * 2 + 1 := by
    refine SizeT.add_of_lt ?_
    simp only [SizeT.ptrdiffMax, SizeT.modulus] at *
    omega
  unfold tokenize
  dsimp only
  rw [hadd, if_neg (by omega), hh]

/-- The block holds these strings, and their number was returned. -/
def Returns (r : Nat × Tokenizer) (toks : List (List UInt8)) : Prop :=
  r.1 = toks.length ∧ r.2.Holds toks []

/-- **Unquoted text.**  A line without double quotes is split into tokens; they are those of the
lexer exactly if the line has no byte from 128 on. -/
theorem tokenize_unquoted {line : CStr} (hq : DQ ∉ line.1)
    (hlen : line.1.length ≤ SizeT.ptrdiffMax) {h h' : Allocs} {f : Nat → UInt8}
    (hh : h.next = (some f, h')) :
    ∃ r, tokenize line h = (.ok r, h') ∧
      (Returns r (lex isGap [] line.1) ↔ ∀ c ∈ line.1, c < 128) := by
  have hholds : (run line.1).done.Holds (lex isGapSigned [] line.1) [] :=
    lexed_init.run hq line.2
  refine ⟨_, tokenize_returns hlen hh, ?_⟩
  rw [← lex_signed_iff]
  constructor
  · rintro ⟨-, hlexed⟩
    exact hholds.unique hlexed
  · intro heq
    rw [heq] at hholds
    exact ⟨hholds.num, hholds⟩

/-- A header line, with a tab in it. -/
theorem tokenize_unquoted_header :
    ∃ r, tokenize ⟨str "a: b;\tc", by decide⟩ [] = (.ok r, []) ∧
      Returns r [str "a", str ":", str "b", str ";", str "c"] := by
  let line : CStr := ⟨str "a: b;\tc", by decide⟩
  have hq : DQ ∉ line.1 := by decide
  obtain ⟨r, hr, hiff⟩ := tokenize_unquoted hq (by decide) (h := []) rfl
  exact ⟨r, hr, hiff.mpr (by decide +kernel)⟩

/-- An e with an accent, in UTF-8: the line has one token, and none is returned. -/
theorem tokenize_unquoted_accent :
    ∃ r, tokenize ⟨[195, 169], by decide⟩ [] = (.ok r, []) ∧ r.1 = 0 ∧
      lex isGap [] [195, 169] = [[195, 169]] :=
  ⟨_, rfl, rfl, by decide⟩

/-! ### Quoted strings -/

/-- The escapes, and what they stand for. -/
def escapes : List (UInt8 × UInt8) :=
  [(BS, BS), (DQ, DQ), ('n'.toUInt8, 10), ('r'.toUInt8, 13), ('t'.toUInt8, 9), ('a'.toUInt8, 7),
    ('f'.toUInt8, 12), ('v'.toUInt8, 11), ('b'.toUInt8, 8), ('e'.toUInt8, 27)]

/-- A string as it is written: quotes and backslashes as escapes, other bytes as they are or, where
there is one, as an escape. -/
inductive Spells : List UInt8 → List Item → Prop where
  | nil : Spells [] []
  | plain {s : List UInt8} {items : List Item} (c : UInt8) (hq : c ≠ DQ) (hb : c ≠ BS)
      (h : Spells s items) : Spells (c :: s) (.plain c hq hb :: items)
  | escape {s : List UInt8} {items : List Item} {e c : UInt8} (he : (e, c) ∈ escapes)
      (h : Spells s items) : Spells (c :: s) (.escape e :: items)

/-- Strings in quotes, each with any number of spaces behind it. -/
inductive Written : List (List UInt8) → List UInt8 → Prop where
  | nil : Written [] []
  | cons {s : List UInt8} {strs : List (List UInt8)} {items : List Item} {text : List UInt8}
      (hs : Spells s items) (hn : NUL ∉ s) (spaces : Nat) (h : Written strs text) :
      Written (s :: strs) (DQ :: (raws items ++ DQ :: (List.replicate spaces SP ++ text)))

theorem escapes_spec {e c : UInt8} (h : (e, c) ∈ escapes) :
    e ≠ NUL ∧ e ≠ '0'.toUInt8 ∧ unescape e = c := by
  have hall : escapes.Forall fun p => p.1 ≠ NUL ∧ p.1 ≠ '0'.toUInt8 ∧ unescape p.1 = p.2 := by
    decide
  exact List.forall_iff_forall_mem.mp hall (e, c) h

/-- What is written has no NUL and no `\0`, and stands for the string. -/
theorem Spells.spec {str : List UInt8} {items : List Item} (h : Spells str items)
    (hn : NUL ∉ str) : NUL ∉ raws items ∧ zeros items = 0 ∧ content items = str := by
  induction h with
  | nil => exact ⟨List.not_mem_nil, rfl, rfl⟩
  | @plain str items c hq hb h ih =>
      rw [List.mem_cons, not_or] at hn
      obtain ⟨hclean, hzeros, hcontent⟩ := ih hn.2
      refine ⟨?_, ?_, congrArg (c :: ·) hcontent⟩
      · rintro (_ | ⟨_, hm⟩)
        · exact hn.1 rfl
        · exact hclean hm
      · rw [zeros, List.countP_cons_of_neg Bool.false_ne_true]
        exact hzeros
  | @escape str items e c he h ih =>
      rw [List.mem_cons, not_or] at hn
      obtain ⟨hclean, hzeros, hcontent⟩ := ih hn.2
      obtain ⟨hnul, hzero, hvalue⟩ := escapes_spec he
      refine ⟨?_, ?_, ?_⟩
      · rintro (_ | ⟨_, _ | ⟨_, hm⟩⟩)
        · exact hnul rfl
        · exact hclean hm
      · rw [zeros, List.countP_cons_of_neg (by simpa [Item.isZero] using hzero)]
        exact hzeros
      · have hcons : content (.escape e :: items) = (Item.escape e).value ++ content items := rfl
        rw [hcons, Item.value, if_neg hzero, hvalue, hcontent]
        rfl

/-- Outside quotes, and no token is under way. -/
structure Idle (x : Tokenizer × Int) (toks : List (List UInt8)) : Prop where
  text : AtText x
  good : Good x toks []
  last : x.1.lastC = 0

variable {x : Tokenizer × Int}

theorem idle_init : Idle (init, 0) [] := ⟨atText_init, good_init, rfl⟩

theorem Idle.space (h : Idle x toks) : Idle (watch x SP) toks := by
  have hs := step_unquoted (c := SP) h.text.quoted (by decide) (by decide)
  rw [if_neg (by decide), if_pos (Or.inl rfl)] at hs
  have hf : x.1.finishIf x.1.lastC = x.1 := if_neg (not_not.mpr h.last)
  rw [hf] at hs
  have hlast : (watch x SP).1.lastC = 0 := congrArg lastC hs
  refine ⟨h.text.text (by decide) (by decide), h.good.same ?_ fun _ => rfl, hlast⟩
  rw [hs]
  exact h.good.holds

theorem Idle.spaces (h : Idle x toks) (n : Nat) :
    Idle ((List.replicate n SP).foldl watch x) toks := by
  induction n generalizing x with
  | zero => exact h
  | succ n ih => exact ih h.space

/-- **A string in quotes** adds a token. -/
theorem Idle.quoted (h : Idle x toks) {str : List UInt8} {items : List Item}
    (hs : Spells str items) (hn : NUL ∉ str) :
    Idle ((DQ :: (raws items ++ [DQ])).foldl watch x) (toks ++ [str]) := by
  obtain ⟨hclean, hzeros, hcontent⟩ := hs.spec hn
  have hopen : Good (watch x DQ) toks [] := by
    have hstep := step_open h.text.quoted
    have hf : x.1.finishIf x.1.lastC = x.1 := if_neg (not_not.mpr h.last)
    rw [hf] at hstep
    refine h.good.same ?_ fun _ => rfl
    rw [hstep]
    exact h.good.holds
  have hin := h.text.opened.items hclean
  have hgood := Good.items h.text.opened hopen hclean hzeros
  have hclosed := hgood.closed hin.quoted hin.escaped
  have hlast := step_close hin.quoted hin.escaped
  rw [List.nil_append, hcontent] at hclosed
  rw [List.foldl_cons, List.foldl_append]
  exact ⟨hin.closed, hclosed, congrArg lastC hlast⟩

theorem Idle.written {strs : List (List UInt8)} {text : List UInt8} (hw : Written strs text)
    (h : Idle x toks) : Idle (text.foldl watch x) (toks ++ strs) := by
  induction hw generalizing x toks with
  | nil => rwa [List.append_nil]
  | @cons str strs items text hs hn spaces _ ih =>
      have hnext := ih ((h.quoted hs hn).spaces spaces)
      rw [List.append_assoc, List.singleton_append] at hnext
      have hsplit : DQ :: (raws items ++ DQ :: (List.replicate spaces SP ++ text)) =
          (DQ :: (raws items ++ [DQ])) ++ (List.replicate spaces SP ++ text) := by
        simp
      rw [hsplit, List.foldl_append, List.foldl_append]
      exact hnext

/-- **The tokenizer undoes quoting**: of strings written in quotes, with any escapes and any number
of spaces between them, it returns the number and the strings themselves. -/
theorem tokenize_quoted {strs : List (List UInt8)} {line : CStr} (hw : Written strs line.1)
    (hlen : line.1.length ≤ SizeT.ptrdiffMax) {h h' : Allocs} {f : Nat → UInt8}
    (hh : h.next = (some f, h')) :
    ∃ r, tokenize line h = (.ok r, h') ∧ Returns r strs := by
  have hidle := idle_init.written hw
  have hdone : (run line.1).done = run line.1 := by
    have hlast := hidle.last
    rw [watch_run] at hlast
    exact if_neg (not_not.mpr hlast)
  have hholds := hidle.good.holds
  rw [watch_run, List.nil_append] at hholds
  refine ⟨_, tokenize_returns hlen hh, ?_⟩
  rw [hdone]
  exact ⟨hholds.num, hholds⟩

/-- An empty string, then at once one with a quote, a newline as an escape and one as it is. -/
theorem tokenize_quoted_two :
    ∃ r, tokenize ⟨str "\"\"\"a\\\"\\n\n\"  ", by decide⟩ [] = (.ok r, []) ∧
      Returns r [[], str "a\"\n\n"] := by
  have hsecond : Spells (str "a\"\n\n")
      [.plain 97 (by decide) (by decide), .escape DQ, .escape 'n'.toUInt8,
        .plain 10 (by decide) (by decide)] :=
    .plain 97 _ _ (.escape (by decide) (.escape (by decide) (.plain 10 _ _ .nil)))
  let line : CStr := ⟨str "\"\"\"a\\\"\\n\n\"  ", by decide⟩
  have hw : Written [[], str "a\"\n\n"] line.1 :=
    .cons .nil List.not_mem_nil 0 (.cons hsecond (by decide) 2 .nil)
  exact tokenize_quoted hw (by decide) (h := []) rfl

end Tokenizer

end OpenWfd.Rtsp
