import OpenWfd.Support.Quoted
import OpenWfd.Tokenizer.Definitions

/-!
# Tokenizer — Position

Where `owfd_rtsp_tokenize` writes.  Every character moves the cursor on, or leaves it where it is,
but the escape `\0` inside quotes: it moves the cursor back by one, as if the backslash had been
written.  So the cursor is before the start of its token exactly when a quoted string has had more
of these escapes than other characters (`tokenize_in_token`).
-/

namespace OpenWfd.Rtsp

/-! ### The escape `\0` -/

/-- The escape `\0`. -/
def Item.isZero : Item → Bool
  | .plain _ _ _ => false
  | .escape c    => c = '0'.toUInt8

/-- The `\0` escapes, and the other characters. -/
def zeros (items : List Item) : Nat := items.countP Item.isZero

def others (items : List Item) : Nat := items.countP fun it => !it.isZero

/-- Without the character `0` there is no `\0` escape. -/
theorem zeros_eq_zero {items : List Item} (h : '0'.toUInt8 ∉ raws items) : zeros items = 0 := by
  refine List.countP_eq_zero.mpr fun it hit hzero => h (List.mem_flatMap.mpr ⟨it, hit, ?_⟩)
  cases it with
  | plain c => simp [Item.isZero] at hzero
  | escape c =>
      have hc : c = '0'.toUInt8 := by simpa [Item.isZero] using hzero
      rw [hc]
      simp [Item.raw]

/-! ### One character -/

/-- What an escaped character stands for; most stand for themselves. -/
def unescape (c : UInt8) : UInt8 :=
  if c = BS then BS
  else if c = DQ then DQ
  else if c = 'n'.toUInt8 then 10
  else if c = 'r'.toUInt8 then 13
  else if c = 't'.toUInt8 then 9
  else if c = 'a'.toUInt8 then 7
  else if c = 'f'.toUInt8 then 12
  else if c = 'v'.toUInt8 then 11
  else if c = 'b'.toUInt8 then 8
  else if c = 'e'.toUInt8 then 27
  else c

namespace Tokenizer

variable {s : Tokenizer} {c : UInt8}

theorem stepEscaped_zero (s : Tokenizer) :
    s.stepEscaped '0'.toUInt8 = { s with toCursor := s.toCursor.back } := rfl

theorem stepEscaped_other (hz : c ≠ '0'.toUInt8) (hn : c ≠ NUL) (s : Tokenizer) :
    s.stepEscaped c = s.put (unescape c) := by
  unfold stepEscaped unescape
  rw [if_neg (not_or.mpr ⟨hz, hn⟩)]
  simp only [apply_ite s.put]

/-- Inside quotes, a character that is written as it is. -/
theorem step_item (hq : s.quoted = true) (he : s.escaped = false) (h₁ : c ≠ DQ) (h₂ : c ≠ BS)
    (hn : c ≠ NUL) : s.step c = Tokenizer.put { s with lastC := c } c := by
  simp only [step, stepQuoted, hq, he, if_true, if_neg h₁, if_neg h₂, if_neg hn,
    Bool.false_eq_true, if_false]

theorem step_backslash (hq : s.quoted = true) (he : s.escaped = false) :
    s.step BS = { s with lastC := BS, escaped := true } := by
  simp only [step, stepQuoted, hq, he, if_true, Bool.false_eq_true, if_false]
  rfl

theorem step_close (hq : s.quoted = true) (he : s.escaped = false) :
    s.step DQ = { s.finish with quoted := false, escaped := false, lastC := 0 } := by
  simp only [step, stepQuoted, hq, he, if_true, Bool.false_eq_true, if_false]
  rfl

theorem step_zero (hq : s.quoted = true) (he : s.escaped = true) :
    s.step '0'.toUInt8 =
      { s with toCursor := s.toCursor.back, lastC := '0'.toUInt8, escaped := false } := by
  simp only [step, stepQuoted, hq, he, if_true]
  rw [stepEscaped_zero]

theorem step_escape (hq : s.quoted = true) (he : s.escaped = true) (hz : c ≠ '0'.toUInt8)
    (hn : c ≠ NUL) :
    s.step c = Tokenizer.put { s with lastC := c, escaped := false } (unescape c) := by
  simp only [step, stepQuoted, hq, he, if_true]
  rw [stepEscaped_other hz hn]
  rfl

theorem step_open (hq : s.quoted = false) :
    s.step DQ = { s.finishIf s.lastC with quoted := true, escaped := false, lastC := 0 } := by
  simp only [step, stepPlain, hq, if_true, Bool.false_eq_true, if_false, finishIf]
  split_ifs <;> rfl

/-- Outside quotes: a separator, a blank or a control character, or a character of a token. -/
theorem step_unquoted (hquoted : s.quoted = false) (hq : c ≠ DQ) (hn : c ≠ NUL) :
    s.step c =
      if isSeparator c then { ((s.finishIf s.lastC).put c).finish with lastC := 0 }
      else if c = SP ∨ isControl c = true then { s.finishIf s.lastC with lastC := 0 }
      else Tokenizer.put { s with lastC := c } c := by
  have hfin : ({ s with lastC := c } : Tokenizer).finishIf s.lastC =
      { s.finishIf s.lastC with lastC := c } := by
    unfold finishIf
    split_ifs <;> rfl
  have hstep : s.step c = stepPlain { s with lastC := c } s.lastC c :=
    if_neg (by rw [hquoted]; exact Bool.false_ne_true)
  rw [hstep, stepPlain, if_neg hq, if_neg hn, hfin]
  by_cases hsp : c = SP
  · subst hsp
    rfl
  · rw [if_neg hsp]
    simp only [hsp, false_or]
    rfl

theorem step_text (hquoted : s.quoted = false) (hq : c ≠ DQ) (hn : c ≠ NUL) :
    s.step c = { s.finishIf s.lastC with lastC := 0 } ∨
      s.step c = { ((s.finishIf s.lastC).put c).finish with lastC := 0 } ∨
      s.step c = Tokenizer.put { s with lastC := c } c := by
  rw [step_unquoted hquoted hq hn]
  split_ifs
  · exact Or.inr (Or.inl rfl)
  · exact Or.inl rfl
  · exact Or.inr (Or.inr rfl)

/-! ### The start of the token -/

/-- The loop with the start of the token under way: where the cursor stood when a token was last
ended. -/
def watch (x : Tokenizer × Int) (c : UInt8) : Tokenizer × Int :=
  let s := x.1.step c
  (s, if s.num = x.1.num then x.2 else s.dst)

/-- The start of the token under way at the end of `read`. -/
def startOf (read : List UInt8) : Int := (read.foldl watch (init, 0)).2

theorem watch_run (x : Tokenizer × Int) (read : List UInt8) :
    (read.foldl watch x).1 = read.foldl step x.1 := by
  induction read generalizing x with
  | nil => rfl
  | cons c read ih => exact ih (watch x c)

/-- Outside quotes.  After white-space or a separator no token is under way. -/
structure AtText (x : Tokenizer × Int) : Prop where
  quoted : x.1.quoted = false
  start : x.2 ≤ x.1.dst
  fresh : x.1.lastC = 0 → x.2 = x.1.dst

/-- Inside quotes, `n` behind the start of the token. -/
structure InQuotes (escaped : Bool) (n : Int) (x : Tokenizer × Int) : Prop where
  quoted : x.1.quoted = true
  escaped : x.1.escaped = escaped
  dst : x.1.dst = x.2 + n

theorem atText_init : AtText (init, 0) := ⟨rfl, le_rfl, fun _ => rfl⟩

variable {x : Tokenizer × Int} {n : Int} {b : Bool}

/-- The start of the token, after a step that ended none, and after one that did. -/
theorem watch_same (h : (x.1.step c).num = x.1.num) : watch x c = (x.1.step c, x.2) :=
  congrArg (Prod.mk _) (if_pos h)

theorem watch_ended (h : (x.1.step c).num ≠ x.1.num) :
    watch x c = (x.1.step c, (x.1.step c).dst) :=
  congrArg (Prod.mk _) (if_neg h)

theorem finishIf_cases (s : Tokenizer) :
    (s.lastC = 0 ∧ s.finishIf s.lastC = s) ∨ (s.lastC ≠ 0 ∧ s.finishIf s.lastC = s.finish) := by
  by_cases hl : s.lastC = 0
  · exact Or.inl ⟨hl, if_neg (not_not.mpr hl)⟩
  · exact Or.inr ⟨hl, if_pos hl⟩

theorem AtText.text (h : AtText x) (hq : c ≠ DQ) (hn : c ≠ NUL) : AtText (watch x c) := by
  rcases step_text h.quoted hq hn with hs | hs | hs
  · rcases finishIf_cases x.1 with ⟨hl, hf⟩ | ⟨-, hf⟩ <;> rw [hf] at hs
    · rw [watch_same (by rw [hs]), hs]
      exact ⟨h.quoted, h.start, fun _ => h.fresh hl⟩
    · rw [watch_ended (by rw [hs]; exact Nat.succ_ne_self _), hs]
      exact ⟨h.quoted, le_rfl, fun _ => rfl⟩
  · have hnum : (x.1.step c).num ≠ x.1.num := by
      rw [hs]
      rcases finishIf_cases x.1 with ⟨-, hf⟩ | ⟨-, hf⟩ <;> rw [hf] <;>
        simp only [put, finish, Cursor.put, Cursor.finish] <;> omega
    have hquoted : (x.1.step c).quoted = false := by
      rw [hs, ← h.quoted]
      rcases finishIf_cases x.1 with ⟨-, hf⟩ | ⟨-, hf⟩ <;> rw [hf] <;> rfl
    rw [watch_ended hnum]
    exact ⟨hquoted, le_rfl, fun _ => rfl⟩
  · rw [watch_same (by rw [hs]; rfl), hs]
    refine ⟨h.quoted, ?_, fun hc => absurd hc hn⟩
    have := h.start
    simp only [put, Cursor.put]
    omega

theorem AtText.opened (h : AtText x) : InQuotes false 0 (watch x DQ) := by
  have hs := step_open h.quoted
  rcases finishIf_cases x.1 with ⟨hl, hf⟩ | ⟨-, hf⟩ <;> rw [hf] at hs
  · rw [watch_same (by rw [hs]), hs]
    exact ⟨rfl, rfl, by rw [h.fresh hl]; exact (Int.add_zero _).symm⟩
  · rw [watch_ended (by rw [hs]; exact Nat.succ_ne_self _), hs]
    exact ⟨rfl, rfl, (Int.add_zero _).symm⟩

theorem InQuotes.plain (h : InQuotes false n x) (hq : c ≠ DQ) (hb : c ≠ BS) (hn : c ≠ NUL) :
    InQuotes false (n + 1) (watch x c) := by
  have hs := step_item h.quoted h.escaped hq hb hn
  rw [watch_same (by rw [hs]; rfl), hs]
  refine ⟨h.quoted, h.escaped, ?_⟩
  have := h.dst
  simp only [put, Cursor.put]
  omega

theorem InQuotes.backslash (h : InQuotes false n x) : InQuotes true n (watch x BS) := by
  have hs := step_backslash h.quoted h.escaped
  rw [watch_same (by rw [hs]), hs]
  exact ⟨h.quoted, rfl, h.dst⟩

theorem InQuotes.zero (h : InQuotes true n x) : InQuotes false (n - 1) (watch x '0'.toUInt8) := by
  have hs := step_zero h.quoted h.escaped
  rw [watch_same (by rw [hs]; rfl), hs]
  refine ⟨h.quoted, rfl, ?_⟩
  have := h.dst
  simp only [Cursor.back]
  omega

theorem InQuotes.escape (h : InQuotes true n x) (hz : c ≠ '0'.toUInt8) (hn : c ≠ NUL) :
    InQuotes false (n + 1) (watch x c) := by
  have hs := step_escape h.quoted h.escaped hz hn
  rw [watch_same (by rw [hs]; rfl), hs]
  refine ⟨h.quoted, rfl, ?_⟩
  have := h.dst
  simp only [put, Cursor.put]
  omega

theorem InQuotes.closed (h : InQuotes false n x) : AtText (watch x DQ) := by
  have hs := step_close h.quoted h.escaped
  rw [watch_ended (by rw [hs]; exact Nat.succ_ne_self _), hs]
  exact ⟨rfl, le_rfl, fun _ => rfl⟩

/-- The characters of a quoted string. -/
theorem InQuotes.items (h : InQuotes false n x) {items : List Item} (hn : NUL ∉ raws items) :
    InQuotes false (n + others items - zeros items) ((raws items).foldl watch x) := by
  induction items generalizing n x with
  | nil => simpa [raws, others, zeros] using h
  | cons it items ih =>
      have hsplit : raws (it :: items) = it.raw ++ raws items := rfl
      rw [hsplit] at hn ⊢
      have hrest : NUL ∉ raws items := fun hm => hn (List.mem_append_right _ hm)
      have hit : NUL ∉ it.raw := fun hm => hn (List.mem_append_left _ hm)
      rw [List.foldl_append]
      cases it with
      | plain c hq hb =>
          have hc : c ≠ NUL := fun e => hit (by simp [Item.raw, e])
          have hnext := ih (h.plain hq hb hc) hrest
          have hcount : n + others (.plain c hq hb :: items) - zeros (.plain c hq hb :: items) =
              n + 1 + others items - zeros items := by
            simp only [others, zeros, List.countP_cons, Item.isZero]
            simp
            omega
          rw [hcount]
          exact hnext
      | escape c =>
          have hc : c ≠ NUL := fun e => hit (by simp [Item.raw, e])
          by_cases hz : c = '0'.toUInt8
          · subst hz
            have hnext := ih h.backslash.zero hrest
            have hcount : n + others (.escape '0'.toUInt8 :: items) -
                zeros (.escape '0'.toUInt8 :: items) = n - 1 + others items - zeros items := by
              simp only [others, zeros, List.countP_cons, Item.isZero]
              simp
              omega
            rw [hcount]
            exact hnext
          · have hnext := ih (h.backslash.escape hz hc) hrest
            have hcount : n + others (.escape c :: items) - zeros (.escape c :: items) =
                n + 1 + others items - zeros items := by
              simp only [others, zeros, List.countP_cons, Item.isZero]
              simp [hz]
              omega
            rw [hcount]
            exact hnext

/-- The loop at the end of a text that ends outside quotes. -/
theorem atText_run {read : List UInt8} (h : Outside read) (hn : NUL ∉ read) :
    AtText (read.foldl watch (init, 0)) := by
  induction h with
  | nil => exact atText_init
  | @text pre c h hc ih =>
      rw [List.foldl_append]
      have hpre := ih fun hm => hn (List.mem_append_left _ hm)
      exact hpre.text hc fun e => hn (by simp [e])
  | @quoted pre h items ih =>
      rw [List.foldl_append, List.foldl_cons, List.foldl_append]
      have hpre := ih fun hm => hn (List.mem_append_left _ hm)
      have hitems : NUL ∉ raws items := fun hm => hn (by simp [hm])
      exact (hpre.opened.items hitems).closed

/-- And of one that ends in a quoted string. -/
theorem inQuotes_run {pre : List UInt8} {items : List Item} (h : Outside pre)
    (hn : NUL ∉ pre ++ DQ :: raws items) :
    InQuotes false (others items - zeros items)
      ((pre ++ DQ :: raws items).foldl watch (init, 0)) := by
  rw [List.foldl_append, List.foldl_cons]
  have hpre := atText_run h fun hm => hn (List.mem_append_left _ hm)
  have hitems : NUL ∉ raws items := fun hm => hn (by simp [hm])
  have hin := hpre.opened.items hitems
  rwa [Int.zero_add] at hin

/-! ### Where it writes -/

theorem past_finishIf (s : Tokenizer) : s.toCursor.Past (s.finishIf s.lastC).toCursor := by
  rcases finishIf_cases s with ⟨-, hf⟩ | ⟨-, hf⟩ <;> rw [hf]
  · exact Cursor.past_refl _
  · exact Cursor.past_finish _

/-- A step writes at the cursor or behind it. -/
theorem step_mem (s : Tokenizer) (hn : c ≠ NUL) {i : Int} (hi : i < s.dst) :
    (s.step c).mem i = s.mem i := by
  cases hquoted : s.quoted with
  | true =>
      cases hesc : s.escaped with
      | true =>
          by_cases hz : c = '0'.toUInt8
          · subst hz
            rw [step_zero hquoted hesc]
            rfl
          · rw [step_escape hquoted hesc hz hn]
            exact Cursor.put_mem hi _
      | false =>
          by_cases hq : c = DQ
          · subst hq
            rw [step_close hquoted hesc]
            exact Cursor.finish_mem hi
          by_cases hb : c = BS
          · subst hb
            rw [step_backslash hquoted hesc]
          · rw [step_item hquoted hesc hq hb hn]
            exact Cursor.put_mem hi _
  | false =>
      have hfin := past_finishIf s
      by_cases hq : c = DQ
      · subst hq
        rw [step_open hquoted]
        exact hfin.2 i hi
      · rcases step_text hquoted hq hn with hs | hs | hs <;> rw [hs]
        · exact hfin.2 i hi
        · have hput := hfin.trans (Cursor.past_put _ c)
          exact (hput.trans (Cursor.past_finish _)).2 i hi
        · exact Cursor.put_mem hi c

/-- The loop and the write behind it keep out of finished tokens, and inside the block: the cursor
is never before the start of the token under way, and nothing before that start changes. -/
structure StaysInToken (line : List UInt8) : Prop where
  start : ∀ read, read <+: line → startOf read ≤ (run read).dst
  kept : ∀ read c, read ++ [c] <+: line →
    ∀ i < startOf read, (run (read ++ [c])).mem i = (run read).mem i
  last : ∀ i < startOf line, (run line).done.mem i = (run line).mem i

/-- Every quoted string, closed or not, has at no point had more `\0` escapes than other
characters. -/
def Balanced (line : List UInt8) : Prop :=
  ∀ pre items, Outside pre → pre ++ DQ :: raws items <+: line → zeros items ≤ others items

/-- **Where the tokenizer writes.** -/
theorem tokenize_in_token (line : CStr) : StaysInToken line.1 ↔ Balanced line.1 := by
  have hnul : ∀ {read}, read <+: line.1 → NUL ∉ read := fun h hm => line.2 (h.subset hm)
  have hrun : ∀ read, (read.foldl watch (init, 0)).1 = run read := watch_run (init, 0)
  constructor
  · intro h pre items hpre hread
    have hstart := h.start _ hread
    have hdst := (inQuotes_run hpre (hnul hread)).dst
    rw [hrun] at hdst
    rw [hdst, startOf] at hstart
    omega
  · intro h
    have hstart : ∀ read, read <+: line.1 → startOf read ≤ (run read).dst := by
      intro read hread
      rw [← hrun]
      rcases outside_or_opened read with hout | ⟨pre, items, hpre, hin | hesc⟩
      · exact (atText_run hout (hnul hread)).start
      · have hdst := (inQuotes_run hpre (hnul hread)).dst
        have := h pre items hpre hread
        rw [hdst, startOf]
        omega
      · have hsub : pre ++ DQ :: raws items <+: line.1 := by
          refine List.IsPrefix.trans ⟨[BS], ?_⟩ hread
          simp
        have hdst := (inQuotes_run hpre (hnul hsub)).backslash.dst
        have := h pre items hpre hsub
        have hsplit : pre ++ DQ :: (raws items ++ [BS]) = (pre ++ DQ :: raws items) ++ [BS] := by
          simp
        rw [startOf, hsplit, List.foldl_append, List.foldl_cons, List.foldl_nil]
        rw [hdst]
        omega
    refine ⟨hstart, ?_, ?_⟩
    · intro read c hread i hi
      have hle := hstart read ((List.prefix_append _ _).trans hread)
      rw [run, List.foldl_append]
      exact step_mem (run read) (fun e => hnul hread (by simp [e])) (by omega)
    · intro i hi
      have hle := hstart line.1 List.prefix_rfl
      rcases finishIf_cases (run line.1) with ⟨-, hf⟩ | ⟨-, hf⟩ <;> rw [done, hf]
      exact Cursor.finish_mem (by omega)

/-- The quoted string `"\0"`. -/
theorem tokenize_in_token_zero : ¬ ∀ line : CStr, StaysInToken line.1 := by
  intro h
  have hstart := (h ⟨str "\"\\0\"", by decide⟩).start (str "\"\\0") (by decide)
  exact absurd hstart (by decide)

end Tokenizer

end OpenWfd.Rtsp
