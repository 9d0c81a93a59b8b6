import OpenWfd.Wpa.Event
import OpenWfd.Support.Strings

/-!
# Wpa — tokens

`tokenize` unquotes the tokens of a text into one block of consecutive strings.  `splitTokens` says
which tokens a text has, without the block, and `tokenize_begins` that these are the strings the
block begins with.
-/

namespace OpenWfd.Wpa

/-! ### Strings in a row -/

/-- A block that begins with the strings `toks`, none of which has a NUL. -/
structure Begins (tokens : List UInt8) (toks : List (List UInt8)) : Prop where
  block : strings toks <+: tokens
  clean : ∀ tok ∈ toks, NUL ∉ tok

section

variable {tokens tok : List UInt8} {toks : List (List UInt8)}

theorem Begins.eq (h : Begins tokens (tok :: toks)) :
    ∃ rest, tokens = tok ++ NUL :: rest ∧ Begins rest toks := by
  obtain ⟨junk, hj⟩ := h.block
  rw [strings_cons, List.append_assoc, List.cons_append] at hj
  exact ⟨_, hj.symm, List.prefix_append _ _, fun t ht => h.clean t (List.mem_cons_of_mem _ ht)⟩

/-- The first string. -/
theorem Begins.cstr (h : Begins tokens (tok :: toks)) : cstr tokens = tok := by
  obtain ⟨rest, rfl, -⟩ := h.eq
  exact cstr_append (h.clean tok List.mem_cons_self)

/-- The first string from its `k`th byte on. -/
theorem Begins.cstr_drop (h : Begins tokens (tok :: toks)) {k : Nat} (hk : k ≤ tok.length) :
    OpenWfd.cstr (tokens.drop k) = tok.drop k := by
  obtain ⟨rest, rfl, -⟩ := h.eq
  rw [List.drop_append_of_le_length hk]
  exact cstr_append fun hm => h.clean tok List.mem_cons_self (List.mem_of_mem_drop hm)

/-- The strings after the first one. -/
theorem Begins.next (h : Begins tokens (tok :: toks)) : Begins (nextToken tokens) toks := by
  obtain ⟨rest, heq, hb⟩ := h.eq
  rw [nextToken, h.cstr, heq, ← List.drop_drop, List.drop_left]
  exact hb

end

/-! ### Splitting a text -/

/-- Where the splitter stands. -/
inductive Quote where
  | outside
  | inside
  | escaped
  deriving DecidableEq, Repr

/-- The tokens of the rest of a text, the first of which is `cur` so far. -/
def split : Quote → Option (List UInt8) → List UInt8 → List (List UInt8)
  | _, cur, []            => cur.toList
  | .outside, cur, c :: s =>
    if isBlank c then cur.toList ++ split .outside none s
    else if c = SQ then split .inside (some (cur.getD [])) s
    else split .outside (some (cur.getD [] ++ [c])) s
  | .inside, cur, c :: s  =>
    if c = SQ then split .outside cur s
    else if c = BS then split .escaped cur s
    else split .inside (some (cur.getD [] ++ [c])) s
  | .escaped, cur, c :: s => split .inside (some (cur.getD [] ++ [c])) s

/-- The tokens of a text. -/
def splitTokens (s : List UInt8) : List (List UInt8) := split .outside none s

/-- The variables of `tokenize` after the tokens `toks` and, perhaps, the start `cur` of another. -/
structure Tok.Reads (t : Tok) (q : Quote) (cur : Option (List UInt8)) (toks : List (List UInt8)) :
    Prop where
  out : t.out = strings toks ++ cur.getD []
  lastC : t.lastC ≠ 0 ↔ cur.isSome = true
  n : t.n = toks.length
  quoted : t.quoted = decide (q ≠ .outside)
  escaped : t.escaped = decide (q = .escaped)
  clean : ∀ tok ∈ toks ++ cur.toList, NUL ∉ tok

theorem Tok.reads_init : Tok.init.Reads .outside none [] :=
  ⟨rfl, by simp [Tok.init], rfl, rfl, rfl, by simp⟩

/-- A byte added to the current token. -/
theorem Tok.Reads.byte {t : Tok} {q q' : Quote} {cur : Option (List UInt8)}
    {toks : List (List UInt8)} (h : t.Reads q cur toks) {c : UInt8} (hc : c ≠ NUL)
    {quoted esc : Bool} (hq : quoted = decide (q' ≠ .outside)) (he : esc = decide (q' = .escaped)) :
    Tok.Reads ⟨t.out ++ [c], c, t.n, quoted, esc⟩ q' (some (cur.getD [] ++ [c])) toks where
  out := by rw [h.out, List.append_assoc]; rfl
  lastC := by simpa using hc
  n := h.n
  quoted := hq
  escaped := he
  clean := by
    intro tok htok
    rcases List.mem_append.mp htok with hold | hnew
    · exact h.clean tok (List.mem_append_left _ hold)
    · rw [Option.toList_some, List.mem_singleton] at hnew
      subst hnew
      intro hmem
      rcases List.mem_append.mp hmem with hcur | hlast
      · rcases cur with _ | w
        · cases hcur
        · exact h.clean w (by simp) hcur
      · exact hc (List.mem_singleton.mp hlast).symm

/-- **One byte.**  The loop of `tokenize` does what the splitter does. -/
theorem Tok.Reads.step {t : Tok} {q : Quote} {cur : Option (List UInt8)} {toks : List (List UInt8)}
    (h : t.Reads q cur toks) {c : UInt8} (hc : c ≠ NUL) :
    ∃ q' cur' toks', (t.step c).Reads q' cur' toks' ∧
      ∀ s, toks ++ split q cur (c :: s) = toks' ++ split q' cur' s := by
  have hquoted := h.quoted
  have hescaped := h.escaped
  unfold Tok.step
  cases q with
  | outside =>
      rw [show t.quoted = false from hquoted]
      simp only [Bool.false_eq_true, if_false]
      by_cases hb : isBlank c = true
      · rw [if_pos hb]
        by_cases hl : t.lastC ≠ 0
        · rw [if_pos hl]
          obtain ⟨w, rfl⟩ := Option.isSome_iff_exists.mp (h.lastC.mp hl)
          refine ⟨.outside, none, toks ++ [w], ⟨?_, by simp, by simp [h.n], rfl, hescaped, ?_⟩, ?_⟩
          · simp [h.out, strings_concat]
          · simpa using h.clean
          · intro s
            simp [split, hb]
        · rw [if_neg hl]
          have hcur : cur = none := by
            rcases cur with _ | w
            · rfl
            · exact absurd (h.lastC.mpr rfl) hl
          subst hcur
          refine ⟨.outside, none, toks, ⟨h.out, by simp, h.n, rfl, hescaped, h.clean⟩, ?_⟩
          intro s
          simp [split, hb]
      · rw [if_neg hb]
        by_cases hsq : c = SQ
        · rw [if_pos hsq]
          refine ⟨.inside, some (cur.getD []), toks, ⟨?_, ?_, h.n, rfl, rfl, ?_⟩, ?_⟩
          · rw [h.out]
            rfl
          · simpa using hc
          · rcases cur with _ | w
            · intro tok htok
              rcases List.mem_append.mp htok with hold | hnew
              · exact h.clean tok (List.mem_append_left _ hold)
              · rw [List.mem_singleton.mp hnew]
                exact List.not_mem_nil
            · exact h.clean
          · intro s
            rw [split, if_neg hb, if_pos hsq]
        · rw [if_neg hsq]
          refine ⟨.outside, _, toks, h.byte hc rfl hescaped, ?_⟩
          intro s
          rw [split, if_neg hb, if_neg hsq]
  | inside =>
      rw [show t.quoted = true from hquoted, show t.escaped = false from hescaped]
      simp only [Bool.false_eq_true, if_false, if_true]
      by_cases hsq : c = SQ
      · rw [if_pos hsq]
        refine ⟨.outside, cur, toks, ⟨h.out, h.lastC, h.n, rfl, rfl, h.clean⟩, ?_⟩
        intro s
        rw [split, if_pos hsq]
      · rw [if_neg hsq]
        by_cases hbs : c = BS
        · rw [if_pos hbs]
          refine ⟨.escaped, cur, toks, ⟨h.out, h.lastC, h.n, rfl, rfl, h.clean⟩, ?_⟩
          intro s
          rw [split, if_neg hsq, if_pos hbs]
        · rw [if_neg hbs]
          refine ⟨.inside, _, toks, h.byte hc rfl rfl, ?_⟩
          intro s
          rw [split, if_neg hsq, if_neg hbs]
  | escaped =>
      rw [show t.quoted = true from hquoted, show t.escaped = true from hescaped]
      simp only [if_true]
      refine ⟨.inside, _, toks, h.byte hc rfl rfl, ?_⟩
      intro s
      rfl

theorem Tok.Reads.run {s : List UInt8} (hs : NUL ∉ s) {t : Tok} {q : Quote}
    {cur : Option (List UInt8)} {toks : List (List UInt8)} (h : t.Reads q cur toks) :
    ∃ q' cur' toks', (s.foldl Tok.step t).Reads q' cur' toks' ∧
      toks ++ split q cur s = toks' ++ cur'.toList := by
  induction s generalizing t q cur toks with
  | nil => exact ⟨q, cur, toks, h, by cases q <;> rfl⟩
  | cons c s ih =>
      have hc : c ≠ NUL := fun e => hs (by simp [e])
      obtain ⟨q₁, cur₁, toks₁, h₁, hsplit⟩ := h.step hc
      obtain ⟨q', cur', toks', h', hrest⟩ := ih (fun hm => hs (List.mem_cons_of_mem _ hm)) h₁
      exact ⟨q', cur', toks', h', by rw [hsplit s, hrest]⟩

/-- **`tokenize`**: the block it returns begins with the tokens of the text, and it counts them. -/
theorem tokenize_begins {src : List UInt8} (hs : NUL ∉ src) {h h' : Heap} {b : Block} {num : Nat}
    (e : tokenize src h = (some (b, num), h')) :
    num = (splitTokens src).length ∧ Begins b.bytes (splitTokens src) := by
  unfold tokenize at e
  rcases hm : h.malloc (src.length + 1) with ⟨_ | b₀, h₁⟩ <;> simp only [hm] at e
  · cases e
  · obtain ⟨q, cur, toks, ht, hsplit⟩ := Tok.Reads.run hs Tok.reads_init
    have htoks : splitTokens src = toks ++ cur.toList := hsplit
    have hout := ht.out
    rw [htoks]
    by_cases hl : (src.foldl Tok.step .init).lastC ≠ 0
    · rw [if_pos hl] at e
      cases e
      obtain ⟨w, rfl⟩ := Option.isSome_iff_exists.mp (ht.lastC.mp hl)
      have hbegin : strings (toks ++ (some w).toList) =
          (src.foldl Tok.step .init).out ++ [NUL] := by
        rw [Option.toList_some, strings_concat, hout]
        rfl
      refine ⟨?_, ?_, ht.clean⟩
      · rw [ht.n, Option.toList_some, List.length_append]
        rfl
      · rw [hbegin]
        exact memcpy_end_begins (memcpy_zero_begins _ _) [NUL]
    · rw [if_neg hl] at e
      cases e
      have hcur : cur = none := by
        rcases cur with _ | w
        · rfl
        · exact absurd (ht.lastC.mpr rfl) hl
      subst hcur
      have hbegin : strings (toks ++ none.toList) = (src.foldl Tok.step .init).out := by
        rw [Option.toList_none, List.append_nil, hout]
        exact (List.append_nil _).symm
      refine ⟨?_, ?_, ht.clean⟩
      · rw [ht.n, Option.toList_none, List.append_nil]
      · rw [hbegin]
        exact memcpy_zero_begins _ _

/-- The heap after `tokenize`. -/
theorem tokenize_holds {src : List UInt8} {h h' : Heap} {ids : List Nat} (hh : h.Holds ids)
    {r : Option (Block × Nat)} (e : tokenize src h = (r, h')) :
    (r = none ∧ h'.Holds ids) ∨ ∃ b num, r = some (b, num) ∧ h'.Holds (b.id :: ids) := by
  unfold tokenize at e
  rcases hm : h.malloc (src.length + 1) with ⟨_ | b, h₁⟩ <;> simp only [hm] at e <;>
    rcases Heap.malloc_spec hh hm with ⟨hb, hh'⟩ | ⟨b', hb, -, hh'⟩ <;> cases hb
  · cases e
    exact Or.inl ⟨rfl, hh'⟩
  · split_ifs at e <;> cases e <;> exact Or.inr ⟨_, _, rfl, hh'⟩

/-- With memory, there is a block. -/
theorem tokenize_willing {h : Heap} (w : h.Willing) (src : List UInt8) :
    ∃ b num h', tokenize src h = (some (b, num), h') ∧ h'.Willing := by
  obtain ⟨b, h', hm, -, w'⟩ := w.malloc (src.length + 1)
  unfold tokenize
  rw [hm]
  dsimp only
  split_ifs
  · exact ⟨_, _, _, rfl, w'⟩
  · exact ⟨_, _, _, rfl, w'⟩

end OpenWfd.Wpa
