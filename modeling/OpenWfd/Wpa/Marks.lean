import OpenWfd.Wpa.Tokens

/-!
# Wpa — marks

What the tokens of a text are, in three steps: tell the bytes that separate tokens from the quote
characters and from the bytes of tokens (`marks`); cut at every run of the first; and drop the
second (`tokensIn`).  A token that is nothing but quotes is empty and stays.

`splitTokens`, which goes over the text once as `tokenize` does, finds the same tokens
(`splitTokens_eq`).
-/

namespace OpenWfd.Wpa

/-- What a byte of a text is to the tokens. -/
inductive Mark where
  | blank
  | quote
  | byte (c : UInt8)
  deriving DecidableEq, Repr

/-- The bytes of a text.  A backslash inside quotes is none: it takes the next byte as it is. -/
def marks : Quote → List UInt8 → List Mark
  | _, []            => []
  | .outside, c :: s =>
    if isBlank c then .blank :: marks .outside s
    else if c = SQ then .quote :: marks .inside s
    else .byte c :: marks .outside s
  | .inside, c :: s  =>
    if c = SQ then .quote :: marks .outside s
    else if c = BS then marks .escaped s
    else .byte c :: marks .inside s
  | .escaped, c :: s => .byte c :: marks .inside s

/-- The byte of a token this is, if it is one. -/
def Mark.byte? : Mark → Option UInt8
  | .byte c => some c
  | _       => none

/-- A token without its quotes. -/
def unquote (ms : List Mark) : List UInt8 := ms.filterMap Mark.byte?

/-- The tokens, each with its quotes. -/
def cut (ms : List Mark) : List (List Mark) := (ms.splitOnP (· = .blank)).filter (· ≠ [])

/-- The tokens of a text. -/
def tokensIn (s : List UInt8) : List (List UInt8) := (cut (marks .outside s)).map unquote

/-! ### Going over the text once -/

variable {g : List Mark}

theorem not_blank (hg : .blank ∉ g) : ∀ m ∈ g, decide (m = Mark.blank) = false := by
  intro m hm
  exact decide_eq_false fun heq => hg (heq ▸ hm)

theorem cut_blank (hg : .blank ∉ g) (ms : List Mark) :
    cut (g ++ .blank :: ms) = (if g = [] then [] else [g]) ++ cut ms := by
  rw [cut, List.splitOnP_append_cons _ _ (by simp), List.splitOnP_eq_singleton (not_blank hg),
    List.filter_append]
  split_ifs with hnil
  · simp [hnil, cut]
  · simp [hnil, cut]

theorem cut_last (hg : .blank ∉ g) : cut g = if g = [] then [] else [g] := by
  rw [cut, List.splitOnP_eq_singleton (not_blank hg)]
  split_ifs with hnil
  · simp [hnil]
  · simp [hnil]

/-- The start of a token, after the marks `g`. -/
def begun (g : List Mark) : Option (List UInt8) := if g = [] then none else some (unquote g)

theorem begun_toList (g : List Mark) :
    (begun g).toList = (if g = [] then [] else [g]).map unquote := by
  unfold begun
  split_ifs <;> rfl

theorem begun_concat (g : List Mark) (m : Mark) :
    begun (g ++ [m]) = some ((begun g).getD [] ++ m.byte?.toList) := by
  have hval : (begun g).getD [] = unquote g := by
    unfold begun
    split_ifs with hnil
    · rw [hnil]
      rfl
    · rfl
  rw [begun, if_neg (by simp), hval]
  cases m <;> simp [unquote, Mark.byte?]

/-- From within a token on.  Inside quotes, the token has their opening one already. -/
theorem split_eq (q : Quote) (s : List UInt8) (hg : .blank ∉ g) (hq : q = .outside ∨ g ≠ []) :
    split q (begun g) s = (cut (g ++ marks q s)).map unquote := by
  have hmore : ∀ {g : List Mark} {m}, .blank ∉ g → m ≠ .blank → .blank ∉ g ++ [m] := by
    intro g m hg hm hin
    rcases List.mem_append.mp hin with hin | hin
    · exact hg hin
    · exact hm (List.mem_singleton.mp hin).symm
  induction s generalizing q g with
  | nil =>
      have hnil : split q (begun g) [] = (begun g).toList := by cases q <;> rfl
      have hmarks : marks q [] = [] := by cases q <;> rfl
      rw [hnil, hmarks, List.append_nil, cut_last hg, begun_toList]
  | cons c s ih =>
      -- a byte and a quote both go to the marks of the token
      have hmark : ∀ q' m, m ≠ .blank →
          split q' (some ((begun g).getD [] ++ m.byte?.toList)) s =
            (cut (g ++ m :: marks q' s)).map unquote := by
        intro q' m hm
        have hnext := ih q' (hmore hg hm) (Or.inr (by simp))
        rw [begun_concat, List.append_assoc] at hnext
        exact hnext
      have hbyte := fun q' => hmark q' (.byte c) Mark.noConfusion
      have hquote := fun q' => hmark q' .quote Mark.noConfusion
      cases q with
      | outside =>
          unfold split marks
          split_ifs with hb hsq
          · rw [cut_blank hg, List.map_append, begun_toList]
            exact congrArg _ (ih .outside List.not_mem_nil (Or.inl rfl))
          · simpa [Mark.byte?] using hquote .inside
          · exact hbyte .outside
      | inside =>
          have hne : g ≠ [] := hq.resolve_left Quote.noConfusion
          unfold split marks
          split_ifs with hsq hbs
          · have hopen : begun g = some ((begun g).getD []) := by
              rw [begun, if_neg hne]
              rfl
            rw [hopen]
            simpa [Mark.byte?] using hquote .outside
          · exact ih .escaped hg (Or.inr hne)
          · exact hbyte .inside
      | escaped => exact hbyte .inside

/-- **The two ways to find the tokens agree.** -/
theorem splitTokens_eq (s : List UInt8) : splitTokens s = tokensIn s :=
  split_eq .outside s List.not_mem_nil (Or.inl rfl)

/-- A name of the tests, an empty token, and a quote that is not closed. -/
example : tokensIn (str "name=some-'name\\\\\\'' '' 'a b") =
    [str "name=some-name\\'", [], str "a b"] := by decide

end OpenWfd.Wpa
