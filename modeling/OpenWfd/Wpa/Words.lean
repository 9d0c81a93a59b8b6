import OpenWfd.Wpa.Tokens

/-!
# Wpa — words

Tokens as they are written: a token is a row of plain bytes and quoted passages (`Word`), and tokens
stand apart by blanks (`render`).  Splitting gives back the values of the words
(`splitTokens_render`).
-/

namespace OpenWfd.Wpa

/-! ### Words -/

/-- A byte that stands for itself outside quotes. -/
abbrev Plain := { c : UInt8 // isBlank c = false ∧ c ≠ SQ ∧ c ≠ NUL }

/-- Part of a token as it is written. -/
inductive Piece where
  | plain (c : Plain)
  | quoted (s : CStr)

/-- Quotes and backslashes with a backslash before them. -/
def escape (s : List UInt8) : List UInt8 :=
  s.flatMap fun c => if c = SQ ∨ c = BS then [BS, c] else [c]

def Piece.text : Piece → List UInt8
  | .plain c  => [c.1]
  | .quoted s => SQ :: escape s ++ [SQ]

def Piece.value : Piece → List UInt8
  | .plain c  => [c.1]
  | .quoted s => s.1

/-- A token as it is written. -/
structure Word where
  first : Piece
  rest : List Piece

/-- A string in quotes. -/
def Word.quote (s : CStr) : Word := ⟨.quoted s, []⟩

/-- Plain bytes with a string in quotes after them. -/
def Word.keyed (c : Plain) (key : List Plain) (s : CStr) : Word :=
  ⟨.plain c, key.map .plain ++ [.quoted s]⟩

def Word.pieces (w : Word) : List Piece := w.first :: w.rest

def Word.text (w : Word) : List UInt8 := w.pieces.flatMap Piece.text

/-- The token it stands for. -/
def Word.value (w : Word) : List UInt8 := w.pieces.flatMap Piece.value

@[simp] theorem Word.value_quote (s : CStr) : (Word.quote s).value = s := by
  simp [Word.quote, Word.value, Word.pieces, Piece.value]

@[simp] theorem Word.value_keyed (c : Plain) (key : List Plain) (s : CStr) :
    (Word.keyed c key s).value = c.1 :: key.map Subtype.val ++ s := by
  have hmap : (key.map Piece.plain).flatMap Piece.value = key.map Subtype.val := by
    induction key with
    | nil => rfl
    | cons k key ih => simp [Piece.value, ih]
  simp [Word.keyed, Word.value, Word.pieces, Piece.value, hmap]

/-- Reading an escaped string inside quotes. -/
theorem split_escape (s rest cur : List UInt8) :
    split .inside (some cur) (escape s ++ rest) = split .inside (some (cur ++ s)) rest := by
  induction s generalizing cur with
  | nil => simp [escape]
  | cons c s ih =>
      have hesc : escape (c :: s) = (if c = SQ ∨ c = BS then [BS, c] else [c]) ++ escape s := rfl
      rw [hesc, List.append_assoc]
      split_ifs with hc
      · have hstep : split .inside (some cur) ([BS, c] ++ (escape s ++ rest)) =
            split .inside (some (cur ++ [c])) (escape s ++ rest) := by
          rw [List.cons_append, split, if_neg (by decide), if_pos rfl]
          rfl
        rw [hstep, ih, List.append_assoc]
        rfl
      · rw [not_or] at hc
        rw [List.singleton_append, split, if_neg hc.1, if_neg hc.2, ih, Option.getD_some,
          List.append_assoc]
        rfl

/-- Reading a piece adds its value to the token. -/
theorem split_piece (p : Piece) (cur : Option (List UInt8)) (s : List UInt8) :
    split .outside cur (p.text ++ s) = split .outside (some (cur.getD [] ++ p.value)) s := by
  cases p with
  | plain c =>
      obtain ⟨c, hb, hsq, -⟩ := c
      rw [Piece.text, List.singleton_append, split, if_neg (by simp [hb]), if_neg hsq]
      rfl
  | quoted q =>
      rw [Piece.text, List.cons_append, List.cons_append, split, if_neg (by decide), if_pos rfl,
        List.append_assoc, split_escape, List.singleton_append, split, if_pos rfl]
      rfl

theorem split_word (w : Word) (s : List UInt8) :
    split .outside none (w.text ++ s) = split .outside (some w.value) s := by
  have hrest : ∀ (ps : List Piece) (v : List UInt8),
      split .outside (some v) (ps.flatMap Piece.text ++ s) =
        split .outside (some (v ++ ps.flatMap Piece.value)) s := by
    intro ps
    induction ps with
    | nil => simp
    | cons p ps ih =>
        intro v
        rw [List.flatMap_cons, List.append_assoc, split_piece, ih, List.flatMap_cons,
          Option.getD_some, List.append_assoc]
  rw [Word.text, Word.pieces, List.flatMap_cons, List.append_assoc, split_piece, hrest]
  rfl

theorem escape_clean {s : List UInt8} (hs : NUL ∉ s) : NUL ∉ escape s := by
  intro hm
  obtain ⟨c, hc, hin⟩ := List.mem_flatMap.mp hm
  have hne : NUL ≠ c := fun e => hs (e ▸ hc)
  split_ifs at hin
  · rcases List.mem_cons.mp hin with h | h
    · exact absurd h (by decide)
    · exact hne (List.mem_singleton.mp h)
  · exact hne (List.mem_singleton.mp hin)

theorem Word.clean (w : Word) : NUL ∉ w.text := by
  intro hm
  obtain ⟨p, -, hin⟩ := List.mem_flatMap.mp hm
  cases p with
  | plain c => exact c.2.2.2 (List.mem_singleton.mp hin).symm
  | quoted q =>
      rcases List.mem_append.mp hin with h | h
      · rcases List.mem_cons.mp h with h | h
        · exact absurd h (by decide)
        · exact escape_clean q.2 h
      · exact absurd (List.mem_singleton.mp h) (by decide)

/-- A word does not begin with a space. -/
theorem Word.head_ne (w : Word) (s : List UInt8) : (w.text ++ s).head? ≠ some SP := by
  rw [Word.text, Word.pieces, List.flatMap_cons]
  rcases w.first with ⟨c, hb, -, -⟩ | q
  · intro h
    obtain rfl : c = SP := Option.some_inj.mp h
    exact absurd hb (by decide)
  · intro h
    cases h

/-! ### Rows of words -/

/-- What stands between two tokens. -/
abbrev Gap := { g : List UInt8 // g ≠ [] ∧ ∀ c ∈ g, isBlank c = true }

/-- Words with gaps between them. -/
def render (w : Word) (ws : List (Gap × Word)) : List UInt8 :=
  w.text ++ ws.flatMap fun gw => gw.1.1 ++ gw.2.text

theorem split_gap {g : List UInt8} (hg : ∀ c ∈ g, isBlank c = true) (s : List UInt8) :
    split .outside none (g ++ s) = split .outside none s := by
  induction g with
  | nil => rfl
  | cons c g ih =>
      rw [List.cons_append, split, if_pos (hg c List.mem_cons_self),
        ih fun c' hc' => hg c' (List.mem_cons_of_mem _ hc')]
      rfl

/-- **The tokens of a message** are the values of its words. -/
theorem splitTokens_render (w : Word) (ws : List (Gap × Word)) :
    splitTokens (render w ws) = w.value :: ws.map fun gw => gw.2.value := by
  rw [splitTokens, render, split_word]
  generalize w.value = v
  induction ws generalizing v with
  | nil => rfl
  | cons gw ws ih =>
      obtain ⟨⟨g, hne, hg⟩, w⟩ := gw
      obtain ⟨c, g, rfl⟩ := List.exists_cons_of_ne_nil hne
      have hgap := split_gap fun c' hc' => hg c' (List.mem_cons_of_mem c hc')
      rw [List.flatMap_cons, List.append_assoc, List.cons_append, split,
        if_pos (hg c List.mem_cons_self), hgap, split_word, ih]
      rfl

theorem render_clean (w : Word) (ws : List (Gap × Word)) : NUL ∉ render w ws := by
  intro hm
  rcases List.mem_append.mp hm with h | h
  · exact w.clean h
  · obtain ⟨gw, -, hin⟩ := List.mem_flatMap.mp h
    rcases List.mem_append.mp hin with h | h
    · exact absurd (gw.1.2.2 NUL h) (by decide)
    · exact gw.2.clean h

end OpenWfd.Wpa
