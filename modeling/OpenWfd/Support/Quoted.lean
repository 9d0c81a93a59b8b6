import OpenWfd.Support.CString
import Mathlib.Data.List.Induction
import Mathlib.Tactic.Common

/-!
# Support — Quoted

Texts with double-quoted strings in them, in which a backslash escapes the next byte.  Where the
quoted strings of a text are is read off the text alone: as a decomposition (`Outside`, `Item`), and
by an automaton (`place`), which agree (`outside_iff`).
-/

namespace OpenWfd.Rtsp

/-- What a quoted string is made of. -/
inductive Item where
  | plain (c : UInt8) (hq : c ≠ DQ) (hb : c ≠ BS)
  | escape (c : UInt8)

/-- As it stands in the line. -/
def Item.raw : Item → List UInt8
  | .plain c _ _ => [c]
  | .escape c    => [BS, c]

/-- The text of a quoted string. -/
def raws (items : List Item) : List UInt8 := items.flatMap Item.raw

theorem raws_concat (items : List Item) (it : Item) :
    raws (items ++ [it]) = raws items ++ it.raw := by
  simp [raws]

/-- The text ends outside quotes. -/
inductive Outside : List UInt8 → Prop where
  | nil : Outside []
  | text {pre : List UInt8} {c : UInt8} (h : Outside pre) (hc : c ≠ DQ) : Outside (pre ++ [c])
  | quoted {pre : List UInt8} (h : Outside pre) (items : List Item) :
      Outside (pre ++ DQ :: (raws items ++ [DQ]))

/-- A quoted string is open at the end of the text, behind these items of it. -/
inductive Opened (pre : List UInt8) (items : List Item) : List UInt8 → Prop where
  | inside : Opened pre items (pre ++ DQ :: raws items)
  | escaped : Opened pre items (pre ++ DQ :: (raws items ++ [BS]))

/-- Every text ends outside quotes or in a quoted string. -/
theorem outside_or_opened (read : List UInt8) :
    Outside read ∨ ∃ pre items, Outside pre ∧ Opened pre items read := by
  induction read using List.reverseRecOn with
  | nil => exact Or.inl .nil
  | append_singleton read c ih =>
      rcases ih with hout | ⟨pre, items, hpre, hin | hesc⟩
      · by_cases hc : c = DQ
        · subst hc
          exact Or.inr ⟨read, [], hout, .inside⟩
        · exact Or.inl (hout.text hc)
      · rw [List.append_assoc, List.cons_append]
        by_cases hq : c = DQ
        · subst hq
          exact Or.inl (hpre.quoted items)
        by_cases hb : c = BS
        · subst hb
          exact Or.inr ⟨pre, items, hpre, .escaped⟩
        · have hraw := raws_concat items (.plain c hq hb)
          refine Or.inr ⟨pre, items ++ [.plain c hq hb], hpre, ?_⟩
          rw [Item.raw] at hraw
          rw [← hraw]
          exact .inside
      · have hraw := raws_concat items (.escape c)
        refine Or.inr ⟨pre, items ++ [.escape c], hpre, ?_⟩
        rw [Item.raw] at hraw
        rw [List.append_assoc, List.cons_append, List.append_assoc, List.singleton_append, ← hraw]
        exact .inside

/-! ### The automaton -/

/-- Where a text ends: outside quotes, inside, or inside behind a backslash that escapes. -/
inductive Place where
  | outside
  | inside
  | escaped
  deriving DecidableEq, Repr

def Place.step : Place → UInt8 → Place
  | .outside, c => if c = DQ then .inside else .outside
  | .inside, c  => if c = DQ then .outside else if c = BS then .escaped else .inside
  | .escaped, _ => .inside

def place (text : List UInt8) : Place := text.foldl Place.step .outside

theorem place_concat (text : List UInt8) (c : UInt8) :
    place (text ++ [c]) = (place text).step c :=
  List.foldl_append

theorem place_raws (items : List Item) : (raws items).foldl Place.step .inside = .inside := by
  induction items with
  | nil => rfl
  | cons it items ih =>
      have hsplit : raws (it :: items) = it.raw ++ raws items := rfl
      rw [hsplit, List.foldl_append]
      cases it with
      | plain c hq hb =>
          have hstep : Place.step .inside c = .inside := by rw [Place.step, if_neg hq, if_neg hb]
          rw [Item.raw, List.foldl_cons, hstep]
          exact ih
      | escape c => exact ih

theorem Outside.place_eq {text : List UInt8} (h : Outside text) : place text = .outside := by
  induction h with
  | nil => rfl
  | text h hc ih => rw [place_concat, ih, Place.step, if_neg hc]
  | quoted h items ih =>
      unfold place at ih ⊢
      rw [List.foldl_append, ih, List.foldl_cons, List.foldl_append]
      show List.foldl Place.step (List.foldl Place.step .inside (raws items)) [DQ] = .outside
      rw [place_raws]
      rfl

theorem Opened.place_ne {pre text : List UInt8} {items : List Item} (ho : Outside pre)
    (h : Opened pre items text) : place text ≠ .outside := by
  have hin : place (pre ++ DQ :: raws items) = .inside := by
    have hpre := ho.place_eq
    unfold place at hpre ⊢
    rw [List.foldl_append, hpre, List.foldl_cons]
    exact place_raws items
  cases h with
  | inside =>
      rw [hin]
      exact Place.noConfusion
  | escaped =>
      have hsplit : pre ++ DQ :: (raws items ++ [BS]) = (pre ++ DQ :: raws items) ++ [BS] := by simp
      rw [hsplit, place_concat, hin]
      exact Place.noConfusion

/-- **The automaton finds the quoted strings.** -/
theorem outside_iff (text : List UInt8) : Outside text ↔ place text = .outside := by
  refine ⟨Outside.place_eq, ?_⟩
  intro h
  rcases outside_or_opened text with hout | ⟨pre, items, ho, hopen⟩
  · exact hout
  · exact absurd h (hopen.place_ne ho)

instance : DecidablePred Outside := fun text => decidable_of_iff _ (outside_iff text).symm

/-- A text leaves its last quoted string by the quote only. -/
theorem outside_concat {text : List UInt8} {c : UInt8} (h : ¬ Outside text) (hc : c ≠ DQ) :
    ¬ Outside (text ++ [c]) := by
  rw [outside_iff] at h ⊢
  rw [place_concat]
  cases hp : place text with
  | outside => exact absurd hp h
  | inside =>
      rw [Place.step, if_neg hc]
      split_ifs <;> exact nofun
  | escaped => exact Place.noConfusion

/-! ### A byte and what is before it -/

/-- `P` holds of a byte of the text and what is before it. -/
def Somewhere (P : List UInt8 → UInt8 → Prop) (text : List UInt8) : Prop :=
  ∃ pre c rest, text = pre ++ c :: rest ∧ P pre c

/-- `P` holds of the last byte, and it is outside quotes. -/
def Ends (P : UInt8 → Prop) (text : List UInt8) : Prop :=
  ∃ pre c, text = pre ++ [c] ∧ Outside pre ∧ P c

section

variable {P Q : List UInt8 → UInt8 → Prop} {p : UInt8 → Prop} {text : List UInt8} {c : UInt8}

theorem ends_concat : Ends p (text ++ [c]) ↔ Outside text ∧ p c := by
  constructor
  · rintro ⟨pre, d, heq, ho, hd⟩
    obtain ⟨rfl, hcd⟩ := List.append_inj' heq rfl
    obtain rfl : c = d := List.head_eq_of_cons_eq hcd
    exact ⟨ho, hd⟩
  · rintro ⟨ho, hc⟩
    exact ⟨text, c, rfl, ho, hc⟩

theorem ends_nil : ¬ Ends p [] := by
  rintro ⟨pre, c, heq, -⟩
  exact List.append_ne_nil_of_right_ne_nil _ (List.cons_ne_nil _ _) heq.symm

/-- Such a text ends outside quotes. -/
theorem Ends.outside (h : Ends p text) (hp : ¬ p DQ) : Outside text := by
  obtain ⟨pre, c, rfl, ho, hc⟩ := h
  exact ho.text fun e => hp (e ▸ hc)

theorem somewhere_nil : ¬ Somewhere P [] := by
  rintro ⟨pre, c, rest, heq, -⟩
  exact List.append_ne_nil_of_right_ne_nil _ (List.cons_ne_nil _ _) heq.symm

/-- It is the last byte or one before it. -/
theorem somewhere_concat : Somewhere P (text ++ [c]) ↔ Somewhere P text ∨ P text c := by
  constructor
  · rintro ⟨pre, d, rest, heq, hd⟩
    rcases List.eq_nil_or_concat rest with rfl | ⟨rest, e, rfl⟩
    · obtain ⟨rfl, hcd⟩ := List.append_inj' heq rfl
      obtain rfl : c = d := List.head_eq_of_cons_eq hcd
      exact Or.inr hd
    · rw [List.concat_eq_append, ← List.cons_append, ← List.append_assoc] at heq
      obtain ⟨rfl, -⟩ := List.append_inj' heq rfl
      exact Or.inl ⟨pre, d, rest, rfl, hd⟩
  · rintro (⟨pre, d, rest, rfl, hd⟩ | h)
    · exact ⟨pre, d, rest ++ [c], by simp, hd⟩
    · exact ⟨text, c, [], rfl, h⟩

theorem Somewhere.append (h : Somewhere P text) (rest : List UInt8) :
    Somewhere P (text ++ rest) := by
  obtain ⟨pre, c, rest', rfl, hc⟩ := h
  exact ⟨pre, c, rest' ++ rest, by simp, hc⟩

/-- What does not hold at the end of a text for the first time holds as before. -/
theorem somewhere_grown {text' : List UInt8} (h : text' = text ∨ ∃ d, text' = text ++ [d])
    (hP : ∀ d, P text d → Somewhere P text) : Somewhere P text' ↔ Somewhere P text := by
  rcases h with rfl | ⟨d, rfl⟩
  · exact Iff.rfl
  · rw [somewhere_concat]
    exact or_iff_left_of_imp (hP d)

/-- A text that ends inside quotes has a quote behind every byte outside of them. -/
theorem Somewhere.behind (h : Somewhere P text) (hP : ∀ pre c, P pre c → Outside (pre ++ [c]))
    (hin : ¬ Outside text) : Somewhere (fun pre c => Somewhere P pre ∧ c = DQ) text := by
  induction text using List.reverseRecOn with
  | nil => exact absurd .nil hin
  | append_singleton text c ih =>
      rw [somewhere_concat] at h ⊢
      rcases h with h | h
      · by_cases ho : Outside text
        · refine Or.inr ⟨h, ?_⟩
          by_contra hc
          exact hin (ho.text hc)
        · exact Or.inl (ih h ho)
      · exact absurd (hP _ _ h) hin

end

end OpenWfd.Rtsp
