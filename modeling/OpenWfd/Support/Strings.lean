import OpenWfd.Support.CString
import Mathlib.Data.List.Count
import Mathlib.Logic.Function.Basic

/-!
# Support — Strings

Strings in a row, each ended by its NUL, and a cursor that writes such a row into a block of memory:
it puts a byte, ends the string it is at, or steps back over a byte.

`Cursor.Within` bounds what was written.  `Cursor.Holds` reads the block as the strings ended so far
and the one under way.  A step back inside the string under way takes its last byte away.  A step
back at its start is not to be repaired (`Cursor.Spoilt`): it gives up the NUL of the string before,
or leaves the block.
-/

namespace OpenWfd

/-! ### Strings in a row -/

/-- Strings one after the other, each with its NUL. -/
def strings (toks : List (List UInt8)) : List UInt8 := toks.flatMap (· ++ [NUL])

@[simp] theorem strings_nil : strings [] = [] := rfl

theorem strings_cons (tok : List UInt8) (toks : List (List UInt8)) :
    strings (tok :: toks) = tok ++ NUL :: strings toks := by
  simp [strings]

theorem strings_concat (toks : List (List UInt8)) (tok : List UInt8) :
    strings (toks ++ [tok]) = strings toks ++ tok ++ [NUL] := by
  simp [strings]

theorem count_strings {toks : List (List UInt8)} (h : ∀ tok ∈ toks, NUL ∉ tok) :
    (strings toks).count NUL = toks.length := by
  induction toks with
  | nil => rfl
  | cons tok toks ih =>
      rw [strings_cons, List.count_append, List.count_cons_self,
        List.count_eq_zero.mpr (h tok List.mem_cons_self),
        ih fun t ht => h t (List.mem_cons_of_mem _ ht), List.length_cons]
      omega

/-- A row can be read in one way only. -/
theorem strings_inj {toks toks' : List (List UInt8)} (h : ∀ tok ∈ toks, NUL ∉ tok)
    (h' : ∀ tok ∈ toks', NUL ∉ tok) (e : strings toks = strings toks') : toks = toks' := by
  induction toks generalizing toks' with
  | nil =>
      cases toks' with
      | nil => rfl
      | cons tok' toks' =>
          rw [strings_cons, strings_nil] at e
          exact absurd e.symm (List.append_ne_nil_of_right_ne_nil _ (List.cons_ne_nil _ _))
  | cons tok toks ih =>
      cases toks' with
      | nil =>
          rw [strings_cons, strings_nil] at e
          exact absurd e (List.append_ne_nil_of_right_ne_nil _ (List.cons_ne_nil _ _))
      | cons tok' toks' =>
          rw [strings_cons, strings_cons] at e
          have hfirst := congrArg cstr e
          rw [cstr_append (h tok List.mem_cons_self), cstr_append (h' tok' List.mem_cons_self)]
            at hfirst
          subst hfirst
          have hrest := List.cons.inj (List.append_cancel_left e)
          rw [ih (fun t ht => h t (List.mem_cons_of_mem _ ht))
            (fun t ht => h' t (List.mem_cons_of_mem _ ht)) hrest.2]

/-! ### A cursor -/

/-- What was written, by its offset from the start of a block, the offset to write at, and the
number of strings ended.  An offset that nothing was written to holds `none`. -/
structure Cursor where
  mem : Int → Option UInt8
  dst : Int
  num : Nat

namespace Cursor

/-- `*dst++ = c`. -/
def put (w : Cursor) (c : UInt8) : Cursor :=
  { w with mem := Function.update w.mem w.dst (some c), dst := w.dst + 1 }

/-- `*dst++ = 0; ++num`. -/
def finish (w : Cursor) : Cursor :=
  { w with mem := Function.update w.mem w.dst (some NUL), dst := w.dst + 1, num := w.num + 1 }

/-- `--dst`. -/
def back (w : Cursor) : Cursor := { w with dst := w.dst - 1 }

/-- What lies between the start of the block and the cursor. -/
def region (w : Cursor) : List (Option UInt8) :=
  (List.range w.dst.toNat).map fun i : Nat => w.mem i

variable {w : Cursor}

theorem put_mem_ne {i : Int} (h : i ≠ w.dst) (c : UInt8) : (w.put c).mem i = w.mem i :=
  Function.update_of_ne h _ _

theorem put_mem_self (w : Cursor) (c : UInt8) : (w.put c).mem w.dst = some c :=
  Function.update_self _ _ _

theorem put_mem {i : Int} (h : i < w.dst) (c : UInt8) : (w.put c).mem i = w.mem i :=
  put_mem_ne (Int.ne_of_lt h) c

theorem finish_mem {i : Int} (h : i < w.dst) : w.finish.mem i = w.mem i :=
  put_mem h NUL

/-- The cursor went forward, and nothing before it changed. -/
def Past (w w' : Cursor) : Prop := w.dst ≤ w'.dst ∧ ∀ i < w.dst, w'.mem i = w.mem i

theorem past_refl (w : Cursor) : w.Past w := ⟨Int.le_refl _, fun _ _ => rfl⟩

theorem past_put (w : Cursor) (c : UInt8) : w.Past (w.put c) :=
  ⟨Int.le_add_of_nonneg_right Int.one_nonneg, fun _ hi => put_mem hi c⟩

theorem past_finish (w : Cursor) : w.Past w.finish := past_put w NUL

theorem Past.trans {w₁ w₂ : Cursor} (h₁ : w.Past w₁) (h₂ : w₁.Past w₂) : w.Past w₂ :=
  ⟨Int.le_trans h₁.1 h₂.1, fun i hi =>
    (h₂.2 i (Int.lt_of_lt_of_le hi h₁.1)).trans (h₁.2 i hi)⟩

theorem region_length (w : Cursor) : w.region.length = w.dst.toNat := by
  rw [region, List.length_map, List.length_range]

theorem region_put (h : 0 ≤ w.dst) (c : UInt8) : (w.put c).region = w.region ++ [some c] := by
  have hn : (w.put c).dst.toNat = w.dst.toNat + 1 := Int.toNat_add h Int.one_nonneg
  rw [region, hn, List.range_succ, List.map_append, List.map_singleton, Int.toNat_of_nonneg h]
  congr 1
  · refine List.map_congr_left ?_
    intro i hi
    have hi : i < w.dst.toNat := List.mem_range.mp hi
    exact put_mem (by omega) c
  · rw [put_mem_self]

theorem region_finish (h : 0 ≤ w.dst) : w.finish.region = w.region ++ [some NUL] :=
  region_put h NUL

theorem region_back (h : 0 < w.dst) : ∃ b, w.region = w.back.region ++ [b] := by
  have hn : w.dst.toNat = w.back.dst.toNat + 1 := by
    simp only [back]
    omega
  refine ⟨w.mem w.back.dst.toNat, ?_⟩
  rw [region, hn, List.range_succ, List.map_append]
  rfl

/-! ### How far it has written -/

/-- Nothing was written at the offset `n` or behind it, and the cursor is not behind it. -/
structure Within (w : Cursor) (n : Int) : Prop where
  dst : w.dst ≤ n
  unwritten : ∀ i, n ≤ i → w.mem i = none

variable {n m : Int}

theorem Within.mono (h : w.Within n) (hnm : n ≤ m) : w.Within m :=
  ⟨Int.le_trans h.dst hnm, fun i hi => h.unwritten i (Int.le_trans hnm hi)⟩

theorem Within.put (h : w.Within n) (c : UInt8) : (w.put c).Within (n + 1) := by
  have hdst := h.dst
  refine ⟨Int.add_le_add_right hdst 1, ?_⟩
  intro i hi
  rw [put_mem_ne (by omega)]
  exact h.unwritten i (by omega)

theorem Within.finish (h : w.Within n) : w.finish.Within (n + 1) :=
  ⟨(h.put NUL).dst, (h.put NUL).unwritten⟩

theorem Within.back (h : w.Within n) : w.back.Within n := by
  have hdst := h.dst
  exact ⟨by simp only [Cursor.back]; omega, h.unwritten⟩

/-! ### The strings written -/

/-- The block holds the strings `toks`, and `cur` of the next one; nothing was written before it. -/
structure Holds (w : Cursor) (toks : List (List UInt8)) (cur : List UInt8) : Prop where
  dst : 0 ≤ w.dst
  written : w.region = (strings toks ++ cur).map some
  before : ∀ i < 0, w.mem i = none
  num : w.num = toks.length
  clean : ∀ tok ∈ toks, NUL ∉ tok
  current : NUL ∉ cur

variable {toks : List (List UInt8)} {cur : List UInt8}

theorem Holds.put (h : w.Holds toks cur) {c : UInt8} (hc : c ≠ NUL) :
    (w.put c).Holds toks (cur ++ [c]) where
  dst := Int.add_nonneg h.dst Int.one_nonneg
  written := by
    rw [region_put h.dst, h.written, ← List.append_assoc, @List.map_append _ _ _ _ [c]]
    rfl
  before := by
    intro i hi
    rw [put_mem (Int.lt_of_lt_of_le hi h.dst)]
    exact h.before i hi
  num := h.num
  clean := h.clean
  current := by
    intro hm
    rcases List.mem_append.mp hm with hm | hm
    · exact h.current hm
    · exact hc (List.mem_singleton.mp hm).symm

theorem Holds.finish (h : w.Holds toks cur) : w.finish.Holds (toks ++ [cur]) [] where
  dst := Int.add_nonneg h.dst Int.one_nonneg
  written := by
    rw [region_finish h.dst, h.written, strings_concat, List.append_nil,
      @List.map_append _ _ _ _ [NUL]]
    rfl
  before := by
    intro i hi
    rw [finish_mem (Int.lt_of_lt_of_le hi h.dst)]
    exact h.before i hi
  num := by
    rw [List.length_append, ← h.num]
    rfl
  clean := List.forall_mem_append.mpr ⟨h.clean, List.forall_mem_singleton.mpr h.current⟩
  current := List.not_mem_nil

/-- A step back takes the last byte of the string under way. -/
theorem Holds.back {c : UInt8} (h : w.Holds toks (cur ++ [c])) : w.back.Holds toks cur := by
  have hpos : 0 < w.dst := by
    have hlen := congrArg List.length h.written
    simp only [region_length, List.length_map, List.length_append, List.length_singleton] at hlen
    omega
  obtain ⟨b, hb⟩ := region_back hpos
  have hw := h.written
  rw [hb, ← List.append_assoc, List.map_append, List.map_singleton] at hw
  exact {
    dst := by simp only [Cursor.back]; omega
    written := (List.append_inj_left' hw rfl)
    before := h.before
    num := h.num
    clean := h.clean
    current := fun hm => h.current (List.mem_append_left _ hm) }

/-- A block holds one row of strings. -/
theorem Holds.unique {toks' : List (List UInt8)} (h : w.Holds toks []) (h' : w.Holds toks' []) :
    toks = toks' := by
  have hw := h.written.symm.trans h'.written
  rw [List.append_nil, List.append_nil] at hw
  exact strings_inj h.clean h'.clean (List.map_injective_iff.mpr (fun _ _ => Option.some.inj) hw)

/-- How far the cursor is. -/
theorem Holds.dst_eq (h : w.Holds toks cur) : w.dst = (strings toks).length + cur.length := by
  have hlen := congrArg List.length h.written
  have hdst := h.dst
  simp only [region_length, List.length_map, List.length_append] at hlen
  omega

/-! ### Beyond repair -/

/-- Something was written before the block, or will be next, or fewer strings are there than were
ended. -/
def Spoilt (w : Cursor) : Prop :=
  (∃ i < 0, w.mem i ≠ none) ∨ w.dst < 0 ∨ w.region.count (some NUL) < w.num

theorem Spoilt.not_holds (h : w.Spoilt) : ¬ w.Holds toks cur := by
  rintro ⟨hdst, hw, hbefore, hnum, hclean, hcur⟩
  rcases h with ⟨i, hi, hm⟩ | hneg | hcount
  · exact hm (hbefore i hi)
  · omega
  · rw [hw, List.count_map_of_injective _ _ (fun _ _ => Option.some.inj), List.count_append,
      count_strings hclean, hnum] at hcount
    omega

/-- A write outside the block cannot be taken back, nor can one to come be avoided. -/
theorem put_before (h : (∃ i < 0, w.mem i ≠ none) ∨ w.dst < 0) (c : UInt8) :
    ∃ i < 0, (w.put c).mem i ≠ none := by
  by_cases hd : w.dst < 0
  · exact ⟨w.dst, hd, by rw [put_mem_self]; exact Option.some_ne_none c⟩
  · obtain ⟨i, hi, hm⟩ := h.resolve_right hd
    exact ⟨i, hi, by rwa [put_mem (by omega)]⟩

theorem Spoilt.put (h : w.Spoilt) {c : UInt8} (hc : c ≠ NUL) : (w.put c).Spoilt := by
  rw [Spoilt, ← or_assoc] at h
  by_cases hout : (∃ i < 0, w.mem i ≠ none) ∨ w.dst < 0
  · exact Or.inl (put_before hout c)
  · have hcount : w.region.count (some NUL) < w.num := h.resolve_left hout
    have hdst : 0 ≤ w.dst := Int.not_lt.mp fun hneg => hout (Or.inr hneg)
    have hne : some c ≠ some NUL := fun e => hc (Option.some.inj e)
    refine Or.inr (Or.inr ?_)
    rw [region_put hdst, List.count_append, List.count_singleton, if_neg (by simpa using hne)]
    exact hcount

theorem Spoilt.finish (h : w.Spoilt) : w.finish.Spoilt := by
  rw [Spoilt, ← or_assoc] at h
  by_cases hout : (∃ i < 0, w.mem i ≠ none) ∨ w.dst < 0
  · exact Or.inl (put_before hout NUL)
  · have hcount : w.region.count (some NUL) < w.num := h.resolve_left hout
    have hdst : 0 ≤ w.dst := Int.not_lt.mp fun hneg => hout (Or.inr hneg)
    refine Or.inr (Or.inr ?_)
    rw [region_finish hdst, List.count_append, List.count_singleton_self]
    exact Nat.add_lt_add_right hcount 1

theorem Spoilt.back (h : w.Spoilt) : w.back.Spoilt := by
  rcases h with hm | hneg | hcount
  · exact Or.inl hm
  · exact Or.inr (Or.inl (by simp only [Cursor.back]; omega))
  · by_cases hpos : 0 < w.dst
    · obtain ⟨b, hb⟩ := region_back hpos
      refine Or.inr (Or.inr ?_)
      rw [hb, List.count_append] at hcount
      exact Nat.lt_of_le_of_lt (Nat.le_add_right _ _) hcount
    · exact Or.inr (Or.inl (by simp only [Cursor.back]; omega))

/-- **A step back at the start of a string spoils the block.** -/
theorem Holds.back_nil (h : w.Holds toks []) : w.back.Spoilt := by
  rcases List.eq_nil_or_concat toks with rfl | ⟨toks, tok, rfl⟩
  · have hlen := congrArg List.length h.written
    simp only [region_length, strings_nil, List.append_nil, List.map_nil, List.length_nil] at hlen
    exact Or.inr (Or.inl (by simp only [Cursor.back]; omega))
  · have hw := h.written
    rw [List.append_nil, List.concat_eq_append, strings_concat, List.map_append,
      List.map_singleton] at hw
    have hpos : 0 < w.dst := by
      have hlen := congrArg List.length hw
      simp only [region_length, List.length_append, List.length_singleton] at hlen
      omega
    obtain ⟨b, hb⟩ := region_back hpos
    rw [hb] at hw
    have hr := List.append_inj_left' hw rfl
    have hnum := h.num
    have hclean : ∀ t ∈ toks, NUL ∉ t := fun t ht => h.clean t (by simp [ht])
    have htok : NUL ∉ tok := h.clean tok (by simp)
    refine Or.inr (Or.inr ?_)
    rw [hr, List.count_map_of_injective _ _ (fun _ _ => Option.some.inj), List.count_append,
      count_strings hclean, List.count_eq_zero.mpr htok]
    simp only [Cursor.back, hnum, List.concat_eq_append, List.length_append, List.length_singleton]
    omega

end Cursor

end OpenWfd
