import Mathlib.Algebra.Order.Group.Int
import Mathlib.Data.List.Basic
import Mathlib.Tactic.Common

/-!
# Support — BinarySearch

`bsearch` of the C library.  `cmp x` is the sign of the key against the element `x`.  What it finds
compares equal (`bsearch_sound`); in a list that is ordered for the key it finds what compares equal
(`bsearch_complete`), and so what a linear scan finds (`bsearch_eq_find?`).
-/

namespace OpenWfd

variable {α : Type*} {cmp : α → Int} {xs : List α}

/-- The loop of `bsearch`, over the indices from `l` to `u`. -/
def bsearchIn (cmp : α → Int) (xs : List α) : Nat → Nat → Nat → Option α
  | 0, _, _ => none
  | fuel + 1, l, u =>
    if l < u then
      match xs[(l + u) / 2]? with
      | none   => none
      | some x =>
        if cmp x < 0 then bsearchIn cmp xs fuel l ((l + u) / 2)
        else if cmp x > 0 then bsearchIn cmp xs fuel ((l + u) / 2 + 1) u
        else some x
    else
      none

/-- `bsearch`. -/
def bsearch (cmp : α → Int) (xs : List α) : Option α := bsearchIn cmp xs xs.length 0 xs.length

/-- The elements before one that is not above the key are below the key. -/
def Ordered (cmp : α → Int) (xs : List α) : Prop := xs.Pairwise fun a b => 0 ≤ cmp b → 0 < cmp a

theorem bsearchIn_sound {fuel l u : Nat} {x : α} (h : bsearchIn cmp xs fuel l u = some x) :
    x ∈ xs ∧ cmp x = 0 := by
  induction fuel generalizing l u with
  | zero => cases h
  | succ fuel ih =>
      unfold bsearchIn at h
      split_ifs at h with hlu
      rcases hm : xs[(l + u) / 2]? with _ | y <;> simp only [hm] at h
      · cases h
      · split_ifs at h with h₁ h₂
        · exact ih h
        · exact ih h
        · cases h
          exact ⟨List.mem_of_getElem? hm, le_antisymm (not_lt.mp h₂) (not_lt.mp h₁)⟩

theorem bsearch_sound {x : α} (h : bsearch cmp xs = some x) : x ∈ xs ∧ cmp x = 0 :=
  bsearchIn_sound h

/-- The element stays between the bounds. -/
theorem bsearchIn_complete (ho : Ordered cmp xs) {i : Nat} (hi : i < xs.length)
    (heq : cmp xs[i] = 0) {fuel l u : Nat} (hfuel : u - l ≤ fuel) (hl : l ≤ i) (hu : i < u)
    (hlen : u ≤ xs.length) : bsearchIn cmp xs fuel l u = some xs[i] := by
  have hord := List.pairwise_iff_getElem.mp ho
  induction fuel generalizing l u with
  | zero => omega
  | succ fuel ih =>
      have hm : (l + u) / 2 < xs.length := by omega
      unfold bsearchIn
      rw [if_pos (by omega), List.getElem?_eq_getElem hm]
      dsimp only
      split_ifs with h₁ h₂
      · have hlt : i < (l + u) / 2 := by
          by_contra hge
          rcases Nat.lt_or_eq_of_le (Nat.le_of_not_lt hge) with h | h
          · exact absurd (hord _ _ hm hi h heq.ge) (by omega)
          · subst h
            omega
        exact ih (by omega) hl hlt (by omega)
      · have hgt : (l + u) / 2 < i := by
          by_contra hge
          rcases Nat.lt_or_eq_of_le (Nat.le_of_not_lt hge) with h | h
          · exact absurd (hord _ _ hi hm h (by omega)) (by omega)
          · subst h
            omega
        exact ih (by omega) (by omega) hu hlen
      · congr 1
        rcases Nat.lt_trichotomy i ((l + u) / 2) with h | h | h
        · exact absurd (hord _ _ hi hm h (by omega)) (by omega)
        · subst h
          rfl
        · exact absurd (hord _ _ hm hi h heq.ge) (by omega)

theorem bsearch_complete (ho : Ordered cmp xs) {x : α} (hx : x ∈ xs) (heq : cmp x = 0) :
    bsearch cmp xs = some x := by
  obtain ⟨i, hi, rfl⟩ := List.getElem_of_mem hx
  exact bsearchIn_complete ho hi heq (Nat.sub_zero _).le (Nat.zero_le i) hi le_rfl

/-- The search answers what a linear scan does. -/
theorem bsearch_eq_find? (ho : Ordered cmp xs) :
    bsearch cmp xs = xs.find? fun x => decide (cmp x = 0) := by
  rcases hf : xs.find? fun x => decide (cmp x = 0) with _ | x
  · rcases hb : bsearch cmp xs with _ | y
    · rfl
    · obtain ⟨hy, hz⟩ := bsearch_sound hb
      exact absurd (decide_eq_true hz) (List.find?_eq_none.mp hf y hy)
  · have hx : x ∈ xs := List.mem_of_find?_eq_some hf
    have hz := List.find?_some hf
    exact bsearch_complete ho hx (of_decide_eq_true hz)

end OpenWfd
