import Mathlib.Data.List.Basic
import Mathlib.Tactic.Common

/-!
# Support — Cuts

A list in pieces, and the positions it is cut at.  What is behind the first elements is in pieces
again, cut at the same places (`Behind`).
-/

namespace OpenWfd

variable {α : Type*}

/-- The positions between two pieces, and both ends. -/
def cuts : List (List α) → List Nat
  | []          => [0]
  | x :: pieces => 0 :: (cuts pieces).map (x.length + ·)

/-- The list is cut strictly between two positions. -/
def CutIn (pieces : List (List α)) (a b : Nat) : Prop := ∃ p ∈ cuts pieces, a < p ∧ p < b

instance (pieces : List (List α)) (a b : Nat) : Decidable (CutIn pieces a b) :=
  inferInstanceAs (Decidable (∃ p ∈ cuts pieces, a < p ∧ p < b))

variable {x y : List α} {pieces pieces' pieces₁ : List (List α)} {k k' a b : Nat}

theorem cutIn_cons :
    CutIn (x :: pieces) a b ↔ ∃ p ∈ cuts pieces, a < x.length + p ∧ x.length + p < b := by
  unfold CutIn
  rw [cuts]
  constructor
  · rintro ⟨p, hp, ha, hb⟩
    rcases List.mem_cons.mp hp with rfl | hp
    · exact absurd ha (Nat.not_lt_zero a)
    · obtain ⟨q, hq, rfl⟩ := List.mem_map.mp hp
      exact ⟨q, hq, ha, hb⟩
  · rintro ⟨p, hp, ha, hb⟩
    exact ⟨x.length + p, List.mem_cons_of_mem _ (List.mem_map_of_mem hp), ha, hb⟩

theorem zero_mem_cuts : 0 ∈ cuts pieces := by
  cases pieces <;> exact List.mem_cons_self

/-- There is a cut behind the first piece. -/
theorem cutIn_first (ha : a < x.length) (hb : x.length < b) : CutIn (x :: pieces) a b :=
  cutIn_cons.mpr ⟨0, zero_mem_cuts, ha, hb⟩

/-- There is none in it. -/
theorem not_cutIn_first (hb : b ≤ x.length) : ¬ CutIn (x :: pieces) a b := by
  intro h
  obtain ⟨p, -, -, hp⟩ := cutIn_cons.mp h
  omega

/-- `pieces'` is what is behind the first `k` elements of `pieces`. -/
def Behind (k : Nat) (pieces pieces' : List (List α)) : Prop :=
  ∀ a b, CutIn pieces (k + a) (k + b) ↔ CutIn pieces' a b

theorem Behind.trans (h : Behind k pieces pieces₁) (h' : Behind k' pieces₁ pieces') :
    Behind (k + k') pieces pieces' := by
  intro a b
  rw [Nat.add_assoc, Nat.add_assoc, h, h']

theorem behind_first : Behind x.length ((x ++ y) :: pieces) (y :: pieces) := by
  intro a b
  rw [cutIn_cons, cutIn_cons]
  refine exists_congr fun p => and_congr_right fun _ => ?_
  rw [List.length_append]
  omega

theorem behind_cons : Behind x.length (x :: pieces) pieces := by
  intro a b
  rw [cutIn_cons]
  refine exists_congr fun p => and_congr_right fun _ => ?_
  omega

end OpenWfd
