import Mathlib.Data.Set.Basic
import Mathlib.Tactic.Common
import OpenWfd.Support.Lts

/-!
# Support — Tenure

Holders who hold resources for a time.  The book of who holds what is a set of entries in which no
holder and no resource occurs twice (`Exclusive`).  An entry may be written over an other holder's
only after that has run out, so what a holder was given stays theirs until it has, or until they act
themselves (`held_step`).
-/

namespace OpenWfd.Tenure

variable {κ ρ : Type*}

/-- `holder` holds `resource`, until the time `upto` has passed. -/
@[ext] structure Entry (κ ρ : Type*) where
  holder : κ
  resource : ρ
  upto : Int
  deriving DecidableEq

/-- The two entries have nothing in common. -/
def Entry.Apart (x y : Entry κ ρ) : Prop := x.holder ≠ y.holder ∧ x.resource ≠ y.resource

/-- No holder and no resource occurs twice. -/
def Exclusive (T : Set (Entry κ ρ)) : Prop := ∀ x ∈ T, ∀ y ∈ T, x = y ∨ x.Apart y

/-- The book after `x` is written in it. -/
def assign (T : Set (Entry κ ρ)) (x : Entry κ ρ) : Set (Entry κ ρ) := {y ∈ T | y.Apart x} ∪ {x}

/-- The book after `k` has given up what it held. -/
def drop (T : Set (Entry κ ρ)) (k : κ) : Set (Entry κ ρ) := {y ∈ T | y.holder ≠ k}

variable {T T' : Set (Entry κ ρ)} {x y : Entry κ ρ} {k : κ}

theorem Entry.Apart.symm (h : x.Apart y) : y.Apart x := ⟨h.1.symm, h.2.symm⟩

theorem exclusive_empty : Exclusive (∅ : Set (Entry κ ρ)) := fun _ h => h.elim

theorem Exclusive.subset (h : Exclusive T) (hs : T' ⊆ T) : Exclusive T' :=
  fun x hx y hy => h x (hs hx) y (hs hy)

theorem Exclusive.assign (h : Exclusive T) (x : Entry κ ρ) : Exclusive (Tenure.assign T x) := by
  rintro y (⟨hy, hyx⟩ | rfl) z (⟨hz, hzx⟩ | rfl)
  · exact h y hy z hz
  · exact Or.inr hyx
  · exact Or.inr hzx.symm
  · exact Or.inl rfl

theorem Exclusive.drop (h : Exclusive T) (k : κ) : Exclusive (Tenure.drop T k) :=
  h.subset fun _ hy => hy.1

/-- Two entries of one resource are one. -/
theorem Exclusive.eq_of_resource (h : Exclusive T) (hx : x ∈ T) (hy : y ∈ T)
    (he : x.resource = y.resource) : x = y :=
  (h x hx y hy).resolve_right fun ha => ha.2 he

/-- Two entries of one holder are one. -/
theorem Exclusive.eq_of_holder (h : Exclusive T) (hx : x ∈ T) (hy : y ∈ T)
    (he : x.holder = y.holder) : x = y :=
  (h x hx y hy).resolve_right fun ha => ha.1 he

theorem mem_assign_self (T : Set (Entry κ ρ)) (x : Entry κ ρ) : x ∈ assign T x := Or.inr rfl

/-- A book in which one resource is held has no other after it is assigned. -/
theorem resource_assign {r : ρ} (h : ∀ y ∈ T, y.resource = r) (hx : x.resource = r) :
    ∀ y ∈ assign T x, y.resource = r := by
  rintro y (⟨hy, -⟩ | rfl)
  · exact h y hy
  · exact hx

/-- And if it is the one assigned, that entry is all that is left. -/
theorem assign_resource (h : ∀ y ∈ T, y.resource = x.resource) : assign T x = {x} := by
  ext y
  constructor
  · rintro (⟨hy, hyx⟩ | rfl)
    · exact absurd (h y hy) hyx.2
    · rfl
  · rintro rfl
    exact mem_assign_self T y

/-! ### The register -/

/-- What a holder does to the book. -/
inductive Deed (κ ρ : Type*) where
  | none
  | assign (x : Entry κ ρ)
  | drop (k : κ)

/-- Who does it. -/
def Deed.actor : Deed κ ρ → Option κ
  | .none     => Option.none
  | .assign x => some x.holder
  | .drop k   => some k

/-- A register in which nothing is written over before its time: an entry is written at the time
`now` only if the resource is free, its holder's own, or its holder's time has passed. -/
def register : Lts (Set (Entry κ ρ)) (Int × Deed κ ρ) where
  step T l T' :=
    match l.2 with
    | .none     => T' = T
    | .assign x =>
      (∀ y ∈ T, y.resource = x.resource → y.holder = x.holder ∨ y.upto < l.1) ∧
      T' = Tenure.assign T x
    | .drop k   => T' = Tenure.drop T k

theorem exclusive_step {l : Int × Deed κ ρ} (h : Exclusive T) (hs : register.step T l T') :
    Exclusive T' := by
  obtain ⟨now, - | x | k⟩ := l
  · rw [show T' = T from hs]
    exact h
  · rw [hs.2]
    exact h.assign x
  · rw [show T' = Tenure.drop T k from hs]
    exact h.drop k

/-- `k` holds `r`, at least until `u` has passed. -/
def Holds (T : Set (Entry κ ρ)) (k : κ) (r : ρ) (u : Int) : Prop :=
  ∃ x ∈ T, x.holder = k ∧ x.resource = r ∧ u ≤ x.upto

/-- What is done leaves `k` in possession of `r` until `u`: `u` is not over, and if it is `k` who
acts, it is to keep `r` at least as long. -/
def Respects (k : κ) (r : ρ) (u : Int) (l : Int × Deed κ ρ) : Prop :=
  l.1 ≤ u ∧ (l.2.actor = some k → ∃ x, l.2 = .assign x ∧ x.resource = r ∧ u ≤ x.upto)

/-- **Tenure.**  What a holder was given stays theirs, through every step that respects it. -/
theorem held_step {r : ρ} {u : Int} {l : Int × Deed κ ρ} (h : Holds T k r u) (hl : Respects k r u l)
    (hs : register.step T l T') : Holds T' k r u := by
  obtain ⟨x, hx, rfl, rfl, hu⟩ := h
  obtain ⟨now, deed⟩ := l
  obtain ⟨hnow, hact⟩ := hl
  cases deed with
  | none =>
      rw [show T' = T from hs]
      exact ⟨x, hx, rfl, rfl, hu⟩
  | assign y =>
      obtain ⟨hguard, rfl⟩ := hs
      by_cases hy : y.holder = x.holder
      · obtain ⟨z, hz, hzr, hzu⟩ := hact (congrArg some hy)
        cases hz
        exact ⟨y, mem_assign_self T y, hy, hzr, hzu⟩
      · refine ⟨x, Or.inl ⟨hx, Ne.symm hy, fun hr => ?_⟩, rfl, rfl, hu⟩
        rcases hguard x hx hr with he | hlt
        · exact hy he.symm
        · exact absurd (hu.trans_lt hlt) (not_lt.mpr hnow)
  | drop j =>
      rw [show T' = Tenure.drop T j from hs]
      refine ⟨x, ⟨hx, fun he => ?_⟩, rfl, rfl, hu⟩
      obtain ⟨z, hz, -⟩ := hact (congrArg some he.symm)
      cases hz

/-- Whoever holds a resource in an exclusive book, nobody else does. -/
theorem Exclusive.holder_eq {r : ρ} {u : Int} (h : Exclusive T) (hk : Holds T k r u) (hy : y ∈ T)
    (hr : y.resource = r) : y.holder = k := by
  obtain ⟨x, hx, rfl, hxr, -⟩ := hk
  rw [h.eq_of_resource hy hx (hr.trans hxr.symm)]

end OpenWfd.Tenure
