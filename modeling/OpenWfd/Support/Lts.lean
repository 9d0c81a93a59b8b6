import Mathlib.Logic.Basic
import Mathlib.Data.List.Basic

/-!
# Support — Lts

Labelled transition systems: runs, invariants of runs, and simulations between two systems.  A
component that answers each operation with an observation is a system whose labels pair the two
(`Lts.ofExec`).
-/

namespace OpenWfd

variable {σ τ ι ο : Type*}

/-- A labelled transition system. -/
structure Lts (σ ι : Type*) where
  step : σ → ι → σ → Prop

namespace Lts

/-- The system of a function that executes an operation and returns an observation. -/
def ofExec (exec : σ → ι → ο × σ) : Lts σ (ι × ο) :=
  ⟨fun s l s' => exec s l.1 = (l.2, s')⟩

/-- `s` reaches `s'` along the labels `ls`. -/
inductive Run (M : Lts σ ι) : σ → List ι → σ → Prop where
  | nil (s : σ) : Run M s [] s
  | cons {s s₁ s' : σ} {l : ι} {ls : List ι}
      (h : M.step s l s₁) (t : Run M s₁ ls s') : Run M s (l :: ls) s'

variable {M : Lts σ ι} {N : Lts τ ι}

theorem Run.one {s s' : σ} {l : ι} (h : M.step s l s') : M.Run s [l] s' :=
  .cons h (.nil _)

theorem Run.trans {s s₁ s' : σ} {ls ls' : List ι} (h₁ : M.Run s ls s₁) (h₂ : M.Run s₁ ls' s') :
    M.Run s (ls ++ ls') s' := by
  induction h₁ with
  | nil => exact h₂
  | cons h _ ih => exact .cons h (ih h₂)

theorem Run.concat {s s₁ s' : σ} {l : ι} {ls : List ι} (h : M.Run s ls s₁) (hl : M.step s₁ l s') :
    M.Run s (ls ++ [l]) s' :=
  h.trans (.one hl)

/-- A run of a concatenation passes through a state between its parts. -/
theorem Run.split {s s' : σ} {ls ls' : List ι} (h : M.Run s (ls ++ ls') s') :
    ∃ s₁, M.Run s ls s₁ ∧ M.Run s₁ ls' s' := by
  induction ls generalizing s with
  | nil => exact ⟨s, .nil s, h⟩
  | cons l ls ih =>
      cases h with
      | cons hl t =>
          obtain ⟨s₁, h₁, h₂⟩ := ih t
          exact ⟨s₁, .cons hl h₁, h₂⟩

theorem run_singleton {s s' : σ} {l : ι} (h : M.Run s [l] s') : M.step s l s' := by
  cases h with
  | cons hl t =>
      cases t with
      | nil => exact hl

/-- What every step preserves holds at the end of every run. -/
theorem Run.invariant {I : σ → Prop} {s s' : σ} {ls : List ι} (h : M.Run s ls s') (h₀ : I s)
    (hstep : ∀ s l s', I s → M.step s l s' → I s') : I s' := by
  induction h with
  | nil => exact h₀
  | cons h _ ih => exact ih (hstep _ _ _ h₀ h)

/-- The steps of `M` that `P` allows. -/
def guard (M : Lts σ ι) (P : σ → ι → Prop) : Lts σ ι :=
  ⟨fun s l s' => P s l ∧ M.step s l s'⟩

/-- `R` is a simulation: a step of `M` from related states is a step of `N` under the same label. -/
def Simulates (M : Lts σ ι) (N : Lts τ ι) (R : σ → τ → Prop) : Prop :=
  ∀ ⦃s l s' t⦄, R s t → M.step s l s' → ∃ t', N.step t l t' ∧ R s' t'

/-- **A simulation carries runs over.** -/
theorem Simulates.run {R : σ → τ → Prop} (S : Simulates M N R) {s s' : σ} {ls : List ι}
    (h : M.Run s ls s') : ∀ {t : τ}, R s t → ∃ t', N.Run t ls t' ∧ R s' t' := by
  induction h with
  | nil => exact fun hR => ⟨_, .nil _, hR⟩
  | cons h _ ih =>
      intro t hR
      obtain ⟨t₁, ht₁, hR₁⟩ := S hR h
      obtain ⟨t', ht', hR'⟩ := ih hR₁
      exact ⟨t', .cons ht₁ ht', hR'⟩

end Lts

end OpenWfd
