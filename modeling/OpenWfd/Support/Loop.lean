import Mathlib.Data.Fintype.Pigeonhole
import Mathlib.Tactic.Common

/-!
# Support — Loop

`while (1)` loops: the body takes a state to the next one or leaves the loop with a result.
`iterate` runs the body a number of times.  A loop over finitely many states that is not left
within as many rounds is never left (`iterate_card`), and a loop that takes many rounds to one round
of another inherits that (`Refines.iterate`).
-/

namespace OpenWfd.Loop

variable {σ τ ρ : Type*}

/-- At most this many rounds of the loop from `s`, and the result if it was left. -/
def iterate (body : σ → σ ⊕ ρ) : Nat → σ → Option ρ
  | 0, _     => none
  | n + 1, s =>
    match body s with
    | .inl s' => iterate body n s'
    | .inr r  => some r

variable {body : σ → σ ⊕ ρ} {s s' : σ} {r : ρ} {m n : Nat}

theorem iterate_inl (h : body s = .inl s') : iterate body (n + 1) s = iterate body n s' := by
  rw [iterate, h]

theorem iterate_inr (h : body s = .inr r) : iterate body (n + 1) s = some r := by
  rw [iterate, h]

/-- More rounds do not change a result. -/
theorem iterate_mono (h : iterate body n s = some r) (hle : n ≤ m) : iterate body m s = some r := by
  induction n generalizing s m with
  | zero => cases h
  | succ n ih =>
      obtain ⟨m, rfl⟩ : ∃ k, m = k + 1 := ⟨m - 1, by omega⟩
      rcases hb : body s with s' | r'
      · rw [iterate_inl hb] at h ⊢
        exact ih h (by omega)
      · rw [iterate_inr hb] at h ⊢
        exact h

/-- A loop is left from a state of which its invariant holds. -/
theorem iterate_invariant {I : σ → Prop} (hstep : ∀ s s', I s → body s = .inl s' → I s') (h₀ : I s)
    (h : iterate body n s = some r) : ∃ s', I s' ∧ body s' = .inr r := by
  induction n generalizing s with
  | zero => cases h
  | succ n ih =>
      rcases hb : body s with s' | r'
      · rw [iterate_inl hb] at h
        exact ih (hstep s s' h₀ hb) h
      · rw [iterate_inr hb] at h
        cases h
        exact ⟨s, h₀, hb⟩

/-- The state after `n` rounds, if the loop has not been left. -/
def after (body : σ → σ ⊕ ρ) : Nat → σ → Option σ
  | 0, s     => some s
  | n + 1, s =>
    match body s with
    | .inl s' => after body n s'
    | .inr _  => none

theorem iterate_eq_none_iff : iterate body n s = none ↔ ∃ s', after body n s = some s' := by
  induction n generalizing s with
  | zero => simp [iterate, after]
  | succ n ih =>
      rw [iterate, after]
      rcases body s with s' | r'
      · exact ih
      · simp

theorem after_add (h : after body m s = some s') : iterate body (m + n) s = iterate body n s' := by
  induction m generalizing s with
  | zero =>
      cases h
      rw [Nat.zero_add]
  | succ m ih =>
      rw [after] at h
      rw [Nat.add_right_comm]
      rcases hb : body s with s₁ | r₁ <;> rw [hb] at h
      · rw [iterate_inl hb]
        exact ih h
      · cases h

theorem after_after (h : after body m s = some s') : after body (m + n) s = after body n s' := by
  induction m generalizing s with
  | zero =>
      cases h
      rw [Nat.zero_add]
  | succ m ih =>
      rw [Nat.add_right_comm, after]
      rw [after] at h
      rcases hb : body s with s₁ | r₁ <;> rw [hb] at h
      · exact ih h
      · cases h

/-- A loop that comes back to a state is never left. -/
theorem iterate_cycle {k : Nat} (hk : 0 < k) (h : after body k s = some s) (n : Nat) :
    iterate body n s = none := by
  have hstep : ∀ j, iterate body (j * k) s = none := by
    intro j
    induction j with
    | zero => rw [Nat.zero_mul]; rfl
    | succ j ih => rw [Nat.succ_mul, Nat.add_comm, after_add h, ih]
  rcases hn : iterate body n s with - | r
  · rfl
  · have hmul : n ≤ n * k := Nat.le_mul_of_pos_right n hk
    have hsome := iterate_mono hn hmul
    rw [hstep n] at hsome
    cases hsome

/-- **Finitely many states.**  A loop that is left at all is left within as many rounds as there are
states. -/
theorem iterate_card [Fintype σ] (h : iterate body n s = some r) :
    iterate body (Fintype.card σ) s = some r := by
  rcases hc : iterate body (Fintype.card σ) s with - | r'
  · exfalso
    -- none of the states before round `card σ` leaves the loop, so two of them are the same
    have hlive : ∀ i : Fin (Fintype.card σ + 1), ∃ s', after body i s = some s' := by
      intro i
      rw [← iterate_eq_none_iff]
      rcases hi : iterate body i s with - | r₁
      · rfl
      · rw [iterate_mono hi (by omega)] at hc
        cases hc
    choose f hf using hlive
    obtain ⟨i, j, hij, heq⟩ := Fintype.exists_ne_map_eq_of_card_lt f (by simp)
    wlog hlt : (i : Nat) < j generalizing i j
    · exact this j i (Ne.symm hij) heq.symm (by omega)
    have hcycle : after body (j - i) (f i) = some (f i) := by
      obtain ⟨d, hd⟩ : ∃ d, (j : Nat) = i + d := ⟨j - i, by omega⟩
      rw [show (j : Nat) - i = d by omega]
      rw [← after_after (hf i), ← hd, hf j, heq]
    have hnever := iterate_cycle (by omega) hcycle
    have hn := after_add (n := n) (hf i)
    rw [hnever n, iterate_mono h (by omega)] at hn
    cases hn
  · rw [← iterate_mono hc (Nat.le_max_left _ n), iterate_mono h (Nat.le_max_right _ n)]

/-! ### Loops in loops -/

/-- From related states, one round of `coarse` is between one and `K` rounds of `fine`. -/
def Refines (fine : σ → σ ⊕ ρ) (coarse : τ → τ ⊕ ρ) (R : σ → τ → Prop) (K : Nat) : Prop :=
  ∀ s t, R s t → ∃ k, 0 < k ∧ k ≤ K ∧
    match coarse t with
    | .inl t' => ∃ s', R s' t' ∧ ∀ n, iterate fine (n + k) s = iterate fine n s'
    | .inr r  => ∀ n, iterate fine (n + k) s = some r

variable {fine : σ → σ ⊕ ρ} {coarse : τ → τ ⊕ ρ} {R : σ → τ → Prop} {K : Nat} {t : τ}

theorem Refines.iterate (S : Refines fine coarse R K) (hR : R s t)
    (h : Loop.iterate coarse n t = some r) : Loop.iterate fine (n * K) s = some r := by
  induction n generalizing s t with
  | zero => cases h
  | succ n ih =>
      obtain ⟨k, -, hk, hstep⟩ := S s t hR
      rcases hc : coarse t with t' | r' <;> rw [hc] at hstep
      · obtain ⟨s', hR', hrun⟩ := hstep
        rw [iterate_inl hc] at h
        have hle : n * K + k ≤ (n + 1) * K := by
          rw [Nat.succ_mul]
          omega
        refine iterate_mono ?_ hle
        rw [hrun]
        exact ih hR' h
      · rw [iterate_inr hc] at h
        cases h
        have hle : 0 + k ≤ (n + 1) * K := by
          rw [Nat.succ_mul]
          omega
        exact iterate_mono (hstep 0) hle

/-- And back: the coarse loop needs no more rounds. -/
theorem Refines.back (S : Refines fine coarse R K) (hR : R s t)
    (h : Loop.iterate fine n s = some r) : Loop.iterate coarse n t = some r := by
  induction n using Nat.strongRecOn generalizing s t with
  | _ n ih =>
      obtain ⟨k, hpos, -, hstep⟩ := S s t hR
      have hn : n ≠ 0 := by
        rintro rfl
        cases h
      obtain ⟨n, rfl⟩ : ∃ j, n = j + 1 := ⟨n - 1, by omega⟩
      rcases hc : coarse t with t' | r' <;> rw [hc] at hstep
      · obtain ⟨s', hR', hrun⟩ := hstep
        rw [iterate_inl hc]
        -- with fewer than `k` rounds the fine loop would not have been left
        have hs' : Loop.iterate fine (n + 1 - k) s' = some r ∨ n + 1 < k := by
          by_cases hk : n + 1 < k
          · exact Or.inr hk
          · have := hrun (n + 1 - k)
            rw [show n + 1 - k + k = n + 1 by omega, h] at this
            exact Or.inl this.symm
        rcases hs' with hs' | hk
        · exact iterate_mono (ih _ (by omega) hR' hs') (by omega)
        · have hnone : Loop.iterate fine k s = none := by
            have := hrun 0
            rw [Nat.zero_add] at this
            rw [this]
            rfl
          rw [iterate_mono h (by omega)] at hnone
          cases hnone
      · rw [iterate_inr hc]
        have hr := hstep (n + 1)
        rw [iterate_mono h (by omega)] at hr
        exact hr.symm

end OpenWfd.Loop
