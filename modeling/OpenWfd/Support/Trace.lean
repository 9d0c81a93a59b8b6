import Mathlib.Data.List.Infix
import Mathlib.Logic.Relation

/-!
# Support — Trace

Facts about logs that only grow: what holds of every event given the events before it
(`Throughout`), and what every step of a machine preserves (`closure_invariant`).
-/

namespace OpenWfd

variable {σ ε : Type*} {P Q : List ε → ε → Prop} {log pre : List ε}

/-- Every event `e` of the log, after the events `pre`, satisfies `P pre e`. -/
def Throughout (P : List ε → ε → Prop) (log : List ε) : Prop :=
  ∀ pre e post, log = pre ++ e :: post → P pre e

theorem throughout_nil : Throughout P [] := by
  intro pre e post h
  simp at h

theorem Throughout.concat (h : Throughout P log) {e : ε} (he : P log e) :
    Throughout P (log ++ [e]) := by
  intro pre e' post heq
  rcases List.eq_nil_or_concat post with rfl | ⟨post, e₁, rfl⟩
  · obtain ⟨rfl, hlast⟩ := List.append_inj' heq rfl
    rw [← List.singleton_inj.mp hlast]
    exact he
  · rw [List.concat_eq_append, ← List.cons_append, ← List.append_assoc] at heq
    obtain ⟨rfl, -⟩ := List.append_inj' heq rfl
    exact h pre e' post rfl

theorem Throughout.of_prefix (h : Throughout P log) (hp : pre <+: log) : Throughout P pre := by
  obtain ⟨rest, rfl⟩ := hp
  intro pre' e post heq
  exact h pre' e (post ++ rest) (by rw [heq, List.append_assoc, List.cons_append])

theorem Throughout.last {e : ε} (h : Throughout P (log ++ [e])) : P log e :=
  h log e [] rfl

/-- What every step preserves, any number of steps preserves. -/
theorem closure_invariant {r : σ → σ → Prop} {I : σ → Prop} {s s' : σ}
    (h : Relation.ReflTransGen r s s') (h₀ : I s) (hstep : ∀ s s', I s → r s s' → I s') : I s' := by
  induction h with
  | refl => exact h₀
  | tail _ hs ih => exact hstep _ _ ih hs

end OpenWfd
