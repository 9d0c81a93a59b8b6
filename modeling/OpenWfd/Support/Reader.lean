import Mathlib.Data.List.Basic
import Mathlib.Tactic.Common

/-!
# Support — Reader

A machine that reads symbols one at a time and may stop with an error, keeping its state either way:
the shape of a loop `for (i = 0; i < len; ++i) { r = step(buf[i]); if (r < 0) break; }`.
-/

namespace OpenWfd

variable {σ τ α ε : Type*}

/-- A machine that reads symbols one at a time. -/
structure Reader (σ α ε : Type*) where
  step : σ → α → Except ε Unit × σ

namespace Reader

/-- Read a list, up to the first error. -/
def run (M : Reader σ α ε) : σ → List α → Except ε Unit × σ
  | s, []      => (.ok (), s)
  | s, a :: as =>
    match M.step s a with
    | (.error e, s) => (.error e, s)
    | (.ok (), s)   => M.run s as

@[simp] theorem run_nil (M : Reader σ α ε) (s : σ) : M.run s [] = (.ok (), s) := rfl

theorem run_cons_ok {M : Reader σ α ε} {s s' : σ} {a : α} (h : M.step s a = (.ok (), s'))
    (as : List α) : M.run s (a :: as) = M.run s' as := by
  simp only [run, h]

theorem run_cons_error {M : Reader σ α ε} {s s' : σ} {a : α} {e : ε}
    (h : M.step s a = (.error e, s')) (as : List α) : M.run s (a :: as) = (.error e, s') := by
  simp only [run, h]

/-- Reading a concatenation is reading its parts one after the other. -/
theorem run_append (M : Reader σ α ε) (s : σ) (as bs : List α) :
    M.run s (as ++ bs) = match M.run s as with
      | (.error e, s') => (.error e, s')
      | (.ok (), s')   => M.run s' bs := by
  induction as generalizing s with
  | nil => rfl
  | cons a as ih =>
      rcases h : M.step s a with ⟨_ | _, s'⟩
      · rw [List.cons_append, run_cons_error h, run_cons_error h]
      · rw [List.cons_append, run_cons_ok h, run_cons_ok h, ih]

theorem run_append_ok {M : Reader σ α ε} {s s' : σ} {as : List α} (h : M.run s as = (.ok (), s'))
    (bs : List α) : M.run s (as ++ bs) = M.run s' bs := by
  rw [run_append, h]

theorem run_append_error {M : Reader σ α ε} {s s' : σ} {as : List α} {e : ε}
    (h : M.run s as = (.error e, s')) (bs : List α) : M.run s (as ++ bs) = (.error e, s') := by
  rw [run_append, h]

/-- A run that fails fails at one of the symbols. -/
theorem run_error {M : Reader σ α ε} {s s' : σ} {l : List α} {e : ε}
    (h : M.run s l = (.error e, s')) :
    ∃ as a bs s₁, l = as ++ a :: bs ∧ M.run s as = (.ok (), s₁) ∧ M.step s₁ a = (.error e, s') := by
  induction l generalizing s with
  | nil => cases h
  | cons a l ih =>
      rcases hs : M.step s a with ⟨f | _, s₁⟩
      · rw [run_cons_error hs] at h
        cases h
        exact ⟨[], a, l, s, rfl, rfl, hs⟩
      · rw [run_cons_ok hs] at h
        obtain ⟨as, b, bs, s₂, rfl, hrun, hfail⟩ := ih h
        exact ⟨a :: as, b, bs, s₂, rfl, (run_cons_ok hs as).trans hrun, hfail⟩

/-! ### Invariants -/

/-- `I` holds of the state after a success and `E` of the state after an error. -/
def Ends (I E : σ → Prop) : Except ε Unit × σ → Prop
  | (.ok _, s)    => I s
  | (.error _, s) => E s

/-- An invariant of the successful steps, and what holds when one fails from it. -/
theorem run_ends {M : Reader σ α ε} {I E : σ → Prop} (hstep : ∀ s a, I s → Ends I E (M.step s a))
    {s : σ} (h₀ : I s) (as : List α) : Ends I E (M.run s as) := by
  induction as generalizing s with
  | nil => exact h₀
  | cons a as ih =>
      have h := hstep s a h₀
      rcases hs : M.step s a with ⟨_ | _, s'⟩
      · rw [hs] at h
        rw [run_cons_error hs]
        exact h
      · rw [hs] at h
        rw [run_cons_ok hs]
        exact ih h

/-! ### Two machines in lockstep -/

/-- Two outcomes agree: both succeed, in states related by `R`, or both fail with the same error, in
states related by `E`. -/
def Agree (R E : σ → τ → Prop) : Except ε Unit × σ → Except ε Unit × τ → Prop
  | (.ok _, s), (.ok _, t)       => R s t
  | (.error e, s), (.error f, t) => e = f ∧ E s t
  | _, _                         => False

/-- **Lockstep.**  The relation between the two states may mention the symbols still to be read, as
when one machine holds its input in a buffer. -/
theorem run_agree {M : Reader σ α ε} {N : Reader τ α ε} {R : List α → σ → τ → Prop}
    {E : σ → τ → Prop}
    (hstep : ∀ s t a as, R (a :: as) s t → Agree (R as) E (M.step s a) (N.step t a))
    {s : σ} {t : τ} {l : List α} (h₀ : R l s t) : Agree (R []) E (M.run s l) (N.run t l) := by
  induction l generalizing s t with
  | nil => exact h₀
  | cons a as ih =>
      have h := hstep s t a as h₀
      rcases hs : M.step s a with ⟨_ | _, s'⟩ <;> rcases ht : N.step t a with ⟨_ | _, t'⟩ <;>
        rw [hs, ht] at h
      · rw [run_cons_error hs, run_cons_error ht]; exact h
      · exact h.elim
      · exact h.elim
      · rw [run_cons_ok hs, run_cons_ok ht]; exact ih h

/-! ### An observer -/

variable {ν : Type*}

/-- The machine with an observer beside it, who takes notes of every symbol: of the states before
and after it. -/
def watch (M : Reader σ α ε) (see : ν → σ → α → σ → ν) : Reader (σ × ν) α ε :=
  ⟨fun (s, n) a => ((M.step s a).1, ((M.step s a).2, see n s a (M.step s a).2))⟩

/-- Machines in lockstep that look alike to their observers are in lockstep with them. -/
theorem watch_agree {M : Reader σ α ε} {N : Reader τ α ε} {R : List α → σ → τ → Prop}
    {E : σ → τ → Prop} {see : ν → σ → α → σ → ν} {see' : ν → τ → α → τ → ν}
    (hstep : ∀ s t a as, R (a :: as) s t → Agree (R as) E (M.step s a) (N.step t a))
    (hsee : ∀ n s t a as s' t', R (a :: as) s t → R as s' t' → see n s a s' = see' n t a t')
    {s : σ} {t : τ} {l : List α} (h₀ : R l s t) (n : ν) :
    Agree (fun (x : σ × ν) (y : τ × ν) => R [] x.1 y.1 ∧ x.2 = y.2) (fun x y => E x.1 y.1)
      ((M.watch see).run (s, n) l) ((N.watch see').run (t, n) l) := by
  refine run_agree (R := fun as (x : σ × ν) (y : τ × ν) => R as x.1 y.1 ∧ x.2 = y.2) ?_ ⟨h₀, rfl⟩
  rintro ⟨s, n⟩ ⟨t, m⟩ a as ⟨hR, hn⟩
  dsimp only at hR hn
  subst hn
  have h := hstep s t a as hR
  simp only [watch]
  rcases hs : M.step s a with ⟨_ | _, s'⟩ <;> rcases ht : N.step t a with ⟨_ | _, t'⟩ <;>
    rw [hs, ht] at h
  · exact h
  · exact h.elim
  · exact h.elim
  · exact ⟨h, hsee n s t a as s' t' hR h⟩

/-- The observer changes nothing. -/
theorem watch_run (M : Reader σ α ε) (see : ν → σ → α → σ → ν) (s : σ) (n : ν) (as : List α) :
    ((M.watch see).run (s, n) as).1 = (M.run s as).1 ∧
      ((M.watch see).run (s, n) as).2.1 = (M.run s as).2 := by
  induction as generalizing s n with
  | nil => exact ⟨rfl, rfl⟩
  | cons a as ih =>
      rcases hs : M.step s a with ⟨e | _, s'⟩
      · have hw : (M.watch see).step (s, n) a = (.error e, (s', see n s a s')) := by
          simp only [watch, hs]
        rw [run_cons_error hs, run_cons_error hw]
        exact ⟨rfl, rfl⟩
      · have hw : (M.watch see).step (s, n) a = (.ok (), (s', see n s a s')) := by
          simp only [watch, hs]
        rw [run_cons_ok hs, run_cons_ok hw]
        exact ih s' (see n s a s')

end Reader

end OpenWfd
