import Mathlib.Data.Nat.Log
import Mathlib.Tactic.Ring

/-!
# Support — SizeT

Arithmetic of a 64-bit `size_t`: addition and subtraction wrap at `2⁶⁴`.  The rest of the module
is about *smearing*: `v |= v >> 1; v |= v >> 2; … v |= v >> 32` sets every bit below the highest
set bit of `v`, so the value after it, plus one, is the next power of two.
-/

namespace OpenWfd.SizeT

/-- `2⁶⁴`, the number of values of a `size_t`. -/
def modulus : Nat := 2 ^ 64

/-- `PTRDIFF_MAX`: no object is larger. -/
def ptrdiffMax : Nat := 2 ^ 63 - 1

/-- `a + b` on `size_t`. -/
def add (a b : Nat) : Nat := (a + b) % modulus

/-- `a - b` on `size_t`. -/
def sub (a b : Nat) : Nat := (a + modulus - b % modulus) % modulus

theorem add_of_lt {a b : Nat} (h : a + b < modulus) : add a b = a + b :=
  Nat.mod_eq_of_lt h

theorem sub_of_le {a b : Nat} (ha : a < modulus) (h : b ≤ a) : sub a b = a - b := by
  simp only [sub, modulus] at *
  omega

/-- `RING_MASK`-style masking: `v & (2ᵏ - 1)` is the remainder modulo `2ᵏ`. -/
theorem and_pred_two_pow {v k : Nat} (hk : k < 64) : v &&& sub (2 ^ k) 1 = v % 2 ^ k := by
  have h1 : 1 ≤ 2 ^ k := Nat.one_le_two_pow
  have h2 : 2 ^ k < modulus := Nat.pow_lt_pow_right (by norm_num) hk
  rw [sub_of_le h2 h1, Nat.and_two_pow_sub_one_eq_mod]

/-! ### Smearing -/

/-- One round of the loop: `v |= v >> i`. -/
def smearStep (v i : Nat) : Nat := v ||| (v >>> i)

/-- The six rounds of `for (i = 1; i < 8 * sizeof(size_t); i *= 2)`. -/
def smear (v : Nat) : Nat := [1, 2, 4, 8, 16, 32].foldl smearStep v

/-- Bit `j` of `x` is set exactly if `v` has a set bit among the `w` bits from `j` on. -/
def Window (v w x : Nat) : Prop := ∀ j, x.testBit j = true ↔ ∃ k < w, v.testBit (j + k) = true

theorem window_one (v : Nat) : Window v 1 v := fun j => by
  constructor
  · exact fun h => ⟨0, by omega, h⟩
  · rintro ⟨k, hk, h⟩
    obtain rfl : k = 0 := by omega
    exact h

/-- A round with shift `w` doubles a window of width `w`. -/
theorem window_double {v w x : Nat} (h : Window v w x) : Window v (w + w) (smearStep x w) := by
  intro j
  rw [smearStep, Nat.testBit_or, Nat.testBit_shiftRight, Bool.or_eq_true, h j, h (w + j)]
  constructor
  · rintro (⟨k, hk, hb⟩ | ⟨k, hk, hb⟩)
    · exact ⟨k, by omega, hb⟩
    · exact ⟨w + k, by omega, by rwa [show j + (w + k) = w + j + k by ring]⟩
  · rintro ⟨k, hk, hb⟩
    by_cases hw : k < w
    · exact Or.inl ⟨k, hw, hb⟩
    · exact Or.inr ⟨k - w, by omega, by rwa [show w + j + (k - w) = j + k by omega]⟩

theorem window_smear (v : Nat) : Window v 64 (smear v) :=
  window_double (window_double (window_double (window_double (window_double (window_double
    (window_one v))))))

/-- **Smearing fills the number below its top bit.** -/
theorem smear_eq {v : Nat} (h0 : v ≠ 0) (hv : v < modulus) : smear v = 2 ^ (v.log2 + 1) - 1 := by
  have hlog : v.log2 < 64 := (Nat.log2_lt h0).mpr hv
  refine Nat.eq_of_testBit_eq fun j => ?_
  rw [Nat.testBit_two_pow_sub_one, Bool.eq_iff_iff, window_smear v j, decide_eq_true_iff]
  constructor
  · rintro ⟨k, -, hb⟩
    have hle : 2 ^ (j + k) ≤ v := Nat.ge_two_pow_of_testBit hb
    have : j + k ≤ v.log2 := (Nat.le_log2 h0).mpr hle
    omega
  · intro hj
    refine ⟨v.log2 - j, by omega, ?_⟩
    rw [show j + (v.log2 - j) = v.log2 by omega]
    exact Nat.testBit_log2 h0

end OpenWfd.SizeT
