import Mathlib.Data.Nat.ModEq
import Mathlib.Tactic.Ring

/-!
# Support — OnesComplement

Sums in one's complement arithmetic: what carries out of the top digit is added at the bottom, until
the sum is one digit of base `B`.  The sum of digits is then known by its residue modulo `B - 1` and
by whether it is zero (`fold_eq_iff`), and a sum of two-byte words does not depend on the order of
their bytes (`fold_swap`).
-/

namespace OpenWfd.OnesComplement

variable {B m n : Nat}

/-- The lowest digit of `n`, and what carries out of it. -/
def carry (B n : Nat) : Nat := n % B + n / B

/-- Folding, `fuel` times at most. -/
def foldLoop (B : Nat) : Nat → Nat → Nat
  | 0, n        => n
  | fuel + 1, n => if n / B ≠ 0 then foldLoop B fuel (carry B n) else n

/-- `while (n / B) n = n % B + n / B;` -/
def fold (B n : Nat) : Nat := foldLoop B n n

theorem carry_lt (hB : 2 ≤ B) (h : B ≤ n) : carry B n < n := by
  have hq : 0 < n / B := Nat.div_pos h (by omega)
  have hdiv : B * (n / B) + n % B = n := Nat.div_add_mod n B
  have hmul : 2 * (n / B) ≤ B * (n / B) := Nat.mul_le_mul_right _ hB
  unfold carry
  omega

/-- A carry keeps the residue. -/
theorem carry_modEq (hB : 2 ≤ B) : carry B n ≡ n [MOD B - 1] := by
  obtain ⟨b, rfl⟩ : ∃ b, B = b + 1 := ⟨B - 1, by omega⟩
  have hdiv : (b + 1) * (n / (b + 1)) + n % (b + 1) = n := Nat.div_add_mod n (b + 1)
  have hsplit : n = b * (n / (b + 1)) + carry (b + 1) n := by
    calc n = (b + 1) * (n / (b + 1)) + n % (b + 1) := hdiv.symm
      _ = b * (n / (b + 1)) + carry (b + 1) n := by unfold carry; ring
  rw [Nat.add_sub_cancel]
  have hmul : b * (n / (b + 1)) ≡ 0 [MOD b] := (Nat.modEq_zero_iff_dvd).mpr ⟨_, rfl⟩
  calc carry (b + 1) n ≡ 0 + carry (b + 1) n [MOD b] := by rw [Nat.zero_add]
    _ ≡ b * (n / (b + 1)) + carry (b + 1) n [MOD b] := hmul.symm.add_right _
    _ = n := hsplit.symm

theorem carry_eq_zero : carry B n = 0 ↔ n = 0 := by
  constructor
  · intro h
    have hdiv := Nat.div_add_mod n B
    obtain ⟨hm, hd⟩ := Nat.add_eq_zero_iff.mp h
    rw [hm, hd] at hdiv
    exact hdiv.symm
  · rintro rfl
    simp [carry]

/-- What folding does, whatever the fuel that suffices. -/
theorem foldLoop_spec (hB : 2 ≤ B) {fuel : Nat} (h : n ≤ fuel) :
    foldLoop B fuel n < B ∧ foldLoop B fuel n ≡ n [MOD B - 1] ∧
    (foldLoop B fuel n = 0 ↔ n = 0) := by
  induction fuel generalizing n with
  | zero =>
      have hn : n = 0 := by omega
      subst hn
      exact ⟨by simp [foldLoop]; omega, rfl, Iff.rfl⟩
  | succ fuel ih =>
      by_cases hq : n / B ≠ 0
      · have hle : B ≤ n := by
          by_contra hlt
          exact hq (Nat.div_eq_of_lt (by omega))
        have hlt := carry_lt hB hle
        obtain ⟨h₁, h₂, h₃⟩ := ih (n := carry B n) (by omega)
        rw [foldLoop, if_pos hq]
        exact ⟨h₁, h₂.trans (carry_modEq hB), h₃.trans carry_eq_zero⟩
      · rw [foldLoop, if_neg hq]
        have hlt : n < B := (Nat.div_eq_zero_iff_lt (by omega)).mp (not_not.mp hq)
        exact ⟨hlt, rfl, Iff.rfl⟩

theorem fold_lt (hB : 2 ≤ B) : fold B n < B := (foldLoop_spec hB le_rfl).1

theorem fold_modEq (hB : 2 ≤ B) : fold B n ≡ n [MOD B - 1] := (foldLoop_spec hB le_rfl).2.1

theorem fold_eq_zero (hB : 2 ≤ B) : fold B n = 0 ↔ n = 0 := (foldLoop_spec hB le_rfl).2.2

/-- Two digits with one residue are the same, unless one is `0` and the other `B - 1`. -/
theorem digit_eq (hB : 2 ≤ B) {x y : Nat} (hx : x < B) (hy : y < B) (h : x ≡ y [MOD B - 1])
    (h0 : x = 0 ↔ y = 0) : x = y := by
  rcases Nat.eq_zero_or_pos x with rfl | hx0
  · exact (h0.mp rfl).symm
  · have hy0 : 0 < y := by
      rcases Nat.eq_zero_or_pos y with hy0 | hy0
      · rw [h0.mpr hy0] at hx0
        omega
      · exact hy0
    have h' : x - 1 ≡ y - 1 [MOD B - 1] := by
      refine Nat.ModEq.add_right_cancel' 1 ?_
      rwa [Nat.sub_add_cancel hx0, Nat.sub_add_cancel hy0]
    have heq : x - 1 = y - 1 := Nat.ModEq.eq_of_lt_of_lt h' (by omega) (by omega)
    omega

/-- **What a folded sum remembers.** -/
theorem fold_eq_iff (hB : 2 ≤ B) :
    fold B m = fold B n ↔ (m ≡ n [MOD B - 1] ∧ (m = 0 ↔ n = 0)) := by
  constructor
  · intro h
    refine ⟨?_, ?_⟩
    · calc m ≡ fold B m [MOD B - 1] := (fold_modEq hB).symm
        _ = fold B n := h
        _ ≡ n [MOD B - 1] := fold_modEq hB
    · rw [← fold_eq_zero hB (n := m), h, fold_eq_zero hB]
  · rintro ⟨h, h0⟩
    refine digit_eq hB (fold_lt hB) (fold_lt hB) ?_ ?_
    · exact ((fold_modEq hB).trans h).trans (fold_modEq hB).symm
    · rw [fold_eq_zero hB, fold_eq_zero hB, h0]

/-! ### The order of the bytes -/

/-- The two base-`b` digits of `x`, the other way round. -/
def swap (b x : Nat) : Nat := x % b * b + x / b

theorem swap_digits {b q r : Nat} (hr : r < b) : swap b (b * q + r) = r * b + q := by
  rw [swap, Nat.mul_add_mod, Nat.mod_eq_of_lt hr, Nat.mul_add_div (by omega), Nat.div_eq_of_lt hr,
    Nat.add_zero]

theorem exists_digits {b x : Nat} (hx : x < b * b) : ∃ q r, q < b ∧ r < b ∧ x = b * q + r := by
  have hb : 0 < b := by
    rcases Nat.eq_zero_or_pos b with rfl | hb
    · omega
    · exact hb
  exact ⟨x / b, x % b, Nat.div_lt_of_lt_mul hx, Nat.mod_lt x hb, (Nat.div_add_mod x b).symm⟩

/-- Swapping is undone by swapping. -/
theorem swap_swap {b x : Nat} (hx : x < b * b) : swap b (swap b x) = x := by
  obtain ⟨q, r, hq, hr, rfl⟩ := exists_digits hx
  rw [swap_digits hr, Nat.mul_comm r b, swap_digits hq, Nat.mul_comm]

/-- Complementing the digit and swapping its halves commute. -/
theorem swap_complement {b x : Nat} (hx : x < b * b) :
    swap b (b * b - 1 - x) = b * b - 1 - swap b x := by
  obtain ⟨q, r, hq, hr, rfl⟩ := exists_digits hx
  obtain ⟨q', hq'⟩ : ∃ q', b = q + q' + 1 := ⟨b - q - 1, by omega⟩
  obtain ⟨r', hr'⟩ : ∃ r', b = r + r' + 1 := ⟨b - r - 1, by omega⟩
  have hsq : b * b = b * (q + q') + b := by
    rw [← Nat.mul_succ]
    exact congrArg (b * ·) hq'
  have hsq' : b * b = b * (r + r') + b := by
    rw [← Nat.mul_succ]
    exact congrArg (b * ·) hr'
  rw [Nat.mul_add] at hsq hsq'
  have hcompl : b * b - 1 - (b * q + r) = b * q' + r' := by omega
  have hcomm : r * b = b * r := Nat.mul_comm r b
  have hcomm' : r' * b = b * r' := Nat.mul_comm r' b
  rw [hcompl, swap_digits (by omega), swap_digits hr]
  omega

theorem swap_lt {b x : Nat} (hx : x < b * b) : swap b x < b * b := by
  have hb : 0 < b := by
    rcases Nat.eq_zero_or_pos b with rfl | hb
    · omega
    · exact hb
  have hq : x / b < b := Nat.div_lt_of_lt_mul hx
  have hr : x % b + 1 ≤ b := Nat.mod_lt x hb
  calc swap b x < x % b * b + b := by unfold swap; omega
    _ = (x % b + 1) * b := by ring
    _ ≤ b * b := Nat.mul_le_mul_right b hr

theorem swap_eq_zero {b x : Nat} (hb : 0 < b) : swap b x = 0 ↔ x = 0 := by
  constructor
  · intro h
    obtain ⟨hm, hd⟩ := Nat.add_eq_zero_iff.mp h
    have hm0 : x % b = 0 := by
      rcases Nat.mul_eq_zero.mp hm with h | h
      · exact h
      · omega
    have hdiv := Nat.div_add_mod x b
    rw [hm0, hd] at hdiv
    simpa using hdiv.symm
  · rintro rfl
    simp [swap]

/-- Modulo `b² - 1`, swapping is multiplying by `b`. -/
theorem swap_modEq {b x : Nat} (hb : 2 ≤ b) : swap b x ≡ b * x [MOD b * b - 1] := by
  have hdiv : b * (x / b) + x % b = x := Nat.div_add_mod x b
  have hsq : 1 ≤ b * b := Nat.mul_pos (by omega) (by omega)
  have hsplit : b * x = (b * b - 1) * (x / b) + swap b x := by
    obtain ⟨k, hk⟩ : ∃ k, b * b = k + 1 := ⟨b * b - 1, by omega⟩
    calc b * x = b * (b * (x / b) + x % b) := by rw [hdiv]
      _ = b * b * (x / b) + x % b * b := by ring
      _ = (b * b - 1) * (x / b) + swap b x := by rw [hk, Nat.add_sub_cancel]; unfold swap; ring
  have hmul : (b * b - 1) * (x / b) ≡ 0 [MOD b * b - 1] := (Nat.modEq_zero_iff_dvd).mpr ⟨_, rfl⟩
  calc swap b x ≡ 0 + swap b x [MOD b * b - 1] := by rw [Nat.zero_add]
    _ ≡ (b * b - 1) * (x / b) + swap b x [MOD b * b - 1] := hmul.symm.add_right _
    _ = b * x := hsplit.symm

/-- **Swapping the bytes of every word swaps the bytes of the sum.** -/
theorem fold_swap {b : Nat} (hb : 2 ≤ b) {ws : List Nat} :
    fold (b * b) (ws.map (swap b)).sum = swap b (fold (b * b) ws.sum) := by
  have hB : 2 ≤ b * b := le_trans hb (Nat.le_mul_of_pos_left b (by omega))
  have hsum : (ws.map (swap b)).sum ≡ b * ws.sum [MOD b * b - 1] := by
    induction ws with
    | nil => rfl
    | cons w ws ih =>
        simp only [List.map_cons, List.sum_cons, Nat.mul_add]
        exact (swap_modEq hb).add ih
  have hzero : (ws.map (swap b)).sum = 0 ↔ ws.sum = 0 := by
    simp only [List.sum_eq_zero_iff_forall_eq_nat, List.mem_map, forall_exists_index, and_imp,
      forall_apply_eq_imp_iff₂, swap_eq_zero (show 0 < b by omega)]
  refine digit_eq hB (fold_lt hB) (swap_lt (fold_lt hB)) ?_ ?_
  · calc fold (b * b) (ws.map (swap b)).sum
        ≡ (ws.map (swap b)).sum [MOD b * b - 1] := fold_modEq hB
      _ ≡ b * ws.sum [MOD b * b - 1] := hsum
      _ ≡ b * fold (b * b) ws.sum [MOD b * b - 1] := (fold_modEq hB).symm.mul_left b
      _ ≡ swap b (fold (b * b) ws.sum) [MOD b * b - 1] := (swap_modEq hb).symm
  · rw [fold_eq_zero hB, hzero, swap_eq_zero (by omega), fold_eq_zero hB]

end OpenWfd.OnesComplement
