import OpenWfd.Support.CString
import Mathlib.Tactic.Ring

/-!
# Support — Numeral

The number a text denotes, and what `strtoul` makes of it.  `strtoul` reads a text to its end
exactly if the text denotes an integer (`strtoul_end_iff`), and answers that integer modulo `2⁶⁴`,
or `ULONG_MAX` if it is out of range (`ulong`).
-/

namespace OpenWfd

/-- The integer a text denotes: white-space, perhaps a sign, digits, and nothing else. -/
def number (s : List UInt8) : Option Int :=
  let (neg, t) := takeSign (s.dropWhile isSpace)
  if t = [] ∨ t.all isDigit = false then none
  else some (if neg then -(decimalValue t : Int) else decimalValue t)

/-- An integer as an `unsigned long` that `strtoul` answers. -/
def ulong (z : Int) : Nat := if 2 ^ 64 ≤ z.natAbs then 2 ^ 64 - 1 else (z % 2 ^ 64).toNat

/-- The text is white-space and the digits of `v`, which fits an `unsigned long`. -/
structure Numeral (s : List UInt8) (v : Nat) : Prop where
  text : ∃ ws ds, s = ws ++ ds ∧ (∀ c ∈ ws, isSpace c) ∧ ds ≠ [] ∧ (∀ d ∈ ds, isDigit d) ∧
    decimalValue ds = v
  fits : v < 2 ^ 64

theorem Numeral.number_eq {s : List UInt8} {v : Nat} (h : Numeral s v) :
    number s = some (v : Int) := by
  obtain ⟨⟨ws, ds, rfl, hws, hne, hds, rfl⟩, -⟩ := h
  obtain ⟨d, ds, rfl⟩ := List.exists_cons_of_ne_nil hne
  have hd : isDigit d := hds d List.mem_cons_self
  have hskip : (ws ++ d :: ds).dropWhile isSpace = d :: ds := by
    rw [List.dropWhile_append_of_pos hws, List.dropWhile_cons_of_neg (by simp [isSpace_digit hd])]
  have hall : (d :: ds).all isDigit = true := List.all_eq_true.mpr hds
  unfold number
  rw [hskip, takeSign_digit hd]
  dsimp only
  rw [if_neg (by simp [hall])]
  rfl

theorem ulong_natCast {v : Nat} (h : v < 2 ^ 64) : ulong (v : Int) = v := by
  have hn : ((v : Int) % 2 ^ 64).toNat = v := by omega
  rw [ulong, Int.natAbs_natCast, if_neg (Nat.not_le.mpr h), hn]

theorem ulong_eq_zero {z : Int} : ulong z = 0 ↔ z = 0 := by
  unfold ulong
  split_ifs with hz
  · refine ⟨fun h => absurd h (by decide), ?_⟩
    rintro rfl
    exact absurd hz (by decide)
  · omega

/-- `strtoul` stops at a byte that is not part of a number. -/
theorem strtoul_stop {c : UInt8} (hspace : isSpace c = false) (hdigit : isDigit c = false)
    (hminus : c ≠ 45) (hplus : c ≠ 43) (s rest : List UInt8) :
    strtoul (s ++ c :: rest) = ((strtoul s).1, (strtoul s).2 ++ c :: rest) := by
  have hsign : ∀ t, takeSign (t ++ c :: rest) = ((takeSign t).1, (takeSign t).2 ++ c :: rest) := by
    intro t
    rcases t with _ | ⟨a, t⟩
    · rw [List.nil_append, takeSign, if_neg hminus, if_neg hplus]
      rfl
    · rw [List.cons_append, takeSign, takeSign]
      split_ifs <;> rfl
  unfold strtoul
  rw [dropWhile_stop hspace, hsign]
  rcases takeSign (s.dropWhile isSpace) with ⟨neg, t⟩
  dsimp only
  rw [takeWhile_stop hdigit, dropWhile_stop hdigit]
  split_ifs <;> rfl

/-- **`strtoul` reads the whole text** exactly if it denotes an integer. -/
theorem strtoul_end_iff {s : List UInt8} {u : Nat} :
    (s ≠ [] ∧ strtoul s = (u, [])) ↔ ∃ z, number s = some z ∧ u = ulong z := by
  unfold strtoul number
  rcases ht : takeSign (s.dropWhile isSpace) with ⟨neg, t⟩
  dsimp only
  by_cases hall : t = [] ∨ t.all isDigit = false
  · rw [if_pos hall]
    simp only [reduceCtorEq, false_and, exists_false, iff_false, not_and]
    intro hne hs
    by_cases hds : t.takeWhile isDigit = []
    · rw [if_pos hds] at hs
      exact hne (Prod.mk.inj hs).2
    · rw [if_neg hds] at hs
      have hrest : t.dropWhile isDigit = [] := (Prod.mk.inj hs).2
      rw [List.dropWhile_eq_nil_iff] at hrest
      rcases hall with rfl | hall
      · exact hds rfl
      · rw [List.all_eq_true.mpr hrest] at hall
        cases hall
  · rw [if_neg hall]
    rw [not_or, Bool.not_eq_false] at hall
    have hd : ∀ d ∈ t, isDigit d = true := List.all_eq_true.mp hall.2
    rw [List.takeWhile_eq_self_iff.mpr hd, List.dropWhile_eq_nil_iff.mpr hd, if_neg hall.1]
    have hne : s ≠ [] := by
      rintro rfl
      cases ht
      exact hall.1 rfl
    have hvalue : (if decimalValue t ≥ 2 ^ 64 then 2 ^ 64 - 1
        else if neg then (2 ^ 64 - decimalValue t) % 2 ^ 64 else decimalValue t) =
        ulong (if neg then -(decimalValue t : Int) else decimalValue t) := by
      cases neg with
      | false =>
          simp only [Bool.false_eq_true, if_false]
          split_ifs with hv
          · rw [ulong, Int.natAbs_natCast, if_pos hv]
          · exact (ulong_natCast (Nat.not_le.mp hv)).symm
      | true =>
          simp only [if_true, ulong, Int.natAbs_neg, Int.natAbs_natCast]
          split_ifs with hv
          · rfl
          · omega
    rw [hvalue]
    constructor
    · rintro ⟨-, h⟩
      exact ⟨_, rfl, (Prod.mk.inj h).1.symm⟩
    · rintro ⟨z, hz, rfl⟩
      obtain rfl := Option.some.inj hz
      exact ⟨hne, rfl⟩

/-! ### Printing -/

/-- `%lu`, and `%d` of what is not negative. -/
def decimal (n : Nat) : List UInt8 := (Nat.toDigits 10 n).map fun c => c.toNat.toUInt8

theorem foldl_digits {cs : List Char} (h : ∀ c ∈ cs, c.isDigit) (v : Nat) :
    (cs.map fun c => c.toNat.toUInt8).foldl (fun v c => 10 * v + (c.toNat - 48)) v =
      Nat.ofDigitChars 10 cs v := by
  induction cs generalizing v with
  | nil => rfl
  | cons c cs ih =>
      have hc : c.isDigit := h c List.mem_cons_self
      have hsmall : c.toNat < 256 := by
        simp only [Char.isDigit, Bool.and_eq_true, decide_eq_true_eq] at hc
        have hmax : c.toNat ≤ 57 := hc.2
        omega
      have hbyte : c.toNat.toUInt8.toNat = c.toNat := Nat.mod_eq_of_lt hsmall
      rw [List.map_cons, List.foldl_cons, ih fun d hd => h d (List.mem_cons_of_mem c hd), hbyte,
        Nat.ofDigitChars_cons]
      rfl

theorem decimalValue_decimal (n : Nat) : decimalValue (decimal n) = n := by
  have h := @foldl_digits (Nat.toDigits 10 n)
    (fun c hc => Nat.isDigit_of_mem_toDigits (by decide) (by decide) hc) 0
  exact h.trans Nat.ofDigitChars_ten_toDigits

theorem decimal_injective : Function.Injective decimal :=
  Function.LeftInverse.injective decimalValue_decimal

end OpenWfd
