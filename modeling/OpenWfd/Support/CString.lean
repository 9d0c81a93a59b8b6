import Mathlib.Algebra.Group.Nat.Defs
import Mathlib.Data.List.Basic
import Mathlib.Data.List.TakeWhile
import Mathlib.Tactic.Common

/-!
# Support — CString

Bytes, and the functions of the C library the sources call on NUL-terminated strings.  A string is
the list of its bytes before the NUL; `cstr` reads one out of a block of memory.  The locale is `C`
and `unsigned long` has 64 bits.
-/

namespace OpenWfd

/-! ### Bytes -/

abbrev NUL : UInt8 := 0
abbrev TAB : UInt8 := 9
abbrev LF : UInt8 := 10
abbrev CR : UInt8 := 13
abbrev SP : UInt8 := 32
/-- The double quote. -/
abbrev DQ : UInt8 := 34
/-- The single quote. -/
abbrev SQ : UInt8 := 39
/-- The backslash. -/
abbrev BS : UInt8 := 92

abbrev LT : UInt8 := 60
abbrev GT : UInt8 := 62
abbrev COLON : UInt8 := 58

/-- The bytes of a string literal. -/
def str (s : String) : List UInt8 := s.toList.map fun c => c.toNat.toUInt8

/-- `isspace`. -/
def isSpace (c : UInt8) : Bool := c == SP || (9 ≤ c && c ≤ 13)

/-- `isdigit`. -/
def isDigit (c : UInt8) : Bool := 48 ≤ c && c ≤ 57

/-- `isxdigit`. -/
def isXDigit (c : UInt8) : Bool := isDigit c || (65 ≤ c && c ≤ 70) || (97 ≤ c && c ≤ 102)

/-- `tolower`. -/
def toLower (c : UInt8) : UInt8 := if 65 ≤ c && c ≤ 90 then c + 32 else c

/-! ### The text up to a byte -/

section

variable {p : UInt8 → Bool} {c : UInt8}

theorem takeWhile_stop (hc : p c = false) (s rest : List UInt8) :
    (s ++ c :: rest).takeWhile p = s.takeWhile p := by
  induction s with
  | nil => exact List.takeWhile_cons_of_neg (by simp [hc])
  | cons a s ih =>
      by_cases ha : p a = true
      · rw [List.cons_append, List.takeWhile_cons_of_pos ha, List.takeWhile_cons_of_pos ha, ih]
      · rw [List.cons_append, List.takeWhile_cons_of_neg ha, List.takeWhile_cons_of_neg ha]

theorem dropWhile_stop (hc : p c = false) (s rest : List UInt8) :
    (s ++ c :: rest).dropWhile p = s.dropWhile p ++ c :: rest := by
  induction s with
  | nil => exact List.dropWhile_cons_of_neg (by simp [hc])
  | cons a s ih =>
      by_cases ha : p a = true
      · rw [List.cons_append, List.dropWhile_cons_of_pos ha, List.dropWhile_cons_of_pos ha, ih]
      · rw [List.cons_append, List.dropWhile_cons_of_neg ha, List.dropWhile_cons_of_neg ha,
          List.cons_append]

end

/-! ### Strings -/

/-- A NUL-terminated string, without the NUL. -/
abbrev CStr := { s : List UInt8 // NUL ∉ s }

/-- The string at the start of a block. -/
def cstr (block : List UInt8) : List UInt8 := block.takeWhile (· ≠ NUL)

theorem cstr_append {s rest : List UInt8} (h : NUL ∉ s) : cstr (s ++ NUL :: rest) = s := by
  induction s with
  | nil => simp [cstr]
  | cons c s ih =>
      have hc : c ≠ NUL := fun e => h (by simp [e])
      have hs : NUL ∉ s := fun e => h (by simp [e])
      simp only [cstr, List.cons_append] at ih ⊢
      rw [List.takeWhile_cons_of_pos (by simpa using hc), ih hs]

theorem nul_not_mem_cstr (block : List UInt8) : NUL ∉ cstr block := by
  intro h
  have := List.mem_takeWhile_imp h
  simp at this

/-- `strncmp(a, b, n)`: the difference of the first bytes that differ among the first `n`, a string
that ends early counting as NUL there. -/
def strncmp : List UInt8 → List UInt8 → Nat → Int
  | _, _, 0               => 0
  | [], [], _ + 1         => 0
  | [], b :: _, _ + 1     => 0 - (b.toNat : Int)
  | a :: _, [], _ + 1     => a.toNat
  | a :: as, b :: bs, n + 1 => if a = b then strncmp as bs n else (a.toNat : Int) - b.toNat

/-- `strncmp` with the length of the second string tests for a prefix. -/
theorem strncmp_eq_zero_iff {a b : List UInt8} (hb : NUL ∉ b) :
    strncmp a b b.length = 0 ↔ b <+: a := by
  induction b generalizing a with
  | nil => simp [strncmp]
  | cons y bs ih =>
      have hy : y ≠ NUL := fun e => hb (by simp [e])
      have hbs : NUL ∉ bs := fun e => hb (by simp [e])
      cases a with
      | nil =>
          have hne : y.toNat ≠ 0 := fun h => hy (UInt8.toNat_inj.mp h)
          simp [strncmp, hne]
      | cons x as =>
          rw [List.length_cons, strncmp, List.cons_prefix_cons]
          by_cases hxy : x = y
          · rw [if_pos hxy, ih hbs]
            exact ⟨fun h => ⟨hxy.symm, h⟩, fun h => h.2⟩
          · rw [if_neg hxy]
            have hne : x.toNat ≠ y.toNat := fun h => hxy (UInt8.toNat_inj.mp h)
            constructor
            · intro h
              omega
            · intro h
              exact absurd h.1.symm hxy

/-- The test for a key, whose length is written out. -/
theorem strncmp_key {a key : List UInt8} {n : Nat} (hn : key.length = n) (hk : NUL ∉ key) :
    strncmp a key n = 0 ↔ key <+: a :=
  hn ▸ strncmp_eq_zero_iff hk

/-- The first string is smaller at a byte that both have. -/
def before : List UInt8 → List UInt8 → Bool
  | x :: xs, y :: ys => if x = y then before xs ys else x < y
  | _, _             => false

/-- A string that is not below `b` is above everything before `b`. -/
theorem strncmp_pos_of_before {a b k : List UInt8} (h : before a b = true) (hb : NUL ∉ b)
    (hk : 0 ≤ strncmp k b b.length) : 0 < strncmp k a a.length := by
  induction b generalizing a k with
  | nil => cases a <;> cases h
  | cons y bs ih =>
      have hy : y.toNat ≠ 0 := by
        intro e
        exact hb (by rw [UInt8.toNat_inj.mp
          (show y.toNat = NUL.toNat from e)]; exact List.mem_cons_self)
      have hbs : NUL ∉ bs := fun e => hb (List.mem_cons_of_mem _ e)
      cases a with
      | nil => cases h
      | cons x as =>
          cases k with
          | nil =>
              simp only [List.length_cons, strncmp] at hk
              omega
          | cons c ks =>
              simp only [List.length_cons, strncmp] at hk ⊢
              simp only [before] at h
              by_cases hxy : x = y
              · subst hxy
                rw [if_pos rfl] at h
                by_cases hcx : c = x
                · rw [if_pos hcx] at hk ⊢
                  exact ih h hbs hk
                · rw [if_neg hcx] at hk ⊢
                  have hne : c.toNat ≠ x.toNat := fun e => hcx (UInt8.toNat_inj.mp e)
                  omega
              · rw [if_neg hxy] at h
                have hlt : x.toNat < y.toNat := UInt8.lt_iff_toNat_lt.mp (of_decide_eq_true h)
                have hcy : y.toNat ≤ c.toNat := by
                  by_cases hcy : c = y
                  · rw [hcy]
                  · rw [if_neg hcy] at hk
                    omega
                rw [if_neg (by rintro rfl; omega)]
                omega

/-- `strncasecmp(a, b, n)`. -/
def strncasecmp (a b : List UInt8) (n : Nat) : Int :=
  strncmp (a.map toLower) (b.map toLower) n

/-- The value of a string of decimal digits. -/
def decimalValue (ds : List UInt8) : Nat := ds.foldl (fun v c => 10 * v + (c.toNat - 48)) 0

/-- The optional sign of a number: whether it is a minus, and the text after it. -/
def takeSign : List UInt8 → Bool × List UInt8
  | c :: t => if c = 45 then (true, t) else if c = 43 then (false, t) else (false, c :: t)
  | []     => (false, [])

/-- `strtoul(s, &e, 10)`: the value and the text at `e`.  Leading blanks and one sign are skipped; a
minus negates modulo `2⁶⁴`; a value that does not fit is `ULONG_MAX`; without digits nothing is
consumed. -/
def strtoul (s : List UInt8) : Nat × List UInt8 :=
  let (neg, t) := takeSign (s.dropWhile isSpace)
  let ds := t.takeWhile isDigit
  if ds = [] then
    (0, s)
  else
    let v := decimalValue ds
    (if v ≥ 2 ^ 64 then 2 ^ 64 - 1 else if neg then (2 ^ 64 - v) % 2 ^ 64 else v,
      t.dropWhile isDigit)

theorem takeSign_digit {c : UInt8} (hc : isDigit c) (t : List UInt8) :
    takeSign (c :: t) = (false, c :: t) := by
  have h₁ : c ≠ 45 := by rintro rfl; cases hc
  have h₂ : c ≠ 43 := by rintro rfl; cases hc
  simp only [takeSign, if_neg h₁, if_neg h₂]

theorem isSpace_digit {d : UInt8} (hd : isDigit d) : isSpace d = false := by
  simp only [isDigit, Bool.and_eq_true, decide_eq_true_eq] at hd
  simp only [isSpace, Bool.or_eq_false_iff, Bool.and_eq_false_iff, beq_eq_false_iff_ne,
    decide_eq_false_iff_not]
  refine ⟨?_, Or.inr fun h => ?_⟩
  · rintro rfl
    exact absurd hd.1 (by decide)
  · exact absurd (UInt8.le_trans hd.1 h) (by decide)

/-- `strtoul` reads the decimal digits that are the whole text, after one optional space. -/
theorem strtoul_digits {t ds : List UInt8} (ht : t = ds ∨ t = SP :: ds) (hne : ds ≠ [])
    (hd : ∀ d ∈ ds, isDigit d) (hv : decimalValue ds < 2 ^ 64) :
    strtoul t = (decimalValue ds, []) := by
  obtain ⟨d, ds, rfl⟩ := List.exists_cons_of_ne_nil hne
  have hd₀ : isDigit d := hd d List.mem_cons_self
  have hsp := isSpace_digit hd₀
  have hskip : t.dropWhile isSpace = d :: ds := by
    rcases ht with rfl | rfl
    · rw [List.dropWhile_cons_of_neg (by simp [hsp])]
    · rw [List.dropWhile_cons_of_pos (by decide), List.dropWhile_cons_of_neg (by simp [hsp])]
  unfold strtoul
  rw [hskip, takeSign_digit hd₀]
  dsimp only
  rw [List.takeWhile_eq_self_iff.mpr hd, List.dropWhile_eq_nil_iff.mpr hd,
    if_neg (List.cons_ne_nil _ _), if_neg (Nat.not_le.mpr hv), if_neg Bool.false_ne_true]

end OpenWfd
