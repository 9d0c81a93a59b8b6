import OpenWfd.Decoder.Messages
import OpenWfd.Decoder.Quoting
import OpenWfd.Support.Quoted

/-!
# Decoder — Squeeze

What `sanitize_header_line` makes of a line of unquoted text and complete quoted strings, in which
it finds no NUL.  `Squeezed` says it by the line alone: each run of white-space outside the quoted
strings is one space, or nothing at the end, and all else stays.

**Only white-space changes** (`sanitize_squeezed`).  A run of white-space leaves the loop behind a
space, where it drops more of it; everything else leaves it behind a byte that is no space.  At the
end of the line the loop may have written one space too many, which is what is trimmed.
-/

namespace OpenWfd.Rtsp

/-- The second line is the first with every run of white-space outside quotes squeezed to one space,
or removed at the end. -/
inductive Squeezed : List UInt8 → List UInt8 → Prop where
  | ends {ws : List UInt8} (hws : ∀ c ∈ ws, White c) : Squeezed ws []
  | keep {c : UInt8} {line out : List UInt8} (hq : c ≠ DQ) (hw : ¬ White c)
      (h : Squeezed line out) :
      Squeezed (c :: line) (c :: out)
  | quoted (items : List Item) {line out : List UInt8} (h : Squeezed line out) :
      Squeezed (DQ :: (raws items ++ DQ :: line)) (DQ :: (raws items ++ DQ :: out))
  | gap {ws line out : List UInt8} {c : UInt8} (hws : ∀ d ∈ ws, White d) (hne : ws ≠ [])
      (hc : ¬ White c) (h : Squeezed (c :: line) out) : Squeezed (ws ++ c :: line) (SP :: out)

/-! ### The string and its length -/

/-- The string `sanitize_header_line` makes of a line, which `shl_ring_copy` ended with a NUL, and
the length it returns. -/
def sanitized (line : List UInt8) : List UInt8 × Nat :=
  let (block, len) := sanitizeHeaderLine (line ++ [NUL]) line.length
  (cstr block, len)

theorem sanitized_eq (line : List UInt8) :
    sanitized line =
      (trimEnd (San.init.run line).out, (trimEnd (San.init.run line).out).length) := by
  have hnul : NUL ∉ (San.init.run line).out := San.run_out List.not_mem_nil line
  unfold sanitized sanitizeHeaderLine
  rw [List.take_left]
  generalize (San.init.run line).out = out at hnul ⊢
  have hpre : trimEnd out <+: out := List.rdropWhile_prefix _ _
  have hrep : out.length + 1 - (trimEnd out).length = out.length - (trimEnd out).length + 1 := by
    have := hpre.length_le
    omega
  dsimp only
  rw [hrep, List.replicate_succ, List.append_assoc, List.cons_append,
    cstr_append fun hm => hnul (hpre.subset hm)]

/-! ### Every line outside quotes is squeezed to something -/

theorem not_white_quote : ¬ White DQ := by decide

/-- White-space before a line is a new run, or part of one. -/
theorem Squeezed.cons_white {c : UInt8} {line out : List UInt8} (hc : White c)
    (h : Squeezed line out) :
    ∃ out', Squeezed (c :: line) out' := by
  have hone : ∀ d ∈ [c], White d := fun d hd => List.mem_singleton.mp hd ▸ hc
  cases h with
  | ends hws => exact ⟨[], .ends (List.forall_mem_cons.mpr ⟨hc, hws⟩)⟩
  | keep hq hw h => exact ⟨_, .gap hone (List.cons_ne_nil _ _) hw (.keep hq hw h)⟩
  | quoted items h => exact ⟨_, .gap hone (List.cons_ne_nil _ _) not_white_quote (.quoted items h)⟩
  | gap hws hne hw h =>
      exact ⟨_, .gap (List.forall_mem_cons.mpr ⟨hc, hws⟩) (List.cons_ne_nil _ _) hw h⟩

theorem Outside.squeezed_append {pre : List UInt8} (ho : Outside pre) {line out : List UInt8}
    (h : Squeezed line out) : ∃ out', Squeezed (pre ++ line) out' := by
  induction ho generalizing line out with
  | nil => exact ⟨out, h⟩
  | @text pre c ho hc ih =>
      rw [List.append_assoc, List.singleton_append]
      by_cases hw : White c
      · obtain ⟨out', h'⟩ := h.cons_white hw
        exact ih h'
      · exact ih (.keep hc hw h)
  | @quoted pre ho items ih =>
      have hsplit : pre ++ DQ :: (raws items ++ [DQ]) ++ line =
          pre ++ DQ :: (raws items ++ DQ :: line) := by
        simp
      rw [hsplit]
      exact ih (.quoted items h)

theorem Outside.squeezed {line : List UInt8} (ho : Outside line) : ∃ out, Squeezed line out := by
  have hend : Squeezed [] [] := .ends (List.forall_mem_nil _)
  have h := ho.squeezed_append hend
  rwa [List.append_nil] at h

theorem Squeezed.ne_nil {line out : List UInt8} (h : Squeezed line out) {c : UInt8} (hm : c ∈ line)
    (hc : ¬ White c) : out ≠ [] := by
  cases h with
  | ends hws => exact absurd (hws c hm) hc
  | keep | quoted | gap => exact List.cons_ne_nil _ _

theorem getLast?_cons_ne {c d : UInt8} {out : List UInt8} (hc : c ≠ d ∨ out ≠ [])
    (h : out.getLast? ≠ some d) : (c :: out).getLast? ≠ some d := by
  intro hlast
  rw [List.getLast?_cons] at hlast
  cases hout : out.getLast? with
  | none =>
      rw [hout] at hlast
      rcases hc with hc | hc
      · exact hc (Option.some.inj hlast)
      · exact hc (List.getLast?_eq_none_iff.mp hout)
  | some e =>
      rw [hout] at hlast
      exact h (hout.trans hlast)

/-- Nothing is left to trim. -/
theorem Squeezed.getLast?_ne {line out : List UInt8} (h : Squeezed line out) :
    out.getLast? ≠ some SP := by
  induction h with
  | ends => exact nofun
  | keep hq hw h ih =>
      refine getLast?_cons_ne (Or.inl ?_) ih
      rintro rfl
      exact hw (by decide)
  | quoted items h ih =>
      rw [← List.cons_append, List.getLast?_append_cons]
      exact getLast?_cons_ne (Or.inl (by decide)) ih
  | gap hws hne hc h ih =>
      exact getLast?_cons_ne (Or.inr (h.ne_nil List.mem_cons_self hc)) ih

/-! ### The loop -/

/-- The loop over the text of a quoted string. -/
theorem San.run_raws {items : List Item} (hn : NUL ∉ raws items) {s : San} (hq : s.quoted = true)
    (hs : s.slash = false) :
    (s.run (raws items)).quoted = true ∧ (s.run (raws items)).slash = false ∧
      (s.run (raws items)).out = s.out ++ raws items := by
  induction items generalizing s with
  | nil => exact ⟨hq, hs, (List.append_nil _).symm⟩
  | cons it items ih =>
      have hsplit : raws (it :: items) = it.raw ++ raws items := rfl
      rw [hsplit, List.mem_append, not_or] at hn
      rw [hsplit]
      cases it with
      | plain c hcq hcb =>
          have hc : c ≠ NUL := fun e => hn.1 (List.mem_singleton.mpr e.symm)
          obtain ⟨hlast, hesc, hquo⟩ := San.step_inside hq c
          have hq' : (s.step c).quoted = true := by rw [hquo]; simp [hcq]
          have hs' : (s.step c).slash = false := by rw [San.slash, hlast]; simp [hcb]
          obtain ⟨h₁, h₂, h₃⟩ := ih hn.2 hq' hs'
          refine ⟨h₁, h₂, h₃.trans ?_⟩
          rw [San.step_copy hq hc, Item.raw, List.append_assoc]
      | escape c =>
          have hc : c ≠ NUL := fun e => hn.1 (by simp [Item.raw, e])
          obtain ⟨hlast, hesc, hquo⟩ := San.step_inside hq BS
          have hq₁ : (s.step BS).quoted = true := by rw [hquo]; rfl
          have hs₁ : (s.step BS).slash = true := by rw [San.slash, hlast, hesc, hs]; rfl
          obtain ⟨hlast', hesc', hquo'⟩ := San.step_inside hq₁ c
          have hq₂ : ((s.step BS).step c).quoted = true := by rw [hquo', hs₁]; simp
          have hs₂ : ((s.step BS).step c).slash = false := by rw [San.slash, hesc', hs₁]; simp
          obtain ⟨h₁, h₂, h₃⟩ := ih hn.2 hq₂ hs₂
          refine ⟨h₁, h₂, h₃.trans ?_⟩
          rw [San.step_copy hq₁ hc, San.step_copy hq (show BS ≠ NUL by decide), Item.raw]
          simp

/-- The loop over a quoted string. -/
theorem San.run_quoted {items : List Item} (hn : NUL ∉ raws items) (out : List UInt8) (l : UInt8) :
    (San.outside out l).run (DQ :: (raws items ++ [DQ])) =
      San.outside (out ++ DQ :: (raws items ++ [DQ])) DQ := by
  have hopen : (San.outside out l).step DQ = ⟨out ++ [DQ], DQ, true, false⟩ := rfl
  obtain ⟨hq, hs, hout⟩ := San.run_raws hn (s := ⟨out ++ [DQ], DQ, true, false⟩) rfl rfl
  have hcons : (San.outside out l).run (DQ :: (raws items ++ [DQ])) =
      San.run ⟨out ++ [DQ], DQ, true, false⟩ (raws items ++ [DQ]) := by
    rw [San.run, List.foldl_cons, hopen, ← San.run]
  rw [hcons, San.run_concat, San.step_close hq hs, hout]
  simp [San.outside]

theorem San.run_append (s : San) (pre line : List UInt8) :
    s.run (pre ++ line) = (s.run pre).run line :=
  List.foldl_append

/-- **The loop over a squeezed line** writes what it is squeezed to, and one space more at most.
`l` is the byte before it. -/
theorem San.run_squeezed {line out : List UInt8} (h : Squeezed line out) (hn : NUL ∉ line)
    {l : UInt8} (hl : l = SP → ∀ c ∈ line.head?, ¬ White c) (o : List UInt8) :
    ∃ more l', (San.outside o l).run line = San.outside (o ++ out ++ more) l' ∧
      (more = [] ∨ more = [SP]) := by
  induction h generalizing o l with
  | @ends ws hws =>
      -- the space that is trimmed later
      rw [List.append_nil]
      by_cases hne : ws = []
      · subst hne
        exact ⟨[], l, by rw [List.append_nil]; rfl, Or.inl rfl⟩
      · have hl' : l ≠ SP := by
          intro e
          obtain ⟨c, ws, rfl⟩ := List.exists_cons_of_ne_nil hne
          exact hl e c rfl (hws c List.mem_cons_self)
        exact ⟨[SP], SP, San.run_gap hws hne hl' o, Or.inr rfl⟩
  | @keep c line out hq hw h ih =>
      rw [List.mem_cons, not_or] at hn
      have hsp : c ≠ SP := by rintro rfl; exact hw (by decide)
      have hplain : Plain c :=
        ⟨Ne.symm hn.1, fun e => hw (Or.inl e), fun e => hw (Or.inr (Or.inl e)),
          fun e => hw (Or.inr (Or.inr (Or.inl e))), hq⟩
      obtain ⟨more, l', hrun, hmore⟩ := ih hn.2 (l := c) (fun e => absurd e hsp) (o ++ [c])
      refine ⟨more, l', ?_, hmore⟩
      rw [San.run, List.foldl_cons, San.step_plain hplain hsp, ← San.run, hrun]
      simp
  | @quoted items line out h ih =>
      -- behind the closing quote the byte before is no space
      have hsplit : ∀ rest, DQ :: (raws items ++ DQ :: rest) =
          DQ :: (raws items ++ [DQ]) ++ rest := by
        simp
      have hn' : NUL ∉ raws items ∧ NUL ∉ line := by
        simp only [List.mem_cons, List.mem_append, not_or] at hn
        exact ⟨hn.2.1, hn.2.2.2⟩
      obtain ⟨more, l', hrun, hmore⟩ :=
        ih hn'.2 (l := DQ) (fun e => absurd e (by decide)) (o ++ DQ :: (raws items ++ [DQ]))
      refine ⟨more, l', ?_, hmore⟩
      rw [hsplit line, hsplit out, San.run_append, San.run_quoted hn'.1, hrun]
      simp
  | @gap ws line out c hws hne hc h ih =>
      rw [List.mem_append, not_or] at hn
      have hl' : l ≠ SP := by
        intro e
        obtain ⟨d, ws, rfl⟩ := List.exists_cons_of_ne_nil hne
        exact hl e d rfl (hws d List.mem_cons_self)
      have hhead : SP = SP → ∀ d ∈ (c :: line).head?, ¬ White d := by
        intro _ d hd
        obtain rfl : c = d := Option.some.inj hd
        exact hc
      -- the run left a space behind, but what follows is no white-space
      obtain ⟨more, l', hrun, hmore⟩ := ih hn.2 hhead (o ++ [SP])
      refine ⟨more, l', ?_, hmore⟩
      rw [San.run_append, San.run_gap hws hne hl', hrun]
      simp

/-- A line of unquoted text and complete quoted strings, without a NUL, comes out squeezed. -/
theorem Squeezed.sanitize {line out : List UInt8} (h : Squeezed line out) (hn : NUL ∉ line) :
    sanitized line = (out, out.length) := by
  obtain ⟨more, l', hrun, hmore⟩ :=
    San.run_squeezed h hn (l := 0) (fun e => absurd e (by decide)) []
  have hout : (San.init.run line).out = out ++ more := congrArg San.out hrun
  have htrim : trimEnd (out ++ more) = out := by
    rcases hmore with rfl | rfl
    · rw [List.append_nil]
      exact trimEnd_eq_self h.getLast?_ne
    · exact trimEnd_append_space h.getLast?_ne
  rw [sanitized_eq, hout, htrim]

/-- **Only white-space changes.**  A line of unquoted text and complete quoted strings, without a
NUL, comes out squeezed, with its length; and there is one way only to squeeze it. -/
theorem sanitize_squeezed {line : List UInt8} (ho : Outside line) (hn : NUL ∉ line)
    (out : List UInt8) : Squeezed line out ↔ sanitized line = (out, out.length) := by
  constructor
  · intro h
    exact h.sanitize hn
  · intro h
    obtain ⟨out', h'⟩ := ho.squeezed
    obtain rfl : out' = out := congrArg Prod.fst ((h'.sanitize hn).symm.trans h)
    exact h'

/-- Blanks on both sides of a quoted string, and in it behind an escaped quote. -/
theorem sanitize_squeezed_around :
    Squeezed (str "a:\t\r\n \"b\\\"  \" \t") (str "a: \"b\\\"  \"") ∧
      sanitized (str "a:\t\r\n \"b\\\"  \" \t") = (str "a: \"b\\\"  \"", 10) := by
  have ho : Outside (str "a:\t\r\n \"b\\\"  \" \t") := (outside_iff _).mpr (by decide)
  have h : sanitized (str "a:\t\r\n \"b\\\"  \" \t") = (str "a: \"b\\\"  \"", 10) := by decide
  exact ⟨(sanitize_squeezed ho (by decide) _).mpr h, h⟩

end OpenWfd.Rtsp
