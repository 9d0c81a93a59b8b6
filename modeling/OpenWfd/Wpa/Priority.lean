import OpenWfd.Support.Numeral
import OpenWfd.Wpa.Kinds

/-!
# Wpa — the priority

The priority is written between `'<'` and `'>'`, as a decimal digit string whose value is in range.
`strtoul` is more liberal than that: it skips blanks and takes a sign, and what it answers is cut to
32 bits before it is compared.  The parser refuses a minus (`event[1] == '-'`) and, by a slip, an
equals sign where it means a plus.  `priority_iff` says for which texts it answers what it should.
-/

namespace OpenWfd.Wpa

/-- The value of a digit string in range, and `MSGDUMP` for every other text. -/
def priorityOf (w : List UInt8) : Nat :=
  if w ≠ [] ∧ w.all isDigit ∧ decimalValue w < pCount then decimalValue w else pMsgdump

/-- The text is a digit string in range, or begins with a minus, or denotes no integer, or one whose
low 32 bits, as `strtoul` answers it, are not a priority above `MSGDUMP`. -/
def Plainly (w : List UInt8) : Prop :=
  (w ≠ [] ∧ w.all isDigit ∧ decimalValue w < pCount) ∨ w.head? = some 45 ∨
    ∀ z, number w = some z → ulong z % 2 ^ 32 = 0 ∨ pCount ≤ ulong z % 2 ^ 32

/-- What the parser makes of the text between `'<'` and `'>'`. -/
def readPriority (w : List UInt8) : Nat :=
  match number w with
  | none   => pMsgdump
  | some z => if w.head? = some 45 ∨ pCount ≤ ulong z % 2 ^ 32 then pMsgdump else ulong z % 2 ^ 32

variable {w rest : List UInt8}

/-- A text that begins with an equals sign denotes no integer. -/
theorem number_equals (hw : w.head? = some 61) : number w = none := by
  rcases w with _ | ⟨c, w⟩
  · cases hw
  · obtain rfl : c = 61 := Option.some.inj hw
    rfl

/-- **The start of `owfd_wpa_event_parse`.** -/
theorem parsePriority_lt_gt (hw : GT ∉ w) :
    parsePriority (LT :: w ++ GT :: rest) = (readPriority w, some rest) := by
  have hall : ∀ c ∈ LT :: w, decide (c ≠ GT) = true := by
    rintro c (_ | ⟨_, hc⟩)
    · rfl
    · exact decide_eq_true fun e => hw (e ▸ hc)
  have hdrop : (LT :: w ++ GT :: rest).dropWhile (fun c => decide (c ≠ GT)) = GT :: rest := by
    rw [List.dropWhile_append_of_pos hall, List.dropWhile_cons_of_neg (by simp)]
  have hstop := strtoul_stop (c := GT) rfl rfl (by decide) (by decide) w rest
  unfold parsePriority
  rw [List.cons_append] at hdrop ⊢
  dsimp only
  rw [if_pos rfl, hdrop, hstop]
  dsimp only
  congr 1
  unfold readPriority
  rcases hn : number w with _ | z
  · by_cases hnil : w = []
    · subst hnil
      split_ifs
      · rfl
      · rfl
    · have hend : (strtoul w).2 ≠ [] := by
        intro hz
        obtain ⟨z, hz, -⟩ := strtoul_end_iff.mp ⟨hnil, Prod.ext rfl hz⟩
        rw [hn] at hz
        cases hz
      have hlen : ((strtoul w).2 ++ GT :: rest).length ≠ rest.length + 1 := by
        have hpos := List.length_pos_iff.mpr hend
        rw [List.length_append, List.length_cons]
        omega
      exact if_pos (Or.inr (Or.inl hlen))
  · obtain ⟨hne, hs⟩ := strtoul_end_iff.mpr ⟨z, hn, rfl⟩
    have heq : w.head? ≠ some 61 := by
      intro hw
      rw [number_equals hw] at hn
      cases hn
    rw [hs, List.nil_append, List.head?_append_of_ne_nil _ hne]
    dsimp only
    refine if_congr ?_ rfl rfl
    constructor
    · rintro (hbig | hlen | hbad | hminus)
      · exact Or.inr hbig
      · exact absurd rfl hlen
      · exact absurd hbad heq
      · exact Or.inl hminus
    · rintro (hminus | hbig)
      · exact Or.inr (Or.inr (Or.inr hminus))
      · exact Or.inl hbig

/-- A digit string in range denotes its value. -/
theorem number_digits (h : w ≠ [] ∧ w.all isDigit ∧ decimalValue w < pCount) :
    number w = some (decimalValue w : Int) ∧
      ulong (decimalValue w : Int) % 2 ^ 32 = decimalValue w ∧
      w.head? ≠ some 45 := by
  obtain ⟨hne, hall, hlt⟩ := h
  have hdigits := List.all_eq_true.mp hall
  have hfits : decimalValue w < 2 ^ 64 := lt_trans hlt (by decide)
  refine ⟨?_, ?_, ?_⟩
  · exact Numeral.number_eq ⟨⟨[], w, rfl, fun c hc => (by cases hc), hne, hdigits, rfl⟩, hfits⟩
  · rw [ulong_natCast hfits]
    exact Nat.mod_eq_of_lt (lt_trans hlt (by decide))
  · intro hminus
    rcases w with _ | ⟨c, w⟩
    · cases hminus
    · obtain rfl : c = 45 := Option.some.inj hminus
      exact absurd (hdigits 45 List.mem_cons_self) (by decide)

/-- **Which priorities are read as they should be.** -/
theorem readPriority_eq_iff (w : List UInt8) : readPriority w = priorityOf w ↔ Plainly w := by
  by_cases hd : w ≠ [] ∧ w.all isDigit ∧ decimalValue w < pCount
  · obtain ⟨hn, hvalue, hminus⟩ := number_digits hd
    have hread : readPriority w = priorityOf w := by
      rw [readPriority, priorityOf, hn, if_pos hd]
      dsimp only
      rw [hvalue, if_neg (not_or.mpr ⟨hminus, not_le.mpr hd.2.2⟩)]
    exact iff_of_true hread (Or.inl hd)
  · rw [priorityOf, if_neg hd, Plainly, or_iff_right hd, readPriority]
    rcases hn : number w with _ | z
    · exact iff_of_true rfl (Or.inr fun z hz => by cases hz)
    · dsimp only
      by_cases hbad : w.head? = some 45 ∨ pCount ≤ ulong z % 2 ^ 32
      · rw [if_pos hbad]
        refine iff_of_true rfl ?_
        rcases hbad with hminus | hbig
        · exact Or.inl hminus
        · refine Or.inr ?_
          rintro z' ⟨⟩
          exact Or.inr hbig
      · rw [if_neg hbad]
        rw [not_or] at hbad
        constructor
        · intro hz
          refine Or.inr ?_
          rintro z' ⟨⟩
          exact Or.inl hz
        · rintro (hminus | hall)
          · exact absurd hminus hbad.1
          · exact (hall z rfl).resolve_right hbad.2

/-! ### The event -/

/-- The priority goes into the event, and nowhere else. -/
theorem parseNamed_priority {code : EventName} {t : List UInt8} {ev ev' : Event} {h h' : Heap}
    (e : parseNamed code t ev h = (.ok (), ev', h')) (priority : Nat) :
    parseNamed code t { ev with priority } h = (.ok (), { ev' with priority }, h') := by
  obtain ⟨raw, h₁, tokens, num, h₂, p, h₃, hs, hk, hpl, rfl, rfl⟩ := parseNamed_ok e
  unfold parseNamed
  simp only [hs, hk, hpl]

theorem parseNamed_fails {code : EventName} {t : List UInt8} {ev ev' : Event} {h h' : Heap}
    {x : Errno} (e : parseNamed code t ev h = (.error x, ev', h')) :
    ev' = .zero ∧ ∀ priority, parseNamed code t { ev with priority } h = (.error x, .zero, h') := by
  have hfail : ∀ {y : Errno} {ev : Event} {h : Heap}, fail y ev h = (.error x, ev', h') →
      ev' = .zero ∧ ∀ priority, fail y { ev with priority } h = (.error x, .zero, h') := by
    intro y ev h e
    cases e
    exact ⟨rfl, fun _ => rfl⟩
  unfold parseNamed at e ⊢
  dsimp only at e ⊢
  generalize (t.drop code.name.length).dropWhile (· = SP) = body at e ⊢
  rcases hs : h.strdup body with ⟨_ | raw, h₁⟩ <;> simp only [hs] at e ⊢
  · exact hfail e
  rcases hk : tokenize (cstr raw.bytes) h₁ with ⟨_ | ⟨tokens, num⟩, h₂⟩ <;> simp only [hk] at e ⊢
  · exact hfail e
  rcases hpl : parsePayload code.code ev.p tokens.bytes num h₂ with ⟨y | _, p, h₃⟩ <;>
    simp only [hpl] at e ⊢
  · exact hfail e
  · cases e

/-- **A call** with a priority: it is set if the text after it is accepted, and another priority
changes nothing else. -/
theorem parse_lt_gt {ev ev' : Event} {h h' : Heap} {r : Except Errno Unit} (hw : GT ∉ w)
    (e : parse ev (LT :: w ++ GT :: rest) h = (r, ev', h')) :
    (r = .ok () → ev'.priority = readPriority w) ∧ (r ≠ .ok () → ev' = .zero) ∧
      ∀ w', GT ∉ w' → ∃ priority,
        parse ev (LT :: w' ++ GT :: rest) h = (r, { ev' with priority }, h') := by
  unfold parse at e ⊢
  rw [parsePriority_lt_gt hw] at e
  rcases hreset : reset ev h with ⟨ev₀, h₀⟩
  simp only [hreset] at e ⊢
  rcases hb : bsearch (eventComp rest) eventList with _ | code <;> simp only [hb] at e
  · cases e
    refine ⟨fun _ => rfl, fun hr => absurd rfl hr, ?_⟩
    intro w' hw'
    refine ⟨readPriority w', ?_⟩
    rw [parsePriority_lt_gt hw']
    simp only [hb]
  rcases r with x | _
  · obtain ⟨rfl, hsame⟩ := parseNamed_fails e
    refine ⟨fun hr => (by cases hr), fun _ => rfl, ?_⟩
    intro w' hw'
    refine ⟨0, ?_⟩
    rw [parsePriority_lt_gt hw']
    simp only [hb]
    exact hsame (readPriority w')
  · refine ⟨?_, fun hr => absurd rfl hr, ?_⟩
    · intro _
      obtain ⟨raw, h₁, tokens, num, h₂, p, h₃, -, -, -, rfl, -⟩ := parseNamed_ok e
      rfl
    intro w' hw'
    refine ⟨readPriority w', ?_⟩
    rw [parsePriority_lt_gt hw']
    simp only [hb]
    exact parseNamed_priority e (readPriority w')

/-- **The priority of an event.**  Of the texts that may stand between `'<'` and `'>'`, exactly the
ones of `Plainly` are read as they should be.  An event that is accepted keeps the priority and has
the type that its first word names; another text between `'<'` and `'>'` changes the priority
only. -/
theorem priority_iff (w rest : CStr) (hw : GT ∉ w.1) {ev ev' : Event} {h h' : Heap}
    {r : Except Errno Unit} (e : parse ev (LT :: w ++ GT :: rest) h = (r, ev', h')) :
    ((parsePriority (LT :: w ++ GT :: rest)).1 = priorityOf w ↔ Plainly w) ∧
      (r = .ok () → (ev'.priority = priorityOf w ↔ Plainly w) ∧
        TypeNamed ev'.type (firstWord rest)) ∧
      (r ≠ .ok () → ev' = .zero) ∧
      ∀ w' : CStr, GT ∉ w'.1 → ∃ priority,
        parse ev (LT :: w' ++ GT :: rest) h = (r, { ev' with priority }, h') := by
  obtain ⟨hset, hzero, hsame⟩ := parse_lt_gt hw e
  have hiff := readPriority_eq_iff w
  refine ⟨?_, ?_, hzero, fun w' hw' => hsame w' hw'⟩
  · rw [parsePriority_lt_gt hw]
    exact hiff
  · rintro rfl
    refine ⟨?_, ?_⟩
    · rw [hset rfl]
      exact hiff
    · have htype := parse_type e
      rwa [afterPriority_eq (Or.inr ⟨w, hw, rfl⟩)] at htype

/-- `<3>P2P-FIND-STOPPED`. -/
theorem priority_iff_three :
    (parsePriority (str "<3>P2P-FIND-STOPPED")).1 = 3 ∧ Plainly (str "3") ∧
      (parse .zero (str "<3>P2P-FIND-STOPPED") (.fresh [])).2.1.priority = 3 := by
  have hp : parse .zero (str "<3>P2P-FIND-STOPPED") (.fresh []) = (.ok (), _, _) := rfl
  have h := priority_iff ⟨str "3", by decide⟩ ⟨str "P2P-FIND-STOPPED", by decide⟩ (by decide) hp
  have hread : (parsePriority (str "<3>P2P-FIND-STOPPED")).1 = 3 := rfl
  exact ⟨hread, h.1.mp hread, (h.2.1 rfl).1.mpr (h.1.mp hread)⟩

/-- `<+3>P2P-FIND-STOPPED`: the plus is read. -/
theorem priority_misread : ¬ ∀ (w rest : CStr) (ev ev' : Event) (h h' : Heap), GT ∉ w.1 →
    parse ev (LT :: w ++ GT :: rest) h = (.ok (), ev', h') → ev'.priority = priorityOf w := by
  intro hall
  have hp : parse .zero (str "<+3>P2P-FIND-STOPPED") (.fresh []) = (.ok (), _, _) := rfl
  have hread :=
    hall ⟨str "+3", by decide⟩ ⟨str "P2P-FIND-STOPPED", by decide⟩ _ _ _ _ (by decide) hp
  exact absurd hread (by decide)

end OpenWfd.Wpa
