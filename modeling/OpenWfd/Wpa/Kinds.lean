import OpenWfd.Wpa.Complete

/-!
# Wpa — kinds of events

The type of an event is told by the first word of its text, the one after the priority.  The binary
search over `event_list` finds what a linear scan would find, and `owfd_wpa_event_parse` sets the
type whose name the first word is (`kinds`).
-/

namespace OpenWfd.Wpa

/-! ### The first word -/

/-- The text up to the first space. -/
def firstWord (text : List UInt8) : List UInt8 := text.takeWhile (· ≠ SP)

/-- The text after `'<'`, a priority and `'>'`, or all of it where these are missing. -/
def afterPriority (event : List UInt8) : List UInt8 :=
  if event.head? = some LT ∧ GT ∈ event then (event.dropWhile (· ≠ GT)).tail else event

/-- The type that a word names: `UNKNOWN` if it is the name of no other. -/
def TypeNamed (type : EventType) (word : List UInt8) : Prop :=
  (type ≠ .unknown ∧ eventName type = word) ∨
    (type = .unknown ∧ ∀ type', type' ≠ .unknown → eventName type' ≠ word)

/-- No name has a space. -/
theorem space_not_mem_name {t : EventName} (ht : t ∈ eventList) : SP ∉ t.name := by
  have hall : eventList.all (fun t => !t.name.contains SP) = true := by decide +kernel
  have h := List.all_eq_true.mp hall t ht
  simpa using h

/-- A text begins with a name and a space, or its end, if the name is its first word. -/
theorem named_iff_firstWord {t : EventName} (ht : t ∈ eventList) (text : List UInt8) :
    Named t text ↔ t.name = firstWord text := by
  have hword : ∀ c ∈ t.name, decide (c ≠ SP) = true := by
    intro c hc
    exact decide_eq_true fun e => space_not_mem_name ht (e ▸ hc)
  constructor
  · rintro ⟨⟨rest, rfl⟩, hnext⟩
    rw [List.drop_left] at hnext
    rw [firstWord, List.takeWhile_append_of_pos hword]
    rcases rest with _ | ⟨c, rest⟩
    · simp
    · have hc : c = SP := hnext c rfl
      rw [List.takeWhile_cons_of_neg (by simp [hc]), List.append_nil]
  · intro hname
    have hsplit :=
      List.takeWhile_append_dropWhile (p := fun c : UInt8 => decide (c ≠ SP)) (l := text)
    rw [show text.takeWhile (fun c : UInt8 => decide (c ≠ SP)) = t.name from hname.symm] at hsplit
    refine ⟨⟨_, hsplit⟩, ?_⟩
    intro c hc
    have hnot := List.head?_dropWhile_not (fun c : UInt8 => decide (c ≠ SP)) text
    rw [← hsplit, List.drop_left] at hc
    rw [hc] at hnot
    simpa using hnot

/-- One entry at most is named. -/
theorem named_unique {t t' : EventName} {text : List UInt8} (ht : t ∈ eventList)
    (ht' : t' ∈ eventList) (h : Named t text) (h' : Named t' text) : t = t' := by
  have hfound := bsearch_eq_some_iff.mpr ⟨ht, h⟩
  rw [bsearch_eq_some_iff.mpr ⟨ht', h'⟩] at hfound
  exact (Option.some.inj hfound).symm

/-! ### Types and names -/

/-- Each entry has the name of its type. -/
theorem eventName_code {t : EventName} (ht : t ∈ eventList) : eventName t.code = t.name := by
  have hall : eventList.all (fun t => eventName t.code = t.name) = true := by decide +kernel
  exact of_decide_eq_true (List.all_eq_true.mp hall t ht)

/-- Each type but `UNKNOWN` has an entry. -/
theorem exists_code {type : EventType} (h : type ≠ .unknown) : ∃ t ∈ eventList, t.code = type := by
  have hany : type ≠ .unknown → eventList.any (fun t => decide (t.code = type)) = true := by
    cases type <;> decide +kernel
  obtain ⟨t, ht, hcode⟩ := List.any_eq_true.mp (hany h)
  exact ⟨t, ht, of_decide_eq_true hcode⟩

theorem typeNamed_code {t : EventName} (ht : t ∈ eventList) {text : List UInt8}
    (hn : Named t text) : TypeNamed t.code (firstWord text) := by
  refine Or.inl ⟨code_ne_unknown ht, ?_⟩
  rw [eventName_code ht]
  exact (named_iff_firstWord ht text).mp hn

theorem typeNamed_unknown {text : List UInt8} (h : ∀ t ∈ eventList, ¬ Named t text) :
    TypeNamed .unknown (firstWord text) := by
  refine Or.inr ⟨rfl, ?_⟩
  intro type' hne hname
  obtain ⟨t, ht, rfl⟩ := exists_code hne
  rw [eventName_code ht] at hname
  exact h t ht ((named_iff_firstWord ht text).mpr hname)

/-! ### The type of an event -/

theorem afterPriority_eq {event t : List UInt8} (h : AfterPriority event t) :
    afterPriority event = t := by
  rcases h with ⟨hhead, rfl⟩ | ⟨w, hw, rfl⟩
  · rw [afterPriority, if_neg fun h => hhead h.1]
  · have hall : ∀ c ∈ LT :: w, decide (c ≠ GT) = true := by
      rintro c (_ | ⟨_, hc⟩)
      · rfl
      · exact decide_eq_true fun e => hw (e ▸ hc)
    have hmem : GT ∈ LT :: w ++ GT :: t := List.mem_append_right _ List.mem_cons_self
    rw [afterPriority, if_pos ⟨rfl, hmem⟩, List.dropWhile_append_of_pos hall,
      List.dropWhile_cons_of_neg (by simp), List.tail_cons]

/-- No entry is named by a text that begins with `'<'`. -/
theorem not_named_lt {t : EventName} (ht : t ∈ eventList) {text : List UInt8}
    (h : text.head? = some LT) : ¬ Named t text := by
  rintro ⟨⟨rest, rfl⟩, -⟩
  have hall : eventList.all (fun t => t.name.head?.any (· ≠ LT)) = true := by decide +kernel
  have hhead := List.all_eq_true.mp hall t ht
  rcases hn : t.name with _ | ⟨c, name⟩ <;> rw [hn] at h hhead
  · cases hhead
  · rw [List.cons_append, List.head?_cons] at h
    simp [Option.some.inj h] at hhead

/-- Where the parser finds no text, the first word is not a name. -/
theorem parsePriority_none {event : List UInt8} (h : (parsePriority event).2 = none) :
    event.head? = some LT ∧ GT ∉ event := by
  unfold parsePriority at h
  rcases event with _ | ⟨c, rest⟩
  · cases h
  · dsimp only at h
    by_cases hc : c = LT
    · rw [if_pos hc] at h
      rcases hd : (c :: rest).dropWhile (fun c : UInt8 => decide (c ≠ GT)) with _ | ⟨g, t⟩ <;>
        simp only [hd] at h
      · refine ⟨by rw [hc]; rfl, ?_⟩
        intro hmem
        have hne := List.dropWhile_eq_nil_iff.mp hd GT hmem
        simp at hne
      · cases h
    · rw [if_neg hc] at h
      cases h

/-- **The parser from the name on**, where it accepts: the text after the name and its spaces is
copied, tokenized, and read as a payload of the type. -/
theorem parseNamed_ok {code : EventName} {t : List UInt8} {ev ev' : Event} {h h' : Heap}
    (e : parseNamed code t ev h = (.ok (), ev', h')) :
    ∃ raw h₁ tokens num h₂ p h₃,
      h.strdup ((t.drop code.name.length).dropWhile (· = SP)) = (some raw, h₁) ∧
        tokenize (cstr raw.bytes) h₁ = (some (tokens, num), h₂) ∧
        parsePayload code.code ev.p tokens.bytes num h₂ = (.ok (), p, h₃) ∧
        ev' = { ev with type := code.code, raw := some raw, p } ∧ h' = h₃.free (some tokens) := by
  unfold parseNamed at e
  dsimp only at e
  rcases hs : h.strdup ((t.drop code.name.length).dropWhile (· = SP)) with ⟨_ | raw, h₁⟩ <;>
    simp only [hs] at e
  · cases e
  rcases hk : tokenize (cstr raw.bytes) h₁ with ⟨_ | ⟨tokens, num⟩, h₂⟩ <;> simp only [hk] at e
  · cases e
  rcases hpl : parsePayload code.code ev.p tokens.bytes num h₂ with ⟨x | _, p, h₃⟩ <;>
    simp only [hpl] at e
  · cases e
  · cases e
    exact ⟨raw, h₁, tokens, num, h₂, p, h₃, rfl, hk, hpl, rfl, rfl⟩

theorem parse_type {ev ev' : Event} {event : List UInt8} {h h' : Heap}
    (e : parse ev event h = (.ok (), ev', h')) :
    TypeNamed ev'.type (firstWord (afterPriority event)) := by
  rcases parse_cases e with ⟨-, hno, rfl, -⟩ | ⟨t, ht, code, hcode, hn, e⟩
  · refine typeNamed_unknown ?_
    rcases ht : (parsePriority event).2 with _ | t
    · obtain ⟨hhead, hgt⟩ := parsePriority_none ht
      rw [afterPriority, if_neg fun h => hgt h.2]
      exact fun t ht => not_named_lt ht hhead
    · rw [afterPriority_eq (parsePriority_spec ht)]
      exact hno t ht
  · rw [afterPriority_eq (parsePriority_spec ht)]
    obtain ⟨raw, h₁, tokens, num, h₂, p, h₃, -, -, -, rfl, -⟩ := parseNamed_ok e
    exact typeNamed_code hcode hn

/-- **The kind of an event.**  The binary search for a text answers what a linear scan does: the one
entry whose name the text begins with, a space or the end after it.  A text that is accepted as an
event gets the type whose name is its first word after the priority, and `UNKNOWN` if there is
none. -/
theorem kinds (text event : CStr) (ev : Event) (h : Heap) :
    (bsearch (eventComp text) eventList =
        eventList.find? fun t => decide (eventComp text t = 0)) ∧
      (∀ t, bsearch (eventComp text) eventList = some t ↔ t ∈ eventList ∧ Named t text) ∧
      (∀ t ∈ eventList, ∀ t' ∈ eventList, Named t text → Named t' text → t = t') ∧
      ∀ ev' h', parse ev event h = (.ok (), ev', h') →
        TypeNamed ev'.type (firstWord (afterPriority event)) := by
  refine ⟨bsearch_eq_find? (ordered_eventList text), fun t => bsearch_eq_some_iff, ?_, ?_⟩
  · intro t ht t' ht' hn hn'
    exact named_unique ht ht' hn hn'
  · intro ev' h' e
    exact parse_type e

/-- A word that extends a name, and an event that is its name. -/
theorem kinds_twice :
    bsearch (eventComp (str "AP-STA-CONNECTED2")) eventList = none ∧
      ∃ ev' h', parse .zero (str "<2>P2P-FIND-STOPPED") (.fresh []) = (.ok (), ev', h') ∧
        TypeNamed ev'.type (str "P2P-FIND-STOPPED") := by
  have hk := kinds ⟨str "AP-STA-CONNECTED2", by decide⟩ ⟨str "<2>P2P-FIND-STOPPED", by decide⟩ .zero
    (.fresh [])
  have hp : parse .zero (str "<2>P2P-FIND-STOPPED") (.fresh []) = (.ok (), _, _) := rfl
  exact ⟨hk.1.trans rfl, _, _, hp, hk.2.2.2 _ _ hp⟩

end OpenWfd.Wpa
