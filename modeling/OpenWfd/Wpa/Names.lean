import OpenWfd.Wpa.Event

/-!
# Wpa — names

The names of the events and of the roles.  `event_list` is ordered for `event_comp`, so the binary
search finds a name exactly when the text begins with it and a space or the end of the text follows.
-/

namespace OpenWfd.Wpa

/-- The text begins with the name, and a space or the end of the text follows. -/
def Named (t : EventName) (text : List UInt8) : Prop :=
  t.name <+: text ∧ ∀ c, (text.drop t.name.length).head? = some c → c = SP

/-- No name has a NUL. -/
theorem nul_not_mem_name {t : EventName} (ht : t ∈ eventList) : NUL ∉ t.name := by
  have hall : eventList.all (fun t => !t.name.contains NUL) = true := by decide +kernel
  have h := List.all_eq_true.mp hall t ht
  simpa using h

theorem eventComp_eq_zero_iff {t : EventName} (ht : t ∈ eventList) (text : List UInt8) :
    eventComp text t = 0 ↔ Named t text := by
  have hcmp := strncmp_eq_zero_iff (a := text) (nul_not_mem_name ht)
  unfold eventComp Named
  rw [← hcmp]
  by_cases hr : strncmp text t.name t.name.length = 0
  · simp only [hr, ne_eq, not_true_eq_false, if_false, true_and]
    rcases text.drop t.name.length with _ | ⟨c, rest⟩
    · simp
    · simp
  · simp [hr]

/-- **The list is in order**, for every text. -/
theorem ordered_eventList (text : List UInt8) : Ordered (eventComp text) eventList := by
  have hbefore : eventList.Pairwise fun a b => before a.name b.name = true := by decide +kernel
  refine hbefore.imp_of_mem ?_
  intro a b _ hb hab hcmp
  have hge : 0 ≤ strncmp text b.name b.name.length := by
    unfold eventComp at hcmp
    dsimp only at hcmp
    split_ifs at hcmp with hr
    · exact hcmp
    · exact (not_not.mp hr).ge
  have hpos := strncmp_pos_of_before hab (nul_not_mem_name hb) hge
  unfold eventComp
  dsimp only
  rw [if_pos (ne_of_gt hpos)]
  exact hpos

/-- **What the binary search finds.** -/
theorem bsearch_eq_some_iff {text : List UInt8} {t : EventName} :
    bsearch (eventComp text) eventList = some t ↔ t ∈ eventList ∧ Named t text := by
  constructor
  · intro h
    obtain ⟨ht, hz⟩ := bsearch_sound h
    exact ⟨ht, (eventComp_eq_zero_iff ht text).mp hz⟩
  · rintro ⟨ht, hn⟩
    exact bsearch_complete (ordered_eventList text) ht ((eventComp_eq_zero_iff ht text).mpr hn)

/-- No entry of the list has the code `UNKNOWN`. -/
theorem code_ne_unknown {t : EventName} (ht : t ∈ eventList) : t.code ≠ .unknown := by
  have hall : eventList.all (fun t => t.code ≠ .unknown) = true := by decide +kernel
  exact of_decide_eq_true (List.all_eq_true.mp hall t ht)

/-! ### The parser -/

/-- **What a call of the parser does**: without a text that begins with a name the event is
`UNKNOWN`, and with one it is parsed from the name on. -/
theorem parse_cases {ev ev' : Event} {event : List UInt8} {h h' : Heap} {r : Except Errno Unit}
    (e : parse ev event h = (r, ev', h')) :
    (r = .ok () ∧ (∀ t, (parsePriority event).2 = some t → ∀ code ∈ eventList, ¬ Named code t) ∧
        ev' = { (reset ev h).1 with priority := (parsePriority event).1, type := .unknown } ∧
        h' = (reset ev h).2) ∨
      ∃ t, (parsePriority event).2 = some t ∧ ∃ code ∈ eventList, Named code t ∧
        parseNamed code t { (reset ev h).1 with priority := (parsePriority event).1 }
          (reset ev h).2 =
          (r, ev', h') := by
  unfold parse at e
  dsimp only at e
  rcases ht : (parsePriority event).2 with _ | t <;> simp only [ht] at e
  · cases e
    exact Or.inl ⟨rfl, fun t ht => (by cases ht), rfl, rfl⟩
  rcases hb : bsearch (eventComp t) eventList with _ | code <;> simp only [hb] at e
  · cases e
    refine Or.inl ⟨rfl, ?_, rfl, rfl⟩
    rintro t ⟨⟩ code hcode hn
    rw [bsearch_eq_some_iff.mpr ⟨hcode, hn⟩] at hb
    cases hb
  · obtain ⟨hcode, hn⟩ := bsearch_eq_some_iff.mp hb
    exact Or.inr ⟨t, rfl, code, hcode, hn, e⟩

/-! ### Roles -/

def Role.text : Role → List UInt8
  | .go     => str "GO"
  | .client => str "client"

theorem roleOf_eq_some {s : List UInt8} {role : Role} : roleOf s = some role ↔ s = role.text := by
  unfold roleOf
  constructor
  · intro h
    split_ifs at h with h₁ h₂
    · cases h
      exact h₁
    · cases h
      exact h₂
  · rintro rfl
    cases role with
    | go => rfl
    | client => rfl

end OpenWfd.Wpa
