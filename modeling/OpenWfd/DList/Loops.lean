import OpenWfd.Support.DList

/-!
# DList — Loops

The loops of `src/shl_dlist.h`, as the nodes `iter` stands for, one after the other.  A loop that
has not ended after so many rounds, or that dereferences NULL, has no result.

* `forEach_eq`, `forEachReverse_eq`: the elements of a list, and their mirror image.
* `forEachButOne_spec`: from an element or from the head, every other element once.
-/

namespace OpenWfd.DList

variable {α : Type*} [DecidableEq α]

/-! ### The macros -/

/-- `for (…; iter != (head); iter = iter->next)` from `iter` on; `next` may be `prev`. -/
def forEachFrom (next : α → Option α) (head : α) : Nat → Option α → Option (List α)
  | 0, _                  => none
  | _ + 1, none           => none
  | rounds + 1, some iter =>
    if iter = head then some []
    else (forEachFrom next head rounds (next iter)).map (iter :: ·)

/-- `shl_dlist_for_each`. -/
def forEach (m : Nodes α) (head : α) (rounds : Nat) : Option (List α) :=
  forEachFrom (nextOf m) head rounds (nextOf m head)

/-- `shl_dlist_for_each_reverse`. -/
def forEachReverse (m : Nodes α) (head : α) (rounds : Nat) : Option (List α) :=
  forEachFrom (prevOf m) head rounds (prevOf m head)

/-- `for (…; iter != (start); iter = (iter->next == (head) && (start) != (head)) ? iter->next->next
: iter->next)` from `iter` on. -/
def butOneFrom (next : α → Option α) (start head : α) : Nat → Option α → Option (List α)
  | 0, _                  => none
  | _ + 1, none           => none
  | rounds + 1, some iter =>
    if iter = start then some []
    else
      let after := if next iter = some head ∧ start ≠ head then (next iter).bind next else next iter
      (butOneFrom next start head rounds after).map (iter :: ·)

/-- The first node of a loop that leaves out `start`. -/
def butOneFirst (next : α → Option α) (start head : α) : Option α :=
  if next start = some head then (next start).bind next else next start

/-- `shl_dlist_for_each_but_one`. -/
def forEachButOne (m : Nodes α) (start head : α) (rounds : Nat) : Option (List α) :=
  butOneFrom (nextOf m) start head rounds (butOneFirst (nextOf m) start head)

/-- `shl_dlist_for_each_reverse_but_one`. -/
def forEachReverseButOne (m : Nodes α) (start head : α) (rounds : Nat) : Option (List α) :=
  butOneFrom (prevOf m) start head rounds (butOneFirst (prevOf m) start head)

variable {m : Nodes α} {a h start : α} {xs pre post : List α} {rounds : Nat}

/-! ### All elements -/

section

omit [DecidableEq α]

/-- An element is not the head. -/
theorem IsList.ne_head (hl : IsList m h xs) (ha : a ∈ xs) : a ≠ h := by
  rintro rfl
  exact (List.nodup_cons.mp hl.nodup).1 ha

/-- An element is in one place only. -/
theorem IsList.ne_of_append {b : α} (hl : IsList m h xs) (hx : xs = pre ++ post) (ha : a ∈ pre)
    (hb : b ∈ post) : a ≠ b := by
  have hnodup := (List.nodup_cons.mp hl.nodup).2
  rw [hx] at hnodup
  exact (List.nodup_append.mp hnodup).2.2 a ha b hb

end

theorem forEachFrom_eq (hl : IsList m h xs) (hx : xs = pre ++ post) (hr : post.length < rounds) :
    forEachFrom (nextOf m) h rounds (post ++ [h]).head? = some post := by
  obtain ⟨rounds, rfl⟩ : ∃ k, rounds = k + 1 := ⟨rounds - 1, by omega⟩
  induction post generalizing pre rounds with
  | nil => exact if_pos rfl
  | cons a post ih =>
      have hne : a ≠ h := hl.ne_head (by simp [hx])
      have hsplit : h :: xs = (h :: pre) ++ a :: post := by rw [hx, List.cons_append]
      obtain ⟨k, rfl⟩ : ∃ k, rounds = k + 1 := ⟨rounds - 1, by simp at hr; omega⟩
      have hx' : xs = (pre ++ [a]) ++ post := by rw [hx, List.append_assoc, List.singleton_append]
      rw [List.cons_append, List.head?_cons, forEachFrom, if_neg hne, hl.nextOf_eq hsplit,
        ih hx' k (by simp at hr; omega), Option.map_some]

/-- **Forward.** -/
theorem forEach_eq (hl : IsList m h xs) (hr : xs.length < rounds) :
    forEach m h rounds = some xs := by
  rw [forEach, hl.nextOf_head]
  exact forEachFrom_eq hl (List.nil_append xs).symm hr

/-- **Backward.** -/
theorem forEachReverse_eq (hl : IsList m h xs) (hr : xs.length < rounds) :
    forEachReverse m h rounds = some xs.reverse := by
  have hrev : forEachReverse m h rounds = forEach (mirror m) h rounds := by
    rw [forEachReverse, forEach, nextOf_mirror]
  rw [hrev]
  exact forEach_eq hl.mirror (by rw [List.length_reverse]; exact hr)

/-! ### All elements but one -/

/-- From the head, none is left out. -/
theorem butOneFrom_head (next : α → Option α) (head : α) (iter : Option α) :
    butOneFrom next head head rounds iter = forEachFrom next head rounds iter := by
  induction rounds generalizing iter with
  | zero => rfl
  | succ rounds ih =>
      cases iter with
      | none => rfl
      | some iter =>
          have hafter : (if next iter = some head ∧ head ≠ head then (next iter).bind next
              else next iter) = next iter := if_neg fun hboth => hboth.2 rfl
          rw [butOneFrom, forEachFrom]
          dsimp only
          rw [hafter, ih]

theorem butOneFirst_head (next : α → Option α) (head : α) :
    butOneFirst next head head = next head := by
  unfold butOneFirst
  split_ifs with heq
  · rw [heq, Option.bind_some, heq]
  · rfl

/-- The element after `a`, the first one after the last. -/
theorem skip_eq (hl : IsList m h xs) (hx : xs = pre ++ a :: post) :
    (if nextOf m a = some h then (nextOf m a).bind (nextOf m) else nextOf m a) =
      (post ++ xs).head? := by
  have hsplit : h :: xs = (h :: pre) ++ a :: post := by rw [hx, List.cons_append]
  rw [hl.nextOf_eq hsplit]
  cases post with
  | nil =>
      rw [List.nil_append, List.head?_singleton, if_pos rfl, Option.bind_some, hl.nextOf_head, hx]
      simp
  | cons b post =>
      have hbh : ¬ some b = some h := fun heq => hl.ne_head (by simp [hx]) (Option.some.inj heq)
      rw [List.cons_append, List.head?_cons, if_neg hbh]
      rfl

/-- One round at an element. -/
theorem butOneFrom_cons (hl : IsList m h xs) (hs : start ≠ h) (hx : xs = pre ++ a :: post)
    (ha : a ≠ start) :
    butOneFrom (nextOf m) start h (rounds + 1) (some a) =
      (butOneFrom (nextOf m) start h rounds (post ++ xs).head?).map (a :: ·) := by
  rw [butOneFrom, if_neg ha]
  simp only [hs, ne_eq, not_false_eq_true, and_true]
  rw [skip_eq hl hx]

/-- The elements before `start`. -/
theorem butOneFrom_before (hl : IsList m h xs) (hs : start ≠ h) {done : List α}
    (hx : xs = done ++ pre ++ start :: post) (hr : pre.length < rounds) :
    butOneFrom (nextOf m) start h rounds (pre ++ [start]).head? = some pre := by
  obtain ⟨rounds, rfl⟩ : ∃ k, rounds = k + 1 := ⟨rounds - 1, by omega⟩
  induction pre generalizing done rounds with
  | nil => exact if_pos rfl
  | cons a pre ih =>
      have hne : a ≠ start := hl.ne_of_append hx (by simp) List.mem_cons_self
      obtain ⟨k, rfl⟩ : ∃ k, rounds = k + 1 := ⟨rounds - 1, by simp at hr; omega⟩
      have hx' : xs = (done ++ [a]) ++ pre ++ start :: post := by simp [hx]
      have hsplit : xs = done ++ a :: (pre ++ start :: post) := by simp [hx]
      have hhead : (pre ++ start :: post ++ xs).head? = (pre ++ [start]).head? := by
        cases pre <;> rfl
      rw [List.cons_append, List.head?_cons, butOneFrom_cons hl hs hsplit hne, hhead,
        ih hx' k (by simp at hr; omega), Option.map_some]

/-- The elements behind `start`, and then those before it. -/
theorem butOneFrom_behind (hl : IsList m h xs) (hs : start ≠ h) {done : List α}
    (hx : xs = pre ++ start :: done ++ post) (hr : post.length + pre.length < rounds) :
    butOneFrom (nextOf m) start h rounds (post ++ xs).head? = some (post ++ pre) := by
  induction post generalizing done rounds with
  | nil =>
      have hx' : xs = [] ++ pre ++ start :: done := by simp [hx]
      have hhead : ([] ++ xs).head? = (pre ++ [start]).head? := by
        rw [hx']
        cases pre <;> rfl
      rw [hhead, List.nil_append]
      exact butOneFrom_before hl hs hx' (by simpa using hr)
  | cons a post ih =>
      have hne : a ≠ start := (hl.ne_of_append hx (by simp) List.mem_cons_self).symm
      obtain ⟨k, rfl⟩ : ∃ k, rounds = k + 1 := ⟨rounds - 1, by omega⟩
      have hx' : xs = pre ++ start :: (done ++ [a]) ++ post := by simp [hx]
      rw [List.cons_append, List.head?_cons, butOneFrom_cons hl hs hx hne,
        ih hx' (by simp at hr; omega), Option.map_some]
      rfl

/-- **Every element but `start`, once**, where `start` is an element or the head. -/
theorem forEachButOne_spec (hl : IsList m h xs) (hs : start ∈ h :: xs) :
    ∃ visited, (∀ rounds, xs.length < rounds → forEachButOne m start h rounds = some visited) ∧
      visited.Nodup ∧ ∀ b, b ∈ visited ↔ b ∈ xs ∧ b ≠ start := by
  have hnodup := (List.nodup_cons.mp hl.nodup).2
  rcases List.mem_cons.mp hs with rfl | hmem
  · refine ⟨xs, ?_, hnodup, ?_⟩
    · intro rounds hr
      rw [forEachButOne, butOneFirst_head, butOneFrom_head]
      exact forEach_eq hl hr
    · intro b
      exact ⟨fun hb => ⟨hb, hl.ne_head hb⟩, And.left⟩
  · have hne : start ≠ h := hl.ne_head hmem
    obtain ⟨pre, post, hx⟩ := List.append_of_mem hmem
    have hperm : List.Perm xs (start :: (post ++ pre)) := by
      rw [hx]
      exact List.perm_middle.trans (List.perm_append_comm.cons start)
    obtain ⟨hstart, hrest⟩ := List.nodup_cons.mp (hperm.nodup_iff.mp hnodup)
    refine ⟨post ++ pre, ?_, hrest, ?_⟩
    · intro rounds hr
      have hlen : xs.length = (post ++ pre).length + 1 := hperm.length_eq
      have hx' : xs = pre ++ start :: [] ++ post := by rw [hx, List.append_assoc]; rfl
      rw [forEachButOne, butOneFirst, skip_eq hl hx]
      exact butOneFrom_behind hl hne hx' (by rw [List.length_append] at hlen; omega)
    · intro b
      rw [hperm.mem_iff, List.mem_cons]
      constructor
      · intro hb
        refine ⟨Or.inr hb, ?_⟩
        rintro rfl
        exact hstart hb
      · rintro ⟨hb, hbs⟩
        exact hb.resolve_left hbs

/-- The same backward. -/
theorem forEachReverseButOne_spec (hl : IsList m h xs) (hs : start ∈ h :: xs) :
    ∃ visited, (∀ rounds, xs.length < rounds →
      forEachReverseButOne m start h rounds = some visited) ∧
      visited.Nodup ∧ ∀ b, b ∈ visited ↔ b ∈ xs ∧ b ≠ start := by
  have hs' : start ∈ h :: xs.reverse := by simpa using hs
  obtain ⟨visited, hloop, hnodup, hmem⟩ := forEachButOne_spec hl.mirror hs'
  refine ⟨visited, ?_, hnodup, ?_⟩
  · intro rounds hr
    have hrev : forEachReverseButOne m start h rounds =
        forEachButOne (mirror m) start h rounds := by
      rw [forEachReverseButOne, forEachButOne, nextOf_mirror]
    rw [hrev]
    exact hloop rounds (by rw [List.length_reverse]; exact hr)
  · intro b
    rw [hmem, List.mem_reverse]

end OpenWfd.DList
