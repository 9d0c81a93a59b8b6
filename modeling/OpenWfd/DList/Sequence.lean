import OpenWfd.DList.Loops
import Mathlib.Logic.Relation

/-!
# DList — Sequence

The lists of `src/shl_dlist.h` refine sequences.  Any number of lists share one memory; what they
are meant to hold is a sequence for each head (`Seqs`), of which an operation changes one.

* `Rep.step`: an operation on the memory does what it does to the sequences, and leaves the other
  lists alone.
* `dlist_refines`: so after any operations, of which each links an unlinked node or unlinks a linked
  one, every list is a circle (`Circular`) through its sequence.
-/

namespace OpenWfd.DList

variable {α : Type*} [DecidableEq α]

/-! ### Sequences -/

/-- The sequence behind each head; `none` for a node that is no head. -/
abbrev Seqs (α : Type*) := α → Option (List α)

/-- An element of one of the sequences. -/
def Linked (s : Seqs α) (a : α) : Prop := ∃ h xs, s h = some xs ∧ a ∈ xs

/-- The operations. -/
inductive Op (α : Type*) where
  | init (list : α)
  | link (head n : α)
  | linkTail (head n : α)
  | unlink (e : α)
  deriving DecidableEq, Repr

/-- On the memory. -/
def Op.exec (m : Nodes α) : Op α → Option (Nodes α)
  | .init list       => DList.init m list
  | .link head n     => DList.link m head n
  | .linkTail head n => DList.linkTail m head n
  | .unlink e        => DList.unlink m e

/-- Only unlinked nodes are linked, to a list that there is, and only linked nodes are unlinked. -/
def Op.Allowed (s : Seqs α) : Op α → Prop
  | .init list       => ¬ Linked s list
  | .link head n     => s head ≠ none ∧ n ≠ head ∧ ¬ Linked s n
  | .linkTail head n => s head ≠ none ∧ n ≠ head ∧ ¬ Linked s n
  | .unlink e        => Linked s e

/-- On the sequences.  A node that is linked is no head any more. -/
def Op.apply (s : Seqs α) : Op α → Seqs α
  | .init list       => Function.update s list (some [])
  | .link head n     => Function.update (Function.update s head ((s head).map (n :: ·))) n none
  | .linkTail head n => Function.update (Function.update s head ((s head).map (· ++ [n]))) n none
  | .unlink e        => fun head => (s head).map (·.erase e)

/-- Operations that are allowed one after the other. -/
def Proper (s : Seqs α) : List (Op α) → Prop
  | []        => True
  | op :: ops => op.Allowed s ∧ Proper (op.apply s) ops

/-! ### One operation -/

/-- The memory holds the sequences, each in nodes of its own. -/
structure Rep (m : Nodes α) (s : Seqs α) : Prop where
  lists : ∀ h xs, s h = some xs → IsList m h xs
  apart : ∀ h xs h' ys, s h = some xs → s h' = some ys → h ≠ h' → List.Disjoint (h :: xs) (h' :: ys)

variable {m m' : Nodes α} {s s' : Seqs α} {a h n e : α} {xs l : List α}

/-- One list changes, within the nodes `l`, and the others have none of these. -/
theorem Rep.change (hr : Rep m s) (hself : s' h = some xs) (hl : IsList m' h xs)
    (he : Elsewhere m m' l) (hin : h :: xs ⊆ l)
    (hs : ∀ h' ys, h' ≠ h → s' h' = some ys → s h' = some ys ∧ List.Disjoint (h' :: ys) l) :
    Rep m' s' where
  lists := by
    intro h' ys hys
    by_cases hh : h' = h
    · subst hh
      rw [hself] at hys
      cases hys
      exact hl
    · obtain ⟨hold, hd⟩ := hs h' ys hh hys
      exact (hr.lists h' ys hold).elsewhere he fun b hb hbl => hd hb hbl
  apart := by
    intro h₁ ys h₂ zs h₁s h₂s hne
    by_cases hh₁ : h₁ = h
    · subst hh₁
      rw [hself] at h₁s
      cases h₁s
      have hd := (hs h₂ zs hne.symm h₂s).2
      exact fun b hb₁ hb₂ => hd hb₂ (hin hb₁)
    · obtain ⟨hold₁, hd₁⟩ := hs h₁ ys hh₁ h₁s
      by_cases hh₂ : h₂ = h
      · subst hh₂
        rw [hself] at h₂s
        cases h₂s
        exact fun b hb₁ hb₂ => hd₁ hb₁ (hin hb₂)
      · exact hr.apart h₁ ys h₂ zs hold₁ (hs h₂ zs hh₂ h₂s).1 hne

omit [DecidableEq α] in
/-- A node that is not linked is not in the list of another head. -/
theorem not_mem_of_unlinked (hn : ¬ Linked s n) {xs : List α} (hxs : s h = some xs) (hne : n ≠ h) :
    n ∉ h :: xs := by
  intro hmem
  rcases List.mem_cons.mp hmem with rfl | hmem
  · exact hne rfl
  · exact hn ⟨h, xs, hxs, hmem⟩

theorem Rep.init (hr : Rep m s) (hm : (m a).isSome = true) (ha : ¬ Linked s a) :
    ∃ m', DList.init m a = some m' ∧ Rep m' (Function.update s a (some [])) ∧ SameNodes m m' := by
  obtain ⟨m', hinit, hlist, helse, hsame⟩ := init_spec hm
  refine ⟨m', hinit, hr.change (Function.update_self _ _ _) hlist helse (List.Subset.refl _) ?_,
    hsame⟩
  intro h' ys hne hys
  rw [Function.update_of_ne hne] at hys
  refine ⟨hys, ?_⟩
  intro b hb hba
  rw [List.mem_singleton.mp hba] at hb
  exact not_mem_of_unlinked ha hys hne.symm hb

/-- Linking `n` at some place in the list of `h`. -/
theorem Rep.insert {ys : List α} (hr : Rep m s) (hxs : s h = some xs) (hne : n ≠ h)
    (hn : ¬ Linked s n) (hl : IsList m' h ys) (hperm : ys.Perm (n :: xs))
    (he : Elsewhere m m' (h :: ys)) :
    Rep m' (Function.update (Function.update s h (some ys)) n none) := by
  refine hr.change ?_ hl he (List.Subset.refl _) ?_
  · rw [Function.update_of_ne hne.symm, Function.update_self]
  · intro h' zs hne' hzs
    by_cases hn' : h' = n
    · rw [hn', Function.update_self] at hzs
      cases hzs
    · rw [Function.update_of_ne hn', Function.update_of_ne hne'] at hzs
      refine ⟨hzs, ?_⟩
      intro b hb hbl
      have hbl : b ∈ n :: h :: xs := by
        have hp : (h :: ys).Perm (n :: h :: xs) := (hperm.cons h).trans (List.Perm.swap n h xs)
        exact hp.mem_iff.mp hbl
      rcases List.mem_cons.mp hbl with rfl | hbl
      · exact not_mem_of_unlinked hn hzs (Ne.symm hn') hb
      · exact hr.apart h' zs h xs hzs hxs hne' hb hbl

theorem Rep.unlink (hr : Rep m s) (he : Linked s e) :
    ∃ m', DList.unlink m e = some m' ∧ Rep m' (fun head => (s head).map (·.erase e)) ∧
      SameNodes m m' := by
  obtain ⟨h, xs, hxs, hmem⟩ := he
  have hl := hr.lists h xs hxs
  have hnodup := (List.nodup_cons.mp hl.nodup).2
  obtain ⟨pre, post, rfl⟩ := List.append_of_mem hmem
  have hpre : e ∉ pre := fun hin =>
    (List.nodup_append.mp hnodup).2.2 e hin e List.mem_cons_self rfl
  have herase : (pre ++ e :: post).erase e = pre ++ post := by
    rw [List.erase_append_right _ hpre, List.erase_cons_head]
  obtain ⟨m', hunlink, hlist, helse, hsame⟩ := remove_spec hl
  refine ⟨m', hunlink, hr.change ?_ hlist helse ?_ ?_, hsame⟩
  · rw [hxs, Option.map_some, herase]
  · refine List.cons_subset_cons h ?_
    exact ((List.Sublist.refl pre).append (List.sublist_cons_self e post)).subset
  · intro h' ys hne hys
    obtain ⟨zs, hzs, rfl⟩ := Option.map_eq_some_iff.mp hys
    have hd := hr.apart h' zs h _ hzs hxs hne
    have hnot : e ∉ zs := fun hin => hd (List.mem_cons_of_mem h' hin) (List.mem_cons_of_mem h hmem)
    rw [List.erase_of_not_mem hnot]
    exact ⟨hzs, hd⟩

/-- **One operation.** -/
theorem Rep.step (hr : Rep m s) (hm : ∀ a, (m a).isSome = true) {op : Op α} (ha : op.Allowed s) :
    ∃ m', op.exec m = some m' ∧ Rep m' (op.apply s) ∧ SameNodes m m' := by
  cases op with
  | init list => exact hr.init (hm list) ha
  | link head n =>
      obtain ⟨hsome, hne, hn⟩ := ha
      obtain ⟨xs, hxs⟩ := Option.ne_none_iff_exists'.mp hsome
      obtain ⟨m', hlink, hl, he, hsame⟩ :=
        link_elsewhere (hr.lists head xs hxs) (not_mem_of_unlinked hn hxs hne) (hm n)
      refine ⟨m', hlink, ?_, hsame⟩
      rw [Op.apply, hxs]
      exact hr.insert hxs hne hn hl (List.Perm.refl _) he
  | linkTail head n =>
      obtain ⟨hsome, hne, hn⟩ := ha
      obtain ⟨xs, hxs⟩ := Option.ne_none_iff_exists'.mp hsome
      obtain ⟨m', hlink, hl, he, hsame⟩ :=
        linkTail_elsewhere (hr.lists head xs hxs) (not_mem_of_unlinked hn hxs hne) (hm n)
      refine ⟨m', hlink, ?_, hsame⟩
      rw [Op.apply, hxs]
      exact hr.insert hxs hne hn hl (List.perm_append_singleton n xs) he
  | unlink e => exact hr.unlink ha

/-- Any number of them. -/
theorem Rep.run {ops : List (Op α)} (hr : Rep m s) (hm : ∀ a, (m a).isSome = true)
    (hp : Proper s ops) : ∃ m', ops.foldlM Op.exec m = some m' ∧ Rep m' (ops.foldl Op.apply s) := by
  induction ops generalizing m s with
  | nil => exact ⟨m, rfl, hr⟩
  | cons op ops ih =>
      obtain ⟨ha, hp⟩ := hp
      obtain ⟨m₁, hexec, hr₁, hsame⟩ := hr.step hm ha
      obtain ⟨m', hrun, hr'⟩ := ih hr₁ (fun a => hsame.mem (hm a)) hp
      refine ⟨m', ?_, hr'⟩
      rw [List.foldlM_cons, hexec]
      exact hrun

/-! ### What a list looks like -/

/-- The nodes of a list are the ones that its head leads to; `next` and `prev` are inverse on them;
the loops visit the sequence, its mirror image, and the sequence without one element. -/
structure Circular (m : Nodes α) (h : α) (xs : List α) : Prop where
  nodup : (h :: xs).Nodup
  reachable : ∀ a, Relation.ReflTransGen (fun a b => nextOf m a = some b) h a ↔ a ∈ h :: xs
  next : ∀ a ∈ h :: xs, ∃ b ∈ h :: xs, nextOf m a = some b ∧ prevOf m b = some a
  prev : ∀ a ∈ h :: xs, ∃ b ∈ h :: xs, prevOf m a = some b ∧ nextOf m b = some a
  forward : ∀ rounds, xs.length < rounds → forEach m h rounds = some xs
  backward : ∀ rounds, xs.length < rounds → forEachReverse m h rounds = some xs.reverse
  butOne : ∀ start ∈ h :: xs, ∃ visited,
    (∀ rounds, xs.length < rounds → forEachButOne m start h rounds = some visited) ∧
      visited.Nodup ∧ ∀ b, b ∈ visited ↔ b ∈ xs ∧ b ≠ start

section

omit [DecidableEq α]

theorem IsList.next (hl : IsList m h xs) (ha : a ∈ h :: xs) :
    ∃ b ∈ h :: xs, nextOf m a = some b ∧ prevOf m b = some a := by
  obtain ⟨pre, post, hx⟩ := List.append_of_mem ha
  obtain ⟨b, rest, hpost⟩ := List.exists_cons_of_ne_nil
    (List.append_ne_nil_of_right_ne_nil post (List.cons_ne_nil h []))
  have hc := hl.chain
  rw [hx, List.append_assoc, List.cons_append, hpost, List.isChain_append_cons_cons] at hc
  have hb : b ∈ post ++ [h] := hpost ▸ List.mem_cons_self
  refine ⟨b, ?_, hc.2.1⟩
  rcases List.mem_append.mp hb with hb | hb
  · rw [hx]
    exact List.mem_append_right pre (List.mem_cons_of_mem a hb)
  · rw [List.mem_singleton.mp hb]
    exact List.mem_cons_self

theorem IsList.prev (hl : IsList m h xs) (ha : a ∈ h :: xs) :
    ∃ b ∈ h :: xs, prevOf m a = some b ∧ nextOf m b = some a := by
  have ha' : a ∈ h :: xs.reverse := by simpa using ha
  obtain ⟨b, hb, hab⟩ := hl.mirror.next ha'
  rw [nextOf_mirror, prevOf_mirror] at hab
  exact ⟨b, by simpa using hb, hab⟩

theorem IsList.reachable (hl : IsList m h xs) :
    Relation.ReflTransGen (fun a b => nextOf m a = some b) h a ↔ a ∈ h :: xs := by
  constructor
  · intro hreach
    induction hreach with
    | refl => exact List.mem_cons_self
    | tail _ hstep ih =>
        obtain ⟨b, hb, hnext, -⟩ := hl.next ih
        rw [hnext] at hstep
        cases hstep
        exact hb
  · intro ha
    obtain ⟨pre, post, hx⟩ := List.append_of_mem ha
    induction pre using List.reverseRecOn generalizing a post with
    | nil =>
        cases hx
        exact .refl
    | append_singleton pre p ih =>
        rw [List.append_assoc, List.singleton_append] at hx
        have hp : p ∈ h :: xs := by
          rw [hx]
          exact List.mem_append_right pre List.mem_cons_self
        refine (ih hp (a :: post) hx).tail ?_
        rw [hl.nextOf_eq hx]
        rfl

end

theorem IsList.circular (hl : IsList m h xs) : Circular m h xs where
  nodup := hl.nodup
  reachable _ := hl.reachable
  next _ ha := hl.next ha
  prev _ ha := hl.prev ha
  forward _ hr := forEach_eq hl hr
  backward _ hr := forEachReverse_eq hl hr
  butOne _ hs := forEachButOne_spec hl hs

/-- **Lists are sequences.**  Whatever the nodes hold at first, the operations read and write nodes
only, and leave every list a circle through what the sequence of its head has become. -/
theorem dlist_refines (m₀ : α → Node α) (ops : List (Op α)) (hp : Proper (fun _ => none) ops) :
    ∃ m, ops.foldlM Op.exec (fun a => some (m₀ a)) = some m ∧
      ∀ h xs, ops.foldl Op.apply (fun _ => none) h = some xs → Circular m h xs := by
  have hr : Rep (fun a => some (m₀ a)) fun _ => none := ⟨nofun, nofun⟩
  obtain ⟨m, hrun, hr'⟩ := hr.run (fun _ => rfl) hp
  exact ⟨m, hrun, fun h xs hxs => (hr'.lists h xs hxs).circular⟩

/-- A node in front and a node behind it; then the first is taken out. -/
theorem dlist_refines_two :
    ∃ m : Nodes (Fin 3), [.init 0, .link 0 1, .linkTail 0 2, .unlink 1].foldlM Op.exec
      (fun _ => some ⟨none, none⟩) = some m ∧ Circular m 0 [2] := by
  have hp : Proper (fun _ => none)
      ([.init 0, .link 0 1, .linkTail 0 2, .unlink 1] : List (Op (Fin 3))) := by
    simp only [Proper, Op.Allowed, Linked, Op.apply, Function.update_apply]
    refine ⟨by simp, by simp, ⟨by decide, by decide, ?_⟩, ⟨0, [1, 2], rfl, by decide⟩, trivial⟩
    rintro ⟨h, xs, hxs, hmem⟩
    split_ifs at hxs
    simp [← Option.some.inj hxs] at hmem
  obtain ⟨m, hrun, hlists⟩ := dlist_refines (fun _ => ⟨none, none⟩) _ hp
  exact ⟨m, hrun, hlists 0 [2] (by decide)⟩

end OpenWfd.DList
