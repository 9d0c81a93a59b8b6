import Mathlib.Data.List.Chain
import Mathlib.Data.List.Nodup
import Mathlib.Logic.Function.Basic

/-!
# Support — DList

Circular doubly linked lists in memory, as `shl_dlist.h` builds them.  A list is a head node and the
nodes linked behind it; the memory says which nodes there are.  To read or write a node that is not
there is an error, which has no result.

`IsList m h xs` says that the nodes behind the head `h` are `xs`, in this order.

* `insert_spec`: linking puts a node between two neighbours; in front and at the end are cases of
  it.
* `remove_spec`: unlinking takes a node out, wherever it stands.
* `IsList.mirror`: with `next` and `prev` exchanged, the list is reversed.

Both operations leave the nodes of other lists alone (`Elsewhere`).
-/

namespace OpenWfd

/-- A node.  NULL is `none`. -/
structure Node (α : Type*) where
  next : Option α
  prev : Option α
  deriving DecidableEq, Repr

/-- The nodes there are. -/
abbrev Nodes (α : Type*) := α → Option (Node α)

namespace DList

variable {α : Type*} [DecidableEq α]

/-! ### The operations -/

/-- `a->next = v`. -/
def setNext (m : Nodes α) (a : α) (v : Option α) : Option (Nodes α) :=
  (m a).map fun n => Function.update m a (some { n with next := v })

/-- `a->prev = v`. -/
def setPrev (m : Nodes α) (a : α) (v : Option α) : Option (Nodes α) :=
  (m a).map fun n => Function.update m a (some { n with prev := v })

/-- `shl_dlist_init`. -/
def init (m : Nodes α) (list : α) : Option (Nodes α) := do
  let m ← setNext m list list
  setPrev m list list

/-- `shl_dlist__link`. -/
def linkBetween (m : Nodes α) (prev next n : α) : Option (Nodes α) := do
  let m ← setPrev m next n
  let m ← setNext m n next
  let m ← setPrev m n prev
  setNext m prev n

/-- `shl_dlist_link`. -/
def link (m : Nodes α) (head n : α) : Option (Nodes α) := do
  let node ← m head
  linkBetween m head (← node.next) n

/-- `shl_dlist_link_tail`. -/
def linkTail (m : Nodes α) (head n : α) : Option (Nodes α) := do
  let node ← m head
  linkBetween m (← node.prev) head n

/-- `shl_dlist__unlink`. -/
def unlinkBetween (m : Nodes α) (prev next : α) : Option (Nodes α) := do
  let m ← setPrev m next prev
  setNext m prev next

/-- `shl_dlist_unlink`. -/
def unlink (m : Nodes α) (e : α) : Option (Nodes α) := do
  let node ← m e
  let m ← unlinkBetween m (← node.prev) (← node.next)
  let m ← setPrev m e none
  setNext m e none

/-! ### What they write -/

/-- The `next` of a node that is there. -/
def nextOf (m : Nodes α) (a : α) : Option α := (m a).bind Node.next

/-- The `prev` of a node that is there. -/
def prevOf (m : Nodes α) (a : α) : Option α := (m a).bind Node.prev

/-- The nodes that are there stay. -/
def SameNodes (m m' : Nodes α) : Prop := ∀ a, (m' a).isSome = (m a).isSome

variable {m m' : Nodes α} {a b h n e : α} {xs pre post : List α}

section

omit [DecidableEq α]

theorem SameNodes.trans {m'' : Nodes α} (s : SameNodes m m') (s' : SameNodes m' m'') :
    SameNodes m m'' :=
  fun a => (s' a).trans (s a)

theorem SameNodes.mem (s : SameNodes m m') (ha : (m a).isSome = true) : (m' a).isSome = true :=
  (s a).trans ha

theorem isSome_of_nextOf (hn : nextOf m a = some b) : (m a).isSome = true := by
  unfold nextOf at hn
  cases hm : m a with
  | none => rw [hm] at hn; cases hn
  | some node => rfl

theorem isSome_of_prevOf (hn : prevOf m a = some b) : (m a).isSome = true := by
  unfold prevOf at hn
  cases hm : m a with
  | none => rw [hm] at hn; cases hn
  | some node => rfl

end

theorem nextOf_update (node : Node α) :
    nextOf (Function.update m a (some node)) = Function.update (nextOf m) a node.next := by
  funext c
  by_cases hc : c = a
  · subst hc
    simp [nextOf]
  · simp [nextOf, hc]

theorem prevOf_update (node : Node α) :
    prevOf (Function.update m a (some node)) = Function.update (prevOf m) a node.prev := by
  funext c
  by_cases hc : c = a
  · subst hc
    simp [prevOf]
  · simp [prevOf, hc]

theorem sameNodes_update (ha : (m a).isSome = true) (node : Node α) :
    SameNodes m (Function.update m a (some node)) := by
  intro c
  by_cases hc : c = a
  · subst hc
    simp [ha]
  · simp [hc]

theorem setNext_spec (ha : (m a).isSome = true) (v : Option α) :
    ∃ m', setNext m a v = some m' ∧ nextOf m' = Function.update (nextOf m) a v ∧
      prevOf m' = prevOf m ∧ SameNodes m m' := by
  obtain ⟨node, hnode⟩ := Option.isSome_iff_exists.mp ha
  have hprev : prevOf m a = node.prev := by rw [prevOf, hnode]; rfl
  refine ⟨Function.update m a (some { node with next := v }), ?_, nextOf_update _, ?_,
    sameNodes_update ha _⟩
  · rw [setNext, hnode]
    rfl
  · rw [prevOf_update, ← hprev, Function.update_eq_self]

theorem setPrev_spec (ha : (m a).isSome = true) (v : Option α) :
    ∃ m', setPrev m a v = some m' ∧ nextOf m' = nextOf m ∧
      prevOf m' = Function.update (prevOf m) a v ∧ SameNodes m m' := by
  obtain ⟨node, hnode⟩ := Option.isSome_iff_exists.mp ha
  have hnext : nextOf m a = node.next := by rw [nextOf, hnode]; rfl
  refine ⟨Function.update m a (some { node with prev := v }), ?_, ?_, prevOf_update _,
    sameNodes_update ha _⟩
  · rw [setPrev, hnode]
    rfl
  · rw [nextOf_update, ← hnext, Function.update_eq_self]

/-- The two writes of `init`. -/
theorem init_writes (ha : (m a).isSome = true) :
    ∃ m', init m a = some m' ∧ nextOf m' = Function.update (nextOf m) a (some a) ∧
      prevOf m' = Function.update (prevOf m) a (some a) ∧ SameNodes m m' := by
  obtain ⟨m₁, e₁, n₁, p₁, s₁⟩ := setNext_spec ha (some a)
  obtain ⟨m₂, e₂, n₂, p₂, s₂⟩ := setPrev_spec (s₁.mem ha) (some a)
  refine ⟨m₂, ?_, ?_, ?_, s₁.trans s₂⟩
  · simp [init, e₁, e₂]
  · rw [n₂, n₁]
  · rw [p₂, p₁]

/-- The four writes of `linkBetween`. -/
theorem between_writes (hh : (m h).isSome = true) (ha : (m a).isSome = true)
    (hn : (m n).isSome = true) :
    ∃ m', linkBetween m h a n = some m' ∧
      nextOf m' = Function.update (Function.update (nextOf m) n (some a)) h (some n) ∧
      prevOf m' = Function.update (Function.update (prevOf m) a (some n)) n (some h) ∧
      SameNodes m m' := by
  obtain ⟨m₁, e₁, n₁, p₁, s₁⟩ := setPrev_spec ha (some n)
  obtain ⟨m₂, e₂, n₂, p₂, s₂⟩ := setNext_spec (s₁.mem hn) (some a)
  obtain ⟨m₃, e₃, n₃, p₃, s₃⟩ := setPrev_spec ((s₁.trans s₂).mem hn) (some h)
  obtain ⟨m₄, e₄, n₄, p₄, s₄⟩ := setNext_spec (((s₁.trans s₂).trans s₃).mem hh) (some n)
  refine ⟨m₄, ?_, ?_, ?_, ((s₁.trans s₂).trans s₃).trans s₄⟩
  · simp [linkBetween, e₁, e₂, e₃, e₄]
  · rw [n₄, n₃, n₂, n₁]
  · rw [p₄, p₃, p₂, p₁]

theorem link_eq (hnext : nextOf m h = some a) : link m h n = linkBetween m h a n := by
  obtain ⟨node, hnode⟩ := Option.isSome_iff_exists.mp (isSome_of_nextOf hnext)
  rw [nextOf, hnode] at hnext
  have hnext : node.next = some a := hnext
  simp [link, hnode, hnext]

theorem linkTail_eq (hprev : prevOf m h = some a) : linkTail m h n = linkBetween m a h n := by
  obtain ⟨node, hnode⟩ := Option.isSome_iff_exists.mp (isSome_of_prevOf hprev)
  rw [prevOf, hnode] at hprev
  have hprev : node.prev = some a := hprev
  simp [linkTail, hnode, hprev]

/-- The four writes of `unlink`. -/
theorem unlink_writes (hnext : nextOf m e = some b) (hprev : prevOf m e = some a)
    (hb : (m b).isSome = true) (ha : (m a).isSome = true) :
    ∃ m', unlink m e = some m' ∧
      nextOf m' = Function.update (Function.update (nextOf m) a (some b)) e none ∧
      prevOf m' = Function.update (Function.update (prevOf m) b (some a)) e none ∧
      SameNodes m m' := by
  obtain ⟨node, hnode⟩ := Option.isSome_iff_exists.mp (isSome_of_nextOf hnext)
  have hnodeNext : node.next = some b := by
    rw [nextOf, hnode] at hnext
    exact hnext
  have hnodePrev : node.prev = some a := by
    rw [prevOf, hnode] at hprev
    exact hprev
  obtain ⟨m₁, e₁, n₁, p₁, s₁⟩ := setPrev_spec hb (some a)
  obtain ⟨m₂, e₂, n₂, p₂, s₂⟩ := setNext_spec (s₁.mem ha) (some b)
  have hthere := (s₁.trans s₂).mem (isSome_of_nextOf hnext)
  obtain ⟨m₃, e₃, n₃, p₃, s₃⟩ := setPrev_spec hthere none
  obtain ⟨m₄, e₄, n₄, p₄, s₄⟩ := setNext_spec (s₃.mem hthere) none
  refine ⟨m₄, ?_, ?_, ?_, ((s₁.trans s₂).trans s₃).trans s₄⟩
  · simp [unlink, unlinkBetween, hnode, hnodeNext, hnodePrev, e₁, e₂, e₃, e₄]
  · rw [n₄, n₃, n₂, n₁]
  · rw [p₄, p₃, p₂, p₁]

/-! ### Lists -/

/-- `b` comes after `a`. -/
def Adj (m : Nodes α) (a b : α) : Prop := nextOf m a = some b ∧ prevOf m b = some a

/-- The nodes behind the head `h` are `xs`. -/
structure IsList (m : Nodes α) (h : α) (xs : List α) : Prop where
  nodup : (h :: xs).Nodup
  chain : (h :: xs ++ [h]).IsChain (Adj m)

section

omit [DecidableEq α]

theorem chain_keep {l : List α} (hc : l.IsChain (Adj m))
    (hnext : ∀ a b, a ∈ l → b ∈ l.tail → nextOf m a = some b → nextOf m' a = nextOf m a)
    (hprev : ∀ b ∈ l.tail, prevOf m' b = prevOf m b) : l.IsChain (Adj m') := by
  refine hc.imp_of_mem_tail_imp ?_
  rintro a b ha hb ⟨hn, hp⟩
  exact ⟨(hnext a b ha hb hn).trans hn, (hprev b hb).trans hp⟩

/-- A list lies in the fields of its own nodes only. -/
theorem IsList.keep (hl : IsList m h xs)
    (hm : ∀ a ∈ h :: xs, nextOf m' a = nextOf m a ∧ prevOf m' a = prevOf m a) : IsList m' h xs := by
  have hmem : ∀ a ∈ h :: xs ++ [h], nextOf m' a = nextOf m a ∧ prevOf m' a = prevOf m a :=
    List.forall_mem_append.mpr ⟨hm, List.forall_mem_singleton.mpr (hm h List.mem_cons_self)⟩
  refine ⟨hl.nodup, chain_keep hl.chain ?_ ?_⟩
  · intro a b ha _ _
    exact (hmem a ha).1
  · intro b hb
    exact (hmem b (List.mem_of_mem_tail hb)).2

theorem IsList.congr (hl : IsList m h xs) (hm : ∀ a ∈ h :: xs, m' a = m a) : IsList m' h xs := by
  refine hl.keep ?_
  intro a ha
  rw [nextOf, nextOf, prevOf, prevOf, hm a ha]
  exact ⟨rfl, rfl⟩

/-- What follows a node of a list. -/
theorem IsList.nextOf_eq (hl : IsList m h xs) (hx : h :: xs = pre ++ a :: post) :
    nextOf m a = (post ++ [h]).head? := by
  have hc := hl.chain
  rw [hx, List.append_assoc, List.cons_append] at hc
  rcases hpost : post ++ [h] with _ | ⟨b, rest⟩
  · exact absurd hpost (by simp)
  · rw [hpost, List.isChain_append_cons_cons] at hc
    exact hc.2.1.1

/-- What follows the head. -/
theorem IsList.nextOf_head (hl : IsList m h xs) : nextOf m h = (xs ++ [h]).head? := by
  have hhead : h :: xs = [] ++ h :: xs := rfl
  exact hl.nextOf_eq hhead

/-- With `next` and `prev` exchanged. -/
def mirror (m : Nodes α) : Nodes α := fun a => (m a).map fun node => ⟨node.prev, node.next⟩

@[simp] theorem nextOf_mirror (m : Nodes α) : nextOf (mirror m) = prevOf m := by
  funext a
  unfold nextOf prevOf mirror
  cases m a <;> rfl

@[simp] theorem prevOf_mirror (m : Nodes α) : prevOf (mirror m) = nextOf m := by
  funext a
  unfold nextOf prevOf mirror
  cases m a <;> rfl

/-- **The list in the mirror is reversed.** -/
theorem IsList.mirror (hl : IsList m h xs) : IsList (mirror m) h xs.reverse := by
  refine ⟨?_, ?_⟩
  · exact ((List.reverse_perm xs).cons h).nodup_iff.mpr hl.nodup
  · have hrev : h :: xs.reverse ++ [h] = (h :: xs ++ [h]).reverse := by simp
    have hadj : Adj (DList.mirror m) = flip (Adj m) := by
      funext a b
      simp [Adj, flip, and_comm]
    rw [hrev, List.isChain_reverse, hadj]
    exact hl.chain

/-- What precedes the head. -/
theorem IsList.prevOf_head (hl : IsList m h xs) : prevOf m h = (h :: xs).getLast? := by
  have hn := hl.mirror.nextOf_head
  rw [nextOf_mirror] at hn
  rw [hn, ← List.head?_reverse, List.reverse_cons]

theorem IsList.isSome (hl : IsList m h xs) (ha : a ∈ h :: xs) : (m a).isSome = true := by
  obtain ⟨pre, post, hx⟩ := List.append_of_mem ha
  have hn := hl.nextOf_eq hx
  rcases hpost : post ++ [h] with _ | ⟨b, rest⟩
  · exact absurd hpost (by simp)
  · rw [hpost] at hn
    exact isSome_of_nextOf hn

end

/-- The fields of the nodes outside `l` stay. -/
def Elsewhere (m m' : Nodes α) (l : List α) : Prop :=
  ∀ b ∉ l, nextOf m' b = nextOf m b ∧ prevOf m' b = prevOf m b

section

omit [DecidableEq α]

/-- A list that shares no node with `l`. -/
theorem IsList.elsewhere {l : List α} (hl : IsList m h xs) (he : Elsewhere m m' l)
    (hd : ∀ b ∈ h :: xs, b ∉ l) : IsList m' h xs :=
  hl.keep fun b hb => he b (hd b hb)

end

theorem init_spec (ha : (m a).isSome = true) :
    ∃ m', init m a = some m' ∧ IsList m' a [] ∧ Elsewhere m m' [a] ∧ SameNodes m m' := by
  obtain ⟨m', hinit, hnext, hprev, hsame⟩ := init_writes ha
  refine ⟨m', hinit, ⟨List.nodup_singleton a, ?_⟩, ?_, hsame⟩
  · refine .cons_cons ⟨?_, ?_⟩ (.singleton a)
    · rw [hnext, Function.update_self]
    · rw [hprev, Function.update_self]
  · intro b hb
    have hba : b ≠ a := fun heq => hb (List.mem_singleton.mpr heq)
    rw [hnext, hprev, Function.update_of_ne hba, Function.update_of_ne hba]
    exact ⟨rfl, rfl⟩

/-- `p` is the last node of one part of a circle, and `q` the first of the other.  Only the fields
between them change, and those of `n`, which is in neither part. -/
structure Seam (m m' : Nodes α) (h : α) (pre post : List α) (p q n : α) : Prop where
  nodup : (h :: (pre ++ post)).Nodup
  fresh : n ∉ h :: (pre ++ post)
  last : (h :: pre).getLast? = some p
  head : (post ++ [h]).head? = some q
  between : ∀ b, nextOf m p = some b → b = q ∨ b = n
  next : ∀ a, a ≠ p → a ≠ n → nextOf m' a = nextOf m a
  prev : ∀ b, b ≠ q → b ≠ n → prevOf m' b = prevOf m b

namespace Seam

omit [DecidableEq α]

variable {p q : α}

theorem last_mem (s : Seam m m' h pre post p q n) : p ∈ h :: (pre ++ post) :=
  List.mem_append_left post (List.mem_of_getLast? s.last)

theorem head_mem (s : Seam m m' h pre post p q n) : q ∈ h :: (pre ++ post) := by
  rcases List.mem_append.mp (List.mem_of_head? s.head) with hq | hq
  · exact List.mem_cons_of_mem h (List.mem_append_right pre hq)
  · rw [List.mem_singleton.mp hq]
    exact List.mem_cons_self

/-- A part without `n` that `q` could only begin. -/
theorem keep (s : Seam m m' h pre post p q n) {l : List α} (hc : l.IsChain (Adj m)) (hn : n ∉ l)
    (hq : q ∉ l.tail) : l.IsChain (Adj m') := by
  have hne : ∀ a ∈ l, a ≠ n := fun a ha heq => hn (heq ▸ ha)
  have hneq : ∀ b ∈ l.tail, b ≠ q := fun b hb heq => hq (heq ▸ hb)
  refine chain_keep hc ?_ ?_
  · intro a b ha hb hab
    refine s.next a ?_ (hne a ha)
    rintro rfl
    rcases s.between b hab with rfl | rfl
    · exact hq hb
    · exact hn (List.mem_of_mem_tail hb)
  · intro b hb
    exact s.prev b (hneq b hb) (hne b (List.mem_of_mem_tail hb))

theorem left (s : Seam m m' h pre post p q n) (hc : (h :: pre).IsChain (Adj m)) :
    (h :: pre).IsChain (Adj m') := by
  refine s.keep hc (fun hn => s.fresh (List.mem_append_left post hn)) ?_
  intro hq
  rcases List.mem_append.mp (List.mem_of_head? s.head) with hq' | hq'
  · exact List.disjoint_of_nodup_append (List.nodup_cons.mp s.nodup).2 hq hq'
  · rw [List.mem_singleton.mp hq'] at hq
    exact (List.nodup_cons.mp s.nodup).1 (List.mem_append_left post hq)

theorem right (s : Seam m m' h pre post p q n) (hc : (post ++ [h]).IsChain (Adj m)) :
    (post ++ [h]).IsChain (Adj m') := by
  have hperm : List.Perm (h :: (pre ++ post)) (pre ++ (post ++ [h])) := by
    rw [← List.append_assoc]
    exact (List.perm_append_singleton h (pre ++ post)).symm
  obtain ⟨after, hafter⟩ := List.head?_eq_some_iff.mp s.head
  refine s.keep hc ?_ ?_
  · exact fun hn => s.fresh (hperm.mem_iff.mpr (List.mem_append_right pre hn))
  · have hnodup := (List.nodup_append.mp (hperm.nodup_iff.mp s.nodup)).2.1
    rw [hafter] at hnodup ⊢
    exact (List.nodup_cons.mp hnodup).1

theorem elsewhere (s : Seam m m' h pre post p q n) : Elsewhere m m' (h :: (pre ++ n :: post)) := by
  intro b hb
  have hsub : ∀ c ∈ h :: (pre ++ post), b ≠ c := by
    rintro c hc rfl
    exact hb (((List.sublist_cons_self n post).append_left pre).cons_cons h |>.subset hc)
  have hbn : b ≠ n := by
    rintro rfl
    exact hb (by simp)
  exact ⟨s.next b (hsub p s.last_mem) hbn, s.prev b (hsub q s.head_mem) hbn⟩

end Seam

/-- **Linking puts a node between two neighbours.** -/
theorem insert_spec {p q : α} (hl : IsList m h (pre ++ post)) (hn : n ∉ h :: (pre ++ post))
    (hm : (m n).isSome = true) (hp : (h :: pre).getLast? = some p)
    (hq : (post ++ [h]).head? = some q) :
    ∃ m', linkBetween m p q n = some m' ∧ IsList m' h (pre ++ n :: post) ∧
      Elsewhere m m' (h :: (pre ++ n :: post)) ∧ SameNodes m m' := by
  have hcut : h :: (pre ++ post) ++ [h] = (h :: pre) ++ (post ++ [h]) := by simp
  obtain ⟨hleft, hright, hjoin⟩ := List.isChain_append.mp (hcut ▸ hl.chain)
  obtain ⟨hpq, hqp⟩ := hjoin p hp q hq
  obtain ⟨m', hlink, hnext', hprev', hsame⟩ :=
    between_writes (isSome_of_nextOf hpq) (isSome_of_prevOf hqp) hm
  have hs : Seam m m' h pre post p q n := by
    refine ⟨hl.nodup, hn, hp, hq, ?_, ?_, ?_⟩
    · intro b hb
      rw [hpq] at hb
      exact Or.inl (Option.some.inj hb).symm
    · intro a hap han
      rw [hnext', Function.update_of_ne hap, Function.update_of_ne han]
    · intro b hbq hbn
      rw [hprev', Function.update_of_ne hbn, Function.update_of_ne hbq]
  have hnp : n ≠ p := fun heq => hn (heq ▸ hs.last_mem)
  have hqn : q ≠ n := fun heq => hn (heq ▸ hs.head_mem)
  refine ⟨m', hlink, ⟨?_, ?_⟩, hs.elsewhere, hsame⟩
  · exact (List.perm_middle.cons h).trans (List.Perm.swap n h _) |>.nodup_iff.mpr
      (List.nodup_cons.mpr ⟨hn, hl.nodup⟩)
  · rw [show h :: (pre ++ n :: post) ++ [h] = (h :: pre) ++ n :: (post ++ [h]) by simp]
    refine List.isChain_append.mpr
      ⟨hs.left hleft, List.isChain_cons.mpr ⟨?_, hs.right hright⟩, ?_⟩
    · intro y hy
      obtain rfl := Option.some.inj (hq.symm.trans hy)
      refine ⟨?_, ?_⟩
      · rw [hnext', Function.update_of_ne hnp, Function.update_self]
      · rw [hprev', Function.update_of_ne hqn, Function.update_self]
    · intro x hx y hy
      obtain rfl := Option.some.inj (hp.symm.trans hx)
      obtain rfl : n = y := Option.some.inj hy
      refine ⟨?_, ?_⟩
      · rw [hnext', Function.update_self]
      · rw [hprev', Function.update_self]

/-- Linking in front. -/
theorem link_elsewhere (hl : IsList m h xs) (hn : n ∉ h :: xs) (hm : (m n).isSome = true) :
    ∃ m', link m h n = some m' ∧ IsList m' h (n :: xs) ∧ Elsewhere m m' (h :: n :: xs) ∧
      SameNodes m m' := by
  obtain ⟨q, after, hafter⟩ :=
    List.exists_cons_of_ne_nil (List.append_ne_nil_of_right_ne_nil xs (List.cons_ne_nil h []))
  have hq : (xs ++ [h]).head? = some q := by
    rw [hafter]
    rfl
  have hp : [h].getLast? = some h := rfl
  have hxs : xs = [] ++ xs := rfl
  obtain ⟨m', hlink, hspec⟩ := insert_spec (hxs ▸ hl) (hxs ▸ hn) hm hp hq
  refine ⟨m', ?_, hspec⟩
  rw [link_eq (hl.nextOf_head.trans hq), hlink]

/-- Linking at the end. -/
theorem linkTail_elsewhere (hl : IsList m h xs) (hn : n ∉ h :: xs) (hm : (m n).isSome = true) :
    ∃ m', linkTail m h n = some m' ∧ IsList m' h (xs ++ [n]) ∧
      Elsewhere m m' (h :: (xs ++ [n])) ∧ SameNodes m m' := by
  obtain ⟨before, p, hbefore⟩ :=
    (List.eq_nil_or_concat' (h :: xs)).resolve_left (List.cons_ne_nil h xs)
  have hp : (h :: xs).getLast? = some p := List.getLast?_eq_some_iff.mpr ⟨before, hbefore⟩
  have hxs : xs = xs ++ [] := (List.append_nil xs).symm
  obtain ⟨m', hlink, hspec⟩ := insert_spec (hxs ▸ hl) (hxs ▸ hn) hm hp rfl
  refine ⟨m', ?_, hspec⟩
  rw [linkTail_eq (hl.prevOf_head.trans hp), hlink]

/-- Linking in front, other lists aside. -/
theorem link_spec (hl : IsList m h xs) (hn : n ∉ h :: xs) (hm : (m n).isSome = true) :
    ∃ m', link m h n = some m' ∧ IsList m' h (n :: xs) ∧ SameNodes m m' := by
  obtain ⟨m', hlink, hlist, -, hsame⟩ := link_elsewhere hl hn hm
  exact ⟨m', hlink, hlist, hsame⟩

/-- **Unlinking takes a node out.** -/
theorem remove_spec (hl : IsList m h (pre ++ e :: post)) :
    ∃ m', unlink m e = some m' ∧ IsList m' h (pre ++ post) ∧
      Elsewhere m m' (h :: (pre ++ e :: post)) ∧ SameNodes m m' := by
  obtain ⟨p, hp⟩ : ∃ p, (h :: pre).getLast? = some p := Option.isSome_iff_exists.mp (by simp)
  obtain ⟨q, hq⟩ : ∃ q, (post ++ [h]).head? = some q := Option.isSome_iff_exists.mp (by simp)
  have hcut : h :: (pre ++ e :: post) ++ [h] = (h :: pre) ++ e :: (post ++ [h]) := by simp
  obtain ⟨hleft, hrest, hjoin⟩ := List.isChain_append.mp (hcut ▸ hl.chain)
  obtain ⟨hbehind, hright⟩ := List.isChain_cons.mp hrest
  obtain ⟨hpe, hep⟩ := hjoin p hp e rfl
  obtain ⟨heq, hqe⟩ := hbehind q hq
  have hperm : List.Perm (h :: (pre ++ e :: post)) (e :: h :: (pre ++ post)) :=
    (List.perm_middle.cons h).trans (List.Perm.swap e h _)
  obtain ⟨hfresh, hnodup⟩ := List.nodup_cons.mp (hperm.nodup_iff.mp hl.nodup)
  obtain ⟨m', hunlink, hnext', hprev', hsame⟩ :=
    unlink_writes heq hep (isSome_of_prevOf hqe) (isSome_of_nextOf hpe)
  have hs : Seam m m' h pre post p q e := by
    refine ⟨hnodup, hfresh, hp, hq, ?_, ?_, ?_⟩
    · intro b hb
      rw [hpe] at hb
      exact Or.inr (Option.some.inj hb).symm
    · intro a hap hae
      rw [hnext', Function.update_of_ne hae, Function.update_of_ne hap]
    · intro b hbq hbe
      rw [hprev', Function.update_of_ne hbe, Function.update_of_ne hbq]
  have hpne : p ≠ e := fun hsame => hfresh (hsame ▸ hs.last_mem)
  have hqne : q ≠ e := fun hsame => hfresh (hsame ▸ hs.head_mem)
  refine ⟨m', hunlink, ⟨hnodup, ?_⟩, hs.elsewhere, hsame⟩
  rw [show h :: (pre ++ post) ++ [h] = (h :: pre) ++ (post ++ [h]) by simp]
  refine List.isChain_append.mpr ⟨hs.left hleft, hs.right hright, ?_⟩
  intro x hx y hy
  obtain rfl := Option.some.inj (hp.symm.trans hx)
  obtain rfl := Option.some.inj (hq.symm.trans hy)
  refine ⟨?_, ?_⟩
  · rw [hnext', Function.update_of_ne hpne, Function.update_self]
  · rw [hprev', Function.update_of_ne hqne, Function.update_self]

/-- Unlinking, other lists aside. -/
theorem unlink_spec (hl : IsList m h (pre ++ e :: post)) :
    ∃ m', unlink m e = some m' ∧ IsList m' h (pre ++ post) ∧ SameNodes m m' := by
  obtain ⟨m', hunlink, hlist, -, hsame⟩ := remove_spec hl
  exact ⟨m', hunlink, hlist, hsame⟩

end DList

end OpenWfd
