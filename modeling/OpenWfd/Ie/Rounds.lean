import OpenWfd.Ie.Definitions

/-!
# Ie — Rounds

The two loops of `print_ie`, without the lines they print.  Between two rounds the inner loop has
either no payload to collect (`Locals.Idle`), or a block that holds some of it and so many bytes to
come (`Locals.Collecting`); `loop_rest`, `loop_part` and `loop_header` say how it goes from one to
the other.

Nothing ever moves the pointer `c`: where the block was not filled at once, it is set to `c + l`
when `l` is 0 already.  So each part of the payload is copied to the start of the block.
-/

namespace OpenWfd.Ie

/-! ### What is printed beside the calls -/

section

variable (o : Out) (text : String)

@[simp] theorem Out.calls_line : (o.line text).calls = o.calls := by
  simp [Out.calls, Out.line, Printed.call?]

@[simp] theorem Out.calls_err : (o.err text).calls = o.calls := by
  simp [Out.calls, Out.err, Printed.call?]

@[simp] theorem Out.calls_indentIn : o.indentIn.calls = o.calls := rfl

@[simp] theorem Out.calls_indentOut : o.indentOut.calls = o.calls := rfl

@[simp] theorem Out.calls_subDevInfo (h : IeSub) (p : List UInt8) :
    (o.subDevInfo h p).calls = o.calls := by
  unfold Out.subDevInfo
  split_ifs <;> simp

theorem Out.calls_sub (h : IeSub) (data : List UInt8) :
    (o.sub h data).calls = o.calls ++ [(h, data)] := by
  have hcall : ({ o with printed := o.printed ++ [Printed.sub h data] } : Out).calls =
      o.calls ++ [(h, data)] := by
    simp [Out.calls, Printed.call?]
  unfold Out.sub
  dsimp only
  split_ifs <;> simp [hcall]

end

namespace Locals

/-- Only lines were printed. -/
structure Quiet (s s' : Locals) : Prop where
  eq : s' = { s with out := s'.out }
  calls : s'.out.calls = s.out.calls

theorem Quiet.trans {s s₁ s' : Locals} (h : Quiet s s₁) (h' : Quiet s₁ s') : Quiet s s' := by
  refine ⟨?_, h'.calls.trans h.calls⟩
  rw [h'.eq, h.eq]

theorem quiet_line (s : Locals) (text : String) : Quiet s (s.line text) := ⟨rfl, Out.calls_line _ _⟩

theorem quiet_indentIn (s : Locals) : Quiet s s.indentIn := ⟨rfl, rfl⟩

theorem quiet_indentOut (s : Locals) : Quiet s s.indentOut := ⟨rfl, rfl⟩

/-! ### Between two rounds -/

/-- Nothing is collected. -/
structure Idle (s : Locals) (answers : Allocs) (calls : List (IeSub × List UInt8)) : Prop where
  col : s.col = none
  answers : s.heap.answers = answers
  calls : s.out.calls = calls

/-- The payload of `sub` is collected in a block that holds `buf`, and `n` bytes of it are to
come. -/
structure Collecting (s : Locals) (answers : Allocs) (calls : List (IeSub × List UInt8))
    (sub : IeSub) (buf : List UInt8) (n : Nat) : Prop where
  sub : s.sub = some sub
  col : ∃ id, s.col = some ⟨id, buf⟩
  c : s.c = 0
  sl : s.sl = n
  answers : s.heap.answers = answers
  calls : s.out.calls = calls

variable {s s' : Locals} {answers : Allocs} {calls : List (IeSub × List UInt8)} {sub : IeSub}
  {buf : List UInt8} {n : Nat}

theorem Idle.quiet (h : s.Idle answers calls) (q : Quiet s s') : s'.Idle answers calls := by
  have hcalls := q.calls.trans h.calls
  rw [q.eq]
  exact ⟨h.col, h.answers, hcalls⟩

theorem Collecting.quiet (h : s.Collecting answers calls sub buf n) (q : Quiet s s') :
    s'.Collecting answers calls sub buf n := by
  have hcalls := q.calls.trans h.calls
  rw [q.eq]
  exact ⟨h.sub, h.col, h.c, h.sl, h.answers, hcalls⟩

theorem free_answers (h : Heap) (p : Option Block) : (h.free p).answers = h.answers := by
  unfold Heap.free
  split
  · rfl
  · split_ifs <;> rfl

/-- Copying keeps all but the block. -/
theorem Collecting.copy (h : s.Collecting answers calls sub buf n) (src : List UInt8) :
    (s.copy src).Collecting answers calls sub (memcpy buf 0 src) n := by
  obtain ⟨id, hcol⟩ := h.col
  exact ⟨h.sub, ⟨id, by rw [Locals.copy, hcol, h.c]; rfl⟩, h.c, h.sl, h.answers, h.calls⟩

theorem Collecting.printSub (h : s.Collecting answers calls sub buf n) :
    s.printSub.Collecting answers (calls ++ [(sub, buf)]) sub buf n := by
  obtain ⟨id, hcol⟩ := h.col
  have hprint : s.printSub = { s with out := s.out.sub sub buf } := by
    rw [Locals.printSub, h.sub, hcol]
  rw [hprint]
  exact ⟨h.sub, ⟨id, hcol⟩, h.c, h.sl, h.answers, by rw [Out.calls_sub, h.calls]⟩

theorem Collecting.freeCol (h : s.Collecting answers calls sub buf n) :
    s.freeCol.Idle answers calls :=
  ⟨rfl, (free_answers _ _).trans h.answers, h.calls⟩

end Locals

open Locals

section

variable {s : Locals} {answers : Allocs} {calls : List (IeSub × List UInt8)} {sub : IeSub}
  {buf : List UInt8} {n : Nat}

/-! ### The payload -/

/-- The element has the rest of the payload. -/
theorem collect_rest {todo : List UInt8} (h : s.Collecting answers calls sub buf todo.length)
    (x : List UInt8) :
    ∃ s', collect (todo ++ x).length (todo ++ x) s = (x.length, x, s') ∧
      s'.Idle answers (calls ++ [(sub, memcpy buf 0 todo)]) := by
  refine ⟨(s.copy todo).indentIn.printSub.indentOut.freeCol, ?_, ?_⟩
  · have hle : s.sl ≤ (todo ++ x).length := by
      rw [h.sl, List.length_append]
      exact Nat.le_add_right _ _
    unfold collect
    rw [if_pos hle, h.sl]
    dsimp only
    rw [List.take_left, show (s.copy todo).sl = todo.length from h.sl, List.drop_left,
      List.length_append, Nat.add_sub_cancel_left]
  · exact (((h.copy todo).quiet (quiet_indentIn _)).printSub.quiet (quiet_indentOut _)).freeCol

/-- The element has a part of it only. -/
theorem collect_part {x : List UInt8} (h : s.Collecting answers calls sub buf n)
    (hx : x.length < n) :
    ∃ s', collect x.length x s = (0, x, s') ∧
      s'.Collecting answers calls sub (memcpy buf 0 x) (n - x.length) := by
  have hc := (h.quiet (quiet_line s "MULTI IE sub-element; delay parsing to next IE")).copy x
  have hnot : ¬ s.sl ≤ x.length := by
    rw [h.sl]
    exact Nat.not_le.mpr hx
  unfold collect
  rw [if_neg hnot, List.take_length]
  exact ⟨_, rfl, hc.sub, hc.col, hc.c, congrArg (· - x.length) hc.sl, hc.answers, hc.calls⟩

/-- What is collected at least once is either complete, or the element is used up. -/
theorem collect_done (h : s.Collecting answers calls sub buf n) (x : List UInt8) :
    ∃ l' h' s', collect x.length x s = (l', h', s') ∧ (l' = 0 ∨ s'.col = none) := by
  by_cases hx : x.length < n
  · obtain ⟨s', hs', -⟩ := collect_part h hx
    exact ⟨_, _, s', hs', Or.inl rfl⟩
  · obtain ⟨todo, x, rfl, rfl⟩ : ∃ todo y, x = todo ++ y ∧ n = todo.length := by
      refine ⟨x.take n, x.drop n, (List.take_append_drop n x).symm, ?_⟩
      rw [List.length_take, Nat.min_eq_left (Nat.le_of_not_lt hx)]
    obtain ⟨s', hs', hidle⟩ := collect_rest h x
    exact ⟨_, _, s', hs', Or.inr hidle.col⟩

end

/-! ### The inner loop -/

theorem collect_le (l : Nat) (h : List UInt8) (s : Locals) : (collect l h s).1 ≤ l := by
  unfold collect
  dsimp only
  split_ifs
  · exact Nat.sub_le _ _
  · exact Nat.zero_le _

theorem header_shrinks {l l' : Nat} {h h' : List UInt8} {s s' : Locals}
    (e : header l h s = .next l' h' s') : l' < l := by
  unfold header at e
  dsimp only at e
  split_ifs at e with h₁ h₂
  · cases e
    omega
  · split at e
    · cases e
    · obtain ⟨rfl, -, -⟩ := Round.next.inj e
      exact Nat.lt_of_le_of_lt (collect_le _ _ _) (by omega)

theorem subelement_shrinks {l l' : Nat} {h h' : List UInt8} {s s' : Locals}
    (e : subelement l h s = .next l' h' s') : l' < l := by
  unfold subelement at e
  split_ifs at e with hcol
  · dsimp only at e
    split_ifs at e
    exact Nat.lt_of_lt_of_le (header_shrinks e) (collect_le l h s)
  · exact header_shrinks e

/-- More rounds than bytes make no difference. -/
theorem subelements_fuel {fuel fuel' l : Nat} (h : List UInt8) (s : Locals) (hf : l ≤ fuel)
    (hf' : l ≤ fuel') : subelements fuel l h s = subelements fuel' l h s := by
  induction fuel generalizing fuel' l h s with
  | zero =>
      obtain rfl : l = 0 := Nat.le_zero.mp hf
      cases fuel' <;> rfl
  | succ fuel ih =>
      cases fuel' with
      | zero =>
          obtain rfl : l = 0 := Nat.le_zero.mp hf'
          rfl
      | succ fuel' =>
          rw [subelements, subelements]
          cases he : subelement l h s with
          | leave | error => rfl
          | next l' h' s' =>
              have hlt := subelement_shrinks he
              exact congrArg _ (ih h' s' (by omega) (by omega))

/-- The loop over `l` bytes. -/
def loop (l : Nat) (h : List UInt8) (s : Locals) : Except Locals Locals := subelements l l h s

theorem loop_zero (h : List UInt8) (s : Locals) : loop 0 h s = .ok s := rfl

/-- One round. -/
theorem loop_round {l : Nat} (hl : l ≠ 0) (h : List UInt8) (s : Locals) :
    loop l h s =
      match subelement l h s with
      | .leave s    => .ok s
      | .error s    => .error s
      | .next l h s => loop l h s := by
  obtain ⟨l, rfl⟩ := Nat.exists_eq_succ_of_ne_zero hl
  rw [loop, subelements, if_neg hl]
  cases he : subelement (l + 1) h s with
  | leave | error => rfl
  | next l' h' s' =>
      have hlt := subelement_shrinks he
      exact subelements_fuel h' s' (by omega) le_rfl

/-- Where something is collected, the loop goes on behind it. -/
theorem loop_collect {l l' : Nat} {h h' : List UInt8} {s s' : Locals} (hl : l ≠ 0)
    (hcol : s.col.isSome) (hc : collect l h s = (l', h', s')) (hdone : l' = 0 ∨ s'.col = none) :
    loop l h s = loop l' h' s' := by
  rw [loop_round hl, subelement, if_pos hcol, hc]
  by_cases hl' : l' = 0
  · subst hl'
    simp [loop_zero]
  · -- the round goes on with a header, as the next one would begin
    have hnone := hdone.resolve_left hl'
    simp only [hnone, Option.isSome_none, Bool.false_eq_true, hl', or_self, if_false]
    rw [loop_round hl', subelement, hnone]
    rfl

section

variable {s : Locals} {answers : Allocs} {calls : List (IeSub × List UInt8)} {sub : IeSub}
  {buf : List UInt8} {n : Nat}

theorem Locals.Collecting.isSome (h : s.Collecting answers calls sub buf n) : s.col.isSome := by
  obtain ⟨id, hcol⟩ := h.col
  rw [hcol]
  rfl

/-- **The rest of a payload** is copied, and the subelement is printed. -/
theorem loop_rest {todo : List UInt8} (h : s.Collecting answers calls sub buf todo.length)
    (hne : todo ≠ []) (x : List UInt8) :
    ∃ s', loop (todo ++ x).length (todo ++ x) s = loop x.length x s' ∧
      s'.Idle answers (calls ++ [(sub, memcpy buf 0 todo)]) := by
  obtain ⟨s', hc, hidle⟩ := collect_rest h x
  have hl : (todo ++ x).length ≠ 0 := by
    rw [List.length_append]
    have := List.length_pos_of_ne_nil hne
    omega
  exact ⟨s', loop_collect hl h.isSome hc (Or.inr hidle.col), hidle⟩

/-- **A part of a payload** is copied, and the element is used up. -/
theorem loop_part {x : List UInt8} (h : s.Collecting answers calls sub buf n) (hx : x.length < n) :
    ∃ s', loop x.length x s = .ok s' ∧
      s'.Collecting answers calls sub (memcpy buf 0 x) (n - x.length) := by
  by_cases hl : x.length = 0
  · obtain rfl := List.length_eq_zero_iff.mp hl
    exact ⟨s, rfl, h⟩
  · obtain ⟨s', hc, hs'⟩ := collect_part h hx
    exact ⟨s', loop_collect hl h.isSome hc (Or.inl rfl), hs'⟩

theorem malloc_answers {heap : Heap} {f : Nat → UInt8} {answers' : Allocs}
    (h : heap.answers.next = (some f, answers')) (n : Nat) :
    ∃ id heap', heap.malloc n = (some ⟨id, (List.range n).map f⟩, heap') ∧
    heap'.answers = answers' := by
  have hm : OpenWfd.malloc n heap.answers = (some ((List.range n).map f), answers') := by
    rw [OpenWfd.malloc, h]
  exact ⟨heap.next, _, by rw [Heap.malloc, hm], rfl⟩

/-- **The header of a subelement**, and a block for its payload. -/
theorem loop_header (h : s.Idle answers calls) {f : Nat → UInt8} {answers' : Allocs}
    (ha : answers.next = (some f, answers')) (id : UInt8) {hi lo : UInt8}
    (hn : be16 [hi, lo] ≠ 0) (x : List UInt8) :
    ∃ s', loop (id :: hi :: lo :: x).length (id :: hi :: lo :: x) s = loop x.length x s' ∧
      s'.Collecting answers' calls ⟨id, be16 [hi, lo]⟩ ((List.range (be16 [hi, lo])).map f)
        (be16 [hi, lo]) := by
  obtain ⟨n, heap, hm, hanswers⟩ := malloc_answers (h.answers ▸ ha) (be16 [hi, lo])
  let text := "IE SUBELEMENT(id: " ++ dec id.toNat ++ " len: " ++ dec (be16 [hi, lo]) ++ "):"
  let s₀ : Locals := ⟨s.out.line text, heap, some ⟨id, be16 [hi, lo]⟩,
    some ⟨n, (List.range (be16 [hi, lo])).map f⟩, 0, be16 [hi, lo]⟩
  have h₀ : s₀.Collecting answers' calls ⟨id, be16 [hi, lo]⟩
      ((List.range (be16 [hi, lo])).map f) (be16 [hi, lo]) :=
    ⟨rfl, ⟨n, rfl⟩, rfl, rfl, hanswers, (Out.calls_line _ _).trans h.calls⟩
  have hround : subelement (id :: hi :: lo :: x).length (id :: hi :: lo :: x) s =
      .next (collect x.length x s₀).1 (collect x.length x s₀).2.1 (collect x.length x s₀).2.2 := by
    have hbig : ¬ (id :: hi :: lo :: x).length < 3 := by simp
    have hlen : be16 ((id :: hi :: lo :: x).drop 1) = be16 [hi, lo] := rfl
    rw [subelement, h.col, Option.isSome_none, if_neg Bool.false_ne_true, header, if_neg hbig]
    dsimp only [Locals.line]
    rw [hlen, if_neg hn, hm]
    rfl
  rw [loop_round (show (id :: hi :: lo :: x).length ≠ 0 from Nat.succ_ne_zero _), hround]
  by_cases hl : x.length = 0
  · -- the element ends behind the header
    obtain rfl := List.length_eq_zero_iff.mp hl
    obtain ⟨s', hc, hs'⟩ := collect_part (x := []) h₀ (Nat.pos_of_ne_zero hn)
    rw [hc]
    exact ⟨s', rfl, hs'⟩
  · obtain ⟨l', h', s', hc, hdone⟩ := collect_done h₀ x
    rw [hc]
    exact ⟨s₀, (loop_collect hl h₀.isSome hc hdone).symm, h₀⟩

end

/-! ### The outer loop -/

theorem elements_fuel {fuel fuel' : Nat} (data : List UInt8) (s : Locals) (hf : data.length ≤ fuel)
    (hf' : data.length ≤ fuel') : elements fuel data s = elements fuel' data s := by
  induction fuel generalizing fuel' data s with
  | zero =>
      obtain rfl := List.length_eq_zero_iff.mp (Nat.le_zero.mp hf)
      cases fuel' <;> rfl
  | succ fuel ih =>
      cases fuel' with
      | zero =>
          obtain rfl := List.length_eq_zero_iff.mp (Nat.le_zero.mp hf')
          rfl
      | succ fuel' =>
          match data, hf, hf' with
          | [], _, _ | [_], _, _ => rfl
          | elementId :: length :: data, hf, hf' =>
              have hrest : ∀ s, elements fuel (data.drop length.toNat) s =
                  elements fuel' (data.drop length.toNat) s := by
                intro s
                simp only [List.length_cons] at hf hf'
                apply ih <;> rw [List.length_drop] <;> omega
              simp only [elements, hrest]

/-- The loop over all of the data. -/
def all (data : List UInt8) (s : Locals) : Except Locals Locals := elements data.length data s

/-- A WFD IE with these data. -/
def ie (x : List UInt8) : List UInt8 :=
  [WFD_ID, UInt8.ofNat (x.length + 4), 0x50, 0x6f, 0x9a, 0x0a] ++ x

/-- WFD IEs, one behind the other. -/
def ies (pieces : List (List UInt8)) : List UInt8 := pieces.flatMap ie

/-- The data `x` of an element, of which there may be a first part already behind us, and of those
after it. -/
def run (x : List UInt8) (pieces : List (List UInt8)) (s : Locals) : Except Locals Locals :=
  match loop x.length x s with
  | .error s => .error s
  | .ok s    => all (ies pieces) s.indentOut

theorem be32_oui (x : List UInt8) : be32 (0x50 :: 0x6f :: 0x9a :: 0x0a :: x) = OUI_1_0 := by
  have hfour : be32 (0x50 :: 0x6f :: 0x9a :: 0x0a :: x) = be32 [0x50, 0x6f, 0x9a, 0x0a] := rfl
  rw [hfour]
  decide

/-- **One element.** -/
theorem all_ies_cons {x : List UInt8} (hx : x.length ≤ DATA_MAX) (pieces : List (List UInt8))
    (s : Locals) : ∃ s', all (ies (x :: pieces)) s = run x pieces s' ∧ Quiet s s' := by
  have hlen : (UInt8.ofNat (x.length + 4)).toNat = x.length + 4 := by
    rw [UInt8.toNat_ofNat']
    unfold DATA_MAX at hx
    omega
  let ouiData : List UInt8 := 0x50 :: 0x6f :: 0x9a :: 0x0a :: x
  have hsplit : ies (x :: pieces) =
      WFD_ID :: UInt8.ofNat (x.length + 4) :: (ouiData ++ ies pieces) := rfl
  have hdata : ouiData.length = x.length + 4 := rfl
  have htake : (ouiData ++ ies pieces).take (x.length + 4) = ouiData := List.take_left' hdata
  have hdrop : (ouiData ++ ies pieces).drop (x.length + 4) = ies pieces := List.drop_left' hdata
  have hoff : ouiData.drop 4 = x := rfl
  have hfits : ¬ x.length + 4 > (ouiData ++ ies pieces).length := by
    rw [List.length_append, hdata]
    omega
  have hfuel : ∀ s', elements (UInt8.ofNat (x.length + 4) :: (ouiData ++ ies pieces)).length
      (ies pieces) s' = all (ies pieces) s' := by
    intro s'
    refine elements_fuel _ _ ?_ le_rfl
    rw [List.length_cons, List.length_append]
    omega
  have hid : ∀ s₁ s₂ : Locals, (if WFD_ID = WFD_ID then s₁ else s₂) = s₁ := fun _ _ => if_pos rfl
  rw [hsplit, all, List.length_cons, elements]
  dsimp only
  rw [hlen, if_neg hfits, htake, hdrop, hid, if_neg (not_not.mpr rfl), if_neg (by omega),
    if_neg (not_not.mpr (be32_oui x)), hoff, Nat.add_sub_cancel]
  simp only [hfuel]
  exact ⟨_, rfl, (quiet_line _ _).trans ((quiet_indentIn _).trans ((quiet_line _ _).trans
    ((quiet_line _ _).trans (quiet_line _ _))))⟩

end OpenWfd.Ie
