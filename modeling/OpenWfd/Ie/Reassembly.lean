import OpenWfd.Ie.Rounds
import OpenWfd.Support.Cuts

/-!
# Ie — Reassembly

What `print_ie` gives `print_sub` of a list of subelements that was cut into the data of consecutive
WFD IEs.

The subelements are all there, in order, each once and with its header.  Its payload is right if it
came in one piece.  Otherwise each of its parts was copied to the start of the block, so the last
byte of the block is still what `malloc` left there.

**Reassembly** (`reassembly_iff`).  `Reported` says this of the calls of `print_sub`, `run_reported`
by induction on the subelements that the two loops do it.
-/

namespace OpenWfd.Ie

open Locals

/-! ### Subelements -/

/-- A subelement with a payload. -/
structure Subelement where
  id : UInt8
  payload : List UInt8
  nonempty : payload ≠ []
  fits : payload.length ≤ 65535

namespace Subelement

/-- Its header. -/
def header (e : Subelement) : IeSub := ⟨e.id, e.payload.length⟩

/-- As it stands in the data: id, big-endian length, payload. -/
def bytes (e : Subelement) : List UInt8 :=
  e.id :: UInt8.ofNat (e.payload.length / 256) :: UInt8.ofNat (e.payload.length % 256) :: e.payload

/-- The call of `print_sub` for it. -/
def call (e : Subelement) : IeSub × List UInt8 := (e.header, e.payload)

theorem be16_length (e : Subelement) :
    be16 [UInt8.ofNat (e.payload.length / 256), UInt8.ofNat (e.payload.length % 256)] =
      e.payload.length := by
  have hfits := e.fits
  simp only [be16, UInt8.toNat_ofNat']
  omega

theorem length_pos (e : Subelement) : 0 < e.payload.length := List.length_pos_of_ne_nil e.nonempty

end Subelement

/-- Subelements, one after the other. -/
def serial (es : List Subelement) : List UInt8 := es.flatMap Subelement.bytes

/-! ### Cutting them into pieces -/

/-- No subelement is cut between its bytes `lo` and `hi`.  The first begins at `pos`. -/
def Uncut (pieces : List (List UInt8)) (lo hi : Subelement → Nat) : Nat → List Subelement → Prop
  | _, []        => True
  | pos, e :: es =>
    ¬ CutIn pieces (pos + lo e) (pos + hi e) ∧ Uncut pieces lo hi (pos + e.bytes.length) es

instance decidableUncut (pieces : List (List UInt8)) (lo hi : Subelement → Nat) :
    ∀ pos es, Decidable (Uncut pieces lo hi pos es)
  | _, []        => isTrue trivial
  | pos, e :: es =>
    have := decidableUncut pieces lo hi (pos + e.bytes.length) es
    inferInstanceAs (Decidable (_ ∧ _))

/-- No header is cut in two. -/
def HeadersWhole (pieces : List (List UInt8)) (es : List Subelement) : Prop :=
  Uncut pieces (fun _ => 0) (fun _ => 3) 0 es

/-- No payload is cut in two. -/
def PayloadsWhole (pieces : List (List UInt8)) (es : List Subelement) : Prop :=
  Uncut pieces (fun _ => 3) (fun e => e.bytes.length) 0 es

instance (pieces : List (List UInt8)) (es : List Subelement) : Decidable (HeadersWhole pieces es) :=
  decidableUncut _ _ _ _ _

instance (pieces : List (List UInt8)) (es : List Subelement) :
    Decidable (PayloadsWhole pieces es) :=
  decidableUncut _ _ _ _ _

/-- The data of WFD IEs that the subelements were cut into. -/
structure Pieces (es : List Subelement) (pieces : List (List UInt8)) : Prop where
  flatten : pieces.flatten = serial es
  fits : ∀ x ∈ pieces, x.length ≤ DATA_MAX
  headers : HeadersWhole pieces es

theorem Uncut.behind {pieces pieces' : List (List UInt8)} {lo hi : Subelement → Nat} {k pos : Nat}
    (hb : Behind k pieces pieces') {es : List Subelement} (h : Uncut pieces lo hi (k + pos) es) :
    Uncut pieces' lo hi pos es := by
  induction es generalizing pos with
  | nil => trivial
  | cons e es ih =>
      refine ⟨?_, ih (Nat.add_assoc k pos _ ▸ h.2)⟩
      have hcut := h.1
      rwa [Nat.add_assoc, Nat.add_assoc, hb] at hcut

/-! ### A payload -/

/-- What the block holds in the end, of which `todo` was still to come. -/
structure Filled (pieces : List (List UInt8)) (buf todo data : List UInt8) : Prop where
  whole : ¬ CutIn pieces 0 todo.length → data = memcpy buf 0 todo
  rest : ∀ n, todo.length ≤ n → data.drop n = buf.drop n
  cut : CutIn pieces 0 todo.length → ∀ n, todo.length ≤ n + 1 → data.drop n = buf.drop n

theorem memcpy_start (buf src : List UInt8) {n : Nat} (hn : src.length ≤ n) :
    (memcpy buf 0 src).drop n = buf.drop n :=
  memcpy_drop (Nat.zero_le _) (by rwa [Nat.zero_add])

/-- A part `x` of the payload was copied before: the block still ends as it did. -/
theorem Filled.part {pieces : List (List UInt8)} {x buf todo data : List UInt8} (hne : todo ≠ [])
    (h : Filled pieces (memcpy buf 0 x) todo data) : Filled (x :: pieces) buf (x ++ todo) data := by
  have htodo : 0 < todo.length := List.length_pos_of_ne_nil hne
  by_cases hx : x = []
  · subst hx
    have hsame : CutIn ([] :: pieces) 0 todo.length ↔ CutIn pieces 0 todo.length := by
      have hbehind : Behind ([] : List UInt8).length ([] :: pieces) pieces := behind_cons
      simpa using hbehind 0 todo.length
    have hbuf : memcpy buf 0 [] = buf := by simp [memcpy]
    rw [hbuf] at h
    rw [List.nil_append]
    exact ⟨fun hcut => h.whole (hsame.not.mp hcut), h.rest, fun hcut => h.cut (hsame.mp hcut)⟩
  · -- two parts, neither empty: neither reaches the last byte
    have hpos : 0 < x.length := List.length_pos_of_ne_nil hx
    have hlen : (x ++ todo).length = x.length + todo.length := List.length_append
    have hkept : ∀ n, x.length ≤ n → todo.length ≤ n → data.drop n = buf.drop n := by
      intro n hn hn'
      rw [h.rest n hn', memcpy_start buf x hn]
    exact {
      whole := fun hcut => absurd (cutIn_first hpos (by omega)) hcut
      rest := fun n hn => hkept n (by omega) (by omega)
      cut := fun _ n hn => hkept n (by omega) (by omega) }

/-- The loops over `x` and the pieces behind it come to where `more` begins, and `sub` was printed
with what the block held. -/
def Collected (x : List UInt8) (pieces : List (List UInt8)) (s : Locals) (answers : Allocs)
    (calls : List (IeSub × List UInt8)) (sub : IeSub) (buf todo more : List UInt8) : Prop :=
  ∃ x' pieces' s' data, run x pieces s = run x' pieces' s' ∧
    s'.Idle answers (calls ++ [(sub, data)]) ∧ x' ++ pieces'.flatten = more ∧
    (∀ y ∈ pieces', y.length ≤ DATA_MAX) ∧ Behind todo.length (x :: pieces) (x' :: pieces') ∧
    Filled (x :: pieces) buf todo data

section

variable {s : Locals} {answers : Allocs} {calls : List (IeSub × List UInt8)} {sub : IeSub}
  {pieces : List (List UInt8)} {x buf todo more : List UInt8}

/-- The rest of the payload is in the first piece. -/
theorem collected_first (h : s.Collecting answers calls sub buf todo.length) (hne : todo ≠ [])
    (hstream : x ++ pieces.flatten = todo ++ more) (hle : todo.length ≤ x.length)
    (hfits : ∀ y ∈ pieces, y.length ≤ DATA_MAX) :
    Collected x pieces s answers calls sub buf todo more := by
  obtain ⟨x', rfl⟩ : todo <+: x :=
    List.prefix_of_prefix_length_le ⟨more, hstream.symm⟩ (List.prefix_append _ _) hle
  rw [List.append_assoc] at hstream
  obtain ⟨s', hloop, hidle⟩ := loop_rest h hne x'
  refine ⟨x', pieces, s', memcpy buf 0 todo, by rw [run, run, hloop], hidle,
    List.append_cancel_left hstream, hfits, behind_first, ?_⟩
  exact {
    whole := fun _ => rfl
    rest := fun n hn => memcpy_start buf todo hn
    cut := fun hcut => absurd hcut (not_cutIn_first hle) }

/-- **A payload is collected** over the pieces it is in. -/
theorem collected (h : s.Collecting answers calls sub buf todo.length) (hne : todo ≠ [])
    (hstream : x ++ pieces.flatten = todo ++ more) (hfits : ∀ y ∈ pieces, y.length ≤ DATA_MAX) :
    Collected x pieces s answers calls sub buf todo more := by
  induction pieces generalizing s x buf todo with
  | nil =>
      refine collected_first h hne hstream ?_ hfits
      rw [List.flatten_nil, List.append_nil] at hstream
      rw [hstream, List.length_append]
      exact Nat.le_add_right _ _
  | cons y pieces ih =>
      by_cases hle : todo.length ≤ x.length
      · exact collected_first h hne hstream hle hfits
      · -- the piece has a part of the payload, and the next element goes on with it
        have hlt : x.length < todo.length := Nat.not_le.mp hle
        obtain ⟨todo', rfl⟩ : x <+: todo :=
          List.prefix_of_prefix_length_le (List.prefix_append _ _) ⟨more, hstream.symm⟩ hlt.le
        rw [List.append_assoc] at hstream
        have hrest : y ++ pieces.flatten = todo' ++ more := List.append_cancel_left hstream
        have hne' : todo' ≠ [] := by
          rintro rfl
          simp at hlt
        obtain ⟨s₁, hloop, h₁⟩ := loop_part h hlt
        obtain ⟨s₂, hall, hquiet⟩ :=
          all_ies_cons (hfits y List.mem_cons_self) pieces s₁.indentOut
        have hlen : (x ++ todo').length - x.length = todo'.length := by
          rw [List.length_append, Nat.add_sub_cancel_left]
        rw [hlen] at h₁
        have h₂ := h₁.quiet ((quiet_indentOut s₁).trans hquiet)
        obtain ⟨x', pieces', s', data, hrun, hidle, hmore, hfits', hbehind, hfilled⟩ :=
          ih h₂ hne' hrest fun z hz => hfits z (List.mem_cons_of_mem y hz)
        have hstep : run x (y :: pieces) s = run y pieces s₂ := by
          rw [run, hloop]
          exact hall
        refine ⟨x', pieces', s', data, hstep.trans hrun, hidle, hmore, hfits', ?_, ?_⟩
        · rw [List.length_append]
          exact behind_cons.trans hbehind
        · exact hfilled.part hne'

/-! ### The subelements -/

/-- Nothing is left. -/
theorem run_end (h : s.Idle answers calls) (hstream : x ++ pieces.flatten = [])
    (hfits : ∀ y ∈ pieces, y.length ≤ DATA_MAX) :
    ∃ s', run x pieces s = .ok s' ∧ s'.Idle answers calls := by
  induction pieces generalizing s x with
  | nil =>
      obtain ⟨rfl, -⟩ := List.append_eq_nil_iff.mp hstream
      exact ⟨s.indentOut, rfl, h.quiet (quiet_indentOut s)⟩
  | cons y pieces ih =>
      obtain ⟨rfl, hrest⟩ := List.append_eq_nil_iff.mp hstream
      obtain ⟨s', hall, hquiet⟩ := all_ies_cons (hfits y List.mem_cons_self) pieces s.indentOut
      obtain ⟨s'', hrun, hidle⟩ := ih (h.quiet ((quiet_indentOut s).trans hquiet)) hrest
        fun z hz => hfits z (List.mem_cons_of_mem y hz)
      exact ⟨s'', hall.trans hrun, hidle⟩

/-- Elements without data are passed over. -/
theorem run_skip (h : s.Idle answers calls) (hstream : x ++ pieces.flatten ≠ [])
    (hfits : ∀ y ∈ pieces, y.length ≤ DATA_MAX) :
    ∃ x' pieces' s', run x pieces s = run x' pieces' s' ∧ s'.Idle answers calls ∧ x' ≠ [] ∧
      x' ++ pieces'.flatten = x ++ pieces.flatten ∧ (∀ y ∈ pieces', y.length ≤ DATA_MAX) ∧
      Behind 0 (x :: pieces) (x' :: pieces') := by
  induction pieces generalizing s x with
  | nil =>
      rw [List.flatten_nil, List.append_nil] at hstream
      exact ⟨x, [], s, rfl, h, hstream, rfl, hfits, fun a b => by rw [Nat.zero_add, Nat.zero_add]⟩
  | cons y pieces ih =>
      by_cases hx : x = []
      · subst hx
        obtain ⟨s₁, hall, hquiet⟩ := all_ies_cons (hfits y List.mem_cons_self) pieces s.indentOut
        obtain ⟨x', pieces', s', hrun, hidle, hne, heq, hfits', hbehind⟩ :=
          ih (h.quiet ((quiet_indentOut s).trans hquiet)) hstream
            fun z hz => hfits z (List.mem_cons_of_mem y hz)
        exact ⟨x', pieces', s', Eq.trans hall hrun, hidle, hne, heq, hfits',
          behind_cons.trans hbehind⟩
      · exact ⟨x, y :: pieces, s, rfl, h, hx, rfl, hfits,
          fun a b => by rw [Nat.zero_add, Nat.zero_add]⟩

/-- **The header of a subelement** that is in one piece. -/
theorem run_header {e : Subelement} {f : Nat → UInt8} {answers' : Allocs} (h : s.Idle answers calls)
    (hstream : x ++ pieces.flatten = e.bytes ++ more) (hfits : ∀ y ∈ pieces, y.length ≤ DATA_MAX)
    (hhead : ¬ CutIn (x :: pieces) 0 3) (ha : answers.next = (some f, answers')) :
    ∃ x' pieces' s', run x pieces s = run x' pieces' s' ∧
      s'.Collecting answers' calls e.header ((List.range e.payload.length).map f) e.payload.length ∧
      x' ++ pieces'.flatten = e.payload ++ more ∧ (∀ y ∈ pieces', y.length ≤ DATA_MAX) ∧
      Behind 3 (x :: pieces) (x' :: pieces') := by
  have hne : x ++ pieces.flatten ≠ [] := by
    rw [hstream]
    exact List.cons_ne_nil _ _
  obtain ⟨x₁, pieces₁, s₁, hrun₁, h₁, hx₁, hstream₁, hfits₁, hbehind₁⟩ := run_skip h hne hfits
  -- fewer than three bytes would be a cut in the header
  have hcut := hbehind₁ 0 3
  have hlong : 3 ≤ x₁.length := by
    by_contra hshort
    exact hhead (hcut.mpr (cutIn_first (List.length_pos_of_ne_nil hx₁) (Nat.not_le.mp hshort)))
  let hi := UInt8.ofNat (e.payload.length / 256)
  let lo := UInt8.ofNat (e.payload.length % 256)
  have hbytes : e.bytes = [e.id, hi, lo] ++ e.payload := rfl
  rw [hstream, hbytes, List.append_assoc] at hstream₁
  obtain ⟨x₂, rfl⟩ : [e.id, hi, lo] <+: x₁ :=
    List.prefix_of_prefix_length_le ⟨_, hstream₁.symm⟩ (List.prefix_append _ _) hlong
  rw [List.append_assoc] at hstream₁
  have hn : be16 [hi, lo] ≠ 0 := by
    rw [e.be16_length]
    exact e.length_pos.ne'
  obtain ⟨s₂, hloop, h₂⟩ := loop_header h₁ ha e.id hn x₂
  rw [e.be16_length] at h₂
  have hrun₂ : run ([e.id, hi, lo] ++ x₂) pieces₁ s₁ = run x₂ pieces₁ s₂ := by
    rw [run, run, ← hloop]
    rfl
  exact ⟨x₂, pieces₁, s₂, hrun₁.trans hrun₂, h₂, List.append_cancel_left hstream₁, hfits₁,
    hbehind₁.trans behind_first⟩

end

/-- The calls of `print_sub` for the subelements, the first of which begins at `pos`.  The block for
a payload that is cut still ends with what `malloc` left there. -/
inductive Reported (pieces : List (List UInt8)) :
    Nat → List Subelement → Allocs → List (IeSub × List UInt8) → Prop where
  | nil {pos : Nat} {answers : Allocs} : Reported pieces pos [] answers []
  | cons {pos : Nat} {e : Subelement} {es : List Subelement} {answers answers' : Allocs}
      {f : Nat → UInt8} {data : List UInt8} {calls : List (IeSub × List UInt8)}
      (ha : answers.next = (some f, answers'))
      (whole : ¬ CutIn pieces (pos + 3) (pos + e.bytes.length) → data = e.payload)
      (cut : CutIn pieces (pos + 3) (pos + e.bytes.length) →
        data[e.payload.length - 1]? = some (f (e.payload.length - 1)))
      (h : Reported pieces (pos + e.bytes.length) es answers' calls) :
      Reported pieces pos (e :: es) answers ((e.header, data) :: calls)

/-- The same, told by the pieces behind some of the data. -/
theorem Reported.behind {pieces pieces' : List (List UInt8)} {k pos : Nat} {es : List Subelement}
    {answers : Allocs} {calls : List (IeSub × List UInt8)} (hb : Behind k pieces pieces')
    (h : Reported pieces' pos es answers calls) : Reported pieces (k + pos) es answers calls := by
  induction h with
  | nil => exact .nil
  | @cons pos e es answers answers' f data calls ha whole cut h ih =>
      have hcut := hb (pos + 3) (pos + e.bytes.length)
      rw [← Nat.add_assoc, ← Nat.add_assoc] at hcut
      rw [← Nat.add_assoc] at ih
      exact .cons ha (fun hc => whole (hcut.not.mp hc)) (fun hc => cut (hcut.mp hc)) ih

/-- The block after a payload, by whether it was cut. -/
theorem Filled.payload {pieces : List (List UInt8)} {f : Nat → UInt8} {todo data : List UInt8}
    (hne : todo ≠ []) (h : Filled pieces ((List.range todo.length).map f) todo data) :
    (¬ CutIn pieces 0 todo.length → data = todo) ∧
      (CutIn pieces 0 todo.length → data[todo.length - 1]? = some (f (todo.length - 1))) := by
  have hpos : 0 < todo.length := List.length_pos_of_ne_nil hne
  constructor
  · intro hcut
    rw [h.whole hcut]
    simp [memcpy]
  · intro hcut
    have hdrop := h.cut hcut (todo.length - 1) (by omega)
    have hlast := congrArg List.head? hdrop
    rw [List.head?_drop, List.head?_drop] at hlast
    rw [hlast, List.getElem?_map, List.getElem?_range (by omega)]
    rfl

theorem next_of_willing {answers : Allocs} (hw : ∀ a ∈ answers, a ≠ none) :
    ∃ f answers', answers.next = (some f, answers') ∧ ∀ a ∈ answers', a ≠ none := by
  cases answers with
  | nil => exact ⟨fun _ => 0, [], rfl, hw⟩
  | cons a answers =>
      cases a with
      | none => exact absurd rfl (hw none List.mem_cons_self)
      | some f => exact ⟨f, answers, rfl, fun b hb => hw b (List.mem_cons_of_mem _ hb)⟩

/-- **The two loops** report every subelement. -/
theorem run_reported {s : Locals} {answers : Allocs} {calls : List (IeSub × List UInt8)}
    {pieces : List (List UInt8)} {x : List UInt8} {es : List Subelement}
    (h : s.Idle answers calls) (hstream : x ++ pieces.flatten = serial es)
    (hfits : ∀ y ∈ pieces, y.length ≤ DATA_MAX)
    (hheaders : HeadersWhole (x :: pieces) es) (hw : ∀ a ∈ answers, a ≠ none) :
    ∃ s' answers' new, run x pieces s = .ok s' ∧ s'.Idle answers' (calls ++ new) ∧
      Reported (x :: pieces) 0 es answers new := by
  induction es generalizing s answers calls pieces x with
  | nil =>
      obtain ⟨s', hrun, hidle⟩ := run_end h hstream hfits
      exact ⟨s', answers, [], hrun, (List.append_nil calls).symm ▸ hidle, .nil⟩
  | cons e es ih =>
      have hserial : serial (e :: es) = e.bytes ++ serial es := rfl
      rw [hserial] at hstream
      obtain ⟨f, answers₁, ha, hw₁⟩ := next_of_willing hw
      obtain ⟨x₁, pieces₁, s₁, hrun₁, h₁, hstream₁, hfits₁, hbehind₁⟩ :=
        run_header h hstream hfits hheaders.1 ha
      obtain ⟨x₂, pieces₂, s₂, data, hrun₂, h₂, hstream₂, hfits₂, hbehind₂, hfilled⟩ :=
        collected h₁ e.nonempty hstream₁ hfits₁
      have hlen : e.bytes.length = 3 + e.payload.length := Nat.add_comm e.payload.length 3
      have hbehind : Behind e.bytes.length (x :: pieces) (x₂ :: pieces₂) := by
        rw [hlen]
        exact hbehind₁.trans hbehind₂
      have hheaders₂ : HeadersWhole (x₂ :: pieces₂) es := by
        refine Uncut.behind hbehind ?_
        rw [Nat.add_comm]
        exact hheaders.2
      obtain ⟨s', answers', new, hrun, hidle, hreported⟩ := ih h₂ hstream₂ hfits₂ hheaders₂ hw₁
      have hcut : CutIn (x :: pieces) (0 + 3) (0 + e.bytes.length) ↔
          CutIn (x₁ :: pieces₁) 0 e.payload.length := by
        rw [Nat.zero_add, Nat.zero_add, hlen]
        exact hbehind₁ 0 e.payload.length
      -- where `x` begins, this subelement does
      obtain ⟨hwhole, hlast⟩ := hfilled.payload e.nonempty
      have hrest := hreported.behind hbehind
      rw [Nat.add_comm] at hrest
      refine ⟨s', answers', (e.header, data) :: new, hrun₁.trans (hrun₂.trans hrun), ?_,
        .cons ha (fun hc => hwhole (hcut.not.mp hc)) (fun hc => hlast (hcut.mp hc)) hrest⟩
      rw [List.append_cons]
      exact hidle

/-- `print_ie` on the elements. -/
theorem printIe_reported {es : List Subelement} {pieces : List (List UInt8)} (h : Pieces es pieces)
    (out : Out) {heap : Heap} (hw : heap.Willing) :
    ∃ new, (printIe (ies pieces) out heap).1.calls = out.calls ++ new ∧
      Reported pieces 0 es heap.answers new := by
  cases pieces with
  | nil =>
      have hnone : es = [] := by
        cases es with
        | nil => rfl
        | cons e es => exact absurd h.flatten (List.cons_ne_nil _ _).symm
      subst hnone
      refine ⟨[], ?_, .nil⟩
      rw [printIe, if_pos (show ies [] = [] from rfl)]
      simp
  | cons x pieces =>
      have hne : ies (x :: pieces) ≠ [] := List.cons_ne_nil _ _
      let s : Locals := ⟨(out.line "IE:").indentIn, heap, none, none, 0, 0⟩
      have hidle : s.Idle heap.answers out.calls := ⟨rfl, rfl, Out.calls_line _ _⟩
      obtain ⟨s₁, hall, hquiet⟩ := all_ies_cons (h.fits x List.mem_cons_self) pieces s
      obtain ⟨s', answers', new, hrun, hidle', hreported⟩ :=
        run_reported (hidle.quiet hquiet) h.flatten
          (fun y hy => h.fits y (List.mem_cons_of_mem x hy)) h.headers hw
      refine ⟨new, ?_, hreported⟩
      have helements : elements (ies (x :: pieces)).length (ies (x :: pieces)) s = .ok s' :=
        hall.trans hrun
      rw [printIe, if_neg hne]
      dsimp only
      rw [helements]
      dsimp only
      rw [hidle'.col, Option.isSome_none, if_neg Bool.false_ne_true, Out.calls_line,
        Out.calls_indentOut]
      exact hidle'.calls

/-! ### When the payloads are right -/

/-- Nothing was cut. -/
theorem Reported.whole {pieces : List (List UInt8)} {pos : Nat} {es : List Subelement}
    {answers : Allocs} {calls : List (IeSub × List UInt8)}
    (h : Reported pieces pos es answers calls)
    (hu : Uncut pieces (fun _ => 3) (fun e => e.bytes.length) pos es) :
    calls = es.map Subelement.call := by
  induction h with
  | nil => rfl
  | cons ha whole cut h ih =>
      rw [List.map_cons, ih hu.2, whole hu.1]
      rfl

/-- What `malloc` leaves in the block for a payload, other than the payload everywhere. -/
def Subelement.garbage (e : Subelement) : Option (Nat → UInt8) :=
  some fun i => e.payload.getD i 0 + 1

theorem byte_ne_succ (b : UInt8) : b ≠ b + 1 := by
  intro h
  have hnat := congrArg UInt8.toNat h
  rw [UInt8.toNat_add, show (1 : UInt8).toNat = 1 from rfl] at hnat
  have := b.toNat_lt
  omega

/-- Where `malloc` leaves that, only what was not cut is right. -/
theorem Reported.uncut {pieces : List (List UInt8)} {pos : Nat} {es : List Subelement}
    (h : Reported pieces pos es (es.map Subelement.garbage) (es.map Subelement.call)) :
    Uncut pieces (fun _ => 3) (fun e => e.bytes.length) pos es := by
  induction es generalizing pos with
  | nil => trivial
  | cons e es ih =>
      rw [List.map_cons, List.map_cons, Subelement.call] at h
      cases h with
      | cons ha whole cut h =>
          obtain ⟨hf, rfl⟩ := Prod.mk.inj ha
          obtain rfl := Option.some.inj hf
          refine ⟨?_, ih h⟩
          intro hcut
          have hbyte := cut hcut
          have hlt : e.payload.length - 1 < e.payload.length := Nat.sub_lt e.length_pos Nat.one_pos
          dsimp only at hbyte
          rw [List.getD_eq_getElem?_getD, List.getElem?_eq_getElem hlt, Option.getD_some,
            Option.some.injEq] at hbyte
          exact byte_ne_succ _ hbyte

/-- **Reassembly.**  With memory, `print_ie` calls `print_sub` once for every subelement, in order,
with its header and its complete payload, whatever `malloc` leaves in a block, if and only if no
payload is cut. -/
theorem reassembly_iff {es : List Subelement} {pieces : List (List UInt8)} (h : Pieces es pieces)
    (out : Out) :
    (∀ heap : Heap, heap.Willing →
      (printIe (ies pieces) out heap).1.calls = out.calls ++ es.map Subelement.call) ↔
      PayloadsWhole pieces es := by
  constructor
  · intro hcalls
    -- blocks that hold no byte of a payload where it should be
    let heap := Heap.fresh (es.map Subelement.garbage)
    have hw : heap.Willing := by
      intro a ha
      obtain ⟨e, -, rfl⟩ := List.mem_map.mp ha
      exact Option.some_ne_none _
    obtain ⟨new, hnew, hreported⟩ := printIe_reported h out hw
    rw [hcalls heap hw] at hnew
    rw [← List.append_cancel_left hnew] at hreported
    exact hreported.uncut
  · intro hu heap hw
    obtain ⟨new, hnew, hreported⟩ := printIe_reported h out hw
    rw [hnew, hreported.whole hu]

/-- Three bytes in one piece, and one in the next element. -/
theorem reassembly_whole :
    (printIe (ies [[1, 0, 3, 7, 8, 9], [2, 0, 1, 5]]) ⟨0, []⟩ (Heap.fresh [])).1.calls =
      [(⟨1, 3⟩, [7, 8, 9]), (⟨2, 1⟩, [5])] := by
  let e₁ : Subelement := ⟨1, [7, 8, 9], by decide, by decide⟩
  let e₂ : Subelement := ⟨2, [5], by decide, by decide⟩
  have h : Pieces [e₁, e₂] [[1, 0, 3, 7, 8, 9], [2, 0, 1, 5]] := ⟨by decide, by decide, by decide⟩
  have hu : PayloadsWhole [[1, 0, 3, 7, 8, 9], [2, 0, 1, 5]] [e₁, e₂] := by decide
  exact (reassembly_iff h ⟨0, []⟩).mpr hu (Heap.fresh []) Heap.willing_fresh

/-- Three bytes, the last of them in the next element: it is copied over the first. -/
theorem reassembly_cut :
    let e : Subelement := ⟨1, [7, 8, 9], by decide, by decide⟩
    Pieces [e] [[1, 0, 3, 7, 8], [9]] ∧
      (printIe (ies [[1, 0, 3, 7, 8], [9]]) ⟨0, []⟩ (Heap.fresh [])).1.calls =
      [(⟨1, 3⟩, [9, 8, 0])] ∧
      (printIe (ies [[1, 0, 3, 7, 8], [9]]) ⟨0, []⟩ (Heap.fresh [])).1.calls ≠ [e.call] := by
  have hcalls : (printIe (ies [[1, 0, 3, 7, 8], [9]]) ⟨0, []⟩ (Heap.fresh [])).1.calls =
      [(⟨1, 3⟩, [9, 8, 0])] := by
    decide +kernel
  refine ⟨⟨by decide, by decide, by decide⟩, hcalls, ?_⟩
  rw [hcalls]
  decide

end OpenWfd.Ie
