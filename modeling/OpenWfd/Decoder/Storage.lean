import OpenWfd.Decoder.Chunks

/-!
# Decoder — Storage

The two parallel arrays in which `struct owfd_rtsp_msg` collects its header lines.  `Fine` is their
invariant: there is room for the terminating entry, and no body is set between two steps.  Under it
`push_header_line` appends one entry to `lines`, the entries below `header_num`.
-/

namespace OpenWfd.Rtsp

/-- The header lines collected, each with its length. -/
def Msg.lines (m : Msg) : List (HeaderPtr × Option Nat) :=
  (m.header.take m.headerNum).zip (m.headerLen.take m.headerNum)

/-- What the callback sees of a message. -/
structure Seen where
  lines : List (HeaderPtr × Option Nat)
  body : Option (List UInt8)
  bodyLen : Nat
  deriving DecidableEq, Repr

def Msg.seen (m : Msg) : Seen := ⟨m.lines, m.body, m.bodyLen⟩

/-- An event, with what the callback sees of its message. -/
def Event.seen : Event → Option Seen
  | .msg m => some m.seen
  | _      => none

/-- The messages handed to the callback, in order. -/
def Core.messages (c : Core) : List Seen := c.log.filterMap Event.seen

/-- The arrays have room for one more entry than `header_num`, and there is no body. -/
structure Core.Fine (c : Core) : Prop where
  room : c.msg.headerNum + 2 ≤ c.headerSize
  header : c.headerSize ≤ c.msg.header.length
  headerLen : c.headerSize ≤ c.msg.headerLen.length
  body : c.msg.body = none
  bodyLen : c.msg.bodyLen = 0

theorem fine_fresh (cb : Bool) : (Decoder.fresh cb).toCore.Fine := by
  constructor <;> simp [Decoder.fresh]

/-- `Fine` is about the message and `header_size` only. -/
theorem Core.Fine.congr {c c' : Core} (f : c.Fine) (hm : c'.msg = c.msg)
    (hs : c'.headerSize = c.headerSize) : c'.Fine := by
  constructor
  · rw [hm, hs]; exact f.room
  · rw [hm, hs]; exact f.header
  · rw [hm, hs]; exact f.headerLen
  · rw [hm]; exact f.body
  · rw [hm]; exact f.bodyLen

theorem Core.Fine.length_lines {c : Core} (f : c.Fine) : c.msg.lines.length = c.msg.headerNum := by
  have h₁ := f.room
  have h₂ := f.header
  have h₃ := f.headerLen
  simp only [Msg.lines, List.length_zip, List.length_take]
  omega

/-! ### `push_header_line` -/

/-- Growing keeps the lines, and makes room. -/
theorem growHeader_spec {c c' : Core} {r : Except Errno Unit} (f : c.Fine)
    (e : growHeader c = (r, c')) :
    c'.Fine ∧ c'.msg.headerNum = c.msg.headerNum ∧ c'.msg.lines = c.msg.lines ∧
      (r = .ok () ∧ c'.headerSize = c.headerSize * 2 ∨ r = .error .ENOMEM ∧ c.heap ≠ []) := by
  obtain ⟨hroom, hl₁, hl₂, hbody, hbl⟩ := f
  unfold growHeader at e
  simp only [if_neg (show ¬ c.headerSize * 2 < c.headerSize by omega)] at e
  split at e
  · next h heq =>
    cases e
    refine ⟨⟨hroom, hl₁, hl₂, hbody, hbl⟩, rfl, rfl, Or.inr ⟨rfl, fun hn => ?_⟩⟩
    rw [hn, realloc_nil] at heq
    cases heq
  · next header h heq =>
    have hlen := realloc_length heq
    have htake := realloc_take (k := c.msg.headerNum) heq (by omega) (by omega)
    split at e
    · next h' heq' =>
      cases e
      refine ⟨⟨hroom, by simp only; omega, hl₂, hbody, hbl⟩, rfl, ?_, Or.inr ⟨rfl, fun hn => ?_⟩⟩
      · simp only [Msg.lines, htake]
      · rw [hn, realloc_nil] at heq
        cases heq
        cases heq'
    · next headerLen h' heq' =>
      have hlen' := realloc_length heq'
      have htake' := realloc_take (k := c.msg.headerNum) heq' (by omega) (by omega)
      cases e
      refine ⟨⟨by simp only; omega, by simp only; omega, by simp only; omega, hbody, hbl⟩, rfl, ?_,
        Or.inl ⟨rfl, rfl⟩⟩
      simp only [Msg.lines, htake, htake']

theorem take_set_set {α : Type*} {xs : List α} {n : Nat} (h : n < xs.length) (a b : α) :
    ((xs.set n a).set (n + 1) b).take (n + 1) = xs.take n ++ [a] := by
  rw [List.take_set_of_le (by omega), List.take_add_one, List.take_set_of_le le_rfl,
    List.getElem?_set_self h]
  rfl

theorem storeHeader_spec {c : Core} (f : c.Fine) (hroom : c.msg.headerNum + 3 ≤ c.headerSize)
    (line : List UInt8) (len : Nat) :
    (storeHeader c line len).Fine ∧
      (storeHeader c line len).msg.lines = c.msg.lines ++ [(.line line, some len)] := by
  obtain ⟨-, hl₁, hl₂, hbody, hbl⟩ := f
  refine ⟨⟨by simp only [storeHeader]; omega, by simp only [storeHeader, List.length_set]; omega,
    by simp only [storeHeader, List.length_set]; omega, hbody, hbl⟩, ?_⟩
  simp only [Msg.lines, storeHeader]
  rw [take_set_set (by omega), take_set_set (by omega), List.zip_append (by simp; omega)]
  rfl

/-- The fields a header line does not touch: everything but the arrays, the allocator and, for
`content-length`, the body to come. -/
def Core.SameControl (c c' : Core) : Prop :=
  c'.cb = c.cb ∧ c'.state = c.state ∧ c'.lastChr = c.lastChr ∧ c'.quoted = c.quoted ∧
    c'.log = c.log

theorem growHeader_control (c : Core) : c.SameControl (growHeader c).2 ∧
    (growHeader c).2.remainingBody = c.remainingBody := by
  unfold growHeader
  dsimp only
  split_ifs
  · exact ⟨⟨rfl, rfl, rfl, rfl, rfl⟩, rfl⟩
  · split
    · exact ⟨⟨rfl, rfl, rfl, rfl, rfl⟩, rfl⟩
    · split <;> exact ⟨⟨rfl, rfl, rfl, rfl, rfl⟩, rfl⟩

theorem pushHeaderLine_control (c : Core) (line : List UInt8) (len : Nat) :
    c.SameControl (pushHeaderLine c line len).2 := by
  unfold pushHeaderLine
  split
  · have hg := (growHeader_control c).1
    rcases hr : growHeader c with ⟨e | _, c'⟩ <;> rw [hr] at hg <;> exact hg
  · exact ⟨rfl, rfl, rfl, rfl, rfl⟩

/-- **`push_header_line` appends one line**, or fails for want of memory and keeps the lines. -/
theorem pushHeaderLine_spec {c c' : Core} {r : Except Errno Unit} {line : List UInt8} {len : Nat}
    (f : c.Fine) (e : pushHeaderLine c line len = (r, c')) :
    c'.Fine ∧ c.SameControl c' ∧ c'.remainingBody = c.remainingBody ∧
      ((r = .error .ENOMEM ∧ c'.msg.lines = c.msg.lines ∧ c.heap ≠ []) ∨
        (r = .ok () ∧ c'.msg.lines = c.msg.lines ++ [(.line line, some len)])) := by
  unfold pushHeaderLine at e
  have hroom := f.room
  split at e
  · next hfull =>
    obtain ⟨hctl, hrem⟩ := growHeader_control c
    rcases hg : growHeader c with ⟨e₁ | _, c₁⟩ <;> rw [hg] at hctl hrem <;> simp only [hg] at e
    · obtain ⟨f₁, hnum, hlines, ⟨hok, -⟩ | ⟨herr, hheap⟩⟩ := growHeader_spec f hg
      · cases hok
      · cases herr
        obtain ⟨rfl, rfl⟩ := Prod.mk.inj e
        exact ⟨f₁, hctl, hrem, Or.inl ⟨rfl, hlines, hheap⟩⟩
    · obtain ⟨f₁, hnum, hlines, ⟨-, hsize⟩ | ⟨herr, -⟩⟩ := growHeader_spec f hg
      · obtain ⟨rfl, rfl⟩ := Prod.mk.inj e
        have hs := storeHeader_spec f₁ (by omega) line len
        exact ⟨hs.1, hctl, hrem, Or.inr ⟨rfl, by rw [hs.2, hlines]⟩⟩
      · cases herr
  · next hfull =>
    obtain ⟨rfl, rfl⟩ := Prod.mk.inj e
    have hs := storeHeader_spec f (by omega) line len
    exact ⟨hs.1, ⟨rfl, rfl, rfl, rfl, rfl⟩, rfl, Or.inr ⟨rfl, hs.2⟩⟩

/-! ### `finish_header_line` -/

/-- What `parse_header_line` answers, and what it leaves in `remaining_body`, depends on the line
and on `remaining_body` only. -/
theorem parseHeaderLine_uniform (m : Nat) (line : List UInt8) :
    ∃ (r : Except Errno Unit) (n : Nat), ∀ c : Core, c.remainingBody = m →
      parseHeaderLine c line = (r, { c with remainingBody := n }) := by
  unfold parseHeaderLine
  by_cases hcl : strncasecmp line (str "content-length:") 15 = 0
  · simp only [if_pos hcl]
    by_cases htext : line.drop 15 = [] ∨ (strtoul (line.drop 15)).2 ≠ []
    · exact ⟨_, m, fun c hc => by rw [if_pos htext, ← hc]⟩
    by_cases hdiff : m ≠ 0 ∧ m ≠ (strtoul (line.drop 15)).1
    · exact ⟨_, m, fun c hc => by rw [if_neg htext, hc, if_pos hdiff, ← hc]⟩
    · exact ⟨_, _, fun c hc => by rw [if_neg htext, hc, if_neg hdiff]⟩
  · exact ⟨_, m, fun c hc => by rw [if_neg hcl, ← hc]⟩

/-- The core once `parse_header_line` has seen a line. -/
def Core.parsed (c : Core) (raw : List UInt8) (n : Nat) : Core :=
  { c with log := c.log ++ [.line raw], remainingBody := n }

theorem Core.Fine.parsed {c : Core} (f : c.Fine) (raw : List UInt8) (n : Nat) :
    (c.parsed raw n).Fine := f.congr rfl rfl

section FinishLine

variable {line block : List UInt8} {len l m n : Nat}

/-- The line is refused. -/
theorem finishLine_error {e : Errno} (hs : sanitizeHeaderLine line len = (block, l))
    (hp : ∀ c : Core, c.remainingBody = m →
      parseHeaderLine c (cstr block) = (.error e, { c with remainingBody := n }))
    {c : Core} (hm : c.remainingBody = m) :
    finishLine c line len = (.error e, c.parsed (line.take len) n) := by
  unfold finishLine
  simp only [hs, hp { c with log := c.log ++ [Event.line (line.take len)] } hm]
  rfl

/-- The line is stored, if there is memory. -/
theorem finishLine_ok (hs : sanitizeHeaderLine line len = (block, l))
    (hp : ∀ c : Core, c.remainingBody = m →
      parseHeaderLine c (cstr block) = (.ok (), { c with remainingBody := n }))
    {c : Core} (hm : c.remainingBody = m) :
    finishLine c line len = pushHeaderLine (c.parsed (line.take len) n) block l := by
  unfold finishLine
  simp only [hs, hp { c with log := c.log ++ [Event.line (line.take len)] } hm]
  rfl

theorem finishLine_store (hs : sanitizeHeaderLine line len = (block, l))
    (hp : ∀ c : Core, c.remainingBody = m →
      parseHeaderLine c (cstr block) = (.ok (), { c with remainingBody := n }))
    {c : Core} (f : c.Fine) (hh : c.heap = []) (hm : c.remainingBody = m) :
    ∃ c', finishLine c line len = (.ok (), c') ∧ c'.Fine ∧ c'.heap = [] ∧
      (c.parsed (line.take len) n).SameControl c' ∧ c'.remainingBody = n ∧
      c'.msg.lines = c.msg.lines ++ [(.line block, some l)] := by
  rcases hpush : pushHeaderLine (c.parsed (line.take len) n) block l with ⟨r, c'⟩
  have hheap := Parser.pushHeaderLine_heap (c := c.parsed (line.take len) n) hh block l
  rw [hpush] at hheap
  obtain ⟨f', hctl, hrem, ⟨-, -, hne⟩ | ⟨rfl, hlines⟩⟩ := pushHeaderLine_spec (f.parsed _ n) hpush
  · exact (hne hh).elim
  · exact ⟨c', (finishLine_ok hs hp hm).trans hpush, f', hheap, hctl, hrem, hlines⟩

end FinishLine

/-- The outcome of `finish_header_line` on a decoder whose allocations succeed depends on the line
and on `remaining_body` only. -/
theorem finishLine_uniform (m : Nat) (line : List UInt8) (len : Nat) :
    ∃ (r : Except Errno Unit) (n : Nat) (added : List (HeaderPtr × Option Nat)),
      ∀ c : Core, c.Fine → c.heap = [] → c.remainingBody = m →
        ∃ c', finishLine c line len = (r, c') ∧ c'.Fine ∧ c'.heap = [] ∧
          (c.parsed (line.take len) n).SameControl c' ∧ c'.remainingBody = n ∧
          c'.msg.lines = c.msg.lines ++ added := by
  rcases hs : sanitizeHeaderLine line len with ⟨block, l⟩
  obtain ⟨e | _, n, hp⟩ := parseHeaderLine_uniform m (cstr block)
  · exact ⟨.error e, n, [], fun c f hh hm => ⟨_, finishLine_error hs hp hm, f.parsed _ _, hh,
      ⟨rfl, rfl, rfl, rfl, rfl⟩, rfl, (List.append_nil _).symm⟩⟩
  · exact ⟨.ok (), n, [(.line block, some l)], fun c f hh hm => finishLine_store hs hp f hh hm⟩

/-- `finish_header_line` notes the line and leaves the control fields alone. -/
theorem finishLine_control (c : Core) (line : List UInt8) (len : Nat) :
    ∃ n, (c.parsed (line.take len) n).SameControl (finishLine c line len).2 := by
  rcases hs : sanitizeHeaderLine line len with ⟨block, l⟩
  obtain ⟨e | _, n, hp⟩ := parseHeaderLine_uniform c.remainingBody (cstr block)
  · rw [finishLine_error hs hp rfl]
    exact ⟨n, rfl, rfl, rfl, rfl, rfl⟩
  · rw [finishLine_ok hs hp rfl]
    exact ⟨n, pushHeaderLine_control _ _ _⟩

/-- Whatever the allocator does, `finish_header_line` keeps the arrays in order. -/
theorem finishLine_fine {c : Core} (f : c.Fine) (line : List UInt8) (len : Nat) :
    (finishLine c line len).2.Fine := by
  rcases hs : sanitizeHeaderLine line len with ⟨block, l⟩
  obtain ⟨e | _, n, hp⟩ := parseHeaderLine_uniform c.remainingBody (cstr block)
  · rw [finishLine_error hs hp rfl]
    exact f.parsed _ n
  · rw [finishLine_ok hs hp rfl]
    exact (pushHeaderLine_spec (f.parsed (line.take len) n) rfl).1

/-! ### `msg_done` -/

theorem length_clearFirst {α : Type*} (n : Nat) (zero : α) (xs : List α) :
    (clearFirst n zero xs).length = xs.length := by
  simp only [clearFirst, List.length_append, List.length_replicate, List.length_drop]
  omega

theorem msgDone_fine {c : Core} (f : c.Fine) (body : Option (List UInt8)) (len : Nat) :
    (msgDone { c with msg := { c.msg with body := body, bodyLen := len } }).Fine := by
  obtain ⟨hroom, hl₁, hl₂, -, -⟩ := f
  refine ⟨?_, ?_, ?_, rfl, rfl⟩ <;> simp only [msgDone, length_clearFirst] <;> omega

theorem messages_msgDone (c : Core) :
    (msgDone c).messages = c.messages ++ if c.cb then [c.msg.seen] else [] := by
  unfold msgDone Core.messages
  dsimp only
  split <;> simp [Event.seen]

/-- Every move keeps the arrays in order. -/
theorem move_fine {c c' : Core} (f : c.Fine) (m : Parser.Move c c') : c'.Fine := by
  cases m with
  | control | begin | alloc => exact f.congr rfl rfl
  | line raw => exact finishLine_fine f _ _
  | done => exact msgDone_fine f c.msg.body c.msg.bodyLen
  | body raw => exact msgDone_fine f _ _

end OpenWfd.Rtsp
