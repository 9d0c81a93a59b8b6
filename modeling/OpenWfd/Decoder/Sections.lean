import OpenWfd.Decoder.Restart
import OpenWfd.Decoder.Steps
import OpenWfd.Support.Numeral

/-!
# Decoder — Sections

The header section of a message as a text: `headerLines` cuts it into raw lines, by the rules of
`feed_char_header` and `feed_char_header_quote`, with no buffer, no memory and no look at what a
line says.  `nextLine` is what `parse_header_line` makes of one line: the number of body bytes to
come.

`run_section` is the parser on a header section.  It takes the lines one after the other, up to the
first that is refused; when all are taken the message is delivered, or its body is to come.
-/

namespace OpenWfd.Rtsp

/-! ### The lines of a section -/

/-- Behind `last`, the byte `c` is the empty line. -/
def endsSection (last c : UInt8) : Bool :=
  c = CR && (last = CR || last = LF) || c = LF && last = LF

/-- Behind `last`, the byte `c` begins a line. -/
def beginsLine (last c : UInt8) : Bool := (last = CR || last = LF) && !decide (White c)

/-- The rest of a section, inside quotes or not; `line` was read of the current line, and `last` was
the last byte. -/
def sectionLines (quote esc : Bool) (last : UInt8) (line : List UInt8) :
    List UInt8 → Option (List (List UInt8))
  | []      => none
  | c :: bs =>
    if quote then
      if last = BS ∧ !esc then sectionLines true true c (line ++ [c]) bs
      else sectionLines (c ≠ DQ) false c (line ++ [c]) bs
    else if endsSection last c then
      if bs = [] ∨ (c = CR ∧ bs = [LF]) then some [line] else none
    else if beginsLine last c then
      (sectionLines (c = DQ) false c [c] bs).map (line :: ·)
    else
      sectionLines (c = DQ) false c (line ++ [c]) bs

/-- The raw lines of a text that is one header section, from its first byte to the line break of its
empty line. -/
def headerLines : List UInt8 → Option (List (List UInt8))
  | []      => none
  | c :: bs => if White c then none else sectionLines false false c [c] bs

/-! ### What the lines announce -/

/-- A raw line, sanitized. -/
def headerText (raw : List UInt8) : List UInt8 :=
  cstr (sanitizeHeaderLine (raw ++ [NUL]) raw.length).1

/-- What stands behind `content-length:`. -/
def lengthText (line : List UInt8) : Option (List UInt8) :=
  if IsLength line then some (line.drop 15) else none

/-- The length texts of a section, in order. -/
def lengths (raws : List (List UInt8)) : List (List UInt8) :=
  raws.filterMap fun raw => lengthText (headerText raw)

/-- The body bytes to come behind a length text, if there were `m` to come before it. -/
def nextLength (m : Nat) (t : List UInt8) : Option Nat :=
  match number t with
  | none   => none
  | some z => if m ≠ 0 ∧ m ≠ ulong z then none else some (ulong z)

/-- The same for a raw line. -/
def nextLine (m : Nat) (raw : List UInt8) : Option Nat :=
  match lengthText (headerText raw) with
  | none   => some m
  | some t => nextLength m t

theorem foldlM_nextLine (m : Nat) (raws : List (List UInt8)) :
    raws.foldlM nextLine m = (lengths raws).foldlM nextLength m := by
  induction raws generalizing m with
  | nil => rfl
  | cons raw raws ih =>
      rw [List.foldlM_cons, nextLine, lengths, List.filterMap_cons]
      cases ht : lengthText (headerText raw) with
      | none => exact ih m
      | some t =>
          rw [List.foldlM_cons]
          exact bind_congr fun n => ih n

/-- **`parse_header_line`** on a line that announces a length. -/
theorem parseHeaderLine_length {line : List UInt8} (h : IsLength line) (c : Core) :
    parseHeaderLine c line =
      match nextLength c.remainingBody (line.drop 15) with
      | none   => (.error .EINVAL, c)
      | some n => (.ok (), { c with remainingBody := n }) := by
  have hend := @strtoul_end_iff (line.drop 15)
  unfold parseHeaderLine nextLength
  rw [if_pos h]
  rcases hs : strtoul (line.drop 15) with ⟨l, e⟩
  dsimp only
  by_cases hbad : line.drop 15 = [] ∨ e ≠ []
  · have hnone : number (line.drop 15) = none := by
      rw [Option.eq_none_iff_forall_ne_some]
      intro z hz
      obtain ⟨hne, hs'⟩ := hend.mpr ⟨z, hz, rfl⟩
      rw [hs] at hs'
      exact hbad.elim hne fun he => he (Prod.mk.inj hs').2
    rw [if_pos hbad, hnone]
  · rw [not_or, not_not] at hbad
    obtain ⟨hne, rfl⟩ := hbad
    obtain ⟨z, hz, rfl⟩ := hend.mp ⟨hne, hs⟩
    rw [if_neg (by simp [hne]), hz]
    dsimp only
    by_cases hdiff : c.remainingBody ≠ 0 ∧ c.remainingBody ≠ ulong z
    · rw [if_pos hdiff, if_pos hdiff]
    · rw [if_neg hdiff, if_neg hdiff]

/-- On any line. -/
theorem parseHeaderLine_next (raw : List UInt8) (c : Core) :
    parseHeaderLine c (headerText raw) =
      match nextLine c.remainingBody raw with
      | none   => (.error .EINVAL, c)
      | some n => (.ok (), { c with remainingBody := n }) := by
  unfold nextLine lengthText
  by_cases h : IsLength (headerText raw)
  · rw [if_pos h]
    exact parseHeaderLine_length h c
  · rw [if_neg h, parseHeaderLine, if_neg h]

/-- The same, for every core that has as many body bytes to come. -/
theorem parseHeaderLine_at (m : Nat) (raw : List UInt8) : ∀ c : Core, c.remainingBody = m →
    parseHeaderLine c (headerText raw) =
      match nextLine m raw with
      | none   => (.error .EINVAL, { c with remainingBody := m })
      | some n => (.ok (), { c with remainingBody := n }) := by
  intro c hc
  rw [parseHeaderLine_next, hc, ← hc]

/-! ### One line -/

theorem Parser.run_cons_error {p q : Parser} {c : UInt8} {e : Errno} (h : p.step c = (.error e, q))
    (bs : List UInt8) : p.run (c :: bs) = (.error e, q) := by
  have hr : reader.step p c = (.error e, q) := by
    simp only [reader, h, remember]
  exact Reader.run_cons_error hr bs

/-- Nothing was delivered. -/
def Quiet (c c' : Core) : Prop := c'.cb = c.cb ∧ c'.messages = c.messages

theorem Quiet.trans {c c₁ c₂ : Core} (h : Quiet c c₁) (h' : Quiet c₁ c₂) : Quiet c c₂ :=
  ⟨h'.1.trans h.1, h'.2.trans h.2⟩

/-- The pending line is cut out: it is refused, or taken. -/
theorem cut_line {p : Parser} (f : p.Fine) (hh : p.heap = []) :
    (nextLine p.remainingBody p.pending = none ∧ ∃ q, p.cut = (.error .EINVAL, q)) ∨
      ∃ n c, nextLine p.remainingBody p.pending = some n ∧ p.cut = (.ok (), ⟨c, []⟩) ∧ c.Fine ∧
        c.heap = [] ∧ Quiet p.toCore c ∧ c.state = p.state ∧ c.quoted = p.quoted ∧
        c.remainingBody = n := by
  have hparse := parseHeaderLine_at p.remainingBody p.pending
  rcases hs : sanitizeHeaderLine (p.pending ++ [NUL]) p.pending.length with ⟨block, l⟩
  rw [headerText, hs] at hparse
  unfold Parser.cut
  simp only [hh, Allocs.next]
  cases hn : nextLine p.remainingBody p.pending with
  | none =>
      simp only [hn] at hparse
      have herr := finishLine_error (c := { p.toCore with heap := [] }) hs hparse rfl
      rw [herr]
      exact Or.inl ⟨rfl, _, rfl⟩
  | some n =>
      simp only [hn] at hparse
      obtain ⟨c, hfin, hf, hheap, ⟨hcb, hst, -, hq, hlog⟩, hrem, -⟩ :=
        finishLine_store (c := { p.toCore with heap := [] }) hs hparse (f.congr rfl rfl) rfl rfl
      rw [hfin]
      refine Or.inr ⟨n, c, rfl, rfl, hf, hheap, ⟨hcb, ?_⟩, hst, hq, hrem⟩
      simp [Core.messages, hlog, Core.parsed, Event.seen]

/-- A header line is under way, as `sectionLines` has it. -/
structure InLine (quote esc : Bool) (last : UInt8) (line : List UInt8) (p : Parser) : Prop where
  fine : p.Fine
  heap : p.heap = []
  state : p.state = if quote then .headerQuote else .header
  quoted : quote = true → p.quoted = esc
  last : p.lastChr = last
  pending : p.pending = line

section

variable {quote esc : Bool} {last c : UInt8} {line bs : List UInt8} {p : Parser}

/-- One more byte of the line. -/
theorem InLine.keep (h : InLine quote esc last line p) (st : State) (b : Bool) {q e : Bool}
    (hs : p.step c = (.ok (), { p with state := st, quoted := b, pending := p.pending ++ [c] }))
    (hst : st = if q then .headerQuote else .header) (hb : q = true → b = e) :
    ∃ p', (∀ bs, p.run (c :: bs) = p'.run bs) ∧ InLine q e c (line ++ [c]) p' ∧
      Quiet p.toCore p'.toCore ∧ p'.remainingBody = p.remainingBody :=
  ⟨_, Parser.run_cons hs, ⟨h.fine.congr rfl rfl, h.heap, hst, hb, rfl, by rw [h.pending]⟩,
    ⟨rfl, rfl⟩, rfl⟩

/-- Inside quotes every byte is one of the line. -/
theorem InLine.inside (h : InLine true esc last line p) (c : UInt8) :
    ∃ p', (∀ bs, p.run (c :: bs) = p'.run bs) ∧
      (if last = BS ∧ (!esc) = true then InLine true true c (line ++ [c]) p'
        else InLine (c ≠ DQ) false c (line ++ [c]) p') ∧
      Quiet p.toCore p'.toCore ∧ p'.remainingBody = p.remainingBody := by
  have hst : p.state = .headerQuote := h.state
  have hquoted := h.quoted rfl
  have hlast := h.last
  subst hquoted hlast
  have hstep : p.step c = p.stepQuote c := by
    unfold Parser.step
    rw [hst]
  unfold Parser.stepQuote at hstep
  by_cases hesc : p.lastChr = BS ∧ (!p.quoted) = true
  · rw [if_pos hesc] at hstep
    simp only [if_pos hesc]
    exact h.keep p.state true hstep hst fun _ => rfl
  · rw [if_neg hesc] at hstep
    simp only [if_neg hesc]
    by_cases hq : c = DQ
    · rw [if_pos hq] at hstep
      exact h.keep .header false hstep (by simp [hq]) fun _ => rfl
    · rw [if_neg hq] at hstep
      exact h.keep p.state false hstep (by simp [hq, hst]) fun _ => rfl

theorem InLine.step_outside (h : InLine false esc last line p) (c : UInt8) :
    p.step c = p.stepHeader c := by
  have hst : p.state = .header := h.state
  unfold Parser.step
  rw [hst]

/-- Outside quotes, a byte that ends neither the section nor the line. -/
theorem InLine.outside (h : InLine false esc last line p) (hend : endsSection last c = false)
    (hnew : beginsLine last c = false) :
    ∃ p', (∀ bs, p.run (c :: bs) = p'.run bs) ∧ InLine (c = DQ) false c (line ++ [c]) p' ∧
      Quiet p.toCore p'.toCore ∧ p'.remainingBody = p.remainingBody := by
  have hst : p.state = .header := h.state
  have hlast := h.last
  subst hlast
  have hstep : p.step c = if c = DQ then
      Parser.keep { p with state := .headerQuote, quoted := false } c else p.keep c := by
    rw [h.step_outside, Parser.stepHeader]
    simp only [endsSection, beginsLine, White] at hend hnew
    have hdq : DQ ≠ CR ∧ DQ ≠ LF ∧ DQ ≠ TAB ∧ DQ ≠ SP := by decide
    have hlf : CR ≠ LF := by decide
    split_ifs <;> first | rfl | simp_all
  by_cases hq : c = DQ
  · rw [if_pos hq] at hstep
    exact h.keep .headerQuote false hstep (by simp [hq]) fun _ => rfl
  · rw [if_neg hq] at hstep
    exact h.keep p.state p.quoted hstep (by simp [hq, hst]) fun hbad => absurd hbad (by simp [hq])

/-- A byte that begins the next line: the line is refused, or taken. -/
theorem InLine.next (h : InLine false esc last line p) (hend : endsSection last c = false)
    (hnew : beginsLine last c = true) :
    (nextLine p.remainingBody line = none ∧ ∀ bs, ∃ q, p.run (c :: bs) = (.error .EINVAL, q)) ∨
      ∃ n p', nextLine p.remainingBody line = some n ∧ (∀ bs, p.run (c :: bs) = p'.run bs) ∧
        InLine (c = DQ) false c [c] p' ∧ Quiet p.toCore p'.toCore ∧ p'.remainingBody = n := by
  have hst : p.state = .header := h.state
  have hlast := h.last
  have hpend := h.pending
  subst hlast hpend
  have hstep : p.step c = p.cutThen fun p => if c = DQ then
      Parser.keep { p with state := .headerQuote, quoted := false } c else p.keep c := by
    rw [h.step_outside, Parser.stepHeader]
    simp only [endsSection, beginsLine, White] at hend hnew
    have hdq : DQ ≠ CR ∧ DQ ≠ LF ∧ DQ ≠ TAB ∧ DQ ≠ SP := by decide
    split_ifs <;> first | rfl | simp_all
  rcases cut_line h.fine h.heap with ⟨hn, q, hcut⟩ | ⟨n, c₁, hn, hcut, f, hh, hquiet, hst₁, -, hrem⟩
  · refine Or.inl ⟨hn, fun bs => ⟨q, ?_⟩⟩
    have herr : p.step c = (.error .EINVAL, q) := by
      rw [hstep, Parser.cutThen, hcut]
    exact Parser.run_cons_error herr bs
  · rw [Parser.cutThen, hcut] at hstep
    dsimp only at hstep
    by_cases hq : c = DQ
    · rw [if_pos hq] at hstep
      refine Or.inr ⟨n, _, hn, Parser.run_cons hstep, ?_, hquiet, hrem⟩
      exact ⟨f.congr rfl rfl, hh, by simp [hq], fun _ => rfl, rfl, rfl⟩
    · rw [if_neg hq] at hstep
      refine Or.inr ⟨n, _, hn, Parser.run_cons hstep, ?_, hquiet, hrem⟩
      exact ⟨f.congr rfl rfl, hh, by simp [hq, hst₁, hst],
        fun hbad => absurd hbad (by simp [hq]), rfl,
        rfl⟩

/-- The header section `bs` was taken, and announced a body of `n` bytes: without a body the message
is delivered, otherwise the body is to come. -/
inductive Ended (p : Parser) (bs : List UInt8) : Nat → Parser → Prop where
  | done {p' : Parser} (idle : p'.Idle) (remaining : p'.remainingBody = 0) (cb : p'.cb = p.cb)
      (s : Seen)
      (messages : p'.messages = p.messages ++ if p.cb then [s] else [])
      (body : s.body = none ∧ s.bodyLen = 0) : Ended p bs 0 p'
  | body {p' : Parser} {n : Nat} (pos : 0 < n) (remaining : p'.remainingBody = n) (fine : p'.Fine)
      (heap : p'.heap = []) (quiet : Quiet p.toCore p'.toCore)
      (state : (p'.state = .body ∧ p'.pending = []) ∨
        (p'.state = .headerNl ∧ bs.getLast? = some CR)) : Ended p bs n p'

/-- `msg_done` on a message without a body. -/
theorem ended_done {c₁ : Core} (f : c₁.Fine) (hh : c₁.heap = []) (hq : Quiet p.toCore c₁)
    (hr : c₁.remainingBody = 0) (st : State) (hst : st = .new ∨ st = .headerNl) (l : UInt8)
    (pending : List UInt8) :
    Ended p bs 0 ⟨{ msgDone c₁ with state := st, lastChr := l }, pending⟩ := by
  have hm := messages_msgDone c₁
  rw [hq.1, hq.2] at hm
  have hidle : Parser.Idle ⟨{ msgDone c₁ with state := st, lastChr := l }, pending⟩ :=
    ⟨(msgDone_fine f c₁.msg.body c₁.msg.bodyLen).congr rfl rfl, hh, hst.imp_right fun e => ⟨e, hr⟩⟩
  exact .done hidle hr hq.1 c₁.msg.seen hm ⟨f.body, f.bodyLen⟩

/-- A CR ends the section, and perhaps an LF belongs to it. -/
theorem InLine.endCr (h : InLine false esc last line p) (hend : last = CR ∨ last = LF)
    (hbs : bs = [] ∨ bs = [LF]) :
    (nextLine p.remainingBody line = none ∧ ∃ q, p.run (CR :: bs) = (.error .EINVAL, q)) ∨
      ∃ n p', nextLine p.remainingBody line = some n ∧ p.run (CR :: bs) = (.ok (), p') ∧
        Ended p (CR :: bs) n p' := by
  have hst : p.state = .header := h.state
  have hlast := h.last
  have hpend := h.pending
  subst hlast hpend
  have hstep : p.step CR = Parser.cutThen { p with state := .headerNl } fun p =>
    p.doneIfNoBody.keep CR := by
    rw [h.step_outside, Parser.stepHeader, if_pos rfl, if_pos hend]
  have f₀ : Core.Fine { p.toCore with state := .headerNl } := h.fine.congr rfl rfl
  rcases cut_line (p := { p with state := .headerNl }) f₀ h.heap with
    ⟨hn, q, hcut⟩ | ⟨n, c₁, hn, hcut, f, hh, hquiet, hst₁, -, hrem⟩
  · refine Or.inl ⟨hn, q, ?_⟩
    have herr : p.step CR = (.error .EINVAL, q) := by
      rw [hstep, Parser.cutThen, hcut]
    exact Parser.run_cons_error herr bs
  · refine Or.inr ⟨n, ?_⟩
    have hquiet : Quiet p.toCore c₁ := hquiet
    have hst₁ : c₁.state = .headerNl := hst₁
    rw [Parser.cutThen, hcut] at hstep
    dsimp only at hstep
    rcases doneIfNoBody_cases ⟨c₁, []⟩ with ⟨hr, heq⟩ | ⟨hr, heq⟩ <;>
      rw [heq] at hstep
    · have hr : c₁.remainingBody = 0 := hr
      obtain rfl : n = 0 := hrem.symm.trans hr
      have hrun := Parser.run_cons hstep bs
      rcases hbs with rfl | rfl
      · exact ⟨_, hn, hrun, ended_done f hh hquiet hr c₁.state (Or.inr hst₁) CR _⟩
      · refine ⟨⟨{ msgDone c₁ with state := .new, lastChr := LF }, []⟩, hn, ?_,
          ended_done f hh hquiet hr .new (Or.inl rfl) LF _⟩
        rw [hrun]
        refine Parser.run_cons (q := ⟨{ msgDone c₁ with state := .new, lastChr := CR }, []⟩) ?_ []
        have hnl : (msgDone c₁).state = .headerNl := hst₁
        have hz : (msgDone c₁).remainingBody = 0 := hr
        simp only [Parser.step, hnl, Parser.stepNl, hz, if_true]
    · have hr : c₁.remainingBody ≠ 0 := hr
      have hpos : 0 < n := by omega
      have hrun := Parser.run_cons hstep bs
      rcases hbs with rfl | rfl
      · refine ⟨_, hn, hrun, .body hpos hrem (f.congr rfl rfl) hh hquiet (Or.inr ⟨hst₁, rfl⟩)⟩
      · refine ⟨⟨{ c₁ with state := .body, lastChr := LF }, []⟩, hn, ?_,
          .body hpos hrem (f.congr rfl rfl) hh hquiet (Or.inl ⟨rfl, rfl⟩)⟩
        rw [hrun]
        refine Parser.run_cons (q := ⟨{ c₁ with state := .body, lastChr := CR }, []⟩) ?_ []
        simp only [Parser.step, hst₁, Parser.stepNl, hr, if_true, if_false]

/-- An LF ends the section. -/
theorem InLine.endLf (h : InLine false esc LF line p) :
    (nextLine p.remainingBody line = none ∧ ∃ q, p.run [LF] = (.error .EINVAL, q)) ∨
      ∃ n p', nextLine p.remainingBody line = some n ∧ p.run [LF] = (.ok (), p') ∧
        Ended p [LF] n p' := by
  have hst : p.state = .header := h.state
  have hpend := h.pending
  subst hpend
  have hstep : p.step LF = p.cutThen fun p =>
      (.ok (), Parser.doneIfNoBody { p with state := if p.remainingBody = 0 then .new
        else .body }) := by
    rw [h.step_outside, Parser.stepHeader, if_neg (by decide), if_pos rfl, if_pos h.last]
  rcases cut_line h.fine h.heap with ⟨hn, q, hcut⟩ | ⟨n, c₁, hn, hcut, f, hh, hquiet, -, -, hrem⟩
  · refine Or.inl ⟨hn, q, ?_⟩
    have herr : p.step LF = (.error .EINVAL, q) := by
      rw [hstep, Parser.cutThen, hcut]
    exact Parser.run_cons_error herr []
  · refine Or.inr ⟨n, ?_⟩
    rw [Parser.cutThen, hcut] at hstep
    dsimp only at hstep
    have hrun := Parser.run_cons hstep []
    rcases doneIfNoBody_cases ⟨{ c₁ with
      state := if c₁.remainingBody = 0 then .new else .body }, []⟩ with ⟨hr, heq⟩ | ⟨hr, heq⟩ <;>
      rw [heq] at hrun
    · have hr : c₁.remainingBody = 0 := hr
      obtain rfl : n = 0 := hrem.symm.trans hr
      have hst₁ : (if c₁.remainingBody = 0 then State.new else .body) = .new := if_pos hr
      have f₁ : Core.Fine { c₁ with state := if c₁.remainingBody = 0 then .new else .body } :=
        f.congr rfl rfl
      have hend : Ended p [LF] 0 _ := ended_done f₁ hh hquiet hr _ (Or.inl hst₁) LF []
      exact ⟨_, hn, hrun, hend⟩
    · have hr : c₁.remainingBody ≠ 0 := hr
      have hst₁ : (if c₁.remainingBody = 0 then State.new else .body) = .body := if_neg hr
      exact ⟨_, hn, hrun, .body (by omega) hrem (f.congr rfl rfl) hh hquiet (Or.inl ⟨hst₁, rfl⟩)⟩

/-! ### Every line -/

/-- The section `bs` was read, with `m` body bytes to come before it: its first refused line stopped
the parser, or all were taken. -/
def Outcome (m : Nat) (p : Parser) (bs : List UInt8) (raws : List (List UInt8)) : Prop :=
  (raws.foldlM nextLine m = none ∧ ∃ q, p.run bs = (.error .EINVAL, q)) ∨
    ∃ n p', raws.foldlM nextLine m = some n ∧ p.run bs = (.ok (), p') ∧ Ended p bs n p'

/-- A byte that does not matter: the outcome is that of the rest. -/
theorem Outcome.cons {p₁ : Parser} {m m₁ : Nat} {raws raws' : List (List UInt8)}
    (h : Outcome m₁ p₁ bs raws) (hne : bs ≠ []) (hrun : p.run (c :: bs) = p₁.run bs)
    (hq : Quiet p.toCore p₁.toCore)
    (hfold : raws'.foldlM nextLine m = raws.foldlM nextLine m₁) : Outcome m p (c :: bs) raws' := by
  rw [Outcome, hrun, hfold]
  rcases h with ⟨hn, hr⟩ | ⟨n, p', hn, hr, hend⟩
  · exact Or.inl ⟨hn, hr⟩
  · refine Or.inr ⟨n, p', hn, hr, ?_⟩
    cases hend with
    | done idle remaining cb s messages body =>
        exact .done idle remaining (cb.trans hq.1) s (by rw [messages, hq.1, hq.2]) body
    | body pos remaining fine heap quiet state =>
        refine .body pos remaining fine heap (hq.trans quiet) ?_
        obtain ⟨b, bs, rfl⟩ := List.exists_cons_of_ne_nil hne
        rw [List.getLast?_cons_cons]
        exact state

theorem sectionLines_ne_nil {raws : List (List UInt8)}
    (h : sectionLines quote esc last line bs = some raws) : bs ≠ [] := by
  rintro rfl
  cases h

/-- **The rest of a header section.** -/
theorem run_sectionLines {raws : List (List UInt8)}
    (h : sectionLines quote esc last line bs = some raws) (hp : InLine quote esc last line p) :
    Outcome p.remainingBody p bs raws := by
  fun_induction sectionLines quote esc last line bs generalizing raws p with
  | case1 => cases h
  | case2 esc last line c bs hesc ih =>
      obtain ⟨p₁, hrun, h₁, hq, hrem⟩ := hp.inside c
      rw [if_pos hesc] at h₁
      exact (ih h h₁).cons (sectionLines_ne_nil h) (hrun bs) hq (by rw [hrem])
  | case3 esc last line c bs hesc ih =>
      obtain ⟨p₁, hrun, h₁, hq, hrem⟩ := hp.inside c
      rw [if_neg hesc] at h₁
      exact (ih h h₁).cons (sectionLines_ne_nil h) (hrun bs) hq (by rw [hrem])
  | case4 quote esc last line c bs hquote hend hbs =>
      obtain rfl := Option.some.inj h
      rw [Bool.not_eq_true] at hquote
      subst hquote
      simp only [endsSection, Bool.or_eq_true, Bool.and_eq_true, decide_eq_true_eq] at hend
      have hone : [line].foldlM nextLine p.remainingBody = nextLine p.remainingBody line := by
        simp
      rw [Outcome, hone]
      rcases hend with ⟨rfl, hlast⟩ | ⟨rfl, rfl⟩
      · exact hp.endCr hlast (hbs.imp_right fun hlf => hlf.2)
      · have hnil : bs = [] := hbs.resolve_right fun hcr => absurd hcr.1 (by decide)
        subst hnil
        exact hp.endLf
  | case5 quote esc last line c bs hquote hend hbs => cases h
  | case6 quote esc last line c bs hquote hend hnew ih =>
      rw [Bool.not_eq_true] at hquote hend
      subst hquote
      obtain ⟨rest, hrest, rfl⟩ := Option.map_eq_some_iff.mp h
      rcases hp.next hend hnew with ⟨hn, hrun⟩ | ⟨n, p₁, hn, hrun, h₁, hq, hrem⟩
      · refine Or.inl ⟨?_, hrun bs⟩
        rw [List.foldlM_cons, hn]
        rfl
      · refine (ih hrest h₁).cons (sectionLines_ne_nil hrest) (hrun bs) hq ?_
        rw [List.foldlM_cons, hn, hrem]
        rfl
  | case7 quote esc last line c bs hquote hend hnew ih =>
      rw [Bool.not_eq_true] at hquote hend hnew
      subst hquote
      obtain ⟨p₁, hrun, h₁, hq, hrem⟩ := hp.outside hend hnew
      exact (ih h h₁).cons (sectionLines_ne_nil h) (hrun bs) hq (by rw [hrem])

/-- **A header section**, read by a parser between two messages. -/
theorem run_section {raws : List (List UInt8)} (h : headerLines bs = some raws) (hp : p.Idle) :
    Outcome 0 p bs raws := by
  cases bs with
  | nil => cases h
  | cons c bs =>
      rw [headerLines] at h
      by_cases hw : White c
      · rw [if_pos hw] at h
        cases h
      · rw [if_neg hw] at h
        obtain ⟨c₁, hrun, hcol, hst⟩ := hp.begin hw bs 0
        have f : Core.Fine { c₁ with lastChr := c } := hcol.fine.congr rfl rfl
        have hin : InLine false false c [c] ⟨{ c₁ with lastChr := c }, [c]⟩ :=
          ⟨f, hcol.heap, hst, fun hbad => absurd hbad Bool.false_ne_true, rfl, rfl⟩
        have hrem : c₁.remainingBody = 0 := hcol.remaining.trans (ite_self _)
        have hout := run_sectionLines h hin
        exact hout.cons (sectionLines_ne_nil h) hrun ⟨hcol.cb, hcol.messages⟩ (by rw [hrem])

end

end OpenWfd.Rtsp
