import OpenWfd.Decoder.Sections

/-!
# Decoder — Scan

What a text alone tells of a decoder that reads it: a `Scan` follows a stream of messages byte by
byte, through header lines, empty lines and bodies, by the rules of `sectionLines` and with
`nextLine` for what a line announces.  It has no buffer, no arrays and no memory that could run out;
of the lines it takes it remembers only that there was one (`kept`).

`run_scan`: as long as the parser fails at no byte, the scan is at the same place and is right about
the lines kept.  So the text tells whether a decoder that gives up a message restarts clean: exactly
when the scan keeps no line where the decoder stopped reading (`hear_after_flush`).
-/

namespace OpenWfd.Rtsp

/-- Where a byte stands in a stream.  A header line goes on inside quotes or not, behind a backslash
there or not; `text` was read of it, and `last` is its last byte.  The number is that of the body
bytes to come. -/
inductive Scan.Place where
  | between
  | line (quote esc : Bool) (last : UInt8) (text : List UInt8) (length : Nat)
  | emptyLine (length : Nat)
  | body (length : Nat)
  deriving DecidableEq, Repr

/-- A place, and whether a header line is kept of the message under way. -/
@[ext] structure Scan where
  place : Scan.Place
  kept : Bool
  deriving DecidableEq, Repr

namespace Scan

variable {kept esc : Bool} {last c : UInt8} {text : List UInt8} {n m : Nat}

/-- A byte between two messages. -/
def outside (kept : Bool) (c : UInt8) : Scan :=
  if White c then ⟨.between, kept⟩ else ⟨.line false false c [c] 0, kept⟩

/-- A byte of a body, of which `n` bytes are to come. -/
def inside (kept : Bool) (n : Nat) (c : UInt8) : Scan :=
  if n = 0 then outside kept c
  else if n = 1 then ⟨.between, false⟩
  else ⟨.body (n - 1), kept⟩

/-- The header section ends at `c`, with `n` body bytes to come; without a body so does the
message. -/
def ended (n : Nat) (c : UInt8) : Scan :=
  ⟨if c = CR then .emptyLine n else if n = 0 then .between else .body n, n ≠ 0⟩

/-- One more byte. -/
def next (s : Scan) (c : UInt8) : Scan :=
  match s.place with
  | .between     => outside s.kept c
  | .emptyLine n => if c = LF then ⟨if n = 0 then .between else .body n, s.kept⟩
      else inside s.kept n c
  | .body n      => inside s.kept n c
  | .line quote esc last text n =>
    if quote then
      if last = BS ∧ !esc then ⟨.line true true c (text ++ [c]) n, s.kept⟩
      else ⟨.line (c ≠ DQ) false c (text ++ [c]) n, s.kept⟩
    else if endsSection last c then
      match nextLine n text with
      | some n => ended n c
      | none   => ⟨.between, s.kept⟩
    else if beginsLine last c then
      match nextLine n text with
      | some n => ⟨.line (c = DQ) false c [c] n, true⟩
      | none   => ⟨.between, s.kept⟩
    else
      ⟨.line (c = DQ) false c (text ++ [c]) n, s.kept⟩

/-- Outside quotes, a byte that ends neither the section nor the line. -/
theorem next_stays (hend : endsSection last c = false) (hnew : beginsLine last c = false) :
    next ⟨.line false esc last text n, kept⟩ c =
      ⟨.line (c = DQ) false c (text ++ [c]) n, kept⟩ := by
  simp only [next, hend, hnew, Bool.false_eq_true, if_false]

/-- A byte that begins the next line, after one that is taken. -/
theorem next_begins (hend : endsSection last c = false) (hnew : beginsLine last c = true)
    (h : nextLine n text = some m) :
    next ⟨.line false esc last text n, kept⟩ c = ⟨.line (c = DQ) false c [c] m, true⟩ := by
  simp only [next, hend, hnew, h, Bool.false_eq_true, if_false, if_true]

/-- A byte that ends the section, after a line that is taken. -/
theorem next_ends (hend : endsSection last c = true) (h : nextLine n text = some m) :
    next ⟨.line false esc last text n, kept⟩ c = ended m c := by
  simp only [next, hend, h, Bool.false_eq_true, if_false, if_true]

/-- A text. -/
def along (s : Scan) (bs : List UInt8) : Scan := bs.foldl next s

end Scan

/-- Where a decoder stands that holds the bytes `pending`. -/
def Core.scan (c : Core) (pending : List UInt8) : Scan where
  place :=
    match c.state with
    | .new         => .between
    | .header      => .line false false c.lastChr pending c.remainingBody
    | .headerQuote => .line true c.quoted c.lastChr pending c.remainingBody
    | .headerNl    => .emptyLine c.remainingBody
    | .body        => .body c.remainingBody
  kept := c.msg.headerNum ≠ 0

def Decoder.scan (d : Decoder) : Scan := d.toCore.scan d.ring.contents

/-! ### Lines -/

/-- **`finish_header_line`**, whatever the allocator does: the line is taken and kept, or nothing is
added to the lines. -/
theorem finishLine_spec {c c' : Core} {r : Except Errno Unit} {raw : List UInt8} (f : c.Fine)
    (h : finishLine c (raw ++ [NUL]) raw.length = (r, c')) :
    c'.Fine ∧
      ((∃ e, r = .error e ∧ c'.msg.headerNum = c.msg.headerNum) ∨
        (r = .ok () ∧ nextLine c.remainingBody raw = some c'.remainingBody ∧
          c'.msg.headerNum = c.msg.headerNum + 1)) := by
  have hfine : c'.Fine := by
    have hf := finishLine_fine f (raw ++ [NUL]) raw.length
    rwa [h] at hf
  refine ⟨hfine, ?_⟩
  rw [← hfine.length_lines, ← f.length_lines]
  have hparse := parseHeaderLine_at c.remainingBody raw
  rcases hs : sanitizeHeaderLine (raw ++ [NUL]) raw.length with ⟨block, l⟩
  rw [headerText, hs] at hparse
  cases hn : nextLine c.remainingBody raw with
  | none =>
      simp only [hn] at hparse
      rw [finishLine_error hs hparse rfl] at h
      obtain ⟨rfl, rfl⟩ := Prod.mk.inj h
      exact Or.inl ⟨_, rfl, rfl⟩
  | some n =>
      simp only [hn] at hparse
      rw [finishLine_ok hs hparse rfl] at h
      obtain ⟨-, -, hrem, ⟨rfl, hlines, -⟩ | ⟨rfl, hlines⟩⟩ := pushHeaderLine_spec (f.parsed _ n) h
      · exact Or.inl ⟨_, rfl, congrArg List.length hlines⟩
      · refine Or.inr ⟨rfl, congrArg some hrem.symm, ?_⟩
        rw [hlines, List.length_append]
        rfl

/-- The pending line is cut out: it is taken and kept, or nothing is added to the lines. -/
theorem cut_spec {p q : Parser} {r : Except Errno Unit} (f : p.Fine) (hcut : p.cut = (r, q)) :
    q.Fine ∧ q.state = p.state ∧
      ((∃ e, r = .error e ∧ q.msg.headerNum = p.msg.headerNum) ∨
        (r = .ok () ∧ nextLine p.remainingBody p.pending = some q.remainingBody ∧
          q.msg.headerNum = p.msg.headerNum + 1)) := by
  refine ⟨cut_fine f hcut, (cut_control hcut).2.1, ?_⟩
  obtain ⟨h, ⟨hfail, -⟩ | hfin⟩ := cut_cases p
  · rw [hcut] at hfail
    obtain ⟨rfl, rfl⟩ := Prod.mk.inj hfail
    exact Or.inl ⟨_, rfl, rfl⟩
  · rw [hcut] at hfin
    have f' : Core.Fine { p.toCore with heap := h } := f.congr rfl rfl
    obtain ⟨rfl, rfl⟩ := Prod.mk.inj hfin
    exact (finishLine_spec f' rfl).2

/-- The pending line is cut out and something follows: nothing is added to the lines and that is
all, or the line was taken. -/
theorem cutThen_spec {p q : Parser} {r : Except Errno Unit}
    {k : Parser → Except Errno Unit × Parser} (f : p.Fine) (h : p.cutThen k = (r, q)) :
    (∃ e, r = .error e ∧ q.msg.headerNum = p.msg.headerNum) ∨
      ∃ c, k ⟨c, []⟩ = (r, q) ∧ c.Fine ∧ c.state = p.state ∧
        nextLine p.remainingBody p.pending = some c.remainingBody ∧ c.msg.headerNum ≠ 0 := by
  revert h
  refine Parser.cutThen_ind (P := fun x => x = (r, q) → _) ?_ ?_
  · rintro e p' hcut ⟨⟩
    obtain ⟨-, -, ⟨e', he, hnum⟩ | ⟨hok, -⟩⟩ := cut_spec f hcut
    · exact Or.inl ⟨e, rfl, hnum⟩
    · cases hok
  · intro c hcut hk
    obtain ⟨hc, hst, ⟨e', he, -⟩ | ⟨-, hnext, hnum⟩⟩ := cut_spec f hcut
    · cases he
    · refine Or.inr ⟨c, hk, hc, hst, hnext, ?_⟩
      rw [show c.msg.headerNum = p.msg.headerNum + 1 from hnum]
      exact Nat.succ_ne_zero _

/-! ### One byte -/

namespace Parser

/-- The byte `ch` was read by `p`: the scan is right about what `p` has become, or the byte failed
and the number of lines kept is what it was. -/
def Scanned (p : Parser) (ch : UInt8) : Except Errno Unit × Parser → Prop
  | (.ok (), q)   => q.Fine ∧ Core.scan { q.toCore with lastChr := ch } q.pending =
      (p.toCore.scan p.pending).next ch
  | (.error _, q) => q.msg.headerNum = p.msg.headerNum

variable {p : Parser} {ch : UInt8}

theorem scanned_new (f : p.Fine) (hs : p.state = .new) : p.Scanned ch (p.stepNew ch) := by
  unfold stepNew
  split_ifs with hw
  · refine ⟨f, ?_⟩
    simp only [Core.scan, hs, Scan.next, Scan.outside, White, if_pos hw]
  · refine ⟨f.congr rfl rfl, ?_⟩
    simp only [Core.scan, hs, Scan.next, Scan.outside, White, if_neg hw]

theorem scanned_quote (f : p.Fine) (hs : p.state = .headerQuote) :
    p.Scanned ch (p.stepQuote ch) := by
  unfold stepQuote
  split_ifs with hesc hq
  · refine ⟨f.congr rfl rfl, ?_⟩
    simp only [Core.scan, hs, Scan.next, if_pos hesc]
    rfl
  · refine ⟨f.congr rfl rfl, ?_⟩
    simp only [Core.scan, hs, Scan.next, if_neg hesc, hq]
    rfl
  · refine ⟨f.congr rfl rfl, ?_⟩
    simp only [Core.scan, hs, Scan.next, if_neg hesc, if_true, ne_eq, hq, not_false_eq_true,
      decide_true]

theorem scanned_body (f : p.Fine) (hs : p.state = .body) : p.Scanned ch (p.stepBody ch) := by
  unfold stepBody
  split_ifs with h₀ h₁
  · have hnew : Scanned { p with state := .new } ch (stepNew { p with state := .new } ch) :=
      scanned_new (f.congr rfl rfl) rfl
    unfold Scanned at hnew ⊢
    simp only [Core.scan, hs, Scan.next, Scan.inside, if_pos h₀] at hnew ⊢
    exact hnew
  · rcases p.heap.next with ⟨_ | g, h⟩
    · exact rfl
    · have hdone : Core.Fine (msgDone { p.toCore with
          heap := h
          remainingBody := 0
          msg := { p.msg with
            body := some (p.pending ++ [ch] ++ [NUL])
            bodyLen := (p.pending ++ [ch]).length } }) :=
        msgDone_fine (c := { p.toCore with heap := h, remainingBody := 0 }) (f.congr rfl rfl) _ _
      refine ⟨hdone.congr rfl rfl, ?_⟩
      simp only [Core.scan, hs, Scan.next, Scan.inside, if_neg h₀, if_pos h₁]
      rfl
  · refine ⟨f.congr rfl rfl, ?_⟩
    simp only [Core.scan, hs, Scan.next, Scan.inside, if_neg h₀, if_neg h₁]

theorem scanned_nl (f : p.Fine) (hs : p.state = .headerNl) : p.Scanned ch (p.stepNl ch) := by
  unfold stepNl
  by_cases hch : ch = LF
  · rw [if_pos hch]
    refine ⟨f.congr rfl rfl, ?_⟩
    simp only [Core.scan, hs, Scan.next, if_pos hch]
    split_ifs <;> rfl
  · rw [if_neg hch]
    have hbody : Scanned { p with pending := [], state := .body } ch
        (stepBody { p with pending := [], state := .body } ch) :=
      scanned_body (f.congr rfl rfl) rfl
    unfold Scanned at hbody ⊢
    simp only [Core.scan, hs, Scan.next, if_neg hch] at hbody ⊢
    exact hbody

/-- A line is cut out in a header. -/
theorem scanned_cutThen (f : p.Fine) (st : State) {k : Parser → Except Errno Unit × Parser}
    (hk : ∀ c : Core, c.Fine → c.state = st →
      nextLine p.remainingBody p.pending = some c.remainingBody → c.msg.headerNum ≠ 0 →
      p.Scanned ch (k ⟨c, []⟩)) :
    p.Scanned ch (cutThen { p with state := st } k) := by
  have f' : Core.Fine { p.toCore with state := st } := f.congr rfl rfl
  rcases hcut : cutThen { p with state := st } k with ⟨r, q⟩
  rcases cutThen_spec f' hcut with ⟨e, rfl, hnum⟩ | ⟨c, hc, hfine, hst, hnext, hnum⟩
  · exact hnum
  · rw [← hc]
    exact hk c hfine hst hnext hnum

/-- The end of a header section. -/
theorem scanned_ended {c : Core} (f : c.Fine) (hnum : c.msg.headerNum ≠ 0) {st : State}
    (hst : st = if ch = CR then .headerNl else if c.remainingBody = 0 then .new else .body)
    (pending : List UInt8) :
    Core.Fine (doneIfNoBody ⟨{ c with state := st }, []⟩).toCore ∧
      Core.scan { (doneIfNoBody ⟨{ c with state := st }, []⟩).toCore with lastChr := ch } pending =
        Scan.ended c.remainingBody ch := by
  have hplace : ∀ c' : Core, c'.state = st → c'.remainingBody = c.remainingBody →
      (Core.scan { c' with lastChr := ch } pending).place =
      (Scan.ended c.remainingBody ch).place := by
    intro c' hst' hrem
    simp only [Core.scan, Scan.ended, hst', hrem, hst]
    split_ifs <;> rfl
  rcases doneIfNoBody_cases ⟨{ c with state := st }, []⟩ with ⟨hr, heq⟩ | ⟨hr, heq⟩ <;> rw [heq]
  · have hr : c.remainingBody = 0 := hr
    have f₁ : Core.Fine { c with state := st } := f.congr rfl rfl
    refine ⟨msgDone_fine f₁ c.msg.body c.msg.bodyLen, ?_⟩
    have hp := hplace (msgDone { c with state := st }) rfl rfl
    refine Scan.ext hp ?_
    simp [Core.scan, Scan.ended, msgDone, hr]
  · have hr : c.remainingBody ≠ 0 := hr
    refine ⟨f.congr rfl rfl, Scan.ext (hplace _ rfl rfl) ?_⟩
    simp [Core.scan, Scan.ended, hnum, hr]

/-- Outside quotes, a byte that ends neither the section nor the line. -/
theorem scanned_stays (f : p.Fine) (hs : p.state = .header)
    (hend : endsSection p.lastChr ch = false) (hnew : beginsLine p.lastChr ch = false) {st : State}
    {b : Bool} (hst : st = .headerQuote ∧ b = false ∧ ch = DQ ∨ st = .header ∧ ch ≠ DQ) :
    p.Scanned ch (keep { p with state := st, quoted := b } ch) := by
  refine ⟨f.congr rfl rfl, ?_⟩
  simp only [Core.scan, hs, Scan.next_stays hend hnew]
  rcases hst with ⟨rfl, rfl, rfl⟩ | ⟨rfl, hq⟩
  · rfl
  · simp only [hq, decide_false]

/-- A byte that begins the next line. -/
theorem scanned_begins (f : p.Fine) (hs : p.state = .header)
    (hend : endsSection p.lastChr ch = false) (hnew : beginsLine p.lastChr ch = true)
    {k : Parser → Except Errno Unit × Parser}
    (hk : ∀ c : Core, c.state = .header → ∃ st b, k ⟨c, []⟩ =
      keep ⟨{ c with state := st, quoted := b }, []⟩ ch ∧
        (st = .headerQuote ∧ b = false ∧ ch = DQ ∨ st = .header ∧ ch ≠ DQ)) :
    p.Scanned ch (p.cutThen k) := by
  refine scanned_cutThen f p.state fun c hfine hst hnext hnum => ?_
  obtain ⟨st, b, heq, hcase⟩ := hk c (hst.trans hs)
  rw [heq]
  refine ⟨hfine.congr rfl rfl, ?_⟩
  simp only [Core.scan, hs, Scan.next_begins hend hnew hnext, hnum, ne_eq, not_false_eq_true,
    decide_true]
  rcases hcase with ⟨rfl, rfl, rfl⟩ | ⟨rfl, hq⟩
  · rfl
  · simp only [hq, decide_false]
    rfl

/-- A byte that ends the section. -/
theorem scanned_ends (f : p.Fine) (hs : p.state = .header) (hend : endsSection p.lastChr ch = true)
    (st : State) {k : Parser → Except Errno Unit × Parser}
    (hk : ∀ c : Core, c.state = st → ∃ st' pending, k ⟨c, []⟩ =
      (.ok (), { doneIfNoBody ⟨{ c with state := st' }, []⟩ with pending := pending }) ∧
        st' = if ch = CR then .headerNl else if c.remainingBody = 0 then .new else .body) :
    p.Scanned ch (cutThen { p with state := st } k) := by
  refine scanned_cutThen f st fun c hfine hst hnext hnum => ?_
  obtain ⟨st', pending, heq, hcase⟩ := hk c hst
  rw [heq]
  obtain ⟨hfine', hscan⟩ := scanned_ended hfine hnum hcase pending
  refine ⟨hfine', ?_⟩
  simp only [Core.scan, hs, Scan.next_ends hend hnext] at hscan ⊢
  exact hscan

theorem scanned_header (f : p.Fine) (hs : p.state = .header) :
    p.Scanned ch (p.stepHeader ch) := by
  have hkeep : endsSection p.lastChr ch = false → beginsLine p.lastChr ch = false → ch ≠ DQ →
      p.Scanned ch (p.keep ch) := fun hend hnew hq =>
    @scanned_stays p ch f hs hend hnew p.state p.quoted (Or.inr ⟨hs, hq⟩)
  unfold stepHeader
  by_cases hcr : ch = CR
  · subst hcr
    rw [if_pos rfl]
    by_cases hlast : p.lastChr = CR ∨ p.lastChr = LF
    · rw [if_pos hlast]
      refine scanned_ends f hs (by simp [endsSection, hlast]) .headerNl fun c hst => ?_
      refine ⟨.headerNl, [CR], ?_, rfl⟩
      rw [keep, pending_doneIfNoBody, ← hst]
      rfl
    · rw [if_neg hlast]
      exact hkeep (by simp_all [endsSection]) (by simp_all [beginsLine]) (by decide)
  rw [if_neg hcr]
  by_cases hlf : ch = LF
  · subst hlf
    rw [if_pos rfl]
    by_cases hlast : p.lastChr = LF
    · rw [if_pos hlast]
      exact scanned_ends f hs (by simp [endsSection, hlast]) p.state fun c _ =>
        ⟨if c.remainingBody = 0 then .new else .body, _, rfl, rfl⟩
    · rw [if_neg hlast]
      exact hkeep (by simp [endsSection, hlast, hcr]) (by simp [beginsLine, White]) (by decide)
  rw [if_neg hlf]
  have hend : endsSection p.lastChr ch = false := by simp [endsSection, hcr, hlf]
  by_cases hdq : ch = DQ
  · subst hdq
    rw [if_pos rfl]
    by_cases hlast : p.lastChr = CR ∨ p.lastChr = LF
    · rw [if_pos hlast]
      have hnew : beginsLine p.lastChr DQ = true := by
        rcases hlast with h | h <;> rw [h] <;> decide
      exact scanned_begins f hs hend hnew fun c _ =>
        ⟨.headerQuote, false, rfl, Or.inl ⟨rfl, rfl, rfl⟩⟩
    · rw [if_neg hlast]
      exact scanned_stays f hs hend (by simp_all [beginsLine]) (Or.inl ⟨rfl, rfl, rfl⟩)
  rw [if_neg hdq]
  by_cases hblank : ch = TAB ∨ ch = SP
  · rw [if_pos hblank]
    exact hkeep hend (by rcases hblank with rfl | rfl <;> simp [beginsLine, White]) hdq
  rw [if_neg hblank]
  by_cases hlast : p.lastChr = CR ∨ p.lastChr = LF
  · rw [if_pos hlast]
    refine scanned_begins f hs hend (by simp_all [beginsLine, White]) fun c hst => ?_
    exact ⟨c.state, c.quoted, rfl, Or.inr ⟨hst, hdq⟩⟩
  · rw [if_neg hlast]
    exact hkeep hend (by simp_all [beginsLine]) hdq

/-- **One byte.** -/
theorem scanned_step (f : p.Fine) : p.Scanned ch (p.step ch) := by
  unfold step
  cases hs : p.state with
  | new => exact scanned_new f hs
  | header => exact scanned_header f hs
  | headerQuote => exact scanned_quote f hs
  | headerNl => exact scanned_nl f hs
  | body => exact scanned_body f hs

/-- A byte that fails adds nothing to the lines. -/
theorem reader_error {q : Parser} {e : Errno} (f : p.Fine)
    (h : reader.step p ch = (.error e, q)) : q.msg.headerNum = p.msg.headerNum := by
  have hs : p.Scanned ch (p.step ch) := scanned_step f
  simp only [reader] at h
  rcases hp : p.step ch with ⟨e' | _, p'⟩ <;> rw [hp] at hs h <;> cases h
  exact hs

/-- **A text** that the parser reads to its end. -/
theorem run_scan {q : Parser} (f : p.Fine) {bs : List UInt8} (h : p.run bs = (.ok (), q)) :
    q.Fine ∧ q.toCore.scan q.pending = (p.toCore.scan p.pending).along bs := by
  induction bs generalizing p with
  | nil =>
      cases h
      exact ⟨f, rfl⟩
  | cons ch bs ih =>
      have hs : p.Scanned ch (p.step ch) := scanned_step f
      rcases hp : p.step ch with ⟨e | _, p'⟩ <;> rw [hp] at hs
      · rw [run_cons_error hp] at h
        cases h
      · rw [run_cons hp] at h
        have f' : Core.Fine { p'.toCore with lastChr := ch } := hs.1.congr rfl rfl
        obtain ⟨hq, hscan⟩ := ih f' h
        refine ⟨hq, ?_⟩
        rw [hscan, Scan.along, Scan.along, List.foldl_cons, ← hs.2]

end Parser

/-! ### Restarting clean -/

/-- The call gives up the message under way, having read `text` of its chunk: it is
`owfd_rtsp_decoder_flush`, or a feed in which the byte behind `text` fails to parse. -/
inductive Abandons (d : Decoder) : Call → List UInt8 → Prop where
  | flush : Abandons d .flush []
  | feed {buf : Buffer} {heap h : Allocs} {ring : ShlRing} {e : Errno} {text rest : List UInt8}
      {ch : UInt8} {s s₁ : Decoder × Nat} (hsplit : buf.1 = text ++ ch :: rest)
      (hpush : d.ring.push buf heap = (.ok (), ring, h))
      (hread : feedRound.run ({ d with ring := ring, heap := h }, d.ring.length) text = (.ok (), s))
      (hfail : feedRound.step s ch = (.error e, s₁)) : Abandons d (.feed buf heap) text

/-- Decoder and parser read the first part of a chunk in lockstep. -/
theorem text_follows {s : Decoder × Nat} {p : Parser} {text rest : List UInt8}
    (h : Holds (text ++ rest) s p) :
    Reader.Agree (Holds rest) Fell (feedRound.run s text) (Parser.reader.run p text) :=
  Reader.run_agree (R := fun as => Holds (as ++ rest))
    (fun s p b as hs => feedRound_follows s p b (as ++ rest) hs) h

section

variable {d : Decoder} {c : Call} {text : List UInt8}

/-- A feed that fails gives up a message, unless the ring does not take the chunk. -/
theorem abandons_of_error {buf : Buffer} {heap h : Allocs} {ring : ShlRing} {e : Errno}
    (hpush : d.ring.push buf heap = (.ok (), ring, h))
    (he : (d.call (.feed buf heap)).1 = .error e) : ∃ text, Abandons d (.feed buf heap) text := by
  rcases hrun : feedRound.run ({ d with ring := ring, heap := h }, d.ring.length) buf.1 with
    ⟨e' | _, s⟩
  · obtain ⟨text, ch, rest, s', hsplit, hread, hfail⟩ := Reader.run_error hrun
    exact ⟨text, .feed hsplit hpush hread hfail⟩
  · simp only [Decoder.call, Rtsp.feed, hpush, hrun] at he
    cases he

/-- **What a call that gives up a message leaves**: a flushed decoder, with the lines that a scan of
the text keeps. -/
theorem Abandons.spec (hd : d.Sound) (a : Abandons d c text) :
    ∃ d₁ : Decoder, (d.call c).2 = Rtsp.flush d₁ ∧ d₁.Sound ∧
      (d₁.msg.headerNum = 0 ↔ (d.scan.along text).kept = false) := by
  cases a with
  | flush => exact ⟨d, rfl, hd, by simp [Scan.along, Decoder.scan, Core.scan]⟩
  | @feed buf heap h ring e _ rest ch s s₁ hsplit hpush hread hfail =>
      have hrun := Reader.run_append_ok hread (ch :: rest)
      rw [← hsplit, Reader.run_cons_error hfail] at hrun
      refine ⟨s₁.1, by simp only [Decoder.call, Rtsp.feed, hpush, hrun], ?_⟩
      rcases ShlRing.push_spec hd.1 buf.2 hpush with ⟨hbad, -⟩ | ⟨-, w, hc⟩
      · cases hbad
      have f : Core.Fine { d.toCore with heap := h } := hd.2.1.congr rfl rfl
      -- the parser reads the text as well, and fails at the same byte
      have hag := @text_follows ({ d with ring := ring, heap := h }, d.ring.length)
        { d.parser with heap := h } text (ch :: rest)
        ⟨rfl, w, hsplit ▸ hc, (ShlRing.length_contents hd.1).symm⟩
      rw [hread] at hag
      rcases hp : Parser.reader.run { d.parser with heap := h } text with ⟨_ | _, p⟩ <;>
        rw [hp] at hag
      · exact hag.elim
      obtain ⟨hfine, hscan⟩ := Parser.run_scan f hp
      have hstep := feedRound_follows s p ch rest hag
      rw [hfail] at hstep
      rcases hq : Parser.reader.step p ch with ⟨_ | _, q⟩ <;> rw [hq] at hstep
      · obtain ⟨-, hcore, w₁⟩ := hstep
        have hsound : q.Sound := by
          have hr := run_sound (p := { d.parser with heap := h }) ⟨f, hd.2.2⟩ (text ++ [ch])
          rw [Parser.run, Reader.run_append_ok hp, Reader.run_cons_error hq] at hr
          exact hr
        refine ⟨⟨w₁, hcore ▸ hsound⟩, ?_⟩
        have hkept : decide (p.msg.headerNum ≠ 0) = (d.scan.along text).kept :=
          congrArg Scan.kept hscan
        rw [hcore, Parser.reader_error hfine hq, ← hkept]
        simp
      · exact hstep.elim

/-- **Restart.**  In any history a call gives up the message under way.  What is delivered for the
chunks fed afterwards is what a fresh decoder delivers for them, whatever they are, if and only if
the text that the call read, from where the decoder stood before it, leaves no header line kept. -/
theorem hear_after_flush {ls : List (Call × Except Errno Unit)}
    (h : decoderLts.Run (Decoder.fresh true) ls d) (a : Abandons d c text) :
    (∀ chunks : List Buffer, hear (d.call c).2 chunks = hear (Decoder.fresh true) chunks) ↔
      (d.scan.along text).kept = false := by
  obtain ⟨d₁, heq, hd, hkept⟩ := a.spec (reachable_sound h)
  rw [heq, ← hkept]
  constructor
  · intro hsame
    have hprobe := hear_probe hd.flush rfl (ShlRing.contents_flush _)
    have hfresh := hear_probe sound_fresh rfl (by simp [Decoder.fresh])
    rw [hsame [probe], hfresh] at hprobe
    have hnum := List.singleton_inj.mp hprobe
    exact (Nat.succ.inj hnum).symm
  · intro hnum chunks
    exact feeds_like chunks hd.flush.1 ShlRing.wf_zeroed (flush_like hd hnum)

/-- A chunk that is read up to a byte that fails, the allocations succeeding. -/
theorem abandons_feed (hd : d.Sound) {buf : Buffer}
    (hroom : d.ring.contents.length + buf.1.length < 2 ^ 63) {rest : List UInt8} {ch : UInt8}
    (hsplit : buf.1 = text ++ ch :: rest) {p q : Parser} {e : Errno}
    (hread : Parser.run { d.parser with heap := [] } text = (.ok (), p))
    (hfail : Parser.reader.step p ch = (.error e, q)) : Abandons d (.feed buf []) text := by
  rcases hpush : d.ring.push buf [] with ⟨_ | _, ring, h⟩
  · rcases ShlRing.push_spec hd.1 buf.2 hpush with ⟨-, -, hbig⟩ | ⟨hbad, -⟩
    · have := hbig rfl
      omega
    · cases hbad
  rcases ShlRing.push_spec hd.1 buf.2 hpush with ⟨hbad, -⟩ | ⟨-, w, hc⟩
  · cases hbad
  obtain rfl := ShlRing.push_nil hpush
  have hag := @text_follows ({ d with ring := ring, heap := [] }, d.ring.length)
    { d.parser with heap := [] } text (ch :: rest)
    ⟨rfl, w, hsplit ▸ hc, (ShlRing.length_contents hd.1).symm⟩
  unfold Parser.run at hread
  rw [hread] at hag
  rcases hs : feedRound.run ({ d with ring := ring, heap := [] }, d.ring.length) text with
    ⟨_ | _, s⟩ <;> rw [hs] at hag
  · exact hag.elim
  have hstep := feedRound_follows s p ch rest hag
  rw [hfail] at hstep
  rcases hs₁ : feedRound.step s ch with ⟨f | _, s₁⟩ <;> rw [hs₁] at hstep
  · exact .feed hsplit hpush hs hs₁
  · exact hstep.elim

/-- Behind the first byte of a message comes a flush, or a chunk that ends the message and fails in
the first line of another one. -/
theorem hear_after_flush_first : ∃ d,
    decoderLts.Run (Decoder.fresh true) [(.feed ⟨str "b", by decide⟩ [], .ok ())] d ∧
      d.state = .header ∧
      (∀ chunks : List Buffer,
        hear (d.call .flush).2 chunks = hear (Decoder.fresh true) chunks) ∧
      ∀ chunks : List Buffer,
        hear (d.call (.feed ⟨str ": 1\n\ncontent-length: x\n\n", by decide⟩ [])).2 chunks =
          hear (Decoder.fresh true) chunks := by
  have hrun := run_feed (d := Decoder.fresh true) rfl ⟨str "b", by decide⟩
  obtain ⟨hok, hparser⟩ := feed_empty (d := Decoder.fresh true) ShlRing.wf_zeroed rfl
    (by simp [Decoder.fresh]) ⟨str "b", by decide⟩
  rw [show (Parser.feed ⟨(Decoder.fresh true).toCore, []⟩ (str "b")).1 = .ok () by decide] at hok
  rw [hok] at hrun
  generalize (feed (Decoder.fresh true) (str "b")).2 = d at hrun hparser
  have hd := reachable_sound hrun
  have hscan : d.scan = Core.scan _ _ :=
    congrArg (fun p : Parser => p.toCore.scan p.pending) hparser
  refine ⟨d, hrun, ?_, ?_, ?_⟩
  · rw [show d.state = _ from congrArg (fun p : Parser => p.state) hparser]
    decide
  · exact (hear_after_flush hrun .flush).mpr (by rw [hscan]; decide)
  · have hroom : d.ring.contents.length = 1 := by
      rw [show d.ring.contents = _ from congrArg Parser.pending hparser]
      decide
    have habandons : Abandons d (.feed ⟨str ": 1\n\ncontent-length: x\n\n", by decide⟩ [])
        (str ": 1\n\ncontent-length: x\n") := by
      refine @abandons_feed d _ hd ⟨str ": 1\n\ncontent-length: x\n\n", by decide⟩
        (by rw [hroom]; decide) [] LF rfl _ _ .EINVAL
        (Prod.ext (?_ : _ = Except.ok ()) rfl) (Prod.ext (?_ : _ = Except.error Errno.EINVAL) rfl)
      · rw [hparser]
        decide
      · rw [hparser]
        decide
    exact (hear_after_flush hrun habandons).mpr (by rw [hscan]; decide)

/-- The line `a: 1` was stored when the decoder was flushed: it is delivered in front of the line of
the next message. -/
theorem hear_after_flush_leak :
    ¬ ∀ (d : Decoder) (ls : List (Call × Except Errno Unit)) (c : Call) (text : List UInt8),
      decoderLts.Run (Decoder.fresh true) ls d → Abandons d c text →
        ∀ chunks : List Buffer, hear (d.call c).2 chunks = hear (Decoder.fresh true) chunks := by
  intro hall
  have hrun := run_feed (d := Decoder.fresh true) rfl ⟨str "a: 1\r\nb", by decide⟩
  rcases hf : feed (Decoder.fresh true) (str "a: 1\r\nb") with ⟨r, d⟩
  rw [hf] at hrun
  have hd := reachable_sound hrun
  have hempty : (Decoder.fresh true).ring.contents = [] := by simp [Decoder.fresh]
  have hprobe := hear_probe hd.flush rfl (ShlRing.contents_flush d.ring)
  have hfresh := hear_probe sound_fresh rfl hempty
  have hsame : hear (flush d) [probe] = hear (Decoder.fresh true) [probe] :=
    hall d _ .flush [] hrun .flush [probe]
  rw [hsame, hfresh] at hprobe
  have hnum : d.msg.headerNum = 0 := (Nat.succ.inj (List.singleton_inj.mp hprobe)).symm
  have hstored : (Parser.feed ⟨(Decoder.fresh true).toCore, []⟩
      (str "a: 1\r\nb")).2.msg.headerNum = 1 := by decide
  have hfeed := (feed_empty ShlRing.wf_zeroed rfl hempty ⟨str "a: 1\r\nb", by decide⟩).2
  rw [← hfeed, hf] at hstored
  exact absurd (hstored.symm.trans hnum) (by decide)

end

end OpenWfd.Rtsp
