import OpenWfd.Decoder.Storage
import OpenWfd.Decoder.Sanitize

/-!
# Decoder — Steps

All that a byte can do to the parser, said once: `Takes` has a constructor for each thing that a
byte does, and two for the states that hand it on to another one.  Later invariants are by cases on
it (`step_takes`).  A byte that fails leaves no message behind, at most the line it had cut out.
-/

namespace OpenWfd.Rtsp

/-- A header line is under way. -/
def State.inLine : State → Bool
  | .header | .headerQuote   => true
  | .new | .headerNl | .body => false

/-- What a byte does, before it becomes `last_chr`. -/
inductive Takes : Parser → UInt8 → Parser → Prop where
  /-- White-space before a message. -/
  | blank {p : Parser} {ch : UInt8} (hs : p.state = .new) (hw : White ch) :
      Takes p ch { p with pending := p.pending ++ [ch] }
  /-- The first byte of a message. -/
  | begin {p : Parser} {ch : UInt8} (hs : p.state = .new) (hw : ¬ White ch) :
      Takes p ch { p with
        state := .header, remainingBody := 0, log := p.log ++ [.begin], pending := [ch] }
  /-- One more byte of the line. -/
  | keep {p : Parser} {ch : UInt8} {st : State} {b : Bool} (hs : p.state.inLine = true)
      (hst : st.inLine = true) :
      Takes p ch { p with state := st, quoted := b, pending := p.pending ++ [ch] }
  /-- The line was complete; the byte is the first one of the next line. -/
  | next {p : Parser} {ch : UInt8} {c : Core} {st : State} {b : Bool} (hs : p.state = .header)
      (hcut : p.cut = (.ok (), ⟨c, []⟩)) (hst : st.inLine = true) :
      Takes p ch ⟨{ c with state := st, quoted := b }, [ch]⟩
  /-- An empty line, so far of a CR only. -/
  | endCr {p : Parser} {c : Core} (hs : p.state = .header)
      (hcut : Parser.cut { p with state := .headerNl } = (.ok (), ⟨c, []⟩)) :
      Takes p CR { Parser.doneIfNoBody ⟨c, []⟩ with pending := [CR] }
  /-- An empty line. -/
  | endLf {p : Parser} {c : Core} (hs : p.state = .header) (hcut : p.cut = (.ok (), ⟨c, []⟩)) :
      Takes p LF (Parser.doneIfNoBody
        ⟨{ c with state := if c.remainingBody = 0 then .new else .body }, []⟩)
  /-- The LF of an empty line. -/
  | lf {p : Parser} (hs : p.state = .headerNl) :
      Takes p LF { p with
        pending := [], state := if p.remainingBody = 0 then .new else .body }
  /-- No LF comes: the byte is one of the body. -/
  | skipNl {p p' : Parser} {ch : UInt8} (hs : p.state = .headerNl) (hch : ch ≠ LF)
      (h : Takes { p with pending := [], state := .body } ch p') : Takes p ch p'
  /-- There is no body: the byte comes after the message. -/
  | skipBody {p p' : Parser} {ch : UInt8} (hs : p.state = .body) (hr : p.remainingBody = 0)
      (h : Takes { p with state := .new } ch p') : Takes p ch p'
  /-- A byte of the body. -/
  | body {p : Parser} {ch : UInt8} (hs : p.state = .body) (hr : 2 ≤ p.remainingBody) :
      Takes p ch { p with remainingBody := p.remainingBody - 1, pending := p.pending ++ [ch] }
  /-- The last byte of the body. -/
  | bodyLast {p : Parser} {ch : UInt8} {h : Allocs} (hs : p.state = .body)
      (hr : p.remainingBody = 1) :
      Takes p ch ⟨{ msgDone { p.toCore with
        heap := h
        remainingBody := 0
        msg := { p.msg with
          body := some (p.pending ++ [ch] ++ [NUL])
          bodyLen := (p.pending ++ [ch]).length } } with state := .new }, []⟩

/-- A byte failed: the log has grown by lines at most. -/
def Gives (p p' : Parser) : Prop :=
  ∃ raws : List (List UInt8), p'.log = p.log ++ raws.map Event.line

/-! ### The line that is cut out -/

theorem cut_cases (p : Parser) :
    ∃ h, (p.cut = (.error .ENOMEM, { p with heap := h }) ∧ p.heap ≠ []) ∨
      p.cut = ((finishLine { p.toCore with heap := h } (p.pending ++ [NUL]) p.pending.length).1,
        ⟨(finishLine { p.toCore with heap := h } (p.pending ++ [NUL]) p.pending.length).2,
          []⟩) := by
  unfold Parser.cut
  rcases hn : p.heap.next with ⟨_ | f, h⟩
  · refine ⟨h, Or.inl ⟨rfl, ?_⟩⟩
    intro hnil
    rw [hnil] at hn
    cases hn
  · refine ⟨h, Or.inr ?_⟩
    dsimp only

/-- The line is noted in the log, and the control fields stay as they are. -/
theorem cut_control {p p' : Parser} {r : Except Errno Unit} (hcut : p.cut = (r, p')) :
    p'.cb = p.cb ∧ p'.state = p.state ∧
      (p'.log = p.log ++ [.line p.pending] ∨ (p'.log = p.log ∧ r = .error .ENOMEM)) := by
  obtain ⟨h, ⟨hfail, -⟩ | hfin⟩ := cut_cases p
  · rw [hcut] at hfail
    cases hfail
    exact ⟨rfl, rfl, Or.inr ⟨rfl, rfl⟩⟩
  · rw [hcut] at hfin
    have hcontrol :=
      finishLine_control { p.toCore with heap := h } (p.pending ++ [NUL]) p.pending.length
    generalize finishLine { p.toCore with heap := h } (p.pending ++ [NUL]) p.pending.length = x
      at hfin hcontrol
    obtain ⟨n, hcb, hst, -, -, hlog⟩ := hcontrol
    rw [List.take_left] at hlog
    obtain ⟨-, rfl⟩ := Prod.mk.inj hfin
    exact ⟨hcb, hst, Or.inl hlog⟩

/-- The line was cut out of an array in order. -/
theorem cut_fine {p p' : Parser} {r : Except Errno Unit} (f : p.Fine) (hcut : p.cut = (r, p')) :
    p'.Fine := by
  obtain ⟨h, ⟨hfail, -⟩ | hfin⟩ := cut_cases p
  · rw [hcut] at hfail
    cases hfail
    exact f.congr rfl rfl
  · rw [hcut] at hfin
    obtain ⟨-, rfl⟩ := Prod.mk.inj hfin
    have f' : Core.Fine { p.toCore with heap := h } := f.congr rfl rfl
    exact finishLine_fine f' _ _

/-! ### The end of the header section -/

theorem doneIfNoBody_cases (p : Parser) :
    (p.remainingBody = 0 ∧ p.doneIfNoBody = { p with toCore := msgDone p.toCore }) ∨
      (p.remainingBody ≠ 0 ∧ p.doneIfNoBody = p) := by
  unfold Parser.doneIfNoBody
  split_ifs with hr
  · exact Or.inl ⟨hr, rfl⟩
  · exact Or.inr ⟨hr, rfl⟩

/-! ### Every step -/

variable {p : Parser} {ch : UInt8}

theorem cutThen_takes {k : Parser → Except Errno Unit × Parser} {q : Parser}
    (hq : q.log = p.log)
    (hk : ∀ c, q.cut = (.ok (), ⟨c, []⟩) →
      Reader.Ends (Takes p ch) (Gives p) (k ⟨c, []⟩)) :
    Reader.Ends (Takes p ch) (Gives p) (q.cutThen k) := by
  refine Parser.cutThen_ind (P := Reader.Ends (Takes p ch) (Gives p)) ?_ hk
  intro e p' hcut
  obtain ⟨-, -, hlog | ⟨hlog, -⟩⟩ := cut_control hcut
  · exact ⟨[q.pending], by rw [hlog, hq]; rfl⟩
  · exact ⟨[], by rw [hlog, hq]; exact (List.append_nil _).symm⟩

theorem stepNew_takes (hs : p.state = .new) :
    Reader.Ends (Takes p ch) (Gives p) (p.stepNew ch) := by
  unfold Parser.stepNew
  split_ifs with hw
  · exact Takes.blank hs hw
  · exact Takes.begin hs hw

theorem stepHeader_takes (hs : p.state = .header) :
    Reader.Ends (Takes p ch) (Gives p) (p.stepHeader ch) := by
  have hin : p.state.inLine = true := by rw [hs]; rfl
  have hkeep : Reader.Ends (Takes p ch) (Gives p) (p.keep ch) := Takes.keep (b := p.quoted) hin hin
  unfold Parser.stepHeader
  split_ifs with h₁ h₂ h₃ h₄ h₅ h₆ h₇ h₈
  · subst h₁
    refine cutThen_takes (q := { p with state := .headerNl }) rfl ?_
    intro c hcut
    have ht := Takes.endCr hs hcut
    unfold Parser.keep
    rw [Parser.pending_doneIfNoBody]
    exact ht
  · exact hkeep
  · subst h₃
    exact cutThen_takes rfl fun c hcut => Takes.endLf hs hcut
  · exact hkeep
  · exact cutThen_takes rfl fun c hcut => Takes.next hs hcut rfl
  · exact Takes.keep hin rfl
  · exact hkeep
  · refine cutThen_takes rfl ?_
    intro c hcut
    have hst : c.state = p.state := (cut_control hcut).2.1
    exact @Takes.next p ch c c.state c.quoted hs hcut (by rw [hst]; exact hin)
  · exact hkeep

theorem stepQuote_takes (hs : p.state = .headerQuote) :
    Reader.Ends (Takes p ch) (Gives p) (p.stepQuote ch) := by
  have hin : p.state.inLine = true := by rw [hs]; rfl
  unfold Parser.stepQuote
  split_ifs
  · exact @Takes.keep p ch p.state _ hin hin
  · exact Takes.keep hin rfl
  · exact @Takes.keep p ch p.state _ hin hin

theorem stepBody_takes (hs : p.state = .body) :
    Reader.Ends (Takes p ch) (Gives p) (p.stepBody ch) := by
  unfold Parser.stepBody
  split_ifs with h₀ h₁
  · have hnew : Reader.Ends (Takes { p with state := .new } ch) (Gives { p with state := .new })
        (Parser.stepNew { p with state := .new } ch) := stepNew_takes rfl
    rcases hr : Parser.stepNew { p with state := .new } ch with ⟨e | _, p'⟩ <;> rw [hr] at hnew
    · exact hnew
    · exact Takes.skipBody hs h₀ hnew
  · rcases p.heap.next with ⟨_ | f, h⟩
    · exact ⟨[], (List.append_nil _).symm⟩
    · exact Takes.bodyLast hs h₁
  · exact Takes.body hs (by omega)

/-- **One byte** of any state. -/
theorem step_takes (p : Parser) (ch : UInt8) :
    Reader.Ends (Takes p ch) (Gives p) (p.step ch) := by
  unfold Parser.step
  cases hs : p.state with
  | new => exact stepNew_takes hs
  | header => exact stepHeader_takes hs
  | headerQuote => exact stepQuote_takes hs
  | body => exact stepBody_takes hs
  | headerNl =>
      unfold Parser.stepNl
      by_cases hch : ch = LF
      · rw [if_pos hch]
        subst hch
        exact Takes.lf hs
      · rw [if_neg hch]
        have hbody : Reader.Ends (Takes { p with pending := [], state := .body } ch)
            (Gives { p with pending := [], state := .body })
            (Parser.stepBody { p with pending := [], state := .body } ch) := stepBody_takes rfl
        rcases hr : Parser.stepBody { p with pending := [], state := .body } ch with
          ⟨e | _, p'⟩ <;> rw [hr] at hbody
        · exact hbody
        · exact Takes.skipNl hs hch hbody

end OpenWfd.Rtsp
