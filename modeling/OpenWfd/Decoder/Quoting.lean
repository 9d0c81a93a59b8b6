import OpenWfd.Decoder.Restart
import OpenWfd.Decoder.Sanitize
import OpenWfd.Decoder.Steps

/-!
# Decoder — Quoting

Two automata follow quoted strings: `feed_char_header` and `feed_char_header_quote` to find the end
of a header line, and `sanitize_header_line` over the line they cut out.  They are meant to agree,
so that no line ends inside a quoted string.

Each byte moves both alike: a `"` opens a string, and closes one unless an odd number of backslashes
stands before it.  But `feed_char_new` takes the first byte of a message for no quote, whatever it
is.  If it is one, the two are in opposite phase from there on, until a `"` comes that is escaped
for the one that is inside a string and opens a string for the other (`Opposite`).  The other lines
of a message begin in phase.
-/

namespace OpenWfd.Rtsp

/-! ### Backslashes -/

/-- An odd number of backslashes stands at the end. -/
def oddSlashes (raw : List UInt8) : Bool := (raw.rtakeWhile (· = BS)).length % 2 = 1

theorem oddSlashes_append (raw : List UInt8) (c : UInt8) :
    oddSlashes (raw ++ [c]) = (c = BS && !oddSlashes raw) := by
  unfold oddSlashes
  by_cases hc : c = BS
  · rw [List.rtakeWhile_concat_pos _ _ _ (by simpa using hc)]
    simp only [List.length_append, List.length_singleton, hc, decide_true, Bool.true_and]
    rcases Nat.mod_two_eq_zero_or_one (raw.rtakeWhile (· = BS)).length with h | h <;>
      simp [h, Nat.add_mod]
  · rw [List.rtakeWhile_concat_neg _ _ _ (by simpa using hc)]
    simp [hc]

/-- There is a `"` with an odd number of backslashes before it. -/
def EscapedQuote (raw : List UInt8) : Prop :=
  ∃ pre post, raw = pre ++ DQ :: post ∧ oddSlashes pre = true

theorem escapedQuote_append (raw : List UInt8) (c : UInt8) :
    EscapedQuote (raw ++ [c]) ↔ EscapedQuote raw ∨ (c = DQ ∧ oddSlashes raw = true) := by
  constructor
  · rintro ⟨pre, post, h, hodd⟩
    rcases List.eq_nil_or_concat post with rfl | ⟨post, e, rfl⟩
    · obtain ⟨rfl, hc⟩ := List.append_inj' h rfl
      exact Or.inr ⟨List.singleton_inj.mp hc, hodd⟩
    · rw [List.concat_eq_append, ← List.cons_append, ← List.append_assoc] at h
      obtain ⟨rfl, -⟩ := List.append_inj' h rfl
      exact Or.inl ⟨pre, post, rfl, hodd⟩
  · rintro (⟨pre, post, rfl, hodd⟩ | ⟨rfl, hodd⟩)
    · exact ⟨pre, post ++ [c], by simp, hodd⟩
    · exact ⟨raw, [], rfl, hodd⟩

/-! ### The automaton of `sanitize_header_line` -/

/-- Inside a quoted string. -/
theorem San.step_inside {s : San} (hq : s.quoted = true) (c : UInt8) :
    (s.step c).lastC = c ∧ (s.step c).escaped = s.slash ∧
      (s.step c).quoted = !(c = DQ && !s.slash) := by
  cases hs : s.slash with
  | true =>
      rw [San.step_escaped hq hs]
      exact ⟨rfl, rfl, by simp⟩
  | false =>
      by_cases hc : c = DQ
      · subst hc
        rw [San.step_close hq hs]
        exact ⟨rfl, rfl, rfl⟩
      · rw [San.step_item hq hs hc]
        exact ⟨rfl, rfl, by simp [hc]⟩

/-- Outside of one. -/
theorem San.step_outside {s : San} (hq : s.quoted = false) (c : UInt8) :
    (s.step c).quoted = (c = DQ : Bool) ∧ (c = DQ → (s.step c).lastC = DQ) := by
  by_cases hn : c = NUL
  · subst hn
    rw [San.step_nul hq]
    exact ⟨hq, fun h => absurd h (by decide)⟩
  by_cases hw : White c
  · have hc : c ≠ DQ := by
      rintro rfl
      exact absurd hw (by decide)
    rw [San.step_space hq hw]
    exact ⟨by simp [hq, hc], fun h => absurd h hc⟩
  · rw [San.step_solid hq hn hw]
    exact ⟨rfl, id⟩

theorem San.run_concat (s : San) (raw : List UInt8) (c : UInt8) :
    s.run (raw ++ [c]) = (s.run raw).step c := by
  simp only [San.run, List.foldl_append, List.foldl_cons, List.foldl_nil]

/-- Inside a quoted string the automaton knows the parity of the backslashes. -/
theorem San.slash_run {raw : List UInt8} (h : (San.init.run raw).quoted = true) :
    (San.init.run raw).slash = oddSlashes raw := by
  induction raw using List.reverseRecOn with
  | nil => cases h
  | append_singleton raw c ih =>
      rw [San.run_concat] at h ⊢
      rw [oddSlashes_append]
      cases hq : (San.init.run raw).quoted with
      | false =>
          obtain ⟨hout, hlast⟩ := San.step_outside hq c
          obtain rfl : c = DQ := by simpa [hout] using h
          simp [San.slash, hlast rfl, show ¬ DQ = BS by decide]
      | true =>
          obtain ⟨hlast, hesc, -⟩ := San.step_inside hq c
          rw [← ih hq, San.slash, hlast, hesc]

/-- A `"` opens a string, and closes one unless it is escaped. -/
theorem San.quoted_concat (raw : List UInt8) (c : UInt8) :
    (San.init.run (raw ++ [c])).quoted =
      if c = DQ then !(San.init.run raw).quoted || oddSlashes raw
      else (San.init.run raw).quoted := by
  rw [San.run_concat]
  cases hq : (San.init.run raw).quoted with
  | false =>
      rw [(San.step_outside hq c).1]
      by_cases hc : c = DQ <;> simp [hc]
  | true =>
      rw [(San.step_inside hq c).2.2, San.slash_run hq]
      by_cases hc : c = DQ <;> simp [hc]

/-! ### The two automata -/

/-- The two automata are in opposite phase on the pending line: it is the first line of its message,
begins with a `"`, and holds no escaped one. -/
def Opposite (log : List Event) (raw : List UInt8) : Prop :=
  log.getLast? = some .begin ∧ raw.head? = some DQ ∧ ¬ EscapedQuote raw

theorem opposite_append (log : List Event) {raw : List UInt8} (hne : raw ≠ []) (c : UInt8) :
    Opposite log (raw ++ [c]) ↔ Opposite log raw ∧ ¬ (c = DQ ∧ oddSlashes raw = true) := by
  obtain ⟨b, raw, rfl⟩ := List.exists_cons_of_ne_nil hne
  rw [Opposite, Opposite, escapedQuote_append, not_or]
  simp only [List.cons_append, List.head?_cons, and_assoc]

/-- What holds while a header line is pending: the decoder is inside a string, according to its own
automaton, if and only if the other one is, or they are in opposite phase. -/
structure Phase (p : Parser) : Prop where
  pending : p.pending ≠ []
  slash : p.state = .headerQuote →
    (p.lastChr = BS && !p.quoted) = oddSlashes p.pending
  quoted : (San.init.run p.pending).quoted = true ↔
    (p.state = .headerQuote ↔ ¬ Opposite p.log p.pending)

/-- A byte that both automata read. -/
theorem Phase.next {p : Parser} (h : Phase p) (hs : p.state = .header ∨ p.state = .headerQuote)
    {st : State} {b : Bool} {c : UInt8}
    (hin : st = .headerQuote ↔ if c = DQ then p.state = .headerQuote → oddSlashes p.pending = true
      else p.state = .headerQuote)
    (hslash : st = .headerQuote → (c = BS && !b) = oddSlashes (p.pending ++ [c])) :
    Phase { p with state := st, lastChr := c, quoted := b, pending := p.pending ++ [c] } where
  pending := by simp
  slash := hslash
  quoted := by
    have hq := h.quoted
    have hopp := opposite_append p.log h.pending c
    dsimp only
    rw [San.quoted_concat, hin, hopp]
    by_cases hc : c = DQ
    · simp only [hc, if_true, true_and]
      cases hb : (San.init.run p.pending).quoted <;> rw [hb] at hq <;>
        cases ho : oddSlashes p.pending <;> by_cases hst : p.state = .headerQuote <;>
        by_cases hop : Opposite p.log p.pending <;> simp_all
    · simp only [hc, if_false, false_and, not_false_eq_true, and_true]
      exact hq

theorem quoted_singleton (c : UInt8) : (San.init.run [c]).quoted = (c = DQ : Bool) := by
  have h := San.quoted_concat [] c
  rw [List.nil_append] at h
  rw [h]
  by_cases hc : c = DQ <;> simp [hc, San.run, San.init]

/-- The first byte of a message. -/
theorem Phase.first {p : Parser} {c : UInt8} (hp : p.pending = [c])
    (hlog : p.log.getLast? = some .begin) (hs : p.state = .header) : Phase p where
  pending := by simp [hp]
  slash := fun h => by rw [hs] at h; cases h
  quoted := by
    have he : ¬ EscapedQuote [c] := by
      have h := (escapedQuote_append [] c).mp
      rintro h'
      rcases h h' with ⟨pre, post, h, -⟩ | ⟨-, h⟩
      · simp at h
      · cases h
    rw [hp, hs, quoted_singleton]
    simp [Opposite, hlog, he]

/-- The first byte of another line. -/
theorem Phase.later {p : Parser} {c : UInt8} (hp : p.pending = [c])
    (hlog : p.log.getLast? ≠ some .begin) (hs : p.state = .headerQuote ↔ c = DQ)
    (hl : p.lastChr = c) : Phase p where
  pending := by simp [hp]
  slash := fun h => by
    obtain rfl := hs.mp h
    rw [hp, hl]
    rfl
  quoted := by
    rw [hp, hs, quoted_singleton]
    simp [Opposite, hlog]

/-! ### Lines -/

/-- On a line cut out, the automaton of `sanitize_header_line` ends outside a quoted string, unless
the two are in opposite phase there. -/
def Agrees (pre : List Event) (e : Event) : Prop :=
  ∀ raw, e = .line raw → ((San.init.run raw).quoted = false ↔ ¬ Opposite pre raw)

theorem agrees_msgDone {c : Core} (h : Throughout Agrees c.log) :
    Throughout Agrees (msgDone c).log := by
  unfold Rtsp.msgDone
  dsimp only
  split
  · refine h.concat ?_
    intro raw e
    cases e
  · exact h

/-- The invariant of the parser; after an error, what a flush needs. -/
def InPhase (p : Parser) : Prop :=
  p.Fine ∧ Throughout Agrees p.log ∧ (p.state = .header ∨ p.state = .headerQuote → Phase p)

def Stopped (p : Parser) : Prop := p.Fine ∧ Throughout Agrees p.log

/-- The outcome of a step on `c`, before `last_chr` is set. -/
abbrev Lands (c : UInt8) : Except Errno Unit × Parser → Prop :=
  Reader.Ends (fun p => InPhase { p with lastChr := c }) Stopped

/-- The pending line is cut out, outside a string for the decoder. -/
theorem lands_cutThen {p : Parser} (f : p.Fine) (ha : Throughout Agrees p.log)
    (hq : (San.init.run p.pending).quoted = false ↔ ¬ Opposite p.log p.pending) {ch : UInt8}
    {k : Parser → Except Errno Unit × Parser}
    (hk : ∀ c : Core, c.Fine → Throughout Agrees c.log → c.log.getLast? ≠ some .begin →
      c.state = p.state → Lands ch (k ⟨c, []⟩)) : Lands ch (p.cutThen k) := by
  have hstop : ∀ r p', p.cut = (r, p') → Stopped p' := by
    intro r p' hc
    refine ⟨cut_fine f hc, ?_⟩
    obtain ⟨-, -, hlog | ⟨hlog, -⟩⟩ := cut_control hc
    · rw [hlog]
      exact ha.concat fun raw e => by cases e; exact hq
    · rw [hlog]
      exact ha
  refine Parser.cutThen_ind (P := Lands ch) (fun e p' hc => hstop _ _ hc) (fun c hc => ?_)
  obtain ⟨f₁, ha₁⟩ := hstop _ _ hc
  obtain ⟨-, hst, hlog | ⟨-, hbad⟩⟩ := cut_control hc
  · refine hk c f₁ ha₁ ?_ hst
    rw [hlog]
    simp
  · cases hbad

/-- A state in which no header line is pending. -/
def State.Between : State → Prop
  | .header | .headerQuote  => False
  | .new | .headerNl | .body => True

theorem lands_between {p : Parser} (f : p.Fine) (ha : Throughout Agrees p.log)
    (hs : p.state.Between) (ch : UInt8) : Lands ch (.ok (), p) := by
  refine ⟨f.congr rfl rfl, ha, fun h => ?_⟩
  dsimp only at h
  rcases h with h | h <;> rw [h] at hs <;> exact hs.elim

theorem lands_doneIfNoBody {p : Parser} (f : p.Fine) (ha : Throughout Agrees p.log)
    (hs : p.state.Between) (pending : List UInt8) (ch : UInt8) :
    Lands ch (.ok (), { p.doneIfNoBody with pending := pending }) := by
  unfold Parser.doneIfNoBody
  split_ifs
  · exact lands_between (p := ⟨msgDone p.toCore, pending⟩) (msgDone_fine f _ _)
      (agrees_msgDone ha) hs ch
  · exact lands_between (p := ⟨p.toCore, pending⟩) f ha hs ch

theorem lands_stepNew {p : Parser} (f : p.Fine) (ha : Throughout Agrees p.log)
    (hs : p.state.Between) (ch : UInt8) : Lands ch (p.stepNew ch) := by
  unfold Parser.stepNew
  split_ifs
  · exact lands_between (p := { p with pending := p.pending ++ [ch] }) f ha hs ch
  · exact ⟨f.congr rfl rfl, ha.concat (fun raw e => by cases e),
      fun _ => Phase.first rfl List.getLast?_concat rfl⟩

theorem lands_stepHeader {p : Parser} (h : InPhase p) (hs : p.state = .header) (ch : UInt8) :
    Lands ch (p.stepHeader ch) := by
  obtain ⟨f, ha, hphase⟩ := h
  have hp := hphase (Or.inl hs)
  have hq : (San.init.run p.pending).quoted = false ↔ ¬ Opposite p.log p.pending := by
    have := hp.quoted
    rw [hs] at this
    rw [← Bool.not_eq_true, this]
    simp
  have hkeep : ch ≠ DQ → Lands ch (p.keep ch) := fun hch =>
    ⟨f.congr rfl rfl, ha, fun _ => hp.next (Or.inl hs) (by simp [hch, hs])
      fun e => by rw [hs] at e; cases e⟩
  unfold Parser.stepHeader
  split_ifs with h₁ h₂ h₃ h₄ h₅ h₆ h₇ h₈
  · exact lands_cutThen (p := { p with state := .headerNl }) (f.congr rfl rfl) ha hq
      fun c f ha _ hst => lands_doneIfNoBody (p := ⟨c, []⟩) f ha
        (by rw [hst]; trivial) _ ch
  · exact hkeep (by rw [h₁]; decide)
  · refine lands_cutThen f ha hq fun c f ha _ hst => ?_
    have hb : State.Between (if c.remainingBody = 0 then .new else .body) := by
      split_ifs <;> trivial
    have hd := lands_doneIfNoBody (p := ⟨{ c with
      state := if c.remainingBody = 0 then .new else .body }, []⟩) (f.congr rfl rfl) ha hb [] ch
    rw [doneIfNoBody_eq]
    exact hd
  · exact hkeep (by rw [h₃]; decide)
  · exact lands_cutThen f ha hq fun c f ha hlog _ => ⟨f.congr rfl rfl, ha,
      fun _ => Phase.later rfl hlog (by simp [h₅]) rfl⟩
  · exact ⟨f.congr rfl rfl, ha, fun _ => hp.next (Or.inl hs) (by simp [h₅, hs])
      fun _ => by simp [h₅, oddSlashes_append, show ¬ DQ = BS by decide]⟩
  · exact hkeep h₅
  · exact lands_cutThen f ha hq fun c f ha hlog hst => ⟨f.congr rfl rfl, ha,
      fun _ => Phase.later rfl hlog (by simp [hst, hs, h₅]) rfl⟩
  · exact hkeep h₅

theorem lands_stepQuote {p : Parser} (h : InPhase p) (hs : p.state = .headerQuote) (ch : UInt8) :
    Lands ch (p.stepQuote ch) := by
  obtain ⟨f, ha, hphase⟩ := h
  have hp := hphase (Or.inr hs)
  have hslash := hp.slash hs
  unfold Parser.stepQuote
  split_ifs with h₁ h₂
  · have hodd : oddSlashes p.pending = true := by rw [← hslash]; simpa using h₁
    exact ⟨f.congr rfl rfl, ha, fun _ => hp.next (Or.inr hs) (by simp [hs, hodd])
      fun _ => by simp [oddSlashes_append, hodd]⟩
  · have hodd : oddSlashes p.pending = false := by rw [← hslash]; simpa using h₁
    exact ⟨f.congr rfl rfl, ha, fun _ => hp.next (Or.inr hs) (by simp [hs, h₂, hodd])
      fun e => by cases e⟩
  · have hodd : oddSlashes p.pending = false := by rw [← hslash]; simpa using h₁
    exact ⟨f.congr rfl rfl, ha, fun _ => hp.next (Or.inr hs) (by simp [hs, h₂])
      fun _ => by simp [oddSlashes_append, hodd]⟩

theorem lands_stepBody {p : Parser} (f : p.Fine) (ha : Throughout Agrees p.log)
    (hs : p.state.Between) (ch : UInt8) : Lands ch (p.stepBody ch) := by
  unfold Parser.stepBody
  split_ifs
  · exact lands_stepNew (p := { p with state := .new }) (f.congr rfl rfl) ha
      trivial ch
  · rcases p.heap.next with ⟨_ | _, h⟩
    · exact ⟨f.congr rfl rfl, ha⟩
    · exact ⟨(msgDone_fine f _ _).congr rfl rfl, agrees_msgDone (c := { p.toCore with
        msg := { p.msg with body := some (p.pending ++ [ch] ++ [NUL])
                            bodyLen := (p.pending ++ [ch]).length } }) ha,
        fun h => by rcases h with h | h <;> cases h⟩
  · exact lands_between (p := { p with
      remainingBody := p.remainingBody - 1, pending := p.pending ++ [ch] })
        (f.congr rfl rfl) ha hs ch

/-- **One byte.** -/
theorem lands_step {p : Parser} (h : InPhase p) (ch : UInt8) : Lands ch (p.step ch) := by
  obtain ⟨f, ha, -⟩ := id h
  unfold Parser.step
  cases hs : p.state with
  | new => exact lands_stepNew f ha (by rw [hs]; trivial) ch
  | header => exact lands_stepHeader h hs ch
  | headerQuote => exact lands_stepQuote h hs ch
  | headerNl =>
      unfold Parser.stepNl
      by_cases hch : ch = LF
      · rw [if_pos hch]
        have hb : State.Between (if p.remainingBody = 0 then .new else .body) := by
          split_ifs <;> trivial
        exact lands_between (p := { p with
          pending := [], state := if p.remainingBody = 0 then .new else .body })
          (f.congr rfl rfl) ha hb ch
      · rw [if_neg hch]
        exact lands_stepBody (p := { p with pending := [], state := .body }) (f.congr rfl rfl) ha
          trivial ch
  | body => exact lands_stepBody f ha (by rw [hs]; trivial) ch

/-! ### Every run -/

theorem run_inPhase {p : Parser} (h : InPhase p) (bs : List UInt8) :
    Reader.Ends InPhase Stopped (p.run bs) := by
  refine Reader.run_ends (fun q ch hq => ?_) h bs
  have hs := lands_step hq ch
  simp only [Parser.reader]
  rcases hr : q.step ch with ⟨e | _, q'⟩ <;> rw [hr] at hs
  · exact hs
  · exact hs

theorem feed_inPhase {p : Parser} (h : InPhase p) (buf : List UInt8) : InPhase (p.feed buf).2 := by
  have hr := run_inPhase h buf
  unfold Parser.feed
  rcases hrun : p.run buf with ⟨e | _, q⟩ <;> rw [hrun] at hr
  · exact ⟨hr.1.congr rfl rfl, hr.2, fun h => by rcases h with h | h <;> cases h⟩
  · exact hr

theorem call_inPhase {d d' : Decoder} {c : Call} {r : Except Errno Unit} (w : d.ring.WF)
    (h : InPhase d.parser) (e : d.call c = (r, d')) : d'.ring.WF ∧ InPhase d'.parser := by
  cases c with
  | flush =>
      cases e
      exact ⟨ShlRing.wf_flush w, h.1.congr rfl rfl, h.2.1,
        fun h => by rcases h with h | h <;> cases h⟩
  | feed buf heap =>
      have h' : ∀ heap', InPhase { d.parser with heap := heap' } := fun heap' =>
        ⟨h.1.congr rfl rfl, h.2.1,
          fun hs => ⟨(h.2.2 hs).pending, (h.2.2 hs).slash, (h.2.2 hs).quoted⟩⟩
      obtain ⟨w', x, -, ⟨-, hsame, -⟩ | ⟨-, hfeed⟩⟩ :=
        feed_eq_run (d := { d with heap := heap }) w buf.2 e
      · exact ⟨w', hsame ▸ h' x⟩
      · have hf := feed_inPhase (p := { Decoder.parser { d with heap := heap } with heap := x })
          (h' x) buf
        rw [hfeed] at hf
        exact ⟨w', hf⟩

theorem reachable_inPhase {cb : Bool} {d : Decoder} {ls : List (Call × Except Errno Unit)}
    (h : decoderLts.Run (Decoder.fresh cb) ls d) : d.ring.WF ∧ InPhase d.parser := by
  refine h.invariant (I := fun d => d.ring.WF ∧ InPhase d.parser) ⟨ShlRing.wf_zeroed, fine_fresh cb,
    ?_, fun h => by rcases h with h | h <;> cases h⟩ fun _ _ _ hd e => call_inPhase hd.1 hd.2 e
  exact throughout_nil

/-- **Quoting.**  In every run, a line that was cut out leaves the automaton of
`sanitize_header_line` outside a quoted string, if and only if it is not the first line of its
message, or does not begin with a `"`, or holds an escaped one. -/
theorem line_unquoted {cb : Bool} {d : Decoder} {ls : List (Call × Except Errno Unit)}
    (h : decoderLts.Run (Decoder.fresh cb) ls d) {pre post : List Event} {raw : List UInt8}
    (hlog : d.log = pre ++ .line raw :: post) :
    (San.init.run raw).quoted = false ↔
      ¬ (pre.getLast? = some .begin ∧ raw.head? = some DQ ∧ ¬ EscapedQuote raw) :=
  (reachable_inPhase h).2.2.1 pre (.line raw) post hlog raw rfl

/-- A string with an escaped quote in it opens the message, and is closed: the line feed behind it
ends the line. -/
theorem line_unquoted_closed : (San.init.run (str "\"b\\\"\nc\"\n")).quoted = false := by
  have hlog : (feed (Decoder.fresh true) (str "\"b\\\"\nc\"\nd")).2.log =
      [.begin] ++ .line (str "\"b\\\"\nc\"\n") :: [] := by
    have hp := (feed_empty (d := Decoder.fresh true) ShlRing.wf_zeroed rfl (by simp [Decoder.fresh])
      ⟨str "\"b\\\"\nc\"\nd", by decide⟩).2
    rw [Decoder.core_eq hp]
    decide
  refine (line_unquoted (run_feed rfl ⟨str "\"b\\\"\nc\"\nd", by decide⟩) hlog).mpr fun hnot => ?_
  exact hnot.2.2 ⟨str "\"b\\", str "\nc\"\n", by decide, by decide⟩

/-- The first line of a message begins with a `"`: the line feed inside the string ends it. -/
theorem line_unquoted_first :
    ¬ ∀ (d : Decoder) (ls : List (Call × Except Errno Unit)) (pre post : List Event)
      (raw : List UInt8), decoderLts.Run (Decoder.fresh true) ls d →
        d.log = pre ++ .line raw :: post → (San.init.run raw).quoted = false := by
  intro hall
  have hlog : (feed (Decoder.fresh true) (str "\"a\nb")).2.log =
      [.begin] ++ .line (str "\"a\n") :: [] := by
    have hp := (feed_empty (d := Decoder.fresh true) ShlRing.wf_zeroed rfl (by simp [Decoder.fresh])
      ⟨str "\"a\nb", by decide⟩).2
    rw [Decoder.core_eq hp]
    decide
  have hq := hall _ _ _ _ _ (run_feed rfl ⟨str "\"a\nb", by decide⟩) hlog
  exact absurd hq (by decide)

end OpenWfd.Rtsp

