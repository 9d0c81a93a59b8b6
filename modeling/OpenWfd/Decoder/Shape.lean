import OpenWfd.Decoder.Restart
import OpenWfd.Decoder.Steps

/-!
# Decoder — Shape

What the decoder holds between two calls, in each of its five states.  Two of the statements compare
it with the past: with the bytes received since the header line began, and with what
`remaining_body` was when the header section ended.  An observer notes these (`Notes`) beside the
decoder, from what each byte does to the state and the log.

`reachable_shape` is for every run of the decoder, by cases on what a byte can do (`Takes`).
-/

namespace OpenWfd.Rtsp

/-! ### An observer -/

/-- What the observer has noted: the bytes received since the current header line began, and what
`remaining_body` was when the header section ended. -/
structure Notes where
  line : List UInt8
  length : Nat
  deriving DecidableEq, Repr

def Notes.init : Notes := ⟨[], 0⟩

/-- A byte took the decoder from `c` to `c'`.  A header line begins where the log grows, with the
message or behind the line cut out; the header section ends when no line is under way any more. -/
def Notes.see (n : Notes) (c : Core) (ch : UInt8) (c' : Core) : Notes where
  line := if c.log.length < c'.log.length then [ch] else n.line ++ [ch]
  length := if c.state.inLine && !c'.state.inLine then c'.remainingBody else n.length

/-- The loop of `owfd_rtsp_decoder_feed` under observation. -/
def watchRound : Reader ((Decoder × Nat) × Notes) UInt8 Errno :=
  feedRound.watch fun n s ch s' => n.see s.1.toCore ch s'.1.toCore

/-- `owfd_rtsp_decoder_feed` under observation.  The notes begin anew when the decoder is
flushed. -/
def watchFeed (d : Decoder) (n : Notes) (buf : List UInt8) :
    (Except Errno Unit × Decoder) × Notes :=
  match d.ring.push buf d.heap with
  | (.error _, ring, h) => ((.error .ENOMEM, { d with ring := ring, heap := h }), n)
  | (.ok (), ring, h) =>
    match watchRound.run (({ d with ring := ring, heap := h }, d.ring.length), n) buf with
    | (.ok (), ((d, _), n))   => ((.ok (), d), n)
    | (.error e, ((d, _), _)) => ((.error e, flush d), .init)

/-- The observer changes nothing. -/
theorem watchFeed_feed (d : Decoder) (n : Notes) (buf : List UInt8) :
    (watchFeed d n buf).1 = feed d buf := by
  unfold watchFeed feed
  rcases d.ring.push buf d.heap with ⟨x | _, ring, h⟩
  · rfl
  · obtain ⟨hout, hstate⟩ := Reader.watch_run feedRound
      (fun n s ch s' => n.see s.1.toCore ch s'.1.toCore)
      ({ d with ring := ring, heap := h }, d.ring.length) n buf
    dsimp only
    unfold watchRound
    rw [← Prod.mk.eta (p := feedRound.run _ _), ← hout, ← hstate]
    rcases (feedRound.watch fun (n : Notes) s ch s' => n.see s.1.toCore ch s'.1.toCore).run
      (({ d with ring := ring, heap := h }, d.ring.length), n) buf with ⟨e | _, ⟨d', l⟩, m⟩ <;> rfl

/-- The notes after a call. -/
def Notes.call (n : Notes) (d : Decoder) : Call → Notes
  | .feed buf heap => (watchFeed { d with heap := heap } n buf).2
  | .flush         => .init

/-- The decoder under observation. -/
def watched : Lts (Decoder × Notes) (Call × Except Errno Unit) :=
  .ofExec fun (d, n) c => ((d.call c).1, ((d.call c).2, n.call d c))

/-! ### The shape -/

/-- The last message that began was handed to the callback, behind its lines. -/
def HandedOver (log : List Event) : Prop :=
  ∃ (pre : List Event) (raws : List (List UInt8)) (m : Msg),
    log = pre ++ .begin :: (raws.map .line ++ [.msg m])

/-- What the decoder holds, in each of its states. -/
structure Shape (c : Core) (held : List UInt8) (n : Notes) : Prop where
  new : c.state = .new → (∀ b ∈ held, b = CR ∨ b = LF ∨ b = TAB ∨ b = SP) ∧ c.remainingBody = 0
  line : c.state = .header ∨ c.state = .headerQuote → held = n.line ∧ held ≠ []
  nl : c.state = .headerNl → held = [CR] ∧ c.remainingBody = n.length
  done : c.state = .headerNl → c.remainingBody = 0 → c.cb = true → HandedOver c.log
  body : c.state = .body → 0 < c.remainingBody ∧ held.length + c.remainingBody = n.length

/-- The same in the middle of a step, where a byte may have been handed on to the state `body`
without a body to come; with the lines of the message under way. -/
structure Tracks (c : Core) (held : List UInt8) (n : Notes) : Prop where
  new : c.state = .new → (∀ b ∈ held, White b) ∧ c.remainingBody = 0
  line : c.state.inLine = true → held = n.line ∧ held ≠ []
  log : c.state.inLine = true →
    ∃ (pre : List Event) (raws : List (List UInt8)), c.log = pre ++ .begin :: raws.map .line
  nl : c.state = .headerNl → held = [CR] ∧ c.remainingBody = n.length
  done : c.state = .headerNl → c.remainingBody = 0 → c.cb = true → HandedOver c.log
  body : c.state = .body → held.length + c.remainingBody = n.length ∧
    (c.remainingBody = 0 → held = [])

theorem Tracks.shape {c : Core} {held : List UInt8} {n : Notes} (h : Tracks c held n)
    (hbody : c.state = .body → 0 < c.remainingBody) : Shape c held n where
  new := h.new
  line := fun hs => h.line (by rcases hs with hs | hs <;> rw [hs] <;> rfl)
  nl := h.nl
  done := h.done
  body := fun hs => ⟨hbody hs, (h.body hs).1⟩

/-! ### One byte -/

section

variable {p p' : Parser} {n : Notes} {ch : UInt8}

/-- Bytes that no line is made of. -/
theorem tracks_new {c : Core} {held : List UInt8} (hs : c.state = .new) (hw : ∀ b ∈ held, White b)
    (hr : c.remainingBody = 0) (n : Notes) : Tracks c held n := by
  refine ⟨fun _ => ⟨hw, hr⟩, ?_, ?_, ?_, ?_, ?_⟩ <;> intro h <;> rw [hs] at h <;> cases h

/-- A line is under way. -/
theorem tracks_line {c : Core} {held : List UInt8} (hs : c.state.inLine = true)
    (hlog : ∃ (pre : List Event) (raws : List (List UInt8)),
      c.log = pre ++ .begin :: raws.map .line)
    (hl : held = n.line) (hne : held ≠ []) : Tracks c held n := by
  refine ⟨?_, fun _ => ⟨hl, hne⟩, fun _ => hlog, ?_, ?_, ?_⟩ <;> intro h <;>
    rw [h] at hs <;> cases hs

/-- The body is under way. -/
theorem tracks_body {c : Core} {held : List UInt8} (hs : c.state = .body)
    (hl : held.length + c.remainingBody = n.length) (hr : c.remainingBody = 0 → held = []) :
    Tracks c held n := by
  refine ⟨?_, ?_, ?_, ?_, ?_, fun _ => ⟨hl, hr⟩⟩ <;> intro h <;> rw [hs] at h <;> cases h

/-- The header section ended with a CR. -/
theorem tracks_headerNl {c : Core} (hs : c.state = .headerNl) (hn : c.remainingBody = n.length)
    (hdone : c.remainingBody = 0 → c.cb = true → HandedOver c.log) : Tracks c [CR] n := by
  refine ⟨?_, ?_, ?_, fun _ => ⟨rfl, hn⟩, fun _ => hdone, ?_⟩ <;> intro h <;>
    rw [hs] at h <;> cases h

/-- `last_chr` does not matter. -/
theorem Tracks.setLast {c : Core} {held : List UInt8} (h : Tracks c held n) (l : UInt8) :
    Tracks { c with lastChr := l } held n :=
  ⟨h.new, h.line, h.log, h.nl, h.done, h.body⟩

/-- What the observer notes where no line was under way. -/
theorem see_length {c c' : Core} (hs : c.state.inLine = false) (n : Notes) (ch : UInt8) :
    (n.see c ch c').length = n.length := by
  rw [Notes.see, hs]
  rfl

/-- And where the header section ends. -/
theorem see_end {c c' : Core} (hs : c.state.inLine = true) (hs' : c'.state.inLine = false)
    (n : Notes) (ch : UInt8) : (n.see c ch c').length = c'.remainingBody := by
  rw [Notes.see, hs, hs']
  rfl

/-- Nothing is held between two messages. -/
theorem tracks_cleared {c : Core} (hs : c.state = .new) (hr : c.remainingBody = 0) (n : Notes) :
    Tracks c [] n :=
  tracks_new hs (fun _ hb => absurd hb List.not_mem_nil) hr n

/-- The header section ended with a LF. -/
theorem tracks_ended {c : Core} (hs : c.state = if c.remainingBody = 0 then .new else .body)
    (hn : n.length = c.remainingBody) :
    Tracks c [] n ∧ (c.state = .body → 0 < c.remainingBody) := by
  by_cases hr : c.remainingBody = 0
  · rw [if_pos hr] at hs
    exact ⟨tracks_cleared hs hr n, fun e => by cases hs.symm.trans e⟩
  · rw [if_neg hr] at hs
    refine ⟨tracks_body hs ?_ fun _ => rfl, fun _ => Nat.pos_of_ne_zero hr⟩
    rw [List.length_nil, Nat.zero_add, hn]

/-- **One byte** keeps the shape. -/
theorem tracks_takes (h : Tracks p.toCore p.pending n) (t : Takes p ch p') :
    Tracks p'.toCore p'.pending (n.see p.toCore ch p'.toCore) ∧
      (p'.state = .body → 0 < p'.remainingBody) := by
  induction t with
  | @blank p ch hs hw =>
      obtain ⟨hall, hr⟩ := h.new hs
      refine ⟨tracks_new hs ?_ hr _, fun e => by cases hs.symm.trans e⟩
      intro b hb
      rcases List.mem_append.mp hb with hb | hb
      · exact hall b hb
      · rw [List.mem_singleton.mp hb]
        exact hw
  | @begin p ch hs hw =>
      refine ⟨tracks_line rfl ⟨p.log, [], rfl⟩ ?_ (List.cons_ne_nil _ _), fun e => by cases e⟩
      simp [Notes.see]
  | @keep p ch st b hs hst =>
      obtain ⟨hline, hne⟩ := h.line hs
      refine ⟨tracks_line hst (h.log hs) ?_ (by simp), fun e => ?_⟩
      · simp [Notes.see, hline]
      · rw [show st = .body from e] at hst
        cases hst
  | @next p ch c st b hs hcut hst =>
      obtain ⟨pre, raws, hlog⟩ := h.log (by rw [hs]; rfl)
      obtain ⟨-, -, hcl | ⟨-, hbad⟩⟩ := cut_control hcut
      · have hcl : c.log = p.log ++ [.line p.pending] := hcl
        refine ⟨tracks_line hst ⟨pre, raws ++ [p.pending], ?_⟩ ?_ (List.cons_ne_nil _ _),
          fun e => ?_⟩
        · simp [hcl, hlog]
        · simp [Notes.see, hcl]
        · rw [show st = .body from e] at hst
          cases hst
      · cases hbad
  | @endCr p c hs hcut =>
      have hin : p.state.inLine = true := by rw [hs]; rfl
      obtain ⟨pre, raws, hlog⟩ := h.log hin
      obtain ⟨-, hst, hcl | ⟨-, hbad⟩⟩ := cut_control hcut
      · have hst : c.state = .headerNl := hst
        have hcl : c.log = p.log ++ [.line p.pending] := hcl
        have hout : c.state.inLine = false := by rw [hst]; rfl
        rcases doneIfNoBody_cases ⟨c, []⟩ with ⟨hr, heq⟩ | ⟨hr, heq⟩ <;> rw [heq]
        · refine ⟨tracks_headerNl hst (see_end hin hout n CR).symm fun _ hcb => ?_,
            fun e => by cases hst.symm.trans e⟩
          have hcb : c.cb = true := hcb
          refine ⟨pre, raws ++ [p.pending], c.msg, ?_⟩
          simp [msgDone, hcb, hcl, hlog]
        · refine ⟨tracks_headerNl hst (see_end hin hout n CR).symm fun hz => absurd hz hr,
            fun e => by cases hst.symm.trans e⟩
      · cases hbad
  | @endLf p c hs hcut =>
      have hin : p.state.inLine = true := by rw [hs]; rfl
      have hout : (if c.remainingBody = 0 then State.new else .body).inLine = false := by
        split_ifs <;> rfl
      rcases doneIfNoBody_cases ⟨{ c with
        state := if c.remainingBody = 0 then .new else .body }, []⟩ with ⟨-, heq⟩ | ⟨-, heq⟩ <;>
        rw [heq]
      · exact tracks_ended rfl (see_end hin hout n LF)
      · exact tracks_ended rfl (see_end hin hout n LF)
  | @lf p hs =>
      obtain ⟨-, hn⟩ := h.nl hs
      have hout : p.state.inLine = false := by rw [hs]; rfl
      exact tracks_ended rfl ((see_length hout n LF).trans hn.symm)
  | @skipNl p p' ch hs hch t ih =>
      obtain ⟨-, hn⟩ := h.nl hs
      have hb : Tracks { p.toCore with state := .body } [] n :=
        tracks_body rfl ((Nat.zero_add _).trans hn) fun _ => rfl
      have hsee : n.see p.toCore ch p'.toCore =
          n.see { p.toCore with state := .body } ch p'.toCore := by
        rw [Notes.see, hs]
        rfl
      rw [hsee]
      exact ih hb
  | @skipBody p p' ch hs hr t ih =>
      obtain ⟨-, hheld⟩ := h.body hs
      have hn : Tracks { p.toCore with state := .new } p.pending n := by
        rw [hheld hr]
        exact tracks_cleared (c := { p.toCore with state := .new }) rfl hr n
      have hsee : n.see p.toCore ch p'.toCore =
          n.see { p.toCore with state := .new } ch p'.toCore := by
        rw [Notes.see, hs]
        rfl
      rw [hsee]
      exact ih hn
  | @body p ch hs hr =>
      obtain ⟨hlen, -⟩ := h.body hs
      have hout : p.state.inLine = false := by rw [hs]; rfl
      have hpos : 0 < p.remainingBody - 1 := by omega
      refine ⟨tracks_body hs ?_ fun e => absurd e (Nat.ne_of_gt hpos), fun _ => hpos⟩
      rw [see_length hout]
      simp only [List.length_append, List.length_singleton]
      omega
  | @bodyLast p ch a hs hr =>
      exact ⟨tracks_cleared rfl rfl _, fun e => by cases e⟩

/-! ### Every run -/

/-- The parser under observation. -/
def watchParser : Reader (Parser × Notes) UInt8 Errno :=
  Parser.reader.watch fun n p ch p' => n.see p.toCore ch p'.toCore

/-- What holds between two bytes. -/
def Tracked (x : Parser × Notes) : Prop :=
  Tracks x.1.toCore x.1.pending x.2 ∧ (x.1.state = .body → 0 < x.1.remainingBody)

theorem tracked_run {x : Parser × Notes} (h : Tracked x) (bs : List UInt8) :
    Reader.Ends Tracked (fun _ => True) (watchParser.run x bs) := by
  refine Reader.run_ends ?_ h bs
  rintro ⟨p, n⟩ ch ⟨ht, -⟩
  have hs := step_takes p ch
  simp only [watchParser, Reader.watch, Parser.reader]
  rcases hr : p.step ch with ⟨e | _, p'⟩ <;> rw [hr] at hs
  · exact trivial
  · obtain ⟨ht', hb⟩ := tracks_takes ht hs
    exact ⟨ht'.setLast ch, hb⟩

/-- The decoder and its observer follow the parser and its own one. -/
theorem watch_follows {s : Decoder × Nat} {p : Parser} {l : List UInt8} (h : Holds l s p)
    (n : Notes) :
    Reader.Agree (fun x y => Holds [] x.1 y.1 ∧ x.2 = y.2) (fun x y => Fell x.1 y.1)
      (watchRound.run (s, n) l) (watchParser.run (p, n) l) := by
  refine Reader.watch_agree feedRound_follows ?_ h n
  rintro n s t a as s' t' ⟨hcore, -⟩ ⟨hcore', -⟩
  rw [hcore, hcore']

/-- A call, seen from the parser. -/
theorem call_tracked {d : Decoder} {n : Notes} (w : d.ring.WF) (h : Tracked (d.parser, n))
    (c : Call) :
    (d.call c).2.ring.WF ∧ Tracked ((d.call c).2.parser, n.call d c) := by
  have hflush : ∀ {d : Decoder}, d.ring.WF →
      (flush d).ring.WF ∧ Tracked ((flush d).parser, .init) := by
    intro d w
    refine ⟨ShlRing.wf_flush w, ?_, fun e => by cases e⟩
    rw [show (flush d).parser.pending = [] from ShlRing.contents_flush d.ring]
    exact tracks_cleared rfl rfl _
  cases c with
  | flush => exact hflush w
  | feed buf heap =>
      rw [Decoder.call, ← watchFeed_feed _ n, Notes.call]
      unfold watchFeed
      rcases hp : d.ring.push buf heap with ⟨x | _, ring, a⟩ <;> dsimp only
      · rcases ShlRing.push_spec w buf.2 hp with ⟨-, rfl, -⟩ | ⟨hbad, -⟩
        · exact ⟨w, ⟨h.1.new, h.1.line, h.1.log, h.1.nl, h.1.done, h.1.body⟩, h.2⟩
        · cases hbad
      rcases ShlRing.push_spec w buf.2 hp with ⟨hbad, -⟩ | ⟨-, w', hc⟩
      · cases hbad
      have hholds : Holds buf.1 ({ d with ring := ring, heap := a }, d.ring.length)
          { d.parser with heap := a } :=
        ⟨rfl, w', hc, (ShlRing.length_contents w).symm⟩
      have ht : Tracked ({ d.parser with heap := a }, n) :=
        ⟨⟨h.1.new, h.1.line, h.1.log, h.1.nl, h.1.done, h.1.body⟩, h.2⟩
      have hag := watch_follows hholds n
      have hends := tracked_run ht buf.1
      rcases hx : watchRound.run (({ d with ring := ring, heap := a }, d.ring.length), n) buf.1 with
        ⟨e | _, ⟨d', l⟩, m⟩ <;>
        rcases hy : watchParser.run ({ d.parser with heap := a }, n) buf.1 with
          ⟨f | _, p', m'⟩ <;>
        rw [hx, hy] at hag
      · exact hflush hag.2.2
      · exact hag.elim
      · exact hag.elim
      · obtain ⟨⟨hcore, w₁, hc₁, -⟩, hm⟩ := hag
        have hpend : d'.ring.contents = p'.pending := hc₁.trans (List.append_nil _)
        have hparser : d'.parser = p' := by
          rw [Decoder.parser, hpend]
          cases p'
          dsimp only at hcore
          rw [hcore]
        dsimp only at hm
        rw [hy] at hends
        refine ⟨w₁, ?_⟩
        rw [hparser, hm]
        exact hends

end

/-- Every run of the decoder can be observed. -/
theorem watched_simulates : Lts.Simulates decoderLts watched (fun d x => x.1 = d) := by
  rintro d ⟨c, r⟩ d' ⟨d₁, n⟩ hd e
  dsimp only at hd
  subst hd
  have e : d₁.call c = (r, d') := e
  refine ⟨(d', n.call d₁ c), ?_, rfl⟩
  exact congrArg (fun x : Except Errno Unit × Decoder => (x.1, (x.2, n.call d₁ c))) e

/-- **The shape of the state.**  In every run of feeds and flushes, whatever the chunks and the
allocator's answers: white-space and no body between messages; in a header line the bytes received
since it began; one CR behind a header section that a CR ended, and the message delivered if it has
no body; in the body, as many bytes as are missing from what was announced. -/
theorem reachable_shape {cb : Bool} {d : Decoder} {ls : List (Call × Except Errno Unit)}
    (h : decoderLts.Run (Decoder.fresh cb) ls d) :
    ∃ n, watched.Run (Decoder.fresh cb, .init) ls (d, n) ∧ Shape d.toCore d.ring.contents n := by
  obtain ⟨⟨_, n⟩, hrun, rfl⟩ := watched_simulates.run h (t := (Decoder.fresh cb, .init)) rfl
  have h₀ : (Decoder.fresh cb).ring.WF ∧ Tracked ((Decoder.fresh cb).parser, .init) := by
    refine ⟨ShlRing.wf_zeroed, ?_, fun e => by cases e⟩
    rw [show (Decoder.fresh cb).parser.pending = [] from ShlRing.contents_zeroed]
    exact tracks_cleared rfl rfl _
  have hinv := hrun.invariant (I := fun x => x.1.ring.WF ∧ Tracked (x.1.parser, x.2)) h₀ ?_
  · exact ⟨n, hrun, hinv.2.1.shape hinv.2.2⟩
  · rintro ⟨d, m⟩ ⟨c, r⟩ ⟨d', m'⟩ ⟨w, ht⟩ e
    obtain ⟨rfl, rfl⟩ := Prod.mk.inj (Prod.mk.inj e).2
    exact call_tracked w ht c

/-- A chunk that ends in the middle of the body. -/
theorem reachable_shape_body :
    (feed (Decoder.fresh true) (str "content-length: 2\n\nx")).2.state = .body ∧
      ∃ n, watched.Run (Decoder.fresh true, .init)
          [(.feed ⟨str "content-length: 2\n\nx", by decide⟩ [], (feed (Decoder.fresh true)
            (str "content-length: 2\n\nx")).1)]
          ((feed (Decoder.fresh true) (str "content-length: 2\n\nx")).2, n) ∧
        Shape (feed (Decoder.fresh true) (str "content-length: 2\n\nx")).2.toCore
          (feed (Decoder.fresh true) (str "content-length: 2\n\nx")).2.ring.contents n := by
  have hp := (feed_empty (d := Decoder.fresh true) ShlRing.wf_zeroed rfl (by simp [Decoder.fresh])
    ⟨str "content-length: 2\n\nx", by decide⟩).2
  refine ⟨?_, reachable_shape (run_feed rfl ⟨str "content-length: 2\n\nx", by decide⟩)⟩
  rw [Decoder.core_eq hp]
  decide

end OpenWfd.Rtsp
