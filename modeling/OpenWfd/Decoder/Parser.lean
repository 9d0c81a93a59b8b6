import OpenWfd.Decoder.Definitions
import OpenWfd.Ring.Content
import OpenWfd.Support.Trace

/-!
# Decoder — Parser

The decoder without its buffer.  `Parser` reads one byte at a time and holds, in place of the ring,
the bytes it has read and not yet used (`pending`): what this component is for, a machine from bytes
to messages, with no chunks in it.

The decoder runs the parser in lockstep (`feedRound_follows`).  Before each byte of a chunk the ring
holds the pending bytes and then the rest of the chunk, and `rlen` counts the pending ones
(`Holds`): every branch of the five states pulls from the ring exactly what it takes off `rlen`.
-/

namespace OpenWfd.Rtsp

/-- The decoder, with the bytes it has read and not yet used in place of the ring. -/
structure Parser extends Core where
  pending : List UInt8

namespace Parser

/-- The byte stays pending. -/
def keep (p : Parser) (ch : UInt8) : Except Errno Unit × Parser :=
  (.ok (), { p with pending := p.pending ++ [ch] })

/-- The pending bytes are a raw header line. -/
def cut (p : Parser) : Except Errno Unit × Parser :=
  match p.heap.next with
  | (none, h)   => (.error .ENOMEM, { p with heap := h })
  | (some _, h) =>
    let (r, c) := finishLine { p.toCore with heap := h } (p.pending ++ [NUL]) p.pending.length
    (r, ⟨c, []⟩)

/-- Cut the pending line, and go on if that succeeds. -/
def cutThen (p : Parser) (k : Parser → Except Errno Unit × Parser) : Except Errno Unit × Parser :=
  match p.cut with
  | (.error e, p) => (.error e, p)
  | (.ok (), p)   => k p

/-- The message is complete if no body is to come. -/
def doneIfNoBody (p : Parser) : Parser :=
  if p.remainingBody = 0 then { p with toCore := msgDone p.toCore } else p

def stepNew (p : Parser) (ch : UInt8) : Except Errno Unit × Parser :=
  if ch = CR ∨ ch = LF ∨ ch = TAB ∨ ch = SP then
    p.keep ch
  else
    (.ok (), { p with
      state := .header, remainingBody := 0, log := p.log ++ [.begin], pending := [ch] })

def stepHeader (p : Parser) (ch : UInt8) : Except Errno Unit × Parser :=
  if ch = CR then
    if p.lastChr = CR ∨ p.lastChr = LF then
      cutThen { p with state := .headerNl } fun p => p.doneIfNoBody.keep ch
    else
      p.keep ch
  else if ch = LF then
    if p.lastChr = LF then
      p.cutThen fun p =>
        (.ok (), doneIfNoBody { p with state := if p.remainingBody = 0 then .new else .body })
    else
      p.keep ch
  else if ch = DQ then
    if p.lastChr = CR ∨ p.lastChr = LF then
      p.cutThen fun p => keep { p with state := .headerQuote, quoted := false } ch
    else
      keep { p with state := .headerQuote, quoted := false } ch
  else if ch = TAB ∨ ch = SP then
    p.keep ch
  else
    if p.lastChr = CR ∨ p.lastChr = LF then p.cutThen fun p => p.keep ch else p.keep ch

def stepQuote (p : Parser) (ch : UInt8) : Except Errno Unit × Parser :=
  if p.lastChr = BS ∧ !p.quoted then
    keep { p with quoted := true } ch
  else if ch = DQ then
    keep { p with quoted := false, state := .header } ch
  else
    keep { p with quoted := false } ch

def stepBody (p : Parser) (ch : UInt8) : Except Errno Unit × Parser :=
  if p.remainingBody = 0 then
    stepNew { p with state := .new } ch
  else if p.remainingBody = 1 then
    match p.heap.next with
    | (none, h)   => (.error .ENOMEM, { p with heap := h, remainingBody := 0 })
    | (some _, h) =>
      let body := p.pending ++ [ch]
      let c := { p.toCore with
        heap := h
        remainingBody := 0
        msg := { p.msg with body := some (body ++ [NUL]), bodyLen := body.length } }
      (.ok (), ⟨{ msgDone c with state := .new }, []⟩)
  else
    keep { p with remainingBody := p.remainingBody - 1 } ch

def stepNl (p : Parser) (ch : UInt8) : Except Errno Unit × Parser :=
  if ch = LF then
    (.ok (), { p with pending := [], state := if p.remainingBody = 0 then .new else .body })
  else
    stepBody { p with pending := [], state := .body } ch

/-- One byte, without `last_chr`. -/
def step (p : Parser) (ch : UInt8) : Except Errno Unit × Parser :=
  match p.state with
  | .new         => p.stepNew ch
  | .header      => p.stepHeader ch
  | .headerQuote => p.stepQuote ch
  | .headerNl    => p.stepNl ch
  | .body        => p.stepBody ch

/-- Remember the byte, if it was parsed. -/
def remember (ch : UInt8) : Except Errno Unit × Parser → Except Errno Unit × Parser
  | (.ok (), p)   => (.ok (), { p with lastChr := ch })
  | (.error e, p) => (.error e, p)

/-- The parser as a reader of bytes. -/
def reader : Reader Parser UInt8 Errno := ⟨fun p ch => remember ch (p.step ch)⟩

/-- Parse a list of bytes, up to the first error. -/
def run (p : Parser) (bs : List UInt8) : Except Errno Unit × Parser := reader.run p bs

/-! ### What a step is made of -/

/-- A single thing a step does to the core. -/
inductive Move : Core → Core → Prop where
  | control (c : Core) (st : State) (l : UInt8) (n : Nat) (q : Bool) :
      Move c { c with state := st, lastChr := l, remainingBody := n, quoted := q }
  | begin (c : Core) : Move c { c with log := c.log ++ [.begin] }
  | alloc (c : Core) : Move c { c with heap := c.heap.next.2 }
  | line (c : Core) (raw : List UInt8) :
      Move c (finishLine c (raw ++ [NUL]) raw.length).2
  | done (c : Core) : Move c (msgDone c)
  | body (c : Core) (raw : List UInt8) :
      Move c (msgDone { c with
        msg := { c.msg with body := some (raw ++ [NUL]), bodyLen := raw.length } })

/-- Any number of them. -/
abbrev Moves : Core → Core → Prop := Relation.ReflTransGen Move

theorem Move.moves {c c' : Core} (h : Move c c') : Moves c c' := .single h

theorem moves_state (c : Core) (st : State) : Moves c { c with state := st } :=
  (Move.control c st c.lastChr c.remainingBody c.quoted).moves

theorem moves_cut (p : Parser) : Moves p.toCore p.cut.2.toCore := by
  unfold cut
  have ha := (Move.alloc p.toCore).moves
  rcases hn : p.heap.next with ⟨_ | f, h⟩
  · rw [hn] at ha; exact ha
  · rw [hn] at ha; exact ha.trans (Move.line _ _).moves

/-- To reason about `cutThen`, reason about the failing cut and about what follows a cut that
succeeds. -/
theorem cutThen_ind {P : Except Errno Unit × Parser → Prop} {p : Parser}
    {k : Parser → Except Errno Unit × Parser}
    (herr : ∀ e p', p.cut = (.error e, p') → P (.error e, p'))
    (hok : ∀ c, p.cut = (.ok (), ⟨c, []⟩) → P (k ⟨c, []⟩)) : P (p.cutThen k) := by
  unfold cutThen
  rcases hc : p.cut with ⟨e | _, p'⟩
  · exact herr e p' hc
  · have hp : p'.pending = [] := by
      unfold cut at hc
      split at hc
      · cases hc
      · exact (congrArg (fun r => r.2.pending) hc).symm
    obtain ⟨c, pending⟩ := p'
    subst hp
    exact hok c hc

theorem moves_cutThen {p : Parser} {k : Parser → Except Errno Unit × Parser} {c : Core}
    (h : Moves c p.toCore) (hk : ∀ c', Moves c' (k ⟨c', []⟩).2.toCore) :
    Moves c (p.cutThen k).2.toCore := by
  have hcut := moves_cut p
  refine cutThen_ind (P := fun r => Moves c r.2.toCore) (fun e p' hc => ?_) (fun c' hc => ?_)
  · rw [hc] at hcut; exact h.trans hcut
  · rw [hc] at hcut; exact (h.trans hcut).trans (hk c')

theorem moves_doneIfNoBody (p : Parser) : Moves p.toCore p.doneIfNoBody.toCore := by
  unfold doneIfNoBody
  split_ifs
  · exact (Move.done _).moves
  · exact .refl

theorem moves_stepNew (p : Parser) (ch : UInt8) : Moves p.toCore (p.stepNew ch).2.toCore := by
  unfold stepNew
  split_ifs
  · exact .refl
  · exact (Move.begin p.toCore).moves.trans (Move.control _ .header _ 0 _).moves

theorem moves_stepHeader (p : Parser) (ch : UInt8) : Moves p.toCore (p.stepHeader ch).2.toCore := by
  unfold stepHeader
  split_ifs
  · exact moves_cutThen (moves_state _ _) fun c => moves_doneIfNoBody ⟨c, []⟩
  · exact .refl
  · exact moves_cutThen .refl fun c => (moves_state c _).trans (moves_doneIfNoBody ⟨_, []⟩)
  · exact .refl
  · exact moves_cutThen .refl fun c => (Move.control c _ _ _ _).moves
  · exact (Move.control p.toCore _ _ _ _).moves
  · exact .refl
  · exact moves_cutThen .refl fun c => .refl
  · exact .refl

theorem moves_stepQuote (p : Parser) (ch : UInt8) : Moves p.toCore (p.stepQuote ch).2.toCore := by
  unfold stepQuote
  split_ifs <;> exact (Move.control p.toCore _ _ _ _).moves

theorem moves_stepBody (p : Parser) (ch : UInt8) : Moves p.toCore (p.stepBody ch).2.toCore := by
  unfold stepBody
  split_ifs
  · exact (moves_state p.toCore .new).trans (moves_stepNew { p with state := .new } ch)
  · have ha := (Move.alloc p.toCore).moves
    rcases hn : p.heap.next with ⟨_ | f, h⟩
    · rw [hn] at ha
      exact ha.trans (Move.control _ _ _ 0 _).moves
    · rw [hn] at ha
      exact ((ha.trans (Move.control _ _ _ 0 _).moves).trans (Move.body _ _).moves).trans
        (moves_state _ _)
  · exact (Move.control p.toCore _ _ _ _).moves

theorem moves_stepNl (p : Parser) (ch : UInt8) : Moves p.toCore (p.stepNl ch).2.toCore := by
  unfold stepNl
  by_cases h : ch = LF
  · rw [if_pos h]
    exact moves_state p.toCore _
  · rw [if_neg h]
    exact (moves_state p.toCore .body).trans
      (moves_stepBody ⟨{ p.toCore with state := .body }, []⟩ ch)

/-- **Every step is a sequence of moves.** -/
theorem moves_step (p : Parser) (ch : UInt8) : Moves p.toCore (p.step ch).2.toCore := by
  unfold step
  split
  · exact moves_stepNew p ch
  · exact moves_stepHeader p ch
  · exact moves_stepQuote p ch
  · exact moves_stepNl p ch
  · exact moves_stepBody p ch

theorem moves_reader (p : Parser) (ch : UInt8) :
    Moves p.toCore (reader.step p ch).2.toCore := by
  have h := moves_step p ch
  unfold reader remember
  dsimp only
  split
  · next heq => rw [heq] at h; exact h.trans (Move.control _ _ ch _ _).moves
  · next heq => rw [heq] at h; exact h

/-- What the moves keep, a run keeps. -/
theorem run_moves (p : Parser) (bs : List UInt8) : Moves p.toCore (p.run bs).2.toCore := by
  have h := Reader.run_ends (M := reader) (I := fun q => Moves p.toCore q.toCore)
    (E := fun q => Moves p.toCore q.toCore) (fun q ch hq => ?_) .refl bs
  · unfold run
    rcases hr : reader.run p bs with ⟨_ | _, q⟩ <;> rw [hr] at h <;> exact h
  · have hs := hq.trans (moves_reader q ch)
    rcases hr : reader.step q ch with ⟨_ | _, q'⟩ <;> rw [hr] at hs <;> exact hs

end Parser

/-! ### The decoder follows the parser -/

/-- The decoder between two bytes: the ring holds the pending bytes, then `rest`. -/
def Holds (rest : List UInt8) (s : Decoder × Nat) (p : Parser) : Prop :=
  s.1.toCore = p.toCore ∧ s.1.ring.WF ∧ s.1.ring.contents = p.pending ++ rest ∧
    s.2 = p.pending.length

/-- The two machines failed in the same state.  The ring is about to be flushed. -/
def Fell (s : Decoder × Nat) (p : Parser) : Prop := s.1.toCore = p.toCore ∧ s.1.ring.WF

/-- `Reader.Agree`, for the result of a `feed_char_*` function: the number it returns is the new
`rlen`. -/
def Follows (rest : List UInt8) :
    Except Errno Nat × Decoder → Except Errno Unit × Parser → Prop
  | (.ok l, d), (.ok _, p)       => Holds rest (d, l) p
  | (.error e, d), (.error f, p) => e = f ∧ d.toCore = p.toCore ∧ d.ring.WF
  | _, _                         => False

section Steps

variable {c : Core} {ring : ShlRing} {pending rest : List UInt8} {ch : UInt8}

/-- The byte moves from the rest of the chunk to the pending ones. -/
theorem keep_follows (w : ring.WF) (hc : ring.contents = pending ++ ch :: rest) (c : Core) :
    Follows rest (.ok (pending.length + 1), ⟨c, ring⟩) (Parser.keep ⟨c, pending⟩ ch) :=
  ⟨rfl, w, by simp [hc], by simp⟩

/-- The pending bytes are pulled; what is left is `rest`. -/
theorem contents_pull_pending (w : ring.WF) (hc : ring.contents = pending ++ rest) :
    (ring.pull pending.length).contents = rest := by
  rw [ShlRing.contents_pull w, hc, List.drop_left]

theorem feedCharNew_follows (w : ring.WF) (hc : ring.contents = pending ++ ch :: rest) (c : Core) :
    Follows rest (feedCharNew ⟨c, ring⟩ ch pending.length) (Parser.stepNew ⟨c, pending⟩ ch) := by
  unfold feedCharNew Parser.stepNew
  split_ifs
  · exact keep_follows w hc c
  · exact ⟨rfl, ShlRing.wf_pull w _, contents_pull_pending w hc, rfl⟩

/-- `finish_header_line` on the pending bytes: the two fail alike, or both succeed and nothing is
pending. -/
theorem finishHeaderLine_follows (w : ring.WF) (hc : ring.contents = pending ++ rest) (c : Core) :
    (∃ e d p, finishHeaderLine ⟨c, ring⟩ pending.length = (.error e, d) ∧
        Parser.cut ⟨c, pending⟩ = (.error e, p) ∧ d.toCore = p.toCore ∧ d.ring.WF) ∨
      ∃ c' ring', finishHeaderLine ⟨c, ring⟩ pending.length = (.ok (), ⟨c', ring'⟩) ∧
        Parser.cut ⟨c, pending⟩ = (.ok (), ⟨c', []⟩) ∧ ring'.WF ∧ ring'.contents = rest := by
  have hcopy := ShlRing.copy_eq w (some pending.length) c.heap
  rw [ShlRing.copyLimit_some, hc, List.length_append, Nat.min_eq_left (Nat.le_add_right _ _),
    List.take_left] at hcopy
  unfold finishHeaderLine Parser.cut
  simp only [hcopy]
  rcases c.heap.next with ⟨_ | f, h⟩
  · exact Or.inl ⟨_, _, _, rfl, rfl, rfl, w⟩
  · dsimp only
    rcases hf : finishLine { c with heap := h } (pending ++ [NUL]) pending.length with ⟨_ | _, c'⟩
    · exact Or.inl ⟨_, _, _, rfl, rfl, rfl, ShlRing.wf_pull w _⟩
    · exact Or.inr ⟨c', _, rfl, rfl, ShlRing.wf_pull w _, contents_pull_pending w hc⟩

theorem feedCharHeader_follows (w : ring.WF) (hc : ring.contents = pending ++ ch :: rest)
    (c : Core) :
    Follows rest (feedCharHeader ⟨c, ring⟩ ch pending.length)
      (Parser.stepHeader ⟨c, pending⟩ ch) := by
  unfold feedCharHeader Parser.stepHeader Parser.cutThen
  split_ifs
  · rcases finishHeaderLine_follows w hc { c with state := .headerNl } with
      ⟨e, d, p, hd, hp, hcore, w'⟩ | ⟨c', ring', hd, hp, w', hc'⟩
    · simp only [hd, hp]; exact ⟨rfl, hcore, w'⟩
    · simp only [hd, hp, Parser.doneIfNoBody]
      split_ifs <;> exact @keep_follows _ [] _ _ w' hc' _
  · exact keep_follows w hc c
  · rcases finishHeaderLine_follows w hc c with
      ⟨e, d, p, hd, hp, hcore, w'⟩ | ⟨c', ring', hd, hp, w', hc'⟩
    · simp only [hd, hp]; exact ⟨rfl, hcore, w'⟩
    · simp only [hd, hp, Parser.doneIfNoBody]
      have hpull : (ring'.pull 1).contents = rest := by
        rw [ShlRing.contents_pull w', hc', List.drop_one, List.tail_cons]
      split_ifs <;> exact ⟨rfl, ShlRing.wf_pull w' 1, hpull, rfl⟩
  · exact keep_follows w hc c
  · rcases finishHeaderLine_follows w hc c with
      ⟨e, d, p, hd, hp, hcore, w'⟩ | ⟨c', ring', hd, hp, w', hc'⟩
    · simp only [hd, hp]; exact ⟨rfl, hcore, w'⟩
    · simp only [hd, hp]
      exact @keep_follows _ [] _ _ w' hc' _
  · exact keep_follows w hc _
  · exact keep_follows w hc c
  · rcases finishHeaderLine_follows w hc c with
      ⟨e, d, p, hd, hp, hcore, w'⟩ | ⟨c', ring', hd, hp, w', hc'⟩
    · simp only [hd, hp]; exact ⟨rfl, hcore, w'⟩
    · simp only [hd, hp]
      exact @keep_follows _ [] _ _ w' hc' _
  · exact keep_follows w hc c

theorem feedCharHeaderQuote_follows (w : ring.WF) (hc : ring.contents = pending ++ ch :: rest)
    (c : Core) :
    Follows rest (feedCharHeaderQuote ⟨c, ring⟩ ch pending.length)
      (Parser.stepQuote ⟨c, pending⟩ ch) := by
  unfold feedCharHeaderQuote Parser.stepQuote
  split_ifs <;> exact keep_follows w hc _

theorem feedCharBody_follows (w : ring.WF) (hc : ring.contents = pending ++ ch :: rest) (c : Core) :
    Follows rest (feedCharBody ⟨c, ring⟩ ch pending.length)
      (Parser.stepBody ⟨c, pending⟩ ch) := by
  unfold feedCharBody Parser.stepBody
  by_cases h₀ : c.remainingBody = 0
  · simp only [h₀, if_true]
    exact feedCharNew_follows w hc _
  by_cases h₁ : c.remainingBody = 1
  · have hc' : ring.contents = (pending ++ [ch]) ++ rest := by simp [hc]
    have hcopy := ShlRing.copy_eq w (some (pending ++ [ch]).length) c.heap
    have hlen : pending.length + 1 = (pending ++ [ch]).length := by simp
    have hmin : min (pending ++ [ch]).length (pending ++ [ch] ++ rest).length =
        (pending ++ [ch]).length := by simp
    rw [ShlRing.copyLimit_some, hc', hmin, List.take_left] at hcopy
    simp only [h₁, hlen, hcopy, if_neg one_ne_zero, if_true, Nat.sub_self]
    rcases c.heap.next with ⟨_ | f, h⟩
    · exact ⟨rfl, rfl, w⟩
    · exact ⟨rfl, ShlRing.wf_pull w _, contents_pull_pending w hc', rfl⟩
  · simp only [h₀, h₁, if_false, if_neg (show c.remainingBody - 1 ≠ 0 by omega)]
    exact keep_follows w hc _

theorem feedCharHeaderNl_follows (w : ring.WF) (hc : ring.contents = pending ++ ch :: rest)
    (c : Core) :
    Follows rest (feedCharHeaderNl ⟨c, ring⟩ ch pending.length)
      (Parser.stepNl ⟨c, pending⟩ ch) := by
  unfold feedCharHeaderNl Parser.stepNl
  by_cases h : ch = LF
  · rw [if_pos h, if_pos h]
    have hc' : ring.contents = (pending ++ [ch]) ++ rest := by simp [hc]
    have hlen : pending.length + 1 = (pending ++ [ch]).length := by simp
    simp only [hlen]
    exact ⟨rfl, ShlRing.wf_pull w _, contents_pull_pending w hc', rfl⟩
  · rw [if_neg h, if_neg h]
    exact @feedCharBody_follows _ [] _ _ (ShlRing.wf_pull w _)
      (contents_pull_pending w hc) _

theorem feedChar_follows (w : ring.WF) (hc : ring.contents = pending ++ ch :: rest) (c : Core) :
    Follows rest (feedChar ⟨c, ring⟩ ch pending.length) (Parser.step ⟨c, pending⟩ ch) := by
  unfold feedChar Parser.step
  cases hs : c.state with
  | new => exact feedCharNew_follows w hc c
  | header => exact feedCharHeader_follows w hc c
  | headerQuote => exact feedCharHeaderQuote_follows w hc c
  | headerNl => exact feedCharHeaderNl_follows w hc c
  | body => exact feedCharBody_follows w hc c

end Steps

/-- **One byte.**  The decoder does what the parser does, and keeps step with its ring. -/
theorem feedRound_follows (s : Decoder × Nat) (p : Parser) (ch : UInt8) (rest : List UInt8)
    (h : Holds (ch :: rest) s p) :
    Reader.Agree (Holds rest) Fell (feedRound.step s ch) (Parser.reader.step p ch) := by
  obtain ⟨⟨c, ring⟩, rlen⟩ := s
  obtain ⟨c', pending⟩ := p
  simp only [Holds] at h
  obtain ⟨rfl, w, hc, rfl⟩ := h
  have hf := feedChar_follows w hc c
  simp only [feedRound, Parser.reader]
  generalize feedChar ⟨c, ring⟩ ch pending.length = r at hf ⊢
  generalize Parser.step ⟨c, pending⟩ ch = r' at hf ⊢
  rcases r with ⟨_ | n, d'⟩ <;> rcases r' with ⟨_ | _, c₁, pending₁⟩
  · exact hf
  · exact hf.elim
  · exact hf.elim
  · obtain ⟨hcore, w', hc', hl⟩ := hf
    dsimp only at hcore
    subst hcore
    exact ⟨rfl, w', hc', hl⟩

end OpenWfd.Rtsp
