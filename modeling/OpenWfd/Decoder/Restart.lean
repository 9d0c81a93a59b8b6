import OpenWfd.Decoder.Framing
import OpenWfd.Support.Lts

/-!
# Decoder — Restart

A decoder that gave up a message, by `owfd_rtsp_decoder_flush` or because a character failed to
parse, is meant to be as good as a new one.  `owfd_rtsp_decoder_flush` resets all that the parser
consults, but not the header lines collected so far: they come first in the next message
(`hear_probe`).  A flushed decoder that keeps none is like a fresh one (`flush_like`).

The proof runs two decoders in lockstep.  `Like` relates cores that differ in what the next message
cannot show: the size of the arrays, what lies above `header_num`, the past, and `quoted` outside a
quoted string.
-/

namespace OpenWfd.Rtsp

open SizeT (ptrdiffMax)

/-! ### Calls -/

/-- A call of the user: a chunk to feed, with what the allocator answers meanwhile, or a flush. -/
inductive Call where
  | feed (buf : Buffer) (heap : Allocs)
  | flush

def Decoder.call (d : Decoder) : Call → Except Errno Unit × Decoder
  | .feed buf heap => Rtsp.feed { d with heap := heap } buf
  | .flush         => (.ok (), Rtsp.flush d)

/-- The decoder as a transition system: each call with what it returned. -/
def decoderLts : Lts Decoder (Call × Except Errno Unit) := .ofExec Decoder.call

theorem call_feed {d : Decoder} (h : d.heap = []) (buf : Buffer) :
    d.call (.feed buf []) = Rtsp.feed d buf := by
  rw [Decoder.call, ← h]

/-- A run of one feed. -/
theorem run_feed {d : Decoder} (h : d.heap = []) (buf : Buffer) :
    decoderLts.Run d [(.feed buf [], (feed d buf).1)] (feed d buf).2 :=
  .one (call_feed h buf)

/-- The messages the callback receives while `chunks` are fed one after the other, the allocations
succeeding. -/
def hear (d : Decoder) (chunks : List Buffer) : List Seen :=
  (chunks.foldl (fun d (buf : Buffer) => (feed d buf).2) { d with heap := [], log := [] }).messages

/-! ### Alike decoders -/

/-- Two cores collected the same lines and delivered the same messages, and their allocations
succeed. -/
structure Core.Alike (c c' : Core) : Prop where
  cb : c.cb = c'.cb
  lines : c.msg.lines = c'.msg.lines
  messages : c.messages = c'.messages
  heap : c.heap = []
  heap' : c'.heap = []
  fine : c.Fine
  fine' : c'.Fine

/-- And they are at the same point of a message. -/
structure Core.Like (c c' : Core) : Prop extends Core.Alike c c' where
  state : c.state = c'.state
  lastChr : c.lastChr = c'.lastChr
  remainingBody : c.remainingBody = c'.remainingBody
  quoted : c.state = .headerQuote → c.quoted = c'.quoted

/-- Two parsers that differ in nothing the next message can show. -/
def Parser.Like (p q : Parser) : Prop := p.toCore.Like q.toCore ∧ p.pending = q.pending

/-- Two parsers about to be flushed. -/
def Parser.Alike (p q : Parser) : Prop := p.toCore.Alike q.toCore

section Lockstep

variable {c c' : Core}

theorem Core.Alike.control (h : c.Alike c') {st st' : State} {l l' : UInt8} {n n' : Nat}
    {q q' : Bool} (hst : st = st') (hl : l = l') (hn : n = n') (hq : st = .headerQuote → q = q') :
    { c with state := st, lastChr := l, remainingBody := n, quoted := q }.Like
      { c' with state := st', lastChr := l', remainingBody := n', quoted := q' } where
  cb := h.cb
  lines := h.lines
  messages := h.messages
  heap := h.heap
  heap' := h.heap'
  fine := h.fine.congr rfl rfl
  fine' := h.fine'.congr rfl rfl
  state := hst
  lastChr := hl
  remainingBody := hn
  quoted := hq

/-- A message is delivered, with the same body. -/
theorem Core.Alike.done (h : c.Alike c') (body : Option (List UInt8)) (len : Nat) :
    (msgDone { c with msg := { c.msg with body := body, bodyLen := len } }).Alike
      (msgDone { c' with msg := { c'.msg with body := body, bodyLen := len } }) where
  cb := h.cb
  lines := rfl
  messages := by
    rw [messages_msgDone, messages_msgDone]
    have hs : ({ c.msg with body := body, bodyLen := len } : Msg).seen =
        ({ c'.msg with body := body, bodyLen := len } : Msg).seen := by
      have hl := h.lines
      simp only [Msg.seen, Msg.lines] at hl ⊢
      rw [hl]
    have hm := h.messages
    simp only [Core.messages] at hm ⊢
    rw [hs, hm, h.cb]
  heap := h.heap
  heap' := h.heap'
  fine := msgDone_fine h.fine body len
  fine' := msgDone_fine h.fine' body len

theorem Core.Like.msgDone (h : c.Like c') : (msgDone c).Like (msgDone c') := by
  have hd := h.toAlike.done none 0
  have hc : { c with msg := { c.msg with body := none, bodyLen := 0 } } = c := by
    rw [← h.fine.body, ← h.fine.bodyLen]
  have hc' : { c' with msg := { c'.msg with body := none, bodyLen := 0 } } = c' := by
    rw [← h.fine'.body, ← h.fine'.bodyLen]
  rw [hc, hc'] at hd
  exact ⟨hd, h.state, h.lastChr, h.remainingBody, h.quoted⟩

/-- The same line is cut out of both: the two fail alike or go on alike. -/
theorem Core.Like.finishLine (h : c.Like c') (line : List UInt8) (len : Nat) :
    ∃ r c₁ c₁', Rtsp.finishLine c line len = (r, c₁) ∧ Rtsp.finishLine c' line len = (r, c₁') ∧
      c₁.Like c₁' := by
  obtain ⟨r, n, added, hf⟩ := finishLine_uniform c.remainingBody line len
  obtain ⟨c₁, e₁, f₁, hh₁, ⟨hcb, hst, hl, hq, hlog⟩, hn, hlines⟩ := hf c h.fine h.heap rfl
  obtain ⟨c₁', e₁', f₁', hh₁', ⟨hcb', hst', hl', hq', hlog'⟩, hn', hlines'⟩ :=
    hf c' h.fine' h.heap' h.remainingBody.symm
  have hm := h.messages
  simp only [Core.messages] at hm
  refine ⟨r, c₁, c₁', e₁, e₁', ⟨?_, ?_, ?_, hh₁, hh₁', f₁, f₁'⟩, ?_, ?_, ?_, ?_⟩
  · rw [hcb, hcb']; exact h.cb
  · rw [hlines, hlines', h.lines]
  · simp only [Core.messages, hlog, hlog', Core.parsed, List.filterMap_append, hm]
  · rw [hst, hst']; exact h.state
  · rw [hl, hl']; exact h.lastChr
  · rw [hn, hn']
  · rw [hst, hq, hq']; exact h.quoted

theorem Core.Like.parser (h : c.Like c') (pending : List UInt8) :
    Parser.Like ⟨c, pending⟩ ⟨c', pending⟩ := ⟨h, rfl⟩

end Lockstep

namespace Parser

variable {p q : Parser}

/-- The two outcomes are alike. -/
abbrev LikeOut : Except Errno Unit × Parser → Except Errno Unit × Parser → Prop :=
  Reader.Agree Like Alike

theorem Like.keep (h : p.Like q) (ch : UInt8) : LikeOut (p.keep ch) (q.keep ch) :=
  ⟨h.1, by simp [h.2]⟩

theorem Like.set (h : p.Like q) {st st' : State} {l l' : UInt8} {n n' : Nat} {b b' : Bool}
    (hst : st = st') (hl : l = l') (hn : n = n') (hb : st = .headerQuote → b = b') :
    Like { p with state := st, lastChr := l, remainingBody := n, quoted := b }
      { q with state := st', lastChr := l', remainingBody := n', quoted := b' } :=
  ⟨h.1.toAlike.control hst hl hn hb, h.2⟩

theorem Like.cutThen (h : p.Like q) {k k' : Parser → Except Errno Unit × Parser}
    (hk : ∀ c c' : Core, c.Like c' → LikeOut (k ⟨c, []⟩) (k' ⟨c', []⟩)) :
    LikeOut (p.cutThen k) (q.cutThen k') := by
  obtain ⟨hc, hp⟩ := h
  have hn : p.heap.next = (some fun _ => 0, []) := by rw [hc.heap]; rfl
  have hn' : q.heap.next = (some fun _ => 0, []) := by rw [hc.heap']; rfl
  have hh : { p.toCore with heap := [] } = p.toCore := by rw [← hc.heap]
  have hh' : { q.toCore with heap := [] } = q.toCore := by rw [← hc.heap']
  obtain ⟨r, c₁, c₁', e₁, e₁', hl⟩ := hc.finishLine (q.pending ++ [NUL]) q.pending.length
  unfold Parser.cutThen Parser.cut
  simp only [hn, hn', hh, hh', hp, e₁, e₁']
  rcases r with e | _
  · exact ⟨rfl, hl.toAlike⟩
  · exact hk c₁ c₁' hl

theorem Like.doneIfNoBody (h : p.Like q) : p.doneIfNoBody.Like q.doneIfNoBody := by
  unfold Parser.doneIfNoBody
  rw [h.1.remainingBody]
  split_ifs
  · exact ⟨h.1.msgDone, h.2⟩
  · exact h

theorem Like.stepNew (h : p.Like q) (ch : UInt8) : LikeOut (p.stepNew ch) (q.stepNew ch) := by
  unfold Parser.stepNew
  split_ifs
  · exact h.keep ch
  · have hb := h.1.toAlike
    have hm := hb.messages
    simp only [Core.messages] at hm
    have ha : Core.Alike { p.toCore with log := p.log ++ [.begin] }
        { q.toCore with log := q.log ++ [.begin] } :=
      { hb with
        messages := by simp only [Core.messages, List.filterMap_append, hm]
        fine := hb.fine.congr rfl rfl
        fine' := hb.fine'.congr rfl rfl }
    exact ⟨ha.control rfl h.1.lastChr rfl (fun e => by cases e), rfl⟩

theorem Like.stepHeader (h : p.Like q) (ch : UInt8) :
    LikeOut (p.stepHeader ch) (q.stepHeader ch) := by
  have hset : ∀ (st : State) (b b' : Bool), (st = .headerQuote → b = b') →
      Like { p with state := st, quoted := b } { q with state := st, quoted := b' } :=
    fun st b b' hb => h.set rfl h.1.lastChr h.1.remainingBody hb
  unfold Parser.stepHeader
  simp only [h.1.lastChr] at hset ⊢
  split_ifs
  · exact (hset .headerNl _ _ (fun e => by cases e)).cutThen fun c c' hc =>
      (hc.parser []).doneIfNoBody.keep ch
  · exact h.keep ch
  · refine h.cutThen fun c c' hc => ?_
    have hset : Like
        ⟨{ c with state := if c'.remainingBody = 0 then .new else .body }, []⟩
        ⟨{ c' with state := if c'.remainingBody = 0 then .new else .body }, []⟩ :=
      (hc.parser []).set rfl hc.lastChr hc.remainingBody
        (by split_ifs <;> exact fun e => by cases e)
    have hd := hset.doneIfNoBody
    simp only [hc.remainingBody] at hd ⊢
    exact hd
  · exact h.keep ch
  · exact h.cutThen fun c c' hc =>
      ((hc.parser []).set rfl hc.lastChr hc.remainingBody fun _ => rfl).keep ch
  · exact (hset .headerQuote _ _ fun _ => rfl).keep ch
  · exact h.keep ch
  · exact h.cutThen fun c c' hc => (hc.parser []).keep ch
  · exact h.keep ch

theorem Like.stepQuote (h : p.Like q) (hs : p.state = .headerQuote) (ch : UInt8) :
    LikeOut (p.stepQuote ch) (q.stepQuote ch) := by
  have hset : ∀ (st : State) (b : Bool),
      Like { p with state := st, quoted := b } { q with state := st, quoted := b } :=
    fun st b => h.set rfl h.1.lastChr h.1.remainingBody fun _ => rfl
  have hs' : q.state = .headerQuote := h.1.state ▸ hs
  unfold Parser.stepQuote
  simp only [h.1.lastChr, h.1.quoted hs, hs, hs'] at hset ⊢
  split_ifs
  · exact (hset .headerQuote true).keep ch
  · exact (hset .header false).keep ch
  · exact (hset .headerQuote false).keep ch

theorem Like.stepBody (h : p.Like q) (hs : p.state ≠ .headerQuote) (ch : UInt8) :
    LikeOut (p.stepBody ch) (q.stepBody ch) := by
  have hset : ∀ (st st' : State) (n : Nat), st = st' → st ≠ .headerQuote →
      Like { p with state := st, remainingBody := n } { q with state := st', remainingBody := n } :=
    fun st st' n hst hb => h.set hst h.1.lastChr rfl fun e => (hb e).elim
  have hn : p.heap.next = (some fun _ => 0, []) := by rw [h.1.heap]; rfl
  have hn' : q.heap.next = (some fun _ => 0, []) := by rw [h.1.heap']; rfl
  unfold Parser.stepBody
  simp only [h.1.remainingBody, hn, hn']
  split_ifs with h₀ h₁
  · exact (hset .new .new q.remainingBody rfl (by decide)).stepNew ch
  · have hcut : Core.Alike { p.toCore with heap := [], remainingBody := 0 }
        { q.toCore with heap := [], remainingBody := 0 } :=
      ⟨h.1.cb, h.1.lines, h.1.messages, rfl, rfl, h.1.fine.congr rfl rfl, h.1.fine'.congr rfl rfl⟩
    have hdone := hcut.done (some (q.pending ++ [ch] ++ [NUL])) (q.pending ++ [ch]).length
    rw [h.2]
    exact ⟨hdone.control rfl h.1.lastChr rfl (fun e => by cases e), rfl⟩
  · exact (hset p.state q.state (q.remainingBody - 1) h.1.state hs).keep ch

theorem Like.stepNl (h : p.Like q) (ch : UInt8) : LikeOut (p.stepNl ch) (q.stepNl ch) := by
  have hset : ∀ st : State, st ≠ .headerQuote →
      Like ⟨{ p.toCore with state := st }, []⟩ ⟨{ q.toCore with state := st }, []⟩ :=
    fun st hb => (h.1.parser []).set rfl h.1.lastChr h.1.remainingBody fun e => (hb e).elim
  unfold Parser.stepNl
  by_cases hch : ch = LF
  · rw [if_pos hch, if_pos hch, h.1.remainingBody]
    simp only [h.1.remainingBody] at hset
    exact hset _ (by split_ifs <;> decide)
  · rw [if_neg hch, if_neg hch]
    exact (hset .body (by decide)).stepBody (fun e => by cases e) ch

theorem Like.step (h : p.Like q) (ch : UInt8) : LikeOut (p.step ch) (q.step ch) := by
  unfold Parser.step
  rw [← h.1.state]
  cases hs : p.state with
  | new => exact h.stepNew ch
  | header => exact h.stepHeader ch
  | headerQuote => exact h.stepQuote hs ch
  | headerNl => exact h.stepNl ch
  | body => exact h.stepBody (by rw [hs]; decide) ch

theorem Like.remember (h : p.Like q) (ch : UInt8) :
    LikeOut (Parser.remember ch (.ok (), p)) (Parser.remember ch (.ok (), q)) :=
  h.set h.1.state rfl h.1.remainingBody h.1.quoted

/-- **Lockstep.**  Like parsers stay alike over every byte. -/
theorem Like.reader (h : p.Like q) (ch : UInt8) :
    LikeOut (reader.step p ch) (reader.step q ch) := by
  have hs := h.step ch
  simp only [Parser.reader]
  rcases hp : p.step ch with ⟨e | _, p'⟩ <;> rcases hq : q.step ch with ⟨f | _, q'⟩ <;>
    rw [hp, hq] at hs
  · exact hs
  · exact hs.elim
  · exact hs.elim
  · exact Like.remember hs ch

/-- A chunk keeps them alike, whether it is parsed or flushed. -/
theorem Like.feed (h : p.Like q) (buf : List UInt8) :
    (p.feed buf).1 = (q.feed buf).1 ∧ (p.feed buf).2.Like (q.feed buf).2 := by
  have hr := Reader.run_agree (R := fun _ => Like) (E := Alike)
    (fun p q ch _ h => Like.reader (p := p) (q := q) h ch) (l := buf) h
  unfold Parser.feed Parser.run
  rcases hp : Parser.reader.run p buf with ⟨e | _, p'⟩ <;>
    rcases hq : Parser.reader.run q buf with ⟨f | _, q'⟩ <;> rw [hp, hq] at hr
  · exact ⟨congrArg Except.error hr.1, hr.2.control rfl rfl rfl (fun e => by cases e), rfl⟩
  · exact hr.elim
  · exact hr.elim
  · exact ⟨rfl, hr⟩

end Parser

/-! ### What a decoder delivers -/

theorem feed_like {d d' : Decoder} (w : d.ring.WF) (w' : d'.ring.WF) (h : d.parser.Like d'.parser)
    (buf : Buffer) :
    (feed d buf).2.ring.WF ∧ (feed d' buf).2.ring.WF ∧
      (feed d buf).2.parser.Like (feed d' buf).2.parser := by
  have hp : { d.parser with heap := [] } = d.parser := by rw [← h.1.heap]
  have hp' : { d'.parser with heap := [] } = d'.parser := by rw [← h.1.heap']
  have hlen : d.ring.contents.length = d'.ring.contents.length := congrArg List.length h.2
  rcases hf : feed d buf with ⟨r, d₁⟩
  rcases hf' : feed d' buf with ⟨r', d₁'⟩
  obtain ⟨w₁, x, hx, hcase⟩ := feed_eq_run w buf.2 hf
  obtain ⟨w₁', x', hx', hcase'⟩ := feed_eq_run w' buf.2 hf'
  obtain rfl := hx h.1.heap
  obtain rfl := hx' h.1.heap'
  rw [hp] at hcase
  rw [hp'] at hcase'
  refine ⟨w₁, w₁', ?_⟩
  -- the rings are equally full, so both take the chunk or neither does
  rcases hcase with ⟨-, hsame, hbig⟩ | ⟨hroom, hfeed⟩ <;>
    rcases hcase' with ⟨-, hsame', hbig'⟩ | ⟨hroom', hfeed'⟩
  · dsimp only
    rw [hsame, hsame']
    exact h
  · have := hbig h.1.heap
    omega
  · have := hbig' h.1.heap'
    omega
  · have hl := (h.feed buf.1).2
    rw [hfeed, hfeed'] at hl
    exact hl

theorem feeds_like (chunks : List Buffer) {d d' : Decoder} (w : d.ring.WF) (w' : d'.ring.WF)
    (h : d.parser.Like d'.parser) :
    (chunks.foldl (fun d (buf : Buffer) => (feed d buf).2) d).messages =
      (chunks.foldl (fun d (buf : Buffer) => (feed d buf).2) d').messages := by
  induction chunks generalizing d d' with
  | nil => exact h.1.messages
  | cons buf chunks ih =>
      obtain ⟨w₁, w₁', h₁⟩ := feed_like w w' h buf
      exact ih w₁ w₁' h₁

/-! ### Reachable decoders -/

/-- What holds of a core between two calls: its arrays are in order, and there is a callback. -/
def Core.Sound (c : Core) : Prop := c.Fine ∧ c.cb = true

theorem move_sound {c c' : Core} (h : c.Sound) (m : Parser.Move c c') : c'.Sound := by
  refine ⟨move_fine h.1 m, ?_⟩
  cases m with
  | control | begin | alloc | done | body => exact h.2
  | line raw =>
      obtain ⟨n, hcb, -⟩ := finishLine_control c (raw ++ [NUL]) raw.length
      exact hcb.trans h.2

theorem run_sound {p : Parser} (h : p.Sound) (bs : List UInt8) : (p.run bs).2.Sound :=
  closure_invariant (Parser.run_moves p bs) h fun _ _ => move_sound

/-- What holds of a decoder between two calls. -/
def Decoder.Sound (d : Decoder) : Prop := d.ring.WF ∧ d.toCore.Sound

theorem sound_fresh : (Decoder.fresh true).Sound := ⟨ShlRing.wf_zeroed, fine_fresh true, rfl⟩

theorem Decoder.Sound.flush {d : Decoder} (h : d.Sound) : (Rtsp.flush d).Sound :=
  ⟨ShlRing.wf_flush h.1, h.2.1.congr rfl rfl, h.2.2⟩

theorem call_sound {d d' : Decoder} {c : Call} {r : Except Errno Unit} (h : d.Sound)
    (e : d.call c = (r, d')) : d'.Sound := by
  cases c with
  | flush => cases e; exact h.flush
  | feed buf heap =>
      obtain ⟨w, h', -, ⟨-, hsame, -⟩ | ⟨-, hfeed⟩⟩ :=
        feed_eq_run (d := { d with heap := heap }) h.1 buf.2 e
      · refine ⟨w, ?_⟩
        rw [Decoder.core_eq hsame]
        exact ⟨h.2.1.congr rfl rfl, h.2.2⟩
      · refine ⟨w, ?_⟩
        have hr := run_sound (p := { Decoder.parser { d with heap := heap } with heap := h' })
          ⟨h.2.1.congr rfl rfl, h.2.2⟩ buf
        rw [show d'.toCore = _ from congrArg (fun x => x.2.toCore) hfeed.symm]
        unfold Parser.feed
        rcases hrun : Parser.run { Decoder.parser { d with heap := heap } with heap := h' } buf with
          ⟨e | _, p⟩ <;> rw [hrun] at hr
        · exact ⟨hr.1.congr rfl rfl, hr.2⟩
        · exact hr

theorem reachable_sound {d : Decoder} {ls : List (Call × Except Errno Unit)}
    (h : decoderLts.Run (Decoder.fresh true) ls d) : d.Sound :=
  h.invariant sound_fresh fun _ _ _ hd e => call_sound hd e

/-! ### A message of one line -/

/-- A message of one header line. -/
def probeMessage : Message where
  lines := [⟨str "a", by decide, plain_of_all (by decide), by decide, by decide, by decide⟩]
  body := []
  nonempty := by decide
  announced := fun h => (h rfl).elim
  length := fun l hl h => by
    rw [List.mem_singleton.mp hl] at h
    exact absurd h (by decide)

/-- Its encoding. -/
def probe : Buffer := ⟨str "a\n\n", by decide⟩

theorem encodes_probe : Encodes probeMessage [] probe.1 :=
  @Encodes.intro _ _ [LF] _ ⟨.lf, by decide⟩
    (@Lines.cons _ _ (str "a") [LF] _ _ (.refl _) ⟨.lf, by decide⟩ (.nil _))

/-- A decoder between two messages delivers the probe behind the lines it has kept. -/
theorem hear_probe {d : Decoder} (h : d.Sound) (hstate : d.state = .new)
    (hempty : d.ring.contents = []) :
    (hear d [probe]).map (·.lines.length) = [d.msg.headerNum + 1] := by
  have f : Core.Fine { d.toCore with heap := [], log := [] } := h.2.1.congr rfl rfl
  have hidle : Parser.Idle ⟨{ d.toCore with heap := [], log := [] }, []⟩ := ⟨f, rfl, Or.inl hstate⟩
  obtain ⟨p, hrun, hdel⟩ := run_message encodes_probe (by decide) hidle
  obtain ⟨L, hL, hm⟩ := hdel.messages
  have hlen : L.length = 1 := by simpa [texts, probeMessage] using congrArg List.length hL
  have hd := (feed_empty (d := { d with heap := [], log := [] }) h.1 rfl hempty probe).2
  rw [Parser.feed, hrun, Parser.run, Reader.run_nil, Parser.settle] at hd
  have hlines : d.msg.lines.length = d.msg.headerNum := h.2.1.length_lines
  simp only [hear, List.foldl_cons, List.foldl_nil]
  rw [Decoder.core_eq hd, hm]
  simp only [h.2.2, if_true, Core.messages, List.filterMap_nil, List.nil_append, List.map_cons,
    List.map_nil, List.length_append, hlines, hlen]

/-- A flushed decoder that keeps no line is like a fresh one. -/
theorem flush_like {d : Decoder} (h : d.Sound) (hnum : d.msg.headerNum = 0) :
    Parser.Like (Decoder.parser { flush d with heap := [], log := [] })
      (Decoder.parser { Decoder.fresh true with heap := [], log := [] }) := by
  have hlines : d.msg.lines = [] :=
    List.eq_nil_of_length_eq_zero (h.2.1.length_lines.trans hnum)
  have hfresh : (Decoder.fresh true).ring.contents = [] := by simp [Decoder.fresh]
  exact ⟨⟨⟨h.2.2, hlines, rfl, rfl, rfl, h.2.1.congr rfl rfl, (fine_fresh true).congr rfl rfl⟩,
    rfl, rfl, rfl, fun e => by cases e⟩, (ShlRing.contents_flush d.ring).trans hfresh.symm⟩

end OpenWfd.Rtsp
