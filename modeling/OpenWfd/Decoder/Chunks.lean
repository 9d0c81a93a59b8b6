import OpenWfd.Decoder.Parser

/-!
# Decoder — Chunks

`owfd_rtsp_decoder_feed` is the parser on the bytes of the chunk (`feed_eq_run`), so how a stream is
cut into chunks does not matter (`feed_chunks`): the calls succeed together or fail together, with
the same messages delivered and the same decoder left.
-/

namespace OpenWfd.Rtsp

open SizeT (ptrdiffMax)

/-- What the parser sees of a decoder between two calls. -/
def Decoder.parser (d : Decoder) : Parser := ⟨d.toCore, d.ring.contents⟩

theorem Decoder.core_eq {d : Decoder} {p : Parser} (h : d.parser = p) : d.toCore = p.toCore :=
  congrArg Parser.toCore h

namespace Parser

/-- `owfd_rtsp_decoder_flush`. -/
def flush (p : Parser) : Parser :=
  { p with state := .new, lastChr := 0, remainingBody := 0, pending := [] }

/-- Flush after an error. -/
def settle : Except Errno Unit × Parser → Except Errno Unit × Parser
  | (.ok (), p)   => (.ok (), p)
  | (.error e, p) => (.error e, p.flush)

/-- `owfd_rtsp_decoder_feed`, once the chunk is in the ring. -/
def feed (p : Parser) (buf : List UInt8) : Except Errno Unit × Parser := settle (p.run buf)

end Parser

/-- **`feed` is the parser on the bytes of the chunk**, unless the ring cannot take the chunk. -/
theorem feed_eq_run {d d' : Decoder} {buf : List UInt8} {r : Except Errno Unit} (w : d.ring.WF)
    (fits : buf.length ≤ ptrdiffMax) (e : feed d buf = (r, d')) :
    d'.ring.WF ∧ ∃ h, (d.heap = [] → h = []) ∧
      ((r = .error .ENOMEM ∧ d'.parser = { d.parser with heap := h } ∧
          (d.heap = [] → 2 ^ 63 ≤ d.ring.contents.length + buf.length)) ∨
        (d.ring.contents.length + buf.length < 2 ^ 63 ∧
          Parser.feed { d.parser with heap := h } buf = (r, d'.parser))) := by
  unfold feed at e
  rcases hp : d.ring.push buf d.heap with ⟨_ | _, ring, h⟩
  · simp only [hp] at e
    cases e
    rcases ShlRing.push_spec w fits hp with ⟨-, rfl, hbig⟩ | ⟨h, -⟩
    · exact ⟨w, h, fun hn => ShlRing.push_nil (by rwa [hn] at hp), Or.inl ⟨rfl, rfl, hbig⟩⟩
    · cases h
  · simp only [hp] at e
    rcases ShlRing.push_spec w fits hp with ⟨h, -⟩ | ⟨-, w', hc⟩
    · cases h
    have hag := Reader.run_agree feedRound_follows
      (s := ({ d with ring := ring, heap := h }, d.ring.length))
      (t := { d.parser with heap := h }) (l := buf)
      ⟨rfl, w', hc, (ShlRing.length_contents w).symm⟩
    have hroom : d.ring.contents.length + buf.length < 2 ^ 63 := by
      rw [← List.length_append, ← hc]
      exact ShlRing.length_contents_lt_two_pow w'
    suffices h' : d'.ring.WF ∧ Parser.feed { d.parser with heap := h } buf = (r, d'.parser) from
      ⟨h'.1, h, fun hn => ShlRing.push_nil (by rwa [hn] at hp), Or.inr ⟨hroom, h'.2⟩⟩
    unfold Parser.feed Parser.run
    generalize feedRound.run ({ d with ring := ring, heap := h }, d.ring.length) buf = x at e hag
    generalize Parser.reader.run { d.parser with heap := h } buf = y at hag ⊢
    rcases x with ⟨_ | _, ⟨c, ring'⟩, rlen⟩ <;> rcases y with ⟨_ | _, c₁, pending⟩
    · obtain ⟨rfl, hcore, w₁⟩ := hag
      dsimp only at hcore
      subst hcore
      cases e
      refine ⟨ShlRing.wf_flush w₁, ?_⟩
      simp [Parser.settle, Parser.flush, Decoder.parser, flush, ShlRing.contents_flush]
    · exact hag.elim
    · exact hag.elim
    · obtain ⟨hcore, w₁, hc₁, -⟩ := hag
      dsimp only at hcore hc₁
      subst hcore
      cases e
      refine ⟨w₁, ?_⟩
      simp [Parser.settle, Decoder.parser, hc₁]

/-- An empty ring takes every buffer. -/
theorem feed_empty {d : Decoder} (w : d.ring.WF) (hh : d.heap = []) (he : d.ring.contents = [])
    (buf : Buffer) :
    (feed d buf).1 = (Parser.feed ⟨d.toCore, []⟩ buf).1 ∧
      (feed d buf).2.parser = (Parser.feed ⟨d.toCore, []⟩ buf).2 := by
  have hlen : buf.1.length ≤ ptrdiffMax := buf.2
  rcases hf : feed d buf with ⟨r, d'⟩
  obtain ⟨-, h, hnil, ⟨-, -, hbig⟩ | ⟨-, hfeed⟩⟩ := feed_eq_run w hlen hf
  · have := hbig hh
    simp only [he, List.length_nil, ptrdiffMax] at this hlen
    omega
  · obtain rfl := hnil hh
    have hp : { d.parser with heap := [] } = ⟨d.toCore, []⟩ := by
      rw [← hh, ← he]
      rfl
    rw [hp] at hfeed
    rw [hfeed]
    exact ⟨rfl, rfl⟩

/-! ### What every step keeps -/

namespace Parser

theorem parseHeaderLine_heap (c : Core) (line : List UInt8) :
    (parseHeaderLine c line).2.heap = c.heap := by
  unfold parseHeaderLine
  split
  · dsimp only; split_ifs <;> rfl
  · rfl

theorem growHeader_heap {c : Core} (h : c.heap = []) : (growHeader c).2.heap = [] := by
  unfold growHeader
  simp only [h, realloc_nil]
  split_ifs
  · exact h
  · rfl

theorem pushHeaderLine_heap {c : Core} (h : c.heap = []) (line : List UInt8) (len : Nat) :
    (pushHeaderLine c line len).2.heap = [] := by
  unfold pushHeaderLine
  split
  · have hg := growHeader_heap h
    split
    · next heq => rw [heq] at hg; exact hg
    · next heq => rw [heq] at hg; exact hg
  · exact h

theorem finishLine_heap {c : Core} (h : c.heap = []) (line : List UInt8) (len : Nat) :
    (finishLine c line len).2.heap = [] := by
  unfold finishLine
  dsimp only
  have hp := parseHeaderLine_heap { c with log := c.log ++ [.line (line.take len)] }
    (cstr (sanitizeHeaderLine line len).1)
  split
  · next heq => rw [heq] at hp; exact hp.trans h
  · next heq => rw [heq] at hp; exact pushHeaderLine_heap (hp.trans h) _ _

/-- No move makes an allocator fail that answers every call. -/
theorem move_heap {c c' : Core} (h : c.heap = []) (m : Move c c') : c'.heap = [] := by
  cases m with
  | control | begin | body | done => exact h
  | alloc => rw [h]; rfl
  | line raw => exact finishLine_heap h _ _

theorem run_heap {p : Parser} (h : p.heap = []) (bs : List UInt8) : (p.run bs).2.heap = [] :=
  closure_invariant (I := fun c => c.heap = []) (run_moves p bs) h fun _ _ => move_heap

/-! ### What is pending was read -/

theorem pending_cutThen {p : Parser} {k : Parser → Except Errno Unit × Parser}
    (hk : ∀ c, (k ⟨c, []⟩).2.pending.length ≤ 1) :
    (p.cutThen k).2.pending.length ≤ p.pending.length + 1 := by
  refine cutThen_ind (P := fun r => r.2.pending.length ≤ p.pending.length + 1)
    (fun e p' hc => ?_) (fun c _ => ?_)
  · unfold cut at hc
    split at hc
    · cases hc; simp
    · rw [← congrArg (fun r => r.2.pending) hc]; simp
  · have := hk c
    omega

theorem pending_stepNew (p : Parser) (ch : UInt8) :
    (p.stepNew ch).2.pending.length ≤ p.pending.length + 1 := by
  unfold stepNew
  split_ifs <;> simp [keep]

theorem pending_doneIfNoBody (p : Parser) : p.doneIfNoBody.pending = p.pending := by
  unfold doneIfNoBody
  split_ifs <;> rfl

theorem pending_stepHeader (p : Parser) (ch : UInt8) :
    (p.stepHeader ch).2.pending.length ≤ p.pending.length + 1 := by
  unfold stepHeader
  split_ifs
  · exact pending_cutThen (p := { p with state := .headerNl }) fun c => by
      simp [keep, pending_doneIfNoBody]
  · simp [keep]
  · exact pending_cutThen fun c => by simp [pending_doneIfNoBody]
  · simp [keep]
  · exact pending_cutThen fun c => by simp [keep]
  · simp [keep]
  · simp [keep]
  · exact pending_cutThen fun c => by simp [keep]
  · simp [keep]

theorem pending_stepBody (p : Parser) (ch : UInt8) :
    (p.stepBody ch).2.pending.length ≤ p.pending.length + 1 := by
  unfold stepBody
  split_ifs
  · exact pending_stepNew { p with state := .new } ch
  · split <;> simp
  · simp [keep]

theorem pending_step (p : Parser) (ch : UInt8) :
    (p.step ch).2.pending.length ≤ p.pending.length + 1 := by
  unfold step
  split
  · exact pending_stepNew p ch
  · exact pending_stepHeader p ch
  · unfold stepQuote; split_ifs <;> simp [keep]
  · unfold stepNl
    split
    · simp
    · exact (pending_stepBody ⟨{ p.toCore with state := .body }, []⟩ ch).trans (by simp)
  · exact pending_stepBody p ch

/-- A run keeps no more bytes than it read. -/
theorem pending_run {p p' : Parser} {bs : List UInt8} (e : p.run bs = (.ok (), p')) :
    p'.pending.length ≤ p.pending.length + bs.length := by
  induction bs generalizing p with
  | nil => cases e; simp
  | cons ch bs ih =>
      have hs := pending_step p ch
      rcases hp : p.step ch with ⟨f | _, q⟩ <;> rw [hp] at hs
      · have hr : reader.step p ch = (.error f, q) := by simp only [reader, hp, remember]
        rw [run, Reader.run_cons_error hr] at e
        cases e
      · have hr : reader.step p ch = (.ok (), { q with lastChr := ch }) := by
          simp only [reader, hp, remember]
        rw [run, Reader.run_cons_ok hr] at e
        have := ih e
        simp only [List.length_cons] at this hs ⊢
        omega

end Parser

/-! ### Chunks -/

/-- Feed the chunks one after the other, up to the first call that fails. -/
def feedChunks : Decoder → List (List UInt8) → Except Errno Unit × Decoder :=
  Reader.run ⟨feed⟩

theorem feedChunks_one (d : Decoder) (buf : List UInt8) : feedChunks d [buf] = feed d buf := by
  rcases hf : feed d buf with ⟨_ | _, d'⟩
  · rw [feedChunks, Reader.run_cons_error hf]
  · rw [feedChunks, Reader.run_cons_ok hf, Reader.run_nil]

/-- **Feeding chunks is parsing their concatenation**, from any decoder whose ring has the room. -/
theorem feedChunks_eq_run {d d' : Decoder} {chunks : List (List UInt8)} {r : Except Errno Unit}
    (w : d.ring.WF) (hh : d.heap = [])
    (fits : d.ring.contents.length + chunks.flatten.length ≤ ptrdiffMax)
    (e : feedChunks d chunks = (r, d')) :
    d'.ring.WF ∧ d.parser.feed chunks.flatten = (r, d'.parser) := by
  induction chunks generalizing d with
  | nil => cases e; exact ⟨w, rfl⟩
  | cons buf chunks ih =>
      rw [List.flatten_cons, List.length_append] at fits
      rcases hf : feed d buf with ⟨r₁, d₁⟩
      obtain ⟨w₁, h, hnil, hcase⟩ := feed_eq_run w (by omega) hf
      obtain rfl := hnil hh
      have hp : { d.parser with heap := [] } = d.parser := by
        rw [← hh]; rfl
      rw [hp] at hcase
      rcases hcase with ⟨-, -, hbig⟩ | ⟨-, hfeed⟩
      · have := hbig hh
        simp only [ptrdiffMax] at fits
        omega
      have hheap : (d.parser.run buf).2.heap = [] := Parser.run_heap hh buf
      unfold Parser.feed at hfeed ⊢
      rw [List.flatten_cons]
      unfold Parser.run at hheap ⊢
      rcases hrun : Parser.reader.run d.parser buf with ⟨e₁ | _, p₁⟩
      · -- the call fails: no further call is made, and the parser stops
        rw [Parser.run, hrun] at hfeed
        obtain ⟨rfl, hp₁⟩ := Prod.mk.inj hfeed
        rw [feedChunks, Reader.run_cons_error hf] at e
        obtain ⟨rfl, rfl⟩ := Prod.mk.inj e
        rw [Reader.run_append_error hrun]
        exact ⟨w₁, Prod.ext rfl hp₁⟩
      · rw [Parser.run, hrun] at hfeed
        rw [hrun] at hheap
        have hpend := Parser.pending_run (p := d.parser) hrun
        obtain ⟨rfl, rfl⟩ := Prod.mk.inj hfeed
        rw [feedChunks, Reader.run_cons_ok hf] at e
        rw [Reader.run_append_ok hrun]
        refine ih w₁ hheap ?_ e
        have hlen : d.parser.pending.length = d.ring.contents.length := rfl
        have hlen₁ : d₁.parser.pending.length = d₁.ring.contents.length := rfl
        omega

/-- **Independence of chunking.**  Cut `s` into chunks in any way and feed them, up to the first
call that fails, to a fresh decoder.  The outcome is that of feeding `s` in one call: success of
every call, or the same error; and so is the decoder left, with the messages it delivered in its
log. -/
theorem feed_chunks (cb : Bool) (s : Buffer) (chunks : List (List UInt8))
    (hs : chunks.flatten = s) :
    (feedChunks (Decoder.fresh cb) chunks).1 = (feed (Decoder.fresh cb) s).1 ∧
      (feedChunks (Decoder.fresh cb) chunks).2.toCore = (feed (Decoder.fresh cb) s).2.toCore ∧
      (feedChunks (Decoder.fresh cb) chunks).2.ring.contents =
        (feed (Decoder.fresh cb) s).2.ring.contents := by
  have h₀ : (Decoder.fresh cb).ring.contents.length = 0 := by
    simp [Decoder.fresh]
  rcases hone : feed (Decoder.fresh cb) s with ⟨r₁, d₁⟩
  rcases hmany : feedChunks (Decoder.fresh cb) chunks with ⟨r₂, d₂⟩
  rw [← feedChunks_one] at hone
  obtain ⟨-, h₁⟩ := feedChunks_eq_run ShlRing.wf_zeroed rfl (by simp [h₀, s.2]) hone
  obtain ⟨-, h₂⟩ :=
    feedChunks_eq_run ShlRing.wf_zeroed rfl (by rw [h₀, hs, Nat.zero_add]; exact s.2) hmany
  rw [List.flatten_singleton] at h₁
  rw [hs, h₁] at h₂
  obtain ⟨hr, hp⟩ := Prod.mk.inj h₂
  exact ⟨hr.symm, congrArg Parser.toCore hp.symm, congrArg Parser.pending hp.symm⟩

/-- A cut inside a CRLF, and an empty chunk. -/
theorem feed_chunks_crlf :
    (feedChunks (Decoder.fresh true) [[97, 13], [], [10, 13, 10]]).2.toCore =
      (feed (Decoder.fresh true) [97, 13, 10, 13, 10]).2.toCore :=
  (feed_chunks true ⟨[97, 13, 10, 13, 10], by decide⟩ [[97, 13], [], [10, 13, 10]] rfl).2.1

end OpenWfd.Rtsp
