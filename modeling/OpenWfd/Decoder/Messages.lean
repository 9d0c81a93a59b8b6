import OpenWfd.Decoder.Shape

/-!
# Decoder — Messages

What the callback can rely on when it is given a message (`Msg.WellFormed`): at least one header
line, both arrays ended by an entry that lies inside them, each line a string of the length given
beside it, and a body that is missing exactly when its length is 0.

The arrays are kept from message to message and never cleared above `header_num`; `Core.Kept` is
what holds of them at every moment, also after a `realloc` of only one of them.  That there is a
line at all is known from the state (`Sends`).
-/

namespace OpenWfd.Rtsp

/-! ### What is delivered -/

/-- An entry of the two arrays: a string and its length. -/
def Terminated (l : HeaderPtr × Option Nat) : Prop :=
  ∃ block len, l = (.line block, some len) ∧ NUL ∉ block.take len ∧ block[len]? = some NUL

/-- A message as the callback is given it. -/
structure Msg.WellFormed (m : Msg) : Prop where
  nonempty : 1 ≤ m.headerNum
  room : m.headerNum + 2 ≤ m.header.length ∧ m.headerNum + 2 ≤ m.headerLen.length
  null : m.header[m.headerNum]? = some .null ∧ m.headerLen[m.headerNum]? = some (some 0)
  line : ∀ i < m.headerNum, ∃ block len, m.header[i]? = some (.line block) ∧
    m.headerLen[i]? = some (some len) ∧ NUL ∉ block.take len ∧ block[len]? = some NUL
  body : m.body = none ↔ m.bodyLen = 0
  bodyBytes : ∀ block, m.body = some block →
    ∃ bytes, block = bytes ++ [NUL] ∧ bytes.length = m.bodyLen

/-- What holds of the arrays at every moment. -/
structure Core.Kept (c : Core) : Prop where
  fine : c.Fine
  null : c.msg.header[c.msg.headerNum]? = some .null
  zero : c.msg.headerLen[c.msg.headerNum]? = some (some 0)
  lines : ∀ l ∈ c.msg.lines, Terminated l

theorem kept_fresh (cb : Bool) : (Decoder.fresh cb).toCore.Kept where
  fine := fine_fresh cb
  null := rfl
  zero := rfl
  lines := fun _ hl => absurd hl List.not_mem_nil

/-- `Kept` is about the message and `header_size` only. -/
theorem Core.Kept.congr {c c' : Core} (k : c.Kept) (hm : c'.msg = c.msg)
    (hs : c'.headerSize = c.headerSize) : c'.Kept := by
  refine ⟨k.fine.congr hm hs, ?_, ?_, ?_⟩
  · rw [hm]
    exact k.null
  · rw [hm]
    exact k.zero
  · rw [hm]
    exact k.lines

/-- A message with a line, and a body set for it, is well-formed. -/
theorem Core.Kept.wellFormed {c : Core} (k : c.Kept) (hnum : 1 ≤ c.msg.headerNum)
    {body : Option (List UInt8)} {len : Nat} (hb : body = none ↔ len = 0)
    (hbytes : ∀ block, body = some block → ∃ bytes, block = bytes ++ [NUL] ∧ bytes.length = len) :
    Msg.WellFormed { c.msg with body := body, bodyLen := len } where
  nonempty := hnum
  room := ⟨k.fine.room.trans k.fine.header, k.fine.room.trans k.fine.headerLen⟩
  null := ⟨k.null, k.zero⟩
  line := by
    intro i hi
    have hi : i < c.msg.headerNum := hi
    have hlen : i < c.msg.lines.length := by
      rw [k.fine.length_lines]
      exact hi
    obtain ⟨block, len, hl, hnul, hend⟩ := k.lines _ (List.getElem_mem hlen)
    have hl := (List.getElem?_eq_some_iff.mpr ⟨hlen, hl⟩)
    simp only [Msg.lines, List.getElem?_zip_eq_some] at hl
    rw [List.getElem?_take_of_lt hi, List.getElem?_take_of_lt hi] at hl
    exact ⟨block, len, hl.1, hl.2, hnul, hend⟩
  body := hb
  bodyBytes := hbytes

/-! ### The lines are strings -/

theorem San.step_out {s : San} (h : NUL ∉ s.out) (c : UInt8) : NUL ∉ (s.step c).out := by
  rcases s.step_grows c with hs | ⟨d, hd, hs⟩ <;> rw [hs]
  · exact h
  · rw [List.mem_append, List.mem_singleton, not_or]
    exact ⟨h, Ne.symm hd⟩

/-- The loop of `sanitize_header_line` writes no NUL. -/
theorem San.run_out {s : San} (h : NUL ∉ s.out) (line : List UInt8) : NUL ∉ (s.run line).out := by
  induction line generalizing s with
  | nil => exact h
  | cons c line ih => exact ih (San.step_out h c)

/-- **`sanitize_header_line` makes a string** of the length it returns. -/
theorem sanitize_terminated (line : List UInt8) (len : Nat) :
    Terminated (.line (sanitizeHeaderLine line len).1, some (sanitizeHeaderLine line len).2) := by
  have hout : NUL ∉ (San.init.run (line.take len)).out := San.run_out List.not_mem_nil _
  unfold sanitizeHeaderLine
  generalize (San.init.run (line.take len)).out = out at hout ⊢
  dsimp only
  have hpre : trimEnd out <+: out := List.rdropWhile_prefix _ _
  refine ⟨_, _, rfl, ?_, ?_⟩
  · rw [List.append_assoc, List.take_left]
    exact fun hm => hout (hpre.subset hm)
  · have hpos : 0 < out.length + 1 - (trimEnd out).length := by
      have := hpre.length_le
      omega
    rw [List.append_assoc, List.getElem?_append_right le_rfl, Nat.sub_self,
      List.getElem?_append_left (by rw [List.length_replicate]; exact hpos),
      List.getElem?_replicate_of_lt hpos]

/-! ### The arrays -/

/-- Growing keeps the terminating entry, also where only one array grew. -/
theorem growHeader_null {c c' : Core} {r : Except Errno Unit} (k : c.Kept)
    (e : growHeader c = (r, c')) :
    c'.msg.header[c'.msg.headerNum]? = some .null ∧
      c'.msg.headerLen[c'.msg.headerNum]? = some (some 0) := by
  obtain ⟨hroom, hl₁, hl₂, -, -⟩ := k.fine
  unfold growHeader at e
  simp only [if_neg (show ¬ c.headerSize * 2 < c.headerSize by omega)] at e
  rcases h₁ : realloc c.msg.header (c.headerSize * 2) .garbage c.heap with ⟨_ | header, h⟩ <;>
    simp only [h₁] at e
  · cases e
    exact ⟨k.null, k.zero⟩
  have hheader := realloc_getElem? h₁ (i := c.msg.headerNum) (by omega) (by omega)
  rcases h₂ : realloc c.msg.headerLen (c.headerSize * 2) none h with ⟨_ | headerLen, h'⟩ <;>
    simp only [h₂] at e
  · cases e
    exact ⟨hheader.trans k.null, k.zero⟩
  have hlen := realloc_getElem? h₂ (i := c.msg.headerNum) (by omega) (by omega)
  cases e
  exact ⟨hheader.trans k.null, hlen.trans k.zero⟩

theorem growHeader_kept {c c' : Core} {r : Except Errno Unit} (k : c.Kept)
    (e : growHeader c = (r, c')) : c'.Kept := by
  obtain ⟨f, -, hlines, -⟩ := growHeader_spec k.fine e
  obtain ⟨hnull, hzero⟩ := growHeader_null k e
  refine ⟨f, hnull, hzero, ?_⟩
  rw [hlines]
  exact k.lines

theorem storeHeader_kept {c : Core} (k : c.Kept) (hroom : c.msg.headerNum + 3 ≤ c.headerSize)
    {line : List UInt8} {len : Nat} (ht : Terminated (.line line, some len)) :
    (storeHeader c line len).Kept := by
  obtain ⟨f, hlines⟩ := storeHeader_spec k.fine hroom line len
  have h₁ := k.fine.header
  have h₂ := k.fine.headerLen
  refine ⟨f, ?_, ?_, ?_⟩
  · exact List.getElem?_set_self (by rw [List.length_set]; omega)
  · exact List.getElem?_set_self (by rw [List.length_set]; omega)
  · rw [hlines]
    intro l hl
    rcases List.mem_append.mp hl with hl | hl
    · exact k.lines l hl
    · rw [List.mem_singleton.mp hl]
      exact ht

theorem pushHeaderLine_kept {c : Core} (k : c.Kept) {line : List UInt8} {len : Nat}
    (ht : Terminated (.line line, some len)) : (pushHeaderLine c line len).2.Kept := by
  have hroom := k.fine.room
  unfold pushHeaderLine
  by_cases hfull : c.headerSize = c.msg.headerNum + 2
  · rw [if_pos hfull]
    rcases hg : growHeader c with ⟨e | _, c'⟩
    · exact growHeader_kept k hg
    · obtain ⟨-, hnum, -, ⟨-, hsize⟩ | ⟨hbad, -⟩⟩ := growHeader_spec k.fine hg
      · exact storeHeader_kept (growHeader_kept k hg) (by omega) ht
      · cases hbad
  · rw [if_neg hfull]
    exact storeHeader_kept k (by omega) ht

theorem finishLine_kept {c : Core} (k : c.Kept) (line : List UInt8) (len : Nat) :
    (finishLine c line len).2.Kept := by
  have ht := sanitize_terminated line len
  rcases hs : sanitizeHeaderLine line len with ⟨block, l⟩
  rw [hs] at ht
  obtain ⟨e | _, n, hp⟩ := parseHeaderLine_uniform c.remainingBody (cstr block)
  · rw [finishLine_error hs hp rfl]
    exact k.congr rfl rfl
  · rw [finishLine_ok hs hp rfl]
    have kp : (c.parsed (line.take len) n).Kept := k.congr rfl rfl
    exact pushHeaderLine_kept kp ht

/-- The entries below `header_num` are cleared, the one there was clear. -/
theorem clearFirst_zero {α : Type*} {n : Nat} {zero : α} {xs : List α} (h : xs[n]? = some zero) :
    (clearFirst n zero xs)[0]? = some zero := by
  have hn : n < xs.length := (List.getElem?_eq_some_iff.mp h).1
  rw [clearFirst, Nat.min_eq_left hn.le]
  cases n with
  | zero => rw [List.replicate_zero, List.nil_append, List.drop_zero]; exact h
  | succ n => rfl

theorem msgDone_kept {c : Core} (k : c.Kept) (body : Option (List UInt8)) (len : Nat) :
    (msgDone { c with msg := { c.msg with body := body, bodyLen := len } }).Kept := by
  refine ⟨msgDone_fine k.fine body len, ?_, ?_, ?_⟩
  · exact clearFirst_zero k.null
  · exact clearFirst_zero k.zero
  · exact fun l hl => absurd hl List.not_mem_nil

theorem move_kept {c c' : Core} (k : c.Kept) (m : Parser.Move c c') : c'.Kept := by
  cases m with
  | control | begin | alloc => exact k.congr rfl rfl
  | line raw => exact finishLine_kept k _ _
  | done => exact msgDone_kept k c.msg.body c.msg.bodyLen
  | body raw => exact msgDone_kept k _ _

/-! ### One byte -/

section

variable {p p' : Parser} {ch : UInt8}

theorem step_kept (k : p.Kept) (ch : UInt8) : (p.step ch).2.Kept :=
  closure_invariant (I := Core.Kept) (Parser.moves_step p ch) k fun _ _ => move_kept

/-- A line that is cut out is there afterwards. -/
theorem cut_stored (k : p.Kept) {c : Core} (hcut : p.cut = (.ok (), ⟨c, []⟩)) :
    c.Kept ∧ 1 ≤ c.msg.headerNum := by
  have kc : c.Kept := by
    have hm := Parser.moves_cut p
    rw [hcut] at hm
    exact closure_invariant (I := Core.Kept) hm k fun _ _ => move_kept
  refine ⟨kc, ?_⟩
  obtain ⟨h, ⟨hbad, -⟩ | hfin⟩ := cut_cases p
  · rw [hcut] at hbad
    cases hbad
  rcases hs : sanitizeHeaderLine (p.pending ++ [NUL]) p.pending.length with ⟨block, l⟩
  obtain ⟨e | _, n, hp⟩ := parseHeaderLine_uniform p.remainingBody (cstr block)
  · rw [finishLine_error (c := { p.toCore with heap := h }) hs hp rfl, hcut] at hfin
    cases hfin
  · have f : (Core.parsed { p.toCore with heap := h } p.pending n).Fine := k.fine.congr rfl rfl
    rw [finishLine_ok (c := { p.toCore with heap := h }) hs hp rfl, List.take_left, hcut] at hfin
    rcases hpush : pushHeaderLine (Core.parsed { p.toCore with heap := h } p.pending n) block l with
      ⟨r, c'⟩
    rw [hpush] at hfin
    obtain ⟨rfl, hc⟩ := Prod.mk.inj hfin
    obtain rfl : c = c' := congrArg Parser.toCore hc
    obtain ⟨-, -, -, ⟨hbad, -⟩ | ⟨-, hlines⟩⟩ := pushHeaderLine_spec f hpush
    · cases hbad
    · rw [← kc.fine.length_lines, hlines]
      simp

/-- What was delivered is well-formed, and a message that waits for its body has a line. -/
structure Sends (c : Core) : Prop where
  kept : c.Kept
  sent : ∀ m, .msg m ∈ c.log → m.WellFormed
  held : c.state = .headerNl ∨ c.state = .body → c.remainingBody ≠ 0 → 1 ≤ c.msg.headerNum

/-- The log grew by something else than a message. -/
theorem sent_append {log : List Event} (h : ∀ m, .msg m ∈ log → m.WellFormed) {es : List Event}
    (hes : ∀ e ∈ es, ∀ m, e = .msg m → m.WellFormed) : ∀ m, .msg m ∈ log ++ es → m.WellFormed := by
  intro m hm
  rcases List.mem_append.mp hm with hm | hm
  · exact h m hm
  · exact hes _ hm m rfl

theorem cut_sent {r : Except Errno Unit} (h : ∀ m, .msg m ∈ p.log → m.WellFormed)
    (hcut : p.cut = (r, p')) : ∀ m, .msg m ∈ p'.log → m.WellFormed := by
  obtain ⟨-, -, hlog | ⟨hlog, -⟩⟩ := cut_control hcut <;> rw [hlog]
  · refine sent_append h ?_
    rintro e he m rfl
    cases List.mem_singleton.mp he
  · exact h

/-- `msg_done` on a message with a line. -/
theorem msgDone_sent {c : Core} (k : c.Kept) (hnum : 1 ≤ c.msg.headerNum)
    (h : ∀ m, .msg m ∈ c.log → m.WellFormed) {body : Option (List UInt8)} {len : Nat}
    (hb : body = none ↔ len = 0)
    (hbytes : ∀ block, body = some block → ∃ bytes, block = bytes ++ [NUL] ∧ bytes.length = len) :
    ∀ m, .msg m ∈ (msgDone { c with msg := { c.msg with body := body, bodyLen := len } }).log →
      m.WellFormed := by
  have hwf := k.wellFormed hnum hb hbytes
  unfold msgDone
  dsimp only
  split_ifs
  · refine sent_append h ?_
    rintro e he m rfl
    cases List.mem_singleton.mp he
    exact hwf
  · exact h

theorem doneIfNoBody_sent {c : Core} (k : c.Kept) (hnum : 1 ≤ c.msg.headerNum)
    (h : ∀ m, .msg m ∈ c.log → m.WellFormed) :
    ∀ m, .msg m ∈ (Parser.doneIfNoBody ⟨c, []⟩).log → m.WellFormed := by
  rcases doneIfNoBody_cases ⟨c, []⟩ with ⟨-, heq⟩ | ⟨-, heq⟩ <;> rw [heq]
  · have hb : c.msg.body = none ↔ c.msg.bodyLen = 0 := by simp [k.fine.body, k.fine.bodyLen]
    refine msgDone_sent k hnum h hb ?_
    intro block hblock
    rw [k.fine.body] at hblock
    cases hblock
  · exact h

/-- **One byte** sends well-formed messages only. -/
theorem sends_takes (h : Sends p.toCore) (t : Takes p ch p') :
    (∀ m, .msg m ∈ p'.log → m.WellFormed) ∧
      (p'.state = .headerNl ∨ p'.state = .body → p'.remainingBody ≠ 0 → 1 ≤ p'.msg.headerNum) := by
  have hnot : ∀ {st : State}, st.inLine = true → ¬ (st = .headerNl ∨ st = .body) := by
    rintro st hst (rfl | rfl) <;> cases hst
  induction t with
  | @blank p ch hs hw => exact ⟨h.sent, h.held⟩
  | @begin p ch hs hw =>
      refine ⟨sent_append h.sent ?_, fun hst => absurd hst (hnot rfl)⟩
      rintro e he m rfl
      cases List.mem_singleton.mp he
  | @keep p ch st b hs hst => exact ⟨h.sent, fun hbad => absurd hbad (hnot hst)⟩
  | @next p ch c st b hs hcut hst =>
      have hsent := cut_sent h.sent hcut
      exact ⟨hsent, fun hbad => absurd hbad (hnot hst)⟩
  | @endCr p c hs hcut =>
      have k : Core.Kept { p.toCore with state := .headerNl } := h.kept.congr rfl rfl
      obtain ⟨kc, hnum⟩ := cut_stored (p := { p with state := .headerNl }) k hcut
      have hsent := cut_sent (p := { p with state := .headerNl }) h.sent hcut
      refine ⟨doneIfNoBody_sent kc hnum hsent, fun _ hr => ?_⟩
      rcases doneIfNoBody_cases ⟨c, []⟩ with ⟨hz, heq⟩ | ⟨-, heq⟩ <;> rw [heq] at hr ⊢
      · exact absurd hz hr
      · exact hnum
  | @endLf p c hs hcut =>
      obtain ⟨kc, hnum⟩ := cut_stored h.kept hcut
      have k : Core.Kept { c with state := if c.remainingBody = 0 then .new else .body } :=
        kc.congr rfl rfl
      refine ⟨doneIfNoBody_sent k hnum (cut_sent h.sent hcut), fun _ hr => ?_⟩
      rcases doneIfNoBody_cases
        ⟨{ c with state := if c.remainingBody = 0 then .new else .body }, []⟩
        with ⟨hz, heq⟩ | ⟨-, heq⟩ <;> rw [heq] at hr ⊢
      · exact absurd hz hr
      · exact hnum
  | @lf p hs => exact ⟨h.sent, fun _ hr => h.held (Or.inl hs) hr⟩
  | @skipNl p p' ch hs hch t ih =>
      exact ih ⟨h.kept.congr rfl rfl, h.sent, fun _ hr => h.held (Or.inl hs) hr⟩
  | @skipBody p p' ch hs hr t ih =>
      refine ih ⟨h.kept.congr rfl rfl, h.sent, ?_⟩
      rintro (hst | hst) <;> cases hst
  | @body p ch hs hr => exact ⟨h.sent, fun _ _ => h.held (Or.inr hs) (by omega)⟩
  | @bodyLast p ch a hs hr =>
      have hnum := h.held (Or.inr hs) (by omega)
      have k : Core.Kept { p.toCore with heap := a, remainingBody := 0 } := h.kept.congr rfl rfl
      refine ⟨msgDone_sent k hnum h.sent ?_ ?_, ?_⟩
      · simp
      · rintro block hblock
        cases hblock
        exact ⟨p.pending ++ [ch], rfl, rfl⟩
      · rintro (hst | hst) <;> cases hst

/-- What a failing byte leaves. -/
theorem sends_gives (h : Sends p.toCore) (g : Gives p p') :
    ∀ m, .msg m ∈ p'.log → m.WellFormed := by
  obtain ⟨raws, hlog⟩ := g
  rw [hlog]
  refine sent_append h.sent ?_
  rintro e he m rfl
  obtain ⟨raw, -, hraw⟩ := List.mem_map.mp he
  cases hraw

/-- What holds of the core where a feed stops with an error. -/
def Sent (c : Core) : Prop := c.Kept ∧ ∀ m, .msg m ∈ c.log → m.WellFormed

theorem Sends.toSent {c : Core} (h : Sends c) : Sent c := ⟨h.kept, h.sent⟩

/-- **A run** sends well-formed messages only. -/
theorem sends_run (h : Sends p.toCore) (bs : List UInt8) :
    Reader.Ends (fun q => Sends q.toCore) (fun q => Sent q.toCore) (p.run bs) := by
  refine Reader.run_ends (I := fun q : Parser => Sends q.toCore)
    (E := fun q : Parser => Sent q.toCore) ?_ h bs
  intro p ch h
  have hs := step_takes p ch
  have hk := step_kept h.kept ch
  simp only [Parser.reader]
  rcases hr : p.step ch with ⟨e | _, p'⟩ <;> rw [hr] at hs hk
  · exact ⟨hk, sends_gives h hs⟩
  · obtain ⟨hsent, hheld⟩ := sends_takes h hs
    exact ⟨hk.congr rfl rfl, hsent, hheld⟩

end

/-! ### Every run of the decoder -/

/-- A flush keeps the message under way, but its body is no longer waited for. -/
theorem Sent.flush {d : Decoder} (h : Sent d.toCore) : Sends (flush d).toCore :=
  ⟨h.1.congr rfl rfl, h.2, by rintro (hst | hst) <;> cases hst⟩

/-- In the middle of the call: `d₁` has read a prefix of the chunk, or failed on it and is about to
be flushed. -/
inductive Within (d : Decoder) : Call → Decoder → Prop where
  | feed {buf : Buffer} {heap h : Allocs} {ring : ShlRing} {read : List UInt8}
      {r : Except Errno Unit} {d₁ : Decoder} {rlen : Nat}
      (hpush : d.ring.push buf heap = (.ok (), ring, h)) (hread : read <+: buf.1)
      (hrun : feedRound.run ({ d with ring := ring, heap := h }, d.ring.length) read =
        (r, (d₁, rlen))) :
      Within d (.feed buf heap) d₁

section

variable {d : Decoder}

/-- The loop of `owfd_rtsp_decoder_feed`, on a prefix of the chunk. -/
theorem round_sends (w : d.ring.WF) (h : Sends d.toCore) {buf : Buffer} {heap a : Allocs}
    {ring : ShlRing} (hpush : d.ring.push buf heap = (.ok (), ring, a)) {read : List UInt8}
    (hread : read <+: buf.1) :
    Reader.Ends (fun x : Decoder × Nat => x.1.ring.WF ∧ Sends x.1.toCore)
      (fun x => x.1.ring.WF ∧ Sent x.1.toCore)
      (feedRound.run ({ d with ring := ring, heap := a }, d.ring.length) read) := by
  obtain ⟨rest, hrest⟩ := hread
  rcases ShlRing.push_spec w buf.2 hpush with ⟨hbad, -⟩ | ⟨-, w', hc⟩
  · cases hbad
  have hholds : Holds (read ++ rest) ({ d with ring := ring, heap := a }, d.ring.length)
      { d.parser with heap := a } := by
    rw [hrest]
    exact ⟨rfl, w', hc, (ShlRing.length_contents w).symm⟩
  have hag := Reader.run_agree (R := fun as s p => Holds (as ++ rest) s p) (E := Fell)
    (fun s p ch as hR => feedRound_follows s p ch (as ++ rest) hR) hholds
  have h₀ : Sends ({ d.parser with heap := a } : Parser).toCore :=
    ⟨h.kept.congr rfl rfl, h.sent, h.held⟩
  have hends := sends_run h₀ read
  rw [Parser.run] at hends
  rcases hx : feedRound.run ({ d with ring := ring, heap := a }, d.ring.length) read with
    ⟨e | _, d', l⟩ <;>
    rcases hy : Parser.reader.run { d.parser with heap := a } read with ⟨f | _, p'⟩ <;>
    rw [hx, hy] at hag <;> rw [hy] at hends
  · obtain ⟨-, hcore, w₁⟩ := hag
    refine ⟨w₁, ?_⟩
    rw [hcore]
    exact hends
  · exact hag.elim
  · exact hag.elim
  · obtain ⟨hcore, w₁, -, -⟩ := hag
    refine ⟨w₁, ?_⟩
    rw [hcore]
    exact hends

/-- **A call** keeps what is sent well-formed. -/
theorem call_sends (w : d.ring.WF) (h : Sends d.toCore) (c : Call) :
    (d.call c).2.ring.WF ∧ Sends (d.call c).2.toCore := by
  cases c with
  | flush => exact ⟨ShlRing.wf_flush w, h.toSent.flush⟩
  | feed buf heap =>
      unfold Decoder.call feed
      rcases hp : d.ring.push buf heap with ⟨x | _, ring, a⟩
      · simp only [hp]
        rcases ShlRing.push_spec w buf.2 hp with ⟨-, rfl, -⟩ | ⟨hbad, -⟩
        · exact ⟨w, h.kept.congr rfl rfl, h.sent, h.held⟩
        · cases hbad
      have hends := round_sends w h hp List.prefix_rfl
      simp only [hp]
      rcases hx : feedRound.run ({ d with ring := ring, heap := a }, d.ring.length) buf.1 with
        ⟨e | _, d', l⟩ <;> rw [hx] at hends
      · exact ⟨ShlRing.wf_flush hends.1, hends.2.flush⟩
      · exact hends

theorem reachable_sends {cb : Bool} {ls : List (Call × Except Errno Unit)}
    (h : decoderLts.Run (Decoder.fresh cb) ls d) : d.ring.WF ∧ Sends d.toCore := by
  have h₀ : (Decoder.fresh cb).ring.WF ∧ Sends (Decoder.fresh cb).toCore := by
    refine ⟨ShlRing.wf_zeroed, kept_fresh cb, fun m hm => absurd hm List.not_mem_nil, ?_⟩
    rintro (hst | hst) <;> cases hst
  refine h.invariant (I := fun d => d.ring.WF ∧ Sends d.toCore) h₀ ?_
  rintro d ⟨c, r⟩ d' ⟨w, hd⟩ e
  obtain ⟨-, rfl⟩ := Prod.mk.inj e
  exact call_sends w hd c

/-- The entry that ends the arrays lies inside them. -/
def Core.Room (c : Core) : Prop :=
  c.msg.headerNum + 2 ≤ c.headerSize ∧ c.headerSize ≤ c.msg.header.length ∧
    c.headerSize ≤ c.msg.headerLen.length

theorem Core.Kept.hasRoom {c : Core} (k : c.Kept) : c.Room :=
  ⟨k.fine.room, k.fine.header, k.fine.headerLen⟩

/-- **Every message is well-formed**, in every run of feeds and flushes, whatever the chunks and the
allocator's answers; and there is room for the entry that ends the arrays after every call and after
every byte. -/
theorem delivered_wellFormed {cb : Bool} {ls : List (Call × Except Errno Unit)}
    (h : decoderLts.Run (Decoder.fresh cb) ls d) :
    (∀ m, .msg m ∈ d.log → m.WellFormed) ∧ d.Room ∧ ∀ c d₁, Within d c d₁ → d₁.Room := by
  obtain ⟨w, hd⟩ := reachable_sends h
  refine ⟨hd.sent, hd.kept.hasRoom, ?_⟩
  rintro c d₁ ⟨hpush, hread, hrun⟩
  have hends := round_sends w hd hpush hread
  rw [hrun] at hends
  rename_i r rlen
  cases r with
  | error e => exact hends.2.1.hasRoom
  | ok _ => exact hends.2.kept.hasRoom

end

/-- A line with a NUL in a quoted string, and a body. -/
theorem delivered_wellFormed_nul :
    (feed (Decoder.fresh true)
        (str "content-length: 1\na\"\x00\\\x00\"\n\nx")).2.messages.length = 1 ∧
      ∀ m, .msg m ∈ (feed (Decoder.fresh true)
        (str "content-length: 1\na\"\x00\\\x00\"\n\nx")).2.log → m.WellFormed := by
  refine ⟨?_, (delivered_wellFormed (run_feed (d := Decoder.fresh true) rfl
    ⟨str "content-length: 1\na\"\x00\\\x00\"\n\nx", by decide⟩)).1⟩
  have hp := (feed_empty (d := Decoder.fresh true) ShlRing.wf_zeroed rfl (by simp [Decoder.fresh])
    ⟨str "content-length: 1\na\"\x00\\\x00\"\n\nx", by decide⟩).2
  rw [Decoder.core_eq hp]
  decide

end OpenWfd.Rtsp
